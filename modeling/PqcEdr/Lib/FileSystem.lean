/-
# Files behind calls that may fail

The files that one program sees, each with its mode; two names are two files.  The world answers
every system call: it is let through, or it fails, a write after some of its bytes.  The states
that the files pass through are kept, so that one can speak of every moment of a run and not only
of its end.

* `Confined`: a run that changes nothing but some paths, at no moment.
-/
import Mathlib.Logic.Function.Basic
import PqcEdr.Lib.Method

namespace FileSystem

structure File where
  data : List UInt8
  mode : UInt32
  deriving DecidableEq

abbrev Files := String → Option File

/-- What becomes of a call. -/
inductive Answer where
  | done
  /-- A write has put down this many bytes. -/
  | fails (written : ℕ)

structure World where
  files : Files
  umask : UInt32
  /-- The answers to the next calls; with none left they are done. -/
  answers : List Answer := []
  /-- The files behind each call that changed them. -/
  past : List Files := []

namespace World

/-! ## 1. The calls -/

/-- One answer is used up. -/
def answered (w : World) : World := { w with answers := w.answers.tail }

def put (w : World) (path : String) (file : File) : World :=
  { w with
    files := Function.update w.files path (some file)
    past := w.past ++ [Function.update w.files path (some file)] }

/-- The mode of a file that is opened for writing: its own, or that of a new file. -/
def openMode (w : World) (path : String) : UInt32 :=
  match w.files path with
  | some file => file.mode
  | none => 0o666 &&& ~~~w.umask

/-- Open for writing, and empty the file. -/
def openTrunc (path : String) (w : World) : Bool × World :=
  match w.answers.head? with
  | some (.fails _) => (false, w.answered)
  | _ => (true, w.answered.put path ⟨[], w.openMode path⟩)

/-- Write to a file that was just opened. -/
def write (path : String) (data : List UInt8) (w : World) : Bool × World :=
  match w.answers.head? with
  | some (.fails written) =>
    (false, w.answered.put path ⟨data.take written, w.openMode path⟩)
  | _ => (true, w.answered.put path ⟨data, w.openMode path⟩)

def chmod (path : String) (mode : UInt32) (w : World) : Bool × World :=
  match w.answers.head?, w.files path with
  | some (.fails _), _ => (false, w.answered)
  | _, none => (false, w.answered)
  | _, some file => (true, w.answered.put path { file with mode := mode })

/-- Open for reading. -/
def openRead (path : String) (w : World) : Option (List UInt8) × World :=
  match w.answers.head? with
  | some (.fails _) => (none, w.answered)
  | _ => ((w.files path).map File.data, w.answered)

/-- A call that only reads what is open. -/
def access (w : World) : Bool × World :=
  match w.answers.head? with
  | some (.fails _) => (false, w.answered)
  | _ => (true, w.answered)

/-- What the files have passed through since `w`. -/
def since (w w' : World) : List Files := w'.past.drop w.past.length

end World

/-! ## 2. What a run leaves alone -/

/-- At no moment of the run from `w` to `w'` did a path out of `paths` change. -/
structure Confined (paths : List String) (w w' : World) : Prop where
  files : ∀ q ∉ paths, w'.files q = w.files q
  umask : w'.umask = w.umask
  past : ∃ passed, w'.past = w.past ++ passed ∧ ∀ fs ∈ passed, ∀ q ∉ paths, fs q = w.files q

namespace Confined

variable {paths paths' : List String} {w w' w'' : World}

theorem refl (paths : List String) (w : World) : Confined paths w w :=
  ⟨fun _ _ => rfl, rfl, [], (List.append_nil _).symm, by simp⟩

theorem trans (h : Confined paths w w') (h' : Confined paths w' w'') : Confined paths w w'' := by
  obtain ⟨passed, hpast, hpassed⟩ := h.past
  obtain ⟨more, hpast', hmore⟩ := h'.past
  refine ⟨fun q hq => (h'.files q hq).trans (h.files q hq), h'.umask.trans h.umask,
    passed ++ more, by rw [hpast', hpast, List.append_assoc], fun fs hfs q hq => ?_⟩
  rcases List.mem_append.mp hfs with hfs | hfs
  · exact hpassed fs hfs q hq
  · exact (hmore fs hfs q hq).trans (h.files q hq)

theorem mono (h : Confined paths w w') (hsub : paths ⊆ paths') : Confined paths' w w' := by
  obtain ⟨passed, hpast, hpassed⟩ := h.past
  exact ⟨fun q hq => h.files q fun hmem => hq (hsub hmem), h.umask, passed, hpast,
    fun fs hfs q hq => hpassed fs hfs q fun hmem => hq (hsub hmem)⟩

theorem answered (paths : List String) (w : World) : Confined paths w w.answered :=
  ⟨fun _ _ => rfl, rfl, [], (List.append_nil _).symm, by simp⟩

theorem put (w : World) (path : String) (file : File) :
    Confined [path] w (w.answered.put path file) := by
  have hother : ∀ q ∉ [path], Function.update w.files path (some file) q = w.files q :=
    fun q hq => Function.update_of_ne (fun h => hq (List.mem_singleton.mpr h)) _ _
  refine ⟨hother, rfl, [_], rfl, fun fs hfs => ?_⟩
  rw [List.mem_singleton.mp hfs]
  exact hother

theorem openTrunc (path : String) (w : World) : Confined [path] w (w.openTrunc path).2 := by
  unfold World.openTrunc
  split
  · exact answered _ w
  · exact put w path _

theorem write (path : String) (data : List UInt8) (w : World) :
    Confined [path] w (w.write path data).2 := by
  unfold World.write
  split
  · exact put w path _
  · exact put w path _

theorem chmod (path : String) (mode : UInt32) (w : World) :
    Confined [path] w (w.chmod path mode).2 := by
  unfold World.chmod
  split
  · exact answered _ w
  · exact answered _ w
  · exact put w path _

theorem openRead (path : String) (w : World) : Confined [] w (w.openRead path).2 := by
  unfold World.openRead
  split
  · exact answered _ w
  · exact answered _ w

theorem access (w : World) : Confined [] w w.access.2 := by
  unfold World.access
  split
  · exact answered _ w
  · exact answered _ w

end Confined

/-! ## 3. Calls that were done -/

section

variable {path : String} {w : World}

theorem openTrunc_done (h : (w.openTrunc path).1 = true) :
    (w.openTrunc path).2 = w.answered.put path ⟨[], w.openMode path⟩ := by
  unfold World.openTrunc at h ⊢
  split at h
  · cases h
  · rfl

theorem write_done {data : List UInt8} (h : (w.write path data).1 = true) :
    (w.write path data).2 = w.answered.put path ⟨data, w.openMode path⟩ := by
  unfold World.write at h ⊢
  split at h
  · cases h
  · rfl

theorem chmod_done {mode : UInt32} (h : (w.chmod path mode).1 = true) :
    ∃ file, w.files path = some file ∧
      (w.chmod path mode).2 = w.answered.put path { file with mode := mode } := by
  unfold World.chmod at h ⊢
  split at h
  · cases h
  · cases h
  · rename_i file hfile _
    exact ⟨file, hfile, rfl⟩

theorem openRead_done {data : List UInt8} (h : (w.openRead path).1 = some data) :
    ∃ file, w.files path = some file ∧ file.data = data := by
  unfold World.openRead at h
  split at h
  · cases h
  · exact Option.map_eq_some_iff.mp h

@[simp] theorem openMode_put (w : World) (path : String) (file : File) :
    (w.answered.put path file).openMode path = file.mode := by
  simp [World.openMode, World.put]

@[simp] theorem files_put (w : World) (path : String) (file : File) :
    (w.answered.put path file).files path = some file := Function.update_self path _ _

@[simp] theorem answers_put (w : World) (path : String) (file : File) :
    (w.answered.put path file).answers = w.answers.tail := rfl

/-! With no answers left every call is done. -/

theorem openTrunc_of_answers (h : w.answers = []) (path : String) :
    w.openTrunc path = (true, w.answered.put path ⟨[], w.openMode path⟩) := by
  simp [World.openTrunc, h]

theorem write_of_answers (h : w.answers = []) (path : String) (data : List UInt8) :
    w.write path data = (true, w.answered.put path ⟨data, w.openMode path⟩) := by
  simp [World.write, h]

theorem chmod_of_answers (h : w.answers = []) {file : File} (hfile : w.files path = some file)
    (mode : UInt32) :
    w.chmod path mode = (true, w.answered.put path { file with mode := mode }) := by
  simp [World.chmod, h, hfile]

theorem openRead_of_answers (h : w.answers = []) {file : File}
    (hfile : w.files path = some file) : w.openRead path = (some file.data, w.answered) := by
  simp [World.openRead, h, hfile]

theorem access_of_answers (h : w.answers = []) : w.access = (true, w.answered) := by
  simp [World.access, h]

theorem mem_since_put {w' : World} {fs : Files} (hfs : fs ∈ w.since w') (path : String)
    (file : File) : fs ∈ w.since (w'.answered.put path file) := by
  rw [World.since, World.put, World.answered, List.drop_append]
  exact List.mem_append_left _ hfs

/-- The second of two changes. -/
theorem mem_since_put_put (w : World) (path : String) (file file' : File) :
    ((w.answered.put path file).answered.put path file').files ∈
      w.since ((w.answered.put path file).answered.put path file') := by
  simp [World.since, World.put, World.answered]

theorem Confined.openMode {paths : List String} {w' : World} (h : Confined paths w w')
    (hpath : path ∉ paths) : w'.openMode path = w.openMode path := by
  rw [World.openMode, World.openMode, h.files path hpath, h.umask]

theorem Confined.past_eq {paths : List String} {w' : World} (h : Confined paths w w') :
    w'.past = w.past ++ w.since w' := by
  obtain ⟨passed, hpast, -⟩ := h.past
  rw [World.since, hpast, List.drop_left]

/-- A run in two parts passes through what its parts pass through. -/
theorem Confined.since_append {paths paths' : List String} {w' w'' : World}
    (h : Confined paths w w') (h' : Confined paths' w' w'') :
    w.since w'' = w.since w' ++ w'.since w'' := by
  rw [World.since, h'.past_eq, h.past_eq, List.append_assoc, List.drop_left]

end

/-! ## 4. Methods on files -/

section

variable {ε α β : Type}

/-- A system call in a method. -/
def syscall (f : World → α × World) : Method ε World α := fun w => (.ok (f w).1, (f w).2)

theorem call_syscall_bind (f : World → α × World) (m : α → Method ε World β) (w : World) :
    (syscall f >>= m).call w = (m (f w).1).call (f w).2 := rfl

/-- However it ends, it touches no other path at any moment. -/
def Keeps (paths : List String) (m : Method ε World α) : Prop :=
  ∀ w, Confined paths w (m.call w).2

namespace Keeps

variable {paths : List String}

theorem pure (a : α) : Keeps paths (Pure.pure a : Method ε World α) := fun w => .refl paths w

theorem throw (e : ε) : Keeps paths (MonadExcept.throw e : Method ε World α) :=
  fun w => .refl paths w

theorem lift (x : Except ε α) : Keeps paths (liftM x : Method ε World α) := fun w => by
  rw [Method.call_lift]
  exact .refl paths w

theorem syscall {f : World → α × World} (h : ∀ w, Confined paths w (f w).2) :
    Keeps paths (FileSystem.syscall f : Method ε World α) := h

theorem bind {m : Method ε World α} {k : α → Method ε World β} (hm : Keeps paths m)
    (hk : ∀ a, Keeps paths (k a)) : Keeps paths (m >>= k) := fun w => by
  have hw := hm w
  rw [Method.call_bind]
  rcases hcall : m.call w with ⟨e | a, w'⟩
  all_goals rw [hcall] at hw
  · exact hw
  · exact hw.trans (hk a w')

theorem ite {P : Prop} [Decidable P] {m n : Method ε World α} (hm : Keeps paths m)
    (hn : Keeps paths n) : Keeps paths (if P then m else n) := by
  split
  · exact hm
  · exact hn

theorem mono {paths' : List String} {m : Method ε World α} (h : Keeps paths m)
    (hsub : paths ⊆ paths') : Keeps paths' m := fun w => (h w).mono hsub

end Keeps

end

end FileSystem
