/-
# Processes that exchange frames

A party of a protocol is a program: it sends a frame, waits for one, notes something it did on its
own, and in the end returns or throws.  `Run` records what a program has done as a trace.  A
party's `Turn` is one visible action with the local computation before it; nobody sees the local
computation, so turns are the steps that matter when parties interleave.

The rules of section 3 read a trace backwards: a party that has noted something, or has
returned, has passed everything that stands before it in its program.
-/
import Mathlib.Tactic.Common

/-- Programs over frames `F`, notes `E` and exceptions `X`. -/
inductive Proc (F E X α : Type)
  | ret (a : α)
  | throw (x : X)
  | send (f : F) (next : Proc F E X α)
  | recv (next : F → Proc F E X α)
  | note (e : E) (next : Proc F E X α)

/-- What a trace consists of. -/
inductive Act (F E : Type)
  | sent (f : F)
  | received (f : F)
  | noted (e : E)
  deriving DecidableEq, Repr

/-- What the network sees of a trace. -/
def Act.isFrame {F E : Type} : Act F E → Bool
  | .sent _ => true
  | .received _ => true
  | .noted _ => false

namespace Proc

variable {F E X α β : Type}

/-! ## 1. Programs -/

def bind : Proc F E X α → (α → Proc F E X β) → Proc F E X β
  | ret a, k => k a
  | throw x, _ => throw x
  | send f p, k => send f (bind p k)
  | recv next, k => recv fun f => bind (next f) k
  | note e p, k => note e (bind p k)

instance : Monad (Proc F E X) where
  pure := ret
  bind := bind

theorem bind_ret (p : Proc F E X α) : bind p ret = p := by
  induction p with
  | ret a => rfl
  | throw x => rfl
  | send f p ih => exact congrArg (send f) ih
  | recv next ih => exact congrArg recv (funext ih)
  | note e p ih => exact congrArg (note e) ih

theorem bind_bind {γ : Type} (p : Proc F E X α) (k : α → Proc F E X β) (l : β → Proc F E X γ) :
    bind (bind p k) l = bind p fun a => bind (k a) l := by
  induction p with
  | ret a => rfl
  | throw x => rfl
  | send f p ih => exact congrArg (send f) ih
  | recv next ih => exact congrArg recv (funext ih)
  | note e p ih => exact congrArg (note e) ih

instance : LawfulMonad (Proc F E X) :=
  LawfulMonad.mk' _ bind_ret (fun _ _ => rfl) bind_bind

def sendFrame (f : F) : Proc F E X Unit := send f (ret ())

def recvFrame : Proc F E X F := recv ret

def noteThat (e : E) : Proc F E X Unit := note e (ret ())

/-- A computation that may throw, inside a program. -/
def lift : Except X α → Proc F E X α
  | .ok a => ret a
  | .error x => throw x

/-- The program is over. -/
def Over : Proc F E X α → Prop
  | ret _ => True
  | throw _ => True
  | _ => False

/-! ## 2. Runs and turns -/

/-- Doing this, the first program becomes the second. -/
inductive Run : Proc F E X α → List (Act F E) → Proc F E X α → Prop
  | refl (p) : Run p [] p
  | send {f p t q} : Run p t q → Run (send f p) (.sent f :: t) q
  | recv {next f t q} : Run (next f) t q → Run (recv next) (.received f :: t) q
  | note {e p t q} : Run p t q → Run (note e p) (.noted e :: t) q

/-- Notes, and then one frame or the end. -/
inductive Turn : Proc F E X α → List (Act F E) → Proc F E X α → Prop
  | ret (a) : Turn (ret a) [] (ret a)
  | throw (x) : Turn (throw x) [] (throw x)
  | send (f p) : Turn (send f p) [.sent f] p
  | recv (next f) : Turn (recv next) [.received f] (next f)
  | note {e p t q} : Turn p t q → Turn (note e p) (.noted e :: t) q

theorem Run.append {p q r : Proc F E X α} {t u : List (Act F E)} (h : Run p t q)
    (h' : Run q u r) : Run p (t ++ u) r := by
  induction h with
  | refl => exact h'
  | send _ ih => exact .send (ih h')
  | recv _ ih => exact .recv (ih h')
  | note _ ih => exact .note (ih h')

theorem Turn.run {p q : Proc F E X α} {t : List (Act F E)} (h : Turn p t q) : Run p t q := by
  induction h with
  | ret => exact .refl _
  | throw => exact .refl _
  | send => exact .send (.refl _)
  | recv => exact .recv (.refl _)
  | note _ ih => exact .note ih

/-- Between turns, a program is over, or a frame was the last thing it did, or it did nothing. -/
def Settled (t : List (Act F E)) (p : Proc F E X α) : Prop :=
  p.Over ∨ t = [] ∨ ∃ a, t.getLast? = some a ∧ a.isFrame = true

theorem Turn.settled {p q : Proc F E X α} {t : List (Act F E)} (h : Turn p t q) :
    q.Over ∨ ∃ a, t.getLast? = some a ∧ a.isFrame = true := by
  induction h with
  | ret => exact Or.inl trivial
  | throw => exact Or.inl trivial
  | send f => exact Or.inr ⟨.sent f, rfl, rfl⟩
  | recv _ f => exact Or.inr ⟨.received f, rfl, rfl⟩
  | note _ ih =>
    rcases ih with hover | ⟨a, hlast, ha⟩
    · exact Or.inl hover
    · refine Or.inr ⟨a, ?_, ha⟩
      rw [List.getLast?_cons, hlast]
      rfl

theorem Settled.turn {p q : Proc F E X α} {t u : List (Act F E)} (h : Turn p u q) :
    Settled (t ++ u) q := by
  rcases h.settled with hover | ⟨a, hlast, ha⟩
  · exact Or.inl hover
  · refine Or.inr (Or.inr ⟨a, ?_, ha⟩)
    rw [List.getLast?_append, hlast]
    rfl

/-- The turn of a party, which is handed `f` if it waits for a frame. -/
def turn (f : F) : Proc F E X α → List (Act F E) × Proc F E X α
  | ret a => ([], ret a)
  | throw x => ([], throw x)
  | send g p => ([.sent g], p)
  | recv next => ([.received f], next f)
  | note e p => (.noted e :: (turn f p).1, (turn f p).2)

theorem turn_turn (f : F) (p : Proc F E X α) : Turn p (p.turn f).1 (p.turn f).2 := by
  induction p with
  | ret a => exact .ret a
  | throw x => exact .throw x
  | send g p => exact .send g p
  | recv next => exact .recv next f
  | note e p ih => exact .note ih

/-- What the program returned. -/
def result? : Proc F E X α → Option α
  | ret a => some a
  | _ => none

theorem eq_ret_of_result? {p : Proc F E X α} {a : α} (h : p.result? = some a) : p = ret a := by
  cases p with
  | ret b => rw [Option.some.inj h]
  | throw | send | recv | note => cases h

/-! ## 3. What a trace has passed -/

/-- The program noted something of kind `P`, or returned. -/
def Passed (P : E → Prop) (t : List (Act F E)) (q : Proc F E X α) : Prop :=
  (∃ e, P e ∧ .noted e ∈ t) ∨ ∃ a, q = ret a

/-- A run that has passed, and that started before. -/
structure Passing (P : E → Prop) (p : Proc F E X α) (t : List (Act F E)) (q : Proc F E X α) :
    Prop where
  run : Run p t q
  passed : Passed P t q

variable {P : E → Prop} {t : List (Act F E)} {q : Proc F E X β}

theorem Passed.of_cons {a : Act F E} (h : Passed P (a :: t) q)
    (ha : ∀ e, P e → a ≠ .noted e) : Passed P t q := by
  rcases h with ⟨e, he, hmem⟩ | hret
  · rcases List.mem_cons.mp hmem with heq | hmem
    · exact absurd heq.symm (ha e he)
    · exact Or.inl ⟨e, he, hmem⟩
  · exact Or.inr hret

theorem not_passed_nil (h : Passed P [] q) : ∃ a, q = ret a := by
  rcases h with ⟨e, -, hmem⟩ | hret
  · cases hmem
  · exact hret

theorem Passing.send {f : F} {k : Unit → Proc F E X β} (h : Passing P (sendFrame f >>= k) t q) :
    ∃ t', t = .sent f :: t' ∧ Passing P (k ()) t' q := by
  obtain ⟨hrun, hpassed⟩ := h
  cases hrun with
  | refl =>
    obtain ⟨a, ha⟩ := not_passed_nil hpassed
    cases ha
  | send hrun => exact ⟨_, rfl, hrun, hpassed.of_cons fun e _ h => by cases h⟩

theorem Passing.recv {k : F → Proc F E X β} (h : Passing P (recvFrame >>= k) t q) :
    ∃ f t', t = .received f :: t' ∧ Passing P (k f) t' q := by
  obtain ⟨hrun, hpassed⟩ := h
  cases hrun with
  | refl =>
    obtain ⟨a, ha⟩ := not_passed_nil hpassed
    cases ha
  | recv hrun => exact ⟨_, _, rfl, hrun, hpassed.of_cons fun e _ h => by cases h⟩

theorem Passing.lift {x : Except X α} {k : α → Proc F E X β}
    (h : Passing P (lift x >>= k) t q) : ∃ a, x = .ok a ∧ Passing P (k a) t q := by
  cases x with
  | ok a => exact ⟨a, rfl, h⟩
  | error e =>
    obtain ⟨hrun, hpassed⟩ := h
    cases hrun with
    | refl =>
      obtain ⟨a, ha⟩ := not_passed_nil hpassed
      cases ha

/-- A guard in front of a program. -/
theorem Passing.guard {b : Bool} {x : X} {p : Proc F E X β}
    (h : Passing P (if b then p else throw x) t q) : b = true ∧ Passing P p t q := by
  cases b with
  | true => exact ⟨rfl, h⟩
  | false =>
    obtain ⟨hrun, hpassed⟩ := h
    cases hrun with
    | refl =>
      obtain ⟨a, ha⟩ := not_passed_nil hpassed
      cases ha

/-- A note has been made; it may be the one that was looked for. -/
theorem Passing.note {e : E} {k : Unit → Proc F E X β} (h : Passing P (noteThat e >>= k) t q) :
    ∃ t', t = .noted e :: t' ∧ Run (k ()) t' q := by
  obtain ⟨hrun, hpassed⟩ := h
  cases hrun with
  | refl =>
    obtain ⟨a, ha⟩ := not_passed_nil hpassed
    cases ha
  | note hrun => exact ⟨_, rfl, hrun⟩

theorem Passing.note_of_not {e : E} {k : Unit → Proc F E X β} (he : ¬ P e)
    (h : Passing P (noteThat e >>= k) t q) :
    ∃ t', t = .noted e :: t' ∧ Passing P (k ()) t' q := by
  obtain ⟨t', rfl, hrun⟩ := h.note
  refine ⟨t', rfl, hrun, h.passed.of_cons ?_⟩
  intro e' he' heq
  cases heq
  exact he he'

theorem Run.of_ret {a : β} (h : Run (ret a) t q) : t = [] ∧ q = ret a := by
  cases h
  exact ⟨rfl, rfl⟩

/-- A program that has something to send sends it, or has not started. -/
theorem Run.send_cases {f : F} {k : Unit → Proc F E X β} (h : Run (sendFrame f >>= k) t q) :
    (t = [] ∧ q = (sendFrame f >>= k)) ∨ ∃ t', t = .sent f :: t' ∧ Run (k ()) t' q := by
  cases h with
  | refl => exact Or.inl ⟨rfl, rfl⟩
  | send hrun => exact Or.inr ⟨_, rfl, hrun⟩

end Proc

/-! ## 4. Sessions -/

/-- A party of kind `C`: what it drew at its start, its trace, and what it has left to do. -/
structure Session (C F E X α : Type) where
  coins : C
  trace : List (Act F E)
  proc : Proc F E X α

namespace Session

variable {C F E X α : Type}

/-- A party that has not moved. -/
def start (program : C → Proc F E X α) (coins : C) : Session C F E X α :=
  ⟨coins, [], program coins⟩

def advance (s : Session C F E X α) (t : List (Act F E)) (p : Proc F E X α) : Session C F E X α :=
  { s with trace := s.trace ++ t, proc := p }

/-- The party is a run of this program, between turns. -/
structure Follows (program : C → Proc F E X α) (s : Session C F E X α) : Prop where
  run : Proc.Run (program s.coins) s.trace s.proc
  settled : Proc.Settled s.trace s.proc

theorem follows_start (program : C → Proc F E X α) (coins : C) :
    (start program coins).Follows program :=
  ⟨.refl _, Or.inr (Or.inl rfl)⟩

theorem Follows.advance {program : C → Proc F E X α} {s : Session C F E X α} {t : List (Act F E)}
    {p : Proc F E X α} (h : s.Follows program) (hturn : Proc.Turn s.proc t p) :
    (s.advance t p).Follows program :=
  ⟨h.run.append hturn.run, .turn hturn⟩

/-! Many parties of one kind, each at its index. -/

/-- Some party noted this. -/
def Noted (sessions : List (Session C F E X α)) (e : E) : Prop :=
  ∃ s ∈ sessions, .noted e ∈ s.trace

theorem Noted.start {sessions : List (Session C F E X α)} {e : E} (h : Noted sessions e)
    (s : Session C F E X α) : Noted (sessions ++ [s]) e := by
  obtain ⟨s', hmem, hnoted⟩ := h
  exact ⟨s', List.mem_append_left _ hmem, hnoted⟩

/-- A note is never taken back. -/
theorem Noted.advance {sessions : List (Session C F E X α)} {e : E} (h : Noted sessions e)
    {i : ℕ} {s : Session C F E X α} (hi : sessions[i]? = some s) (t : List (Act F E))
    (p : Proc F E X α) : Noted (sessions.set i (s.advance t p)) e := by
  obtain ⟨s', hmem, hnoted⟩ := h
  obtain ⟨j, hj⟩ := List.mem_iff_getElem?.mp hmem
  obtain ⟨hlt, -⟩ := List.getElem?_eq_some_iff.mp hi
  by_cases hij : i = j
  · subst hij
    obtain rfl := Option.some.inj (hi.symm.trans hj)
    refine ⟨s.advance t p, List.mem_of_getElem? (List.getElem?_set_self hlt), ?_⟩
    exact List.mem_append_left _ hnoted
  · refine ⟨s', List.mem_of_getElem? (i := j) ?_, hnoted⟩
    rw [List.getElem?_set_ne hij, hj]

/-- What holds of every party survives a turn that keeps it for the party whose turn it is. -/
theorem forall_set {sessions : List (Session C F E X α)} {P : Session C F E X α → Prop}
    (h : ∀ s ∈ sessions, P s) {i : ℕ} {s' : Session C F E X α} (hs' : P s') :
    ∀ s ∈ sessions.set i s', P s := by
  intro s hs
  rcases List.mem_or_eq_of_mem_set hs with hmem | rfl
  · exact h s hmem
  · exact hs'

theorem forall_start {sessions : List (Session C F E X α)} {P : Session C F E X α → Prop}
    (h : ∀ s ∈ sessions, P s) {s' : Session C F E X α} (hs' : P s') :
    ∀ s ∈ sessions ++ [s'], P s := by
  intro s hs
  rcases List.mem_append.mp hs with hmem | hmem
  · exact h s hmem
  · rw [List.mem_singleton.mp hmem]
    exact hs'

end Session
