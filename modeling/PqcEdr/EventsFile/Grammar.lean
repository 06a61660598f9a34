/-
# The grammar of replay files

The format that the header comment of `events_file.h` documents, on the words of a line, and what the
parser accepts instead.  It lets more through: a number may carry a sign and may end before its word
does, a device is cut to 32 bits, unknown access letters are skipped, and so are tokens and items
that are not of the form `anc:PID:COMM`.

* `accepts_parseLine`: a line is accepted exactly when its words are loosely well formed.
* `production_iff`: the grammar is what is loosely well formed and exact.
-/
import PqcEdr.EventsFile.RoundTrip

namespace PqcEdr.EventsFile

open TextInput

/-! ## 1. The documented format -/

/-- `PID:COMM`. -/
def AncestorItem (one : Bytes) : Prop :=
  Number (2 ^ 32) (one.takeWhile (· ≠ 58)) ∧ (one.dropWhile (· ≠ 58)).drop 1 ≠ []

/-- `anc:PID:COMM|PID:COMM|..`. -/
def AncestryToken (tok : Bytes) : Prop :=
  lit "anc:" <+: tok ∧ ∀ one ∈ (tok.drop 4).splitOn 124, AncestorItem one

/-- What may stand behind the fields. -/
def OptionalAncestry (toks : List Bytes) : Prop :=
  toks.length ≤ 1 ∧ ∀ tok ∈ toks, AncestryToken tok

/-- A combination of the letters, or `-`. -/
def Access (acc : Bytes) : Prop := acc = lit "-" ∨ ∀ c ∈ acc, c ∈ lit "wcsx"

def Ipv4 (ip : Bytes) : Prop := 0 ∉ ip ∧ (inetPton ip).isSome = true

def ExecveArgs : List Bytes → Prop
  | pid :: ppid :: _comm :: _filename :: rest =>
    Number (2 ^ 32) pid ∧ Number (2 ^ 32) ppid ∧ OptionalAncestry rest
  | _ => False

def ConnectArgs : List Bytes → Prop
  | pid :: ppid :: _comm :: ip :: port :: rest =>
    Number (2 ^ 32) pid ∧ Number (2 ^ 32) ppid ∧ Ipv4 ip ∧ Number 65536 port ∧
      OptionalAncestry rest
  | _ => False

def FileopenArgs : List Bytes → Prop
  | pid :: ppid :: _comm :: access :: ino :: dev :: _path :: rest =>
    Number (2 ^ 32) pid ∧ Number (2 ^ 32) ppid ∧ Access access ∧ Number (2 ^ 64) ino ∧
      Number (2 ^ 32) dev ∧ OptionalAncestry rest
  | _ => False

/-- The milliseconds of a `long`. -/
def DelayArgs : List Bytes → Prop
  | [ms] => Number (2 ^ 63) ms
  | _ => False

section

variable {args : List Bytes}

theorem execveArgs_iff : ExecveArgs args ↔ ∃ pid ppid comm filename rest,
    args = pid :: ppid :: comm :: filename :: rest ∧ Number (2 ^ 32) pid ∧ Number (2 ^ 32) ppid ∧
      OptionalAncestry rest := by
  rcases args with _ | ⟨pid, _ | ⟨ppid, _ | ⟨comm, _ | ⟨filename, rest⟩⟩⟩⟩ <;> simp [ExecveArgs]

theorem connectArgs_iff : ConnectArgs args ↔ ∃ pid ppid comm ip port rest,
    args = pid :: ppid :: comm :: ip :: port :: rest ∧ Number (2 ^ 32) pid ∧
      Number (2 ^ 32) ppid ∧ Ipv4 ip ∧ Number 65536 port ∧ OptionalAncestry rest := by
  rcases args with _ | ⟨pid, _ | ⟨ppid, _ | ⟨comm, _ | ⟨ip, _ | ⟨port, rest⟩⟩⟩⟩⟩ <;>
    simp [ConnectArgs]

theorem fileopenArgs_iff : FileopenArgs args ↔ ∃ pid ppid comm access ino dev path rest,
    args = pid :: ppid :: comm :: access :: ino :: dev :: path :: rest ∧ Number (2 ^ 32) pid ∧
      Number (2 ^ 32) ppid ∧ Access access ∧ Number (2 ^ 64) ino ∧ Number (2 ^ 32) dev ∧
      OptionalAncestry rest := by
  rcases args with _ | ⟨pid, _ | ⟨ppid, _ | ⟨comm, _ | ⟨access, _ | ⟨ino, _ | ⟨dev, _ | ⟨path,
    rest⟩⟩⟩⟩⟩⟩⟩ <;> simp [FileopenArgs]

theorem delayArgs_iff : DelayArgs args ↔ ∃ ms, args = [ms] ∧ Number (2 ^ 63) ms := by
  rcases args with _ | ⟨ms, _ | ⟨arg, args⟩⟩ <;> simp [DelayArgs]

end

/-- A blank line, or one of the four productions. -/
def Production : List Bytes → Prop
  | [] => True
  | kind :: args => kind = lit "execve" ∧ ExecveArgs args ∨ kind = lit "connect" ∧ ConnectArgs args ∨
    kind = lit "fileopen" ∧ FileopenArgs args ∨ kind = lit "delay" ∧ DelayArgs args

/-- A line up to its first `#`. -/
def bodyOf (line : Bytes) : Bytes := line.takeWhile (· ≠ 35)

def Grammatical (line : Bytes) : Prop := Production (words (bodyOf line))

/-! ## 2. What the parser lets pass -/

/-- The first token begins with a number.  `p` says what its sign and magnitude are, and the tokens
behind it, the rest of its own token being the first of them. -/
def Begins (toks : List Bytes) (p : Bool → ℕ → List Bytes → Prop) : Prop :=
  ∃ x, readNumber toks = some x ∧ p x.1 x.2.1 x.2.2

/-- An address up to its first NUL, and a port, which may come out of a negative number. -/
def ConnectLoose : List Bytes → Prop
  | ip :: toks => (inetPton (cString ip)).isSome = true ∧ Begins toks fun negative n _ =>
    n < 2 ^ 32 ∧ (if negative then (2 ^ 32 - n) % 2 ^ 32 else n) ≤ 65535
  | [] => False

/-- Any token for the access, two numbers of 64 bits, and a token for the path. -/
def FileopenLoose : List Bytes → Prop
  | _access :: toks => Begins toks fun _ ino toks => ino < 2 ^ 64 ∧
    Begins toks fun _ dev toks => dev < 2 ^ 64 ∧ toks ≠ []
  | [] => False

/-- What stands behind the head of an event line, up to its last field. -/
def MemberLoose (kind : Bytes) (toks : List Bytes) : Prop :=
  kind = lit "execve" ∧ toks ≠ [] ∨ kind = lit "connect" ∧ ConnectLoose toks ∨
    kind = lit "fileopen" ∧ FileopenLoose toks

/-- Two numbers of 32 bits and a token for the name. -/
def HeadLoose (member : List Bytes → Prop) (toks : List Bytes) : Prop :=
  Begins toks fun _ pid toks => pid < 2 ^ 32 ∧
    Begins toks fun _ ppid toks => ppid < 2 ^ 32 ∧ ∃ comm rest, toks = comm :: rest ∧ member rest

/-- A number of a `long` that is not below zero. -/
def DelayLoose (toks : List Bytes) : Prop :=
  Begins toks fun negative ms _ => if negative then ms = 0 else ms < 2 ^ 63

/-- The token-level condition that `parse` enforces. -/
def Loose : List Bytes → Prop
  | [] => True
  | kind :: args =>
    if kind = lit "delay" then DelayLoose args else HeadLoose (MemberLoose kind) args

/-- The tokens that there are have the form of their fields, and no others follow: numbers are plain
digits, the device fits its field, the access letters are known, an address does not go on behind
a NUL, and what is left is an `anc:` token. -/
def Exact : List Bytes → Prop
  | [] => True
  | kind :: args =>
    if kind = lit "delay" then (∀ d ∈ args[0]?, Digits d) ∧ args.length ≤ 1
    else (∀ d ∈ args[0]?, Digits d) ∧ (∀ d ∈ args[1]?, Digits d) ∧
      (kind = lit "execve" → OptionalAncestry (args.drop 4)) ∧
      (kind = lit "connect" → (∀ ip ∈ args[3]?, 0 ∉ ip) ∧ (∀ d ∈ args[4]?, Digits d) ∧
        OptionalAncestry (args.drop 5)) ∧
      (kind = lit "fileopen" → (∀ acc ∈ args[3]?, Access acc) ∧ (∀ d ∈ args[4]?, Digits d) ∧
        (∀ d ∈ args[5]?, Number (2 ^ 32) d) ∧ OptionalAncestry (args.drop 7))

/-! ## 3. The parser accepts what is loosely well formed -/

/-- The computation returns. -/
def Accepts {ε α : Type} (x : Except ε α) : Prop := ∃ a, x = .ok a

section

variable {ε α β : Type}

@[simp] theorem accepts_pure (a : α) : Accepts (pure a : Except ε α) := ⟨a, rfl⟩

@[simp] theorem not_accepts_throw (e : ε) : ¬ Accepts (throw e : Except ε α) := by
  rintro ⟨a, h⟩
  cases h

theorem accepts_bind_pure {x : Except ε α} {f : α → β} :
    Accepts (x >>= fun a => pure (f a)) ↔ Accepts x := by
  cases x with
  | error e => exact iff_of_false (not_accepts_throw e) (not_accepts_throw e)
  | ok a => exact iff_of_true ⟨f a, rfl⟩ ⟨a, rfl⟩

end

/-! Extraction, on the words that are left. -/

theorem exists_bind {α β : Type} {o : Option α} {f : α → Option β} {p : β → Prop} :
    (∃ y, (o >>= f) = some y ∧ p y) ↔ ∃ x, o = some x ∧ ∃ y, f x = some y ∧ p y := by
  cases o <;> simp

theorem exists_getWord_iff {s : Bytes} {p : Bytes → List Bytes → Prop} :
    (∃ x, getWord s = some x ∧ p x.1 (words x.2)) ↔ ∃ w ws, words s = w :: ws ∧ p w ws := by
  constructor
  · rintro ⟨x, hget, hp⟩
    exact ⟨x.1, words x.2, words_of_getWord hget, hp⟩
  · rintro ⟨w, ws, hwords, hp⟩
    obtain ⟨rest, hget, hrest⟩ := exists_getWord hwords
    exact ⟨(w, rest), hget, by rwa [hrest]⟩

theorem exists_scanInt_iff {s : Bytes} {p : Bool → ℕ → List Bytes → Prop} :
    (∃ x, scanInt s = some x ∧ p x.1 x.2.1 (words x.2.2)) ↔ Begins (words s) p := by
  rw [Begins, readNumber_words]
  cases scanInt s <;> simp

theorem exists_getUnsigned_iff {size : ℕ} {s : Bytes} {p : ℕ → List Bytes → Prop} :
    (∃ x, getUnsigned size s = some x ∧ p x.1 (words x.2)) ↔ Begins (words s) fun negative n ws =>
      n < size ∧ p (if negative then (size - n) % size else n) ws := by
  rw [← exists_scanInt_iff, getUnsigned]
  rcases scanInt s with _ | ⟨negative, n, rest⟩
  · simp
  · by_cases hlt : n < size <;> simp [hlt]

theorem exists_getUInt32_iff {s : Bytes} {p : UInt32 → List Bytes → Prop} :
    (∃ x, getUInt32 s = some x ∧ p x.1 (words x.2)) ↔ Begins (words s) fun negative n ws =>
      n < 2 ^ 32 ∧ p (UInt32.ofNat (if negative then (2 ^ 32 - n) % 2 ^ 32 else n)) ws := by
  rw [← exists_getUnsigned_iff (p := fun n ws => p (UInt32.ofNat n) ws), getUInt32]
  cases getUnsigned (2 ^ 32) s <;> simp

theorem exists_getUInt64_iff {s : Bytes} {p : List Bytes → Prop} :
    (∃ x, getUInt64 s = some x ∧ p (words x.2)) ↔ Begins (words s) fun _ n ws =>
      n < 2 ^ 64 ∧ p ws := by
  rw [← exists_getUnsigned_iff (p := fun _ ws => p ws), getUInt64]
  cases getUnsigned (2 ^ 64) s <;> simp

theorem getHead_eq (s : Bytes) : getHead s = getUInt32 s >>= fun pid => getUInt32 pid.2 >>=
    fun ppid => getWord ppid.2 >>= fun comm => some (pid.1, ppid.1, comm.1, comm.2) := rfl

theorem exists_getHead_iff {s : Bytes} {p : List Bytes → Prop} :
    (∃ x, getHead s = some x ∧ p (words x.2.2.2)) ↔ HeadLoose p (words s) := by
  have hname : ∀ (pid ppid : UInt32) (s : Bytes), (∃ x, (getWord s >>= fun comm =>
      some (pid, ppid, comm.1, comm.2)) = some x ∧ p (words x.2.2.2)) ↔
        ∃ comm rest, words s = comm :: rest ∧ p rest := by
    intro pid ppid s
    rw [← exists_getWord_iff (p := fun _ ws => p ws), exists_bind]
    simp
  rw [getHead_eq, exists_bind, HeadLoose]
  simp only [exists_bind (o := getUInt32 _), hname]
  rw [← exists_getUInt32_iff (p := fun _ toks => Begins toks fun _ ppid toks => ppid < 2 ^ 32 ∧
    ∃ comm rest, toks = comm :: rest ∧ p rest)]
  simp only [exists_getUInt32_iff (p := fun _ toks => ∃ comm rest, toks = comm :: rest ∧ p rest)]

theorem begins_congr {toks : List Bytes} {p q : Bool → ℕ → List Bytes → Prop}
    (h : ∀ negative n rest, p negative n rest ↔ q negative n rest) :
    Begins toks p ↔ Begins toks q := by
  simp only [Begins, h]

/-- A port passes the check by its value. -/
theorem port_le_iff {n : ℕ} (h : n < 2 ^ 32) : ¬ UInt32.ofNat n > 65535 ↔ n ≤ 65535 := by
  rw [gt_iff_lt, UInt32.lt_iff_toNat_lt, UInt32.toNat_ofNat_of_lt' h]
  exact Nat.not_lt

theorem getAddress_eq (s : Bytes) : getAddress s = getWord s >>= fun ip => getUInt32 ip.2 >>=
    fun port => if port.1 > 65535 then none else some (ip.1, port.1, port.2) := rfl

theorem exists_getAddress_iff {s : Bytes} :
    (∃ x, getAddress s = some x ∧ (inetPton (cString x.1)).isSome = true) ↔
      ConnectLoose (words s) := by
  have hport : ∀ ip s, (∃ x, (getUInt32 s >>= fun port =>
        if port.1 > 65535 then none else some (ip, port.1, port.2)) = some x ∧
          (inetPton (cString x.1)).isSome = true) ↔
      (inetPton (cString ip)).isSome = true ∧ Begins (words s) fun negative n _ =>
        n < 2 ^ 32 ∧ (if negative then (2 ^ 32 - n) % 2 ^ 32 else n) ≤ 65535 := by
    intro ip s
    have hcheck : ∀ y : UInt32 × Bytes, (∃ x, (if y.1 > 65535 then none
          else some (ip, y.1, y.2)) = some x ∧ (inetPton (cString x.1)).isSome = true) ↔
        ¬ y.1 > 65535 ∧ (inetPton (cString ip)).isSome = true := by
      intro y
      by_cases hy : y.1 > 65535
      · simp [hy]
      · simp [hy]
    have hvalue : Begins (words s) (fun negative n _ => n < 2 ^ 32 ∧
          ¬ UInt32.ofNat (if negative then (2 ^ 32 - n) % 2 ^ 32 else n) > 65535) ↔
        Begins (words s) fun negative n _ =>
          n < 2 ^ 32 ∧ (if negative then (2 ^ 32 - n) % 2 ^ 32 else n) ≤ 65535 := by
      refine begins_congr fun negative n _ => and_congr_right fun hn => port_le_iff ?_
      split_ifs
      · exact Nat.mod_lt _ (by decide)
      · exact hn
    rw [exists_bind, and_comm, ← hvalue,
      ← exists_getUInt32_iff (p := fun port _ => ¬ port > 65535), ← exists_and_right]
    exact exists_congr fun y => by rw [and_assoc]; exact and_congr_right fun _ => hcheck y
  rw [getAddress_eq, exists_bind]
  simp only [hport]
  rw [exists_getWord_iff (p := fun ip toks => (inetPton (cString ip)).isSome = true ∧
    Begins toks fun negative n _ =>
      n < 2 ^ 32 ∧ (if negative then (2 ^ 32 - n) % 2 ^ 32 else n) ≤ 65535)]
  rcases words s with _ | ⟨ip, toks⟩ <;> simp [ConnectLoose]

theorem isSome_getWord {s : Bytes} : (getWord s).isSome = true ↔ words s ≠ [] := by
  rw [← Option.ne_none_iff_isSome, ne_eq, getWord_eq_none]

theorem getFile_eq (s : Bytes) : getFile s = getWord s >>= fun acc => getUInt64 acc.2 >>=
    fun ino => getUInt64 ino.2 >>= fun dev => getWord dev.2 >>=
      fun path => some (acc.1, ino.1, dev.1, path.1, path.2) := rfl

theorem isSome_getFile {s : Bytes} : (getFile s).isSome = true ↔ FileopenLoose (words s) := by
  have hpath : ∀ (acc : Bytes) (ino dev : UInt64) (s : Bytes), (∃ x, (getWord s >>= fun path =>
      some (acc, ino, dev, path.1, path.2)) = some x ∧ True) ↔ words s ≠ [] := by
    intro acc ino dev s
    rw [← isSome_getWord]
    cases getWord s <;> simp
  have hsome : (getFile s).isSome = true ↔ ∃ x, getFile s = some x ∧ True := by
    simp [Option.isSome_iff_exists]
  rw [hsome, getFile_eq, exists_bind]
  simp only [exists_bind (o := getUInt64 _), hpath, exists_getUInt64_iff (p := fun toks => toks ≠ [])]
  simp only [exists_getUInt64_iff (p := fun toks =>
    Begins toks fun _ dev toks => dev < 2 ^ 64 ∧ toks ≠ [])]
  rw [exists_getWord_iff (p := fun _ toks => Begins toks fun _ ino toks => ino < 2 ^ 64 ∧
    Begins toks fun _ dev toks => dev < 2 ^ 64 ∧ toks ≠ [])]
  rcases words s with _ | ⟨acc, toks⟩ <;> simp [FileopenLoose]

theorem exists_getLong_iff {s : Bytes} :
    (∃ x, getLong s = some x ∧ 0 ≤ x.1) ↔ DelayLoose (words s) := by
  rw [DelayLoose, ← exists_scanInt_iff (p := fun negative ms _ =>
    if negative then ms = 0 else ms < 2 ^ 63), getLong]
  rcases scanInt s with _ | ⟨_ | _, n, rest⟩
  · simp
  · simp
  · have hzero : n = 0 → n ≤ 2 ^ 63 := by omega
    simpa using hzero

/-! What is accepted. -/

theorem accepts_parseMember {kind s : Bytes} :
    Accepts (parseMember kind s) ↔ MemberLoose kind (words s) := by
  rw [parseMember, MemberLoose]
  by_cases hexec : kind = lit "execve"
  · have h₁ : kind ≠ lit "connect" := by rw [hexec]; decide
    have h₂ : kind ≠ lit "fileopen" := by rw [hexec]; decide
    rw [if_pos hexec, iff_false_intro h₁, iff_false_intro h₂, ← isSome_getWord]
    rcases getWord s with _ | ⟨file, rest⟩ <;> simp [hexec]
  · rw [if_neg hexec]
    by_cases hconnect : kind = lit "connect"
    · have h₂ : kind ≠ lit "fileopen" := by rw [hconnect]; decide
      rw [if_pos hconnect, iff_false_intro hexec, iff_false_intro h₂, ← exists_getAddress_iff]
      rcases getAddress s with _ | ⟨ip, port, rest⟩
      · simp
      · rcases hip : inetPton (cString ip) with _ | daddr <;> simp [hconnect, hip]
    · rw [if_neg hconnect]
      by_cases hfile : kind = lit "fileopen"
      · rw [if_pos hfile, iff_false_intro hexec, iff_false_intro hconnect, ← isSome_getFile]
        rcases getFile s with _ | ⟨acc, ino, dev, path, rest⟩ <;> simp [hfile]
      · rw [if_neg hfile]
        simp [hexec, hconnect, hfile]

theorem accepts_parseEvent {kind s : Bytes} :
    Accepts (parseEvent kind s) ↔ HeadLoose (MemberLoose kind) (words s) := by
  rw [parseEvent, ← exists_getHead_iff]
  rcases getHead s with _ | ⟨pid, ppid, comm, rest⟩
  · simp
  · simp only [Option.some.injEq, exists_eq_left', ← accepts_parseMember]
    exact accepts_bind_pure

theorem accepts_parseDelay {s : Bytes} :
    Accepts (parseDelay s) ↔ DelayLoose (words s) := by
  rw [parseDelay, ← exists_getLong_iff]
  rcases getLong s with _ | ⟨ms, rest⟩
  · simp
  · by_cases hneg : ms < 0
    · simp [hneg, Int.not_le.mpr hneg]
    · simp [hneg, Int.not_lt.mp hneg]

/-- A line is accepted exactly when its words are loosely well formed. -/
theorem accepts_parseLine (lineno : ℕ) (line : Bytes) :
    Accepts (parseLine lineno line) ↔ Loose (words (bodyOf line)) := by
  rw [parseLine]
  split
  · next h =>
    have hword : words (bodyOf line) = [] := getWord_eq_none.mp h
    rw [hword, Loose, iff_true]
    simp only
    split_ifs <;> simp
  · next kind s h =>
    have hword : words (bodyOf line) = kind :: words s := words_of_getWord h
    rw [hword, Loose]
    split_ifs
    · rw [accepts_bind_pure, accepts_parseDelay]
    · rw [accepts_bind_pure, accepts_parseEvent]

/-! ## 4. The grammar -/

theorem begins_of_digits {d : Bytes} (hd : Digits d) (toks : List Bytes)
    (p : Bool → ℕ → List Bytes → Prop) :
    Begins (d :: toks) p ↔ p false (ofDigits d) toks := by
  simp [Begins, readNumber_of_digits hd]

theorem begins_nil (p : Bool → ℕ → List Bytes → Prop) : ¬ Begins [] p := by
  rintro ⟨x, h, -⟩
  cases h

/-- Where the first token is plain digits if there is one, the number is that token. -/
theorem begins_exact {toks : List Bytes} {p : Bool → ℕ → List Bytes → Prop}
    (h : Begins toks p) (hd : ∀ d ∈ toks[0]?, Digits d) :
    ∃ d rest, toks = d :: rest ∧ Digits d ∧ p false (ofDigits d) rest := by
  rcases toks with _ | ⟨d, rest⟩
  · exact absurd h (begins_nil p)
  · have hdigits : Digits d := hd d rfl
    exact ⟨d, rest, rfl, hdigits, (begins_of_digits hdigits rest p).mp h⟩

theorem loose_of_production {toks : List Bytes} (h : Production toks) : Loose toks := by
  rcases toks with _ | ⟨kind, args⟩
  · trivial
  rw [Loose]
  rcases h with ⟨rfl, hargs⟩ | ⟨rfl, hargs⟩ | ⟨rfl, hargs⟩ | ⟨rfl, hargs⟩
  · obtain ⟨pid, ppid, comm, filename, rest, rfl, hpid, hppid, -⟩ := execveArgs_iff.mp hargs
    rw [if_neg (by decide), HeadLoose, begins_of_digits hpid.1, begins_of_digits hppid.1]
    exact ⟨hpid.2, hppid.2, comm, _, rfl, Or.inl ⟨rfl, List.cons_ne_nil _ _⟩⟩
  · obtain ⟨pid, ppid, comm, ip, port, rest, rfl,
      hpid, hppid, hip, hport, -⟩ := connectArgs_iff.mp hargs
    rw [if_neg (by decide), HeadLoose, begins_of_digits hpid.1, begins_of_digits hppid.1]
    refine ⟨hpid.2, hppid.2, comm, _, rfl, Or.inr (Or.inl ⟨rfl, ?_, ?_⟩)⟩
    · rw [cString_eq_self hip.1]
      exact hip.2
    · have hlt := hport.2
      rw [begins_of_digits hport.1]
      exact ⟨hlt.trans (by decide), Nat.le_of_lt_succ hlt⟩
  · obtain ⟨pid, ppid, comm, access, ino, dev, path, rest, rfl,
      hpid, hppid, -, hino, hdev, -⟩ := fileopenArgs_iff.mp hargs
    rw [if_neg (by decide), HeadLoose, begins_of_digits hpid.1, begins_of_digits hppid.1]
    refine ⟨hpid.2, hppid.2, comm, _, rfl, Or.inr (Or.inr ⟨rfl, ?_⟩)⟩
    rw [FileopenLoose, begins_of_digits hino.1, begins_of_digits hdev.1]
    exact ⟨hino.2, hdev.2.trans (by decide), List.cons_ne_nil _ _⟩
  · obtain ⟨ms, rfl, hms⟩ := delayArgs_iff.mp hargs
    rw [if_pos rfl, DelayLoose, begins_of_digits hms.1]
    simpa using hms.2

theorem exact_of_production {toks : List Bytes} (h : Production toks) : Exact toks := by
  rcases toks with _ | ⟨kind, args⟩
  · trivial
  rw [Exact]
  rcases h with ⟨rfl, hargs⟩ | ⟨rfl, hargs⟩ | ⟨rfl, hargs⟩ | ⟨rfl, hargs⟩
  · obtain ⟨pid, ppid, comm, filename, rest, rfl, hpid, hppid, hrest⟩ := execveArgs_iff.mp hargs
    rw [if_neg (by decide)]
    refine ⟨by simpa using hpid.1, by simpa using hppid.1, fun _ => hrest, ?_, ?_⟩
    · intro h
      exact absurd h (by decide)
    · intro h
      exact absurd h (by decide)
  · obtain ⟨pid, ppid, comm, ip, port, rest, rfl,
      hpid, hppid, hip, hport, hrest⟩ := connectArgs_iff.mp hargs
    rw [if_neg (by decide)]
    refine ⟨by simpa using hpid.1, by simpa using hppid.1, ?_, fun _ =>
      ⟨by simpa using hip.1, by simpa using hport.1, hrest⟩, ?_⟩
    · intro h
      exact absurd h (by decide)
    · intro h
      exact absurd h (by decide)
  · obtain ⟨pid, ppid, comm, access, ino, dev, path, rest, rfl,
      hpid, hppid, haccess, hino, hdev, hrest⟩ := fileopenArgs_iff.mp hargs
    rw [if_neg (by decide)]
    refine ⟨by simpa using hpid.1, by simpa using hppid.1, ?_, ?_, fun _ =>
      ⟨by simpa using haccess, by simpa using hino.1, by simpa using hdev, hrest⟩⟩
    · intro h
      exact absurd h (by decide)
    · intro h
      exact absurd h (by decide)
  · obtain ⟨ms, rfl, hms⟩ := delayArgs_iff.mp hargs
    rw [if_pos rfl]
    exact ⟨by simpa using hms.1, by simp⟩

theorem production_of_loose {toks : List Bytes} (h : Loose toks) (hexact : Exact toks) :
    Production toks := by
  rcases toks with _ | ⟨kind, args⟩
  · trivial
  rw [Loose] at h
  rw [Exact] at hexact
  by_cases hdelay : kind = lit "delay"
  · rw [if_pos hdelay] at h hexact
    obtain ⟨ms, rest, rfl, hdigits, hlt⟩ := begins_exact h hexact.1
    have hlen := hexact.2
    rw [List.length_cons] at hlen
    obtain rfl : rest = [] := List.eq_nil_of_length_eq_zero (by omega)
    exact Or.inr (Or.inr (Or.inr ⟨hdelay, hdigits, by simpa using hlt⟩))
  · rw [if_neg hdelay] at h hexact
    obtain ⟨hpid, hppid, hexec, hconnect, hfile⟩ := hexact
    obtain ⟨pid, toks, rfl, hpidDigits, hpidLt, hbehind⟩ := begins_exact h hpid
    obtain ⟨ppid, _, rfl, hppidDigits, hppidLt, comm, rest, rfl, hmember⟩ :=
      begins_exact hbehind (by simpa using hppid)
    rcases hmember with ⟨rfl, hne⟩ | ⟨rfl, haddress⟩ | ⟨rfl, hopen⟩
    · obtain ⟨file, rest, rfl⟩ := List.exists_cons_of_ne_nil hne
      exact Or.inl ⟨rfl, ⟨hpidDigits, hpidLt⟩, ⟨hppidDigits, hppidLt⟩, hexec rfl⟩
    · obtain ⟨hzero, hport, hrest⟩ := hconnect rfl
      rcases rest with _ | ⟨ip, toks⟩
      · exact absurd haddress id
      obtain ⟨hip, hnumber⟩ := haddress
      obtain ⟨port, rest, rfl, hdigits, -, hle⟩ := begins_exact hnumber (by simpa using hport)
      have hfree : 0 ∉ ip := hzero ip (by simp)
      rw [cString_eq_self hfree] at hip
      exact Or.inr (Or.inl ⟨rfl, ⟨hpidDigits, hpidLt⟩, ⟨hppidDigits, hppidLt⟩, ⟨hfree, hip⟩,
        ⟨hdigits, Nat.lt_succ_of_le hle⟩, hrest⟩)
    · obtain ⟨haccess, hino, hdev, hrest⟩ := hfile rfl
      rcases rest with _ | ⟨access, toks⟩
      · exact absurd hopen id
      rw [FileopenLoose] at hopen
      obtain ⟨ino, toks, rfl, hinoDigits, hinoLt, hnumber⟩ :=
        begins_exact hopen (by simpa using hino)
      obtain ⟨dev, toks, rfl, -, -, hne⟩ := begins_exact hnumber (by
        intro d hd
        exact (hdev d (by simpa using hd)).1)
      obtain ⟨path, rest, rfl⟩ := List.exists_cons_of_ne_nil hne
      exact Or.inr (Or.inr (Or.inl ⟨rfl, ⟨hpidDigits, hpidLt⟩, ⟨hppidDigits, hppidLt⟩,
        haccess access (by simp), ⟨hinoDigits, hinoLt⟩, hdev dev (by simp), hrest⟩))

/-- The grammar is what is loosely well formed and exact. -/
theorem production_iff {toks : List Bytes} : Production toks ↔ Loose toks ∧ Exact toks :=
  ⟨fun h => ⟨loose_of_production h, exact_of_production h⟩,
    fun h => production_of_loose h.1 h.2⟩

end PqcEdr.EventsFile
