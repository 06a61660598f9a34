/-
# What a fail-closed parser delivers

The documented format says what the tokens of a line stand for.  A parser that is fail-closed hands
over just that, line by line up to the first that is not grammatical, and throws there.

`parse` falls short of it in two ways.  It delivers lines that are loosely well formed and not
grammatical.  And of grammatical ones it may deliver something else: a name with a NUL or too long
for its field is cut, a fifth ancestor is dropped, and an escape such as `%-1` is taken for a byte.

* `lineShows_iff`: what is delivered for a grammatical line is what it says when its tokens fit.
* `events_grammar_fail_closed_iff`: when `parse` is fail-closed on a text.
-/
import PqcEdr.EventsFile.Grammar

namespace PqcEdr.EventsFile

open TextInput

/-! ## 1. The text of a field -/

/-- A field with its `%XX` replaced. -/
def fieldText : Bytes → Bytes
  | 37 :: a :: b :: s =>
    match hexDigit? a, hexDigit? b with
    | some x, some y => UInt8.ofNat (16 * x + y) :: fieldText s
    | _, _ => 37 :: fieldText (a :: b :: s)
  | c :: s => c :: fieldText s
  | [] => []

/-- What `strtol` lets stand in front of its digits. -/
def isLead (c : UInt8) : Bool := isSpace c || c == 43 || c == 45

/-- An escape with a sign for its first digit, such as `%-1`. -/
def looseEscape : Bytes → Bool
  | 37 :: a :: b :: s => isLead a && (hexDigit? b).isSome || looseEscape (a :: b :: s)
  | _ :: s => looseEscape s
  | [] => false

theorem hexDigit?_cases {c : UInt8} (h : (hexDigit? c).isSome = true) :
    isSpace c = false ∧ c ≠ 45 ∧ c ≠ 43 ∧ c ≠ 37 := by
  have hall : ∀ n < 256, (hexDigit? (UInt8.ofNat n)).isSome = true →
      isSpace (UInt8.ofNat n) = false ∧ UInt8.ofNat n ≠ 45 ∧ UInt8.ofNat n ≠ 43 ∧
        UInt8.ofNat n ≠ 37 := by decide +kernel
  have := hall c.toNat c.toNat_lt
  rw [UInt8.ofNat_toNat] at this
  exact this h

theorem sign_of_hexDigit {c : UInt8} (h : (hexDigit? c).isSome = true) (s : Bytes) :
    sign (c :: s) = (false, c :: s) := by
  obtain ⟨-, h45, h43, -⟩ := hexDigit?_cases h
  rw [sign, if_neg h45, if_neg h43]

theorem cString_pair {a b : UInt8} (ha : a ≠ 0) (hb : b ≠ 0) : cString [a, b] = [a, b] :=
  cString_eq_self (by simp [ha.symm, hb.symm])

theorem hexByte?_of_hex {a b : UInt8} {x y : ℕ} (ha : hexDigit? a = some x)
    (hb : hexDigit? b = some y) : hexByte? a b = some (UInt8.ofNat (16 * x + y)) := by
  have hA : (hexDigit? a).isSome = true := by rw [ha]; rfl
  have hzero : ∀ c : UInt8, (hexDigit? c).isSome = true → c ≠ 0 := by
    rintro c h rfl
    exact absurd h (by decide)
  have hskip : [a, b].dropWhile isSpace = [a, b] := by
    rw [List.dropWhile_cons_of_neg (by simp [(hexDigit?_cases hA).1])]
  rw [hexByte?, cString_pair (hzero a hA) (hzero b (by rw [hb]; rfl)), strtolHex, hskip,
    sign_of_hexDigit hA]
  have hvalue : ∀ n : ℕ, UInt8.ofInt n = UInt8.ofNat n := by
    intro n
    have hmod : ((n : ℤ) % 2 ^ 8).toNat = n % 2 ^ 8 := by omega
    rw [UInt8.ofInt, hmod]
    exact UInt8.ofNat_mod_size
  have htake : [a, b].takeWhile (fun c => (hexDigit? c).isSome) = [a, b] := by simp [ha, hb]
  have hdrop : [a, b].dropWhile (fun c => (hexDigit? c).isSome) = [] := by simp [ha, hb]
  have hdigits : [a, b].filterMap hexDigit? = [x, y] := by simp [ha, hb]
  simp only [htake, hdrop, hdigits, Bool.false_eq_true, if_false, List.foldl_cons, List.foldl_nil,
    List.cons_ne_nil, hvalue, if_true, Nat.mul_zero, Nat.zero_add]

theorem isSome_hexByte? {a b : UInt8} (ha : a ≠ 0) (hb : b ≠ 0) :
    (hexByte? a b).isSome = ((hexDigit? b).isSome && ((hexDigit? a).isSome || isLead a)) := by
  have hspaceHex : ∀ {c : UInt8}, isSpace c = true → hexDigit? c = none := by
    intro c hc
    rcases hx : hexDigit? c with _ | x
    · rfl
    · rw [(hexDigit?_cases (by rw [hx]; rfl)).1] at hc
      cases hc
  rw [hexByte?, cString_pair ha hb, strtolHex, isLead]
  by_cases hhex : (hexDigit? a).isSome = true
  · obtain ⟨x, hx⟩ := Option.isSome_iff_exists.mp hhex
    rw [List.dropWhile_cons_of_neg (by simp [(hexDigit?_cases hhex).1]), sign_of_hexDigit hhex]
    rcases hy : hexDigit? b with _ | y <;> simp [hx, hy]
  have hnone : hexDigit? a = none := by simpa using hhex
  by_cases hspace : isSpace a = true
  · rw [List.dropWhile_cons_of_pos hspace]
    by_cases hspace' : isSpace b = true
    · simp [hspace', hspaceHex hspace', sign]
    · rw [List.dropWhile_cons_of_neg hspace', sign]
      rcases hy : hexDigit? b with _ | y
      · split_ifs <;> simp [hy]
      · obtain ⟨-, h45, h43, -⟩ := hexDigit?_cases (c := b) (by rw [hy]; rfl)
        simp [h45, h43, hy, hspace]
  · rw [List.dropWhile_cons_of_neg hspace, sign]
    by_cases h45 : a = 45
    · rcases hy : hexDigit? b with _ | y <;> simp [h45, hy]
    · by_cases h43 : a = 43
      · rcases hy : hexDigit? b with _ | y <;> simp [h43, hy]
      · simp [h45, h43, hnone, hspace]

theorem looseEscape_cons {c : UInt8} (hc : c ≠ 37) (s : Bytes) :
    looseEscape (c :: s) = looseEscape s := by
  rw [looseEscape]
  rintro a b t h -
  exact hc h

theorem fieldText_cons {c : UInt8} (hc : c ≠ 37) (s : Bytes) :
    fieldText (c :: s) = c :: fieldText s := by
  rw [fieldText]
  rintro a b t h -
  exact hc h

/-- An escape that `strtol` reads: two hexadecimal digits, or a sign, where the text keeps all three
bytes. -/
theorem escape_of_some {a b v : UInt8} (ha : a ≠ 0) (hb : b ≠ 0) (hv : hexByte? a b = some v)
    (s : Bytes) :
    looseEscape (37 :: a :: b :: s) = looseEscape s ∧
        fieldText (37 :: a :: b :: s) = v :: fieldText s ∨
      looseEscape (37 :: a :: b :: s) = true ∧
        fieldText (37 :: a :: b :: s) = 37 :: a :: b :: fieldText s := by
  have hsome := isSome_hexByte? ha hb
  rw [hv, Option.isSome_some, eq_comm, Bool.and_eq_true] at hsome
  obtain ⟨hbHex, hlead⟩ := hsome
  have hb37 := (hexDigit?_cases hbHex).2.2.2
  obtain ⟨y, hy⟩ := Option.isSome_iff_exists.mp hbHex
  rcases hx : hexDigit? a with _ | x
  · rw [hx] at hlead
    have ha37 : a ≠ 37 := by
      rintro rfl
      exact absurd hlead (by decide)
    refine Or.inr ⟨?_, ?_⟩
    · rw [looseEscape, hbHex, (by simpa using hlead : isLead a = true)]
      rfl
    · rw [fieldText, hx]
      simp only
      rw [fieldText_cons ha37, fieldText_cons hb37]
  · obtain ⟨hspace, h45, h43, ha37⟩ := hexDigit?_cases (c := a) (by rw [hx]; rfl)
    obtain rfl : UInt8.ofNat (16 * x + y) = v :=
      Option.some.inj ((hexByte?_of_hex hx hy).symm.trans hv)
    refine Or.inl ⟨?_, ?_⟩
    · rw [looseEscape, looseEscape_cons ha37, looseEscape_cons hb37]
      simp [isLead, hspace, h45, h43]
    · rw [fieldText, hx, hy]

/-- A percent sign that `strtol` does not read on from stands for itself. -/
theorem escape_of_none {a b : UInt8} (ha : a ≠ 0) (hb : b ≠ 0) (hv : hexByte? a b = none)
    (s : Bytes) :
    looseEscape (37 :: a :: b :: s) = looseEscape (a :: b :: s) ∧
      fieldText (37 :: a :: b :: s) = 37 :: fieldText (a :: b :: s) := by
  have hsome := isSome_hexByte? ha hb
  rw [hv, Option.isSome_none, eq_comm, Bool.and_eq_false_iff, Bool.or_eq_false_iff] at hsome
  rw [looseEscape, fieldText]
  rcases hsome with hbHex | ⟨haHex, hlead⟩
  · rw [Option.isSome_eq_false_iff, Option.isNone_iff_eq_none] at hbHex
    rw [hbHex]
    simp
  · rw [Option.isSome_eq_false_iff, Option.isNone_iff_eq_none] at haHex
    rw [haHex, hlead]
    simp

/-- Without a NUL, a field is decoded as its text or comes out shorter. -/
theorem decodeField_cases {s : Bytes} (h : 0 ∉ s) :
    looseEscape s = false ∧ decodeField s = fieldText s ∨
      looseEscape s = true ∧ (decodeField s).length < (fieldText s).length := by
  -- one more byte in front of both
  have hcons : ∀ {loose : Bool} {d t : Bytes} (c : UInt8),
      (loose = false ∧ d = t ∨ loose = true ∧ d.length < t.length) →
        loose = false ∧ c :: d = c :: t ∨ loose = true ∧ (c :: d).length < (c :: t).length := by
    rintro loose d t c (⟨hfalse, heq⟩ | ⟨htrue, hlt⟩)
    · exact Or.inl ⟨hfalse, by rw [heq]⟩
    · exact Or.inr ⟨htrue, by simpa using hlt⟩
  fun_induction decodeField s with
  | case1 a b s v hv ih =>
    simp only [List.mem_cons, not_or] at h
    obtain ⟨-, ha, hb, hs⟩ := h
    rcases escape_of_some (Ne.symm ha) (Ne.symm hb) hv s with ⟨hloose, htext⟩ | ⟨hloose, htext⟩
    · rw [htext, hloose]
      exact hcons _ (ih hs)
    · have hle : (decodeField s).length ≤ (fieldText s).length := by
        rcases ih hs with ⟨-, heq⟩ | ⟨-, hlt⟩
        · rw [heq]
        · exact hlt.le
      refine Or.inr ⟨hloose, ?_⟩
      rw [htext]
      simp only [List.length_cons]
      omega
  | case2 a b s hv ih =>
    have htail : 0 ∉ a :: b :: s := fun hmem => h (List.mem_cons_of_mem _ hmem)
    simp only [List.mem_cons, not_or] at h
    obtain ⟨-, ha, hb, -⟩ := h
    obtain ⟨hloose, htext⟩ := escape_of_none (Ne.symm ha) (Ne.symm hb) hv s
    rw [htext, hloose]
    exact hcons _ (ih htail)
  | case3 c s hpat ih =>
    have hs : 0 ∉ s := fun hmem => h (List.mem_cons_of_mem _ hmem)
    have htext : fieldText (c :: s) = c :: fieldText s := by rw [fieldText]; exact hpat
    have hloose : looseEscape (c :: s) = looseEscape s := by rw [looseEscape]; exact hpat
    rw [htext, hloose]
    exact hcons _ (ih hs)
  | case4 => exact Or.inl ⟨rfl, rfl⟩

theorem zero_mem_fieldText {s : Bytes} (h : 0 ∈ s) : 0 ∈ fieldText s := by
  fun_induction fieldText s with
  | case1 a b s x y hx hy ih =>
    have hne : ∀ {c : UInt8} {n : ℕ}, hexDigit? c = some n → 0 ≠ c := by
      rintro c n hc rfl
      have hnone : hexDigit? 0 = none := by decide
      rw [hnone] at hc
      cases hc
    simp only [List.mem_cons, hne hx, hne hy, (by decide : (0 : UInt8) ≠ 37), false_or] at h
    exact List.mem_cons_of_mem _ (ih h)
  | case2 a b s hno ih =>
    rcases List.mem_cons.mp h with hcontra | h
    · exact absurd hcontra (by decide)
    · exact List.mem_cons_of_mem _ (ih h)
  | case3 c s hpat ih =>
    rcases List.mem_cons.mp h with rfl | h
    · exact List.mem_cons_self
    · exact List.mem_cons_of_mem _ (ih h)
  | case4 => exact h

/-! ## 2. Fields that fit -/

/-- A field whose text goes into `char[n]`: its escapes are plain, and the text holds no NUL and
leaves room for one. -/
def FieldFits (n : ℕ) (tok : Bytes) : Prop :=
  looseEscape tok = false ∧ 0 ∉ fieldText tok ∧ (fieldText tok).length < n

theorem decodeField_of_fits {n : ℕ} {tok : Bytes} (h : FieldFits n tok) :
    decodeField tok = fieldText tok := by
  rcases decodeField_cases (fun hmem => h.2.1 (zero_mem_fieldText hmem)) with ⟨-, heq⟩ | ⟨htrue, -⟩
  · exact heq
  · rw [h.1] at htrue
    cases htrue

/-- What is stored of a field is its text exactly when that fits. -/
theorem stored_iff {n : ℕ} (hn : 0 < n) (tok : Bytes) :
    (cString (decodeField tok)).take (n - 1) = fieldText tok ↔ FieldFits n tok := by
  constructor
  · intro h
    have hlen : (fieldText tok).length ≤ n - 1 := by
      rw [← h]
      exact List.length_take_le _ _
    have hzero : 0 ∉ fieldText tok := by
      rw [← h]
      exact fun hmem => not_mem_cString _ (List.mem_of_mem_take hmem)
    refine ⟨?_, hzero, by omega⟩
    rcases decodeField_cases (fun hmem => hzero (zero_mem_fieldText hmem)) with
      ⟨hfalse, -⟩ | ⟨-, hlt⟩
    · exact hfalse
    · have hcut : (fieldText tok).length ≤ (decodeField tok).length := by
        rw [← h]
        exact (List.length_take_le' _ _).trans (length_cString_le _)
      omega
  · intro h
    rw [decodeField_of_fits h, cString_eq_self h.2.1, List.take_of_length_le]
    have := h.2.2
    omega

/-- `-` stands for no path, as `format_line` writes it; a path `-` would have to be escaped. -/
def pathText (path : Bytes) : Bytes := if path = lit "-" then [] else fieldText path

def PathFits (path : Bytes) : Prop :=
  path = lit "-" ∨ fieldText path ≠ lit "-" ∧ FieldFits PQSEC_FILENAME_LEN path

theorem storedPath_iff (path : Bytes) :
    (cString (if decodeField path ≠ lit "-" then decodeField path else [])).take
        (PQSEC_FILENAME_LEN - 1) = pathText path ↔ PathFits path := by
  have hdash : decodeField (lit "-") = lit "-" := by decide
  rw [pathText, PathFits]
  by_cases hpath : path = lit "-"
  · rw [if_pos hpath, hpath, hdash, if_neg (not_not.mpr rfl)]
    exact iff_of_true rfl (Or.inl rfl)
  · rw [if_neg hpath, or_iff_right hpath]
    by_cases hdecode : decodeField path = lit "-"
    · rw [if_neg (not_not.mpr hdecode)]
      refine iff_of_false ?_ ?_
      · intro h
        have hnil : fieldText path = [] := h.symm
        have hzero : 0 ∉ path := by
          intro hmem
          have := zero_mem_fieldText hmem
          rw [hnil] at this
          cases this
        rcases decodeField_cases hzero with ⟨-, heq⟩ | ⟨-, hlt⟩
        · rw [hdecode, hnil] at heq
          exact absurd heq (by decide)
        · rw [hnil] at hlt
          exact absurd hlt (Nat.not_lt_zero _)
      · rintro ⟨hne, hfits⟩
        exact hne ((decodeField_of_fits hfits).symm.trans hdecode)
    · rw [if_pos hdecode, stored_iff (by decide)]
      refine ⟨fun h => ⟨?_, h⟩, fun h => h.2⟩
      rw [← decodeField_of_fits h]
      exact hdecode

/-! ## 3. What an entry says -/

/-- The bits of the letters. -/
def accessBits (access : Bytes) : UInt32 :=
  (if access.contains 119 then PQSEC_FA_WRITE else 0) |||
    (if access.contains 99 then PQSEC_FA_CREATE else 0) |||
    (if access.contains 115 then PQSEC_FA_SENSITIVE else 0) |||
    (if access.contains 120 then PQSEC_FA_EXEC else 0)

theorem accessFromStr_eq (access : Bytes) : accessFromStr access = accessBits access := by
  rw [accessFromStr]
  induction access using List.reverseRecOn with
  | nil => rfl
  | append_singleton l d ih =>
    rw [List.foldl_append, List.foldl_cons, List.foldl_nil, ih]
    simp only [accessBits, List.contains_append, List.contains_cons, List.contains_nil,
      Bool.or_false]
    generalize l.contains 119 = w, l.contains 99 = c, l.contains 115 = s, l.contains 120 = x
    by_cases hw : d = 119
    · subst hw
      revert w c s x
      decide
    by_cases hc : d = 99
    · subst hc
      revert w c s x
      decide
    by_cases hs : d = 115
    · subst hs
      revert w c s x
      decide
    by_cases hx : d = 120
    · subst hx
      revert w c s x
      decide
    · simp [hw, hc, hs, hx, Ne.symm hw, Ne.symm hc, Ne.symm hs, Ne.symm hx]

/-- The items of the `anc:` token, if there is one. -/
def ancestryItems : List Bytes → List Bytes
  | [] => []
  | tok :: _ => (tok.drop 4).splitOn 124

def itemPid (one : Bytes) : Bytes := one.takeWhile (· ≠ 58)

def itemComm (one : Bytes) : Bytes := (one.dropWhile (· ≠ 58)).drop 1

/-- The slots hold the items in their order, and the ones behind are empty. -/
def AncestryShows (rest : List Bytes) (anc : Vector Ancestor PQSEC_ANCESTORS) : Prop :=
  anc.toList.map nameOf = (ancestryItems rest).map (fun one =>
      (UInt32.ofNat (ofDigits (itemPid one)), fieldText (itemComm one))) ++
    List.replicate (PQSEC_ANCESTORS - (ancestryItems rest).length) (0, [])

/-- The numbers and the name in front, and the ancestors behind.  Nothing sets the clock. -/
structure HeadShows (pid ppid comm : Bytes) (rest : List Bytes) (ev : SecurityEvent) : Prop where
  pid : ev.pid.toNat = ofDigits pid
  ppid : ev.ppid.toNat = ofDigits ppid
  comm : ev.commStr = fieldText comm
  ancestors : AncestryShows rest ev.anc
  clock : ev.ts_ns = 0

def ExecveShows : List Bytes → SecurityEvent → Prop
  | pid :: ppid :: comm :: filename :: rest, ev =>
    ev.type = PQSEC_EVT_EXECVE ∧ HeadShows pid ppid comm rest ev ∧ pathStr ev = fieldText filename
  | _, _ => False

def ConnectShows : List Bytes → SecurityEvent → Prop
  | pid :: ppid :: comm :: ip :: port :: rest, ev =>
    ev.type = PQSEC_EVT_TCP_CONNECT ∧ HeadShows pid ppid comm rest ev ∧
      inetPton ip = some ev.tcpDaddr ∧ ev.tcpDport.toNat = ofDigits port ∧ ev.tcpFamily = 2
  | _, _ => False

def FileopenShows : List Bytes → SecurityEvent → Prop
  | pid :: ppid :: comm :: access :: ino :: dev :: path :: rest, ev =>
    ev.type = PQSEC_EVT_FILE_OPEN ∧ HeadShows pid ppid comm rest ev ∧
      ev.fileAccess = accessBits access ∧ ev.fileIno.toNat = ofDigits ino ∧
      ev.fileDev.toNat = ofDigits dev ∧ pathStr ev = pathText path
  | _, _ => False

def EventShows (kind : Bytes) (args : List Bytes) (ev : SecurityEvent) : Prop :=
  kind = lit "execve" ∧ ExecveShows args ev ∨ kind = lit "connect" ∧ ConnectShows args ev ∨
    kind = lit "fileopen" ∧ FileopenShows args ev

def commentOf (line : Bytes) : Bytes := (line.dropWhile (· ≠ 35)).drop 1

/-- A comment that begins with `!`. -/
def directiveOf (comment : Bytes) (lineno : ℕ) : Option Entry :=
  if (trim comment).head? = some 33 then some (.directive (trim ((trim comment).drop 1)) lineno)
  else none

/-- What a grammatical line says: the values of its tokens, the label of its comment, or the
directive that it is. -/
def LineShows (line : Bytes) (lineno : ℕ) (o : Option Entry) : Prop :=
  Grammatical line ∧
    match words (bodyOf line) with
    | [] => o = directiveOf (commentOf line) lineno
    | kind :: args =>
      if kind = lit "delay" then
        ∃ ms, args = [ms] ∧ o = some (.delay (ofDigits ms) (expectLabel (commentOf line)) lineno)
      else ∃ ev, o = some (.event ev (expectLabel (commentOf line)) lineno) ∧ EventShows kind args ev

/-! ## 4. Lines that fit -/

/-- No more ancestors than slots, and their names fit. -/
def AncestryFits (rest : List Bytes) : Prop :=
  (ancestryItems rest).length ≤ PQSEC_ANCESTORS ∧
    ∀ one ∈ ancestryItems rest, FieldFits PQSEC_COMM_LEN (itemComm one)

/-- The texts of the tokens fit the fields of the event. -/
def Fits : List Bytes → Prop
  | [] => True
  | kind :: args =>
    kind ≠ lit "delay" → (∀ comm ∈ args[2]?, FieldFits PQSEC_COMM_LEN comm) ∧
      (kind = lit "execve" → (∀ file ∈ args[3]?, FieldFits PQSEC_FILENAME_LEN file) ∧
        AncestryFits (args.drop 4)) ∧
      (kind = lit "connect" → AncestryFits (args.drop 5)) ∧
      (kind = lit "fileopen" → (∀ path ∈ args[6]?, PathFits path) ∧ AncestryFits (args.drop 7))

/-- The slot that an item fills. -/
def slotOf (one : Bytes) : Ancestor :=
  ⟨UInt32.ofNat (ofDigits (itemPid one)), field _ (decodeField (itemComm one))⟩

theorem parseAncestor_of_item {one : Bytes} (h : AncestorItem one) :
    parseAncestor one = some (slotOf one) := by
  obtain ⟨⟨hdigits, hlt⟩, hcomm⟩ := h
  have hcolon : 58 ∈ one := by
    rcases dropWhile_cases (· ≠ 58) one with hnil | ⟨c, t, hct, hc⟩
    · rw [hnil] at hcomm
      exact absurd rfl hcomm
    · have hmem : c ∈ one := (List.dropWhile_sublist _).subset (hct ▸ List.mem_cons_self)
      obtain rfl : c = 58 := by simpa using hc
      exact hmem
  have hpid : strtoul (cString (itemPid one)) = ofDigits (itemPid one) :=
    strtoul_of_digits hdigits (hlt.trans (by decide))
  rw [parseAncestor, if_pos hcolon, slotOf, ← hpid]
  rfl

/-- The token fills the slots with what it says exactly when that fits. -/
theorem ancestryShows_iff {rest : List Bytes} (h : OptionalAncestry rest) (ev : SecurityEvent)
    (hanc : ev.anc = SecurityEvent.zeroed.anc) :
    ∃ anc, parseTokens rest ev = { ev with anc := anc } ∧
      (AncestryShows rest anc ↔ AncestryFits rest) := by
  have hempty : ∀ k, (ev.anc.toList.drop k).map nameOf =
      List.replicate (PQSEC_ANCESTORS - k) (0, []) := by
    intro k
    have hall : SecurityEvent.zeroed.anc.toList.map nameOf =
        List.replicate PQSEC_ANCESTORS (0, []) := by decide
    rw [hanc, List.map_drop, hall, List.drop_replicate]
  rcases rest with _ | ⟨tok, toks⟩
  · refine ⟨ev.anc, rfl, iff_of_true (hempty 0) ⟨Nat.zero_le _, ?_⟩⟩
    intro one hone
    cases hone
  · obtain ⟨hlen, htoks⟩ := h
    obtain rfl : toks = [] := by
      rw [List.length_cons] at hlen
      exact List.eq_nil_of_length_eq_zero (by omega)
    obtain ⟨hlabel, hitems⟩ := htoks tok List.mem_cons_self
    have hread : parseTokens [tok] ev = parseAncestry tok ev := by
      rw [parseTokens, List.foldl_cons, if_pos (List.isPrefixOf_iff_prefix.mpr hlabel),
        List.foldl_nil]
    have hmap : ((tok.drop 4).splitOn 124).map parseAncestor =
        (((tok.drop 4).splitOn 124).map slotOf).map some := by
      rw [List.map_map]
      exact List.map_congr_left fun one hone => parseAncestor_of_item (hitems one hone)
    refine ⟨_, hread, ?_⟩
    rw [AncestryShows, AncestryFits, ancestryItems]
    by_cases hcount : ((tok.drop 4).splitOn 124).length ≤ PQSEC_ANCESTORS
    · have hslots := @ancestryLoop_of_map _ _ hmap 0 (by simpa using hcount) ev.anc
      rw [hslots, List.take_zero, List.nil_append, List.map_append, List.length_map, Nat.zero_add,
        hempty, List.append_left_inj, List.map_map, List.map_inj_left, and_iff_right hcount]
      refine forall₂_congr fun one _ => ?_
      have hstored := stored_iff (n := PQSEC_COMM_LEN) (by decide) (itemComm one)
      rw [Function.comp_apply, nameOf, slotOf, Prod.mk.injEq, cString_field (by decide), hstored]
      exact and_iff_right rfl
    · refine iff_of_false ?_ (fun h => hcount h.1)
      intro h
      have hlength := congrArg List.length h
      rw [List.length_map, List.length_append, List.length_map, Vector.length_toList] at hlength
      omega

/-! ## 5. One line -/

theorem toNat_ofDigits {d : Bytes} (h : Number (2 ^ 32) d) :
    (UInt32.ofNat (ofDigits d)).toNat = ofDigits d := UInt32.toNat_ofNat_of_lt' h.2

/-- An event line behind its kind, once its member is known. -/
theorem parseEvent_of_member {kind s pid ppid comm : Bytes} {ws rest : List Bytes} {type : UInt32}
    {u : CharArray unionLen} (h : words s = pid :: ppid :: comm :: ws) (hpid : Number (2 ^ 32) pid)
    (hppid : Number (2 ^ 32) ppid) (hmember : ∀ s, words s = ws → ∃ s',
      parseMember kind s = .ok (type, u, s') ∧ words s' = rest) (hrest : OptionalAncestry rest) :
    ∃ ev, parseEvent kind s = .ok ev ∧ ev.type = type ∧ ev.u = u ∧
      (HeadShows pid ppid comm rest ev ↔ FieldFits PQSEC_COMM_LEN comm ∧ AncestryFits rest) := by
  obtain ⟨s₁, hs₁, hhead⟩ := getHead_of_words h hpid hppid
  obtain ⟨s₂, hcomm, hs₂⟩ := exists_getWord hs₁
  obtain ⟨s₃, hok, hs₃⟩ := hmember s₂ hs₂
  rw [hcomm, Option.map_some] at hhead
  have hread := parseEvent_of_head kind hhead
  simp only [hok, Except.map, hs₃] at hread
  obtain ⟨anc, htokens, hanc⟩ := ancestryShows_iff hrest { SecurityEvent.zeroed with
    type := type, pid := UInt32.ofNat (ofDigits pid), ppid := UInt32.ofNat (ofDigits ppid)
    comm := field _ (decodeField comm), u := u } rfl
  rw [htokens] at hread
  refine ⟨_, hread, rfl, rfl, ?_⟩
  have hstored := stored_iff (n := PQSEC_COMM_LEN) (by decide) comm
  rw [← hanc, ← hstored]
  constructor
  · intro hshows
    exact ⟨(commStr_field rfl).symm.trans hshows.comm, hshows.ancestors⟩
  · rintro ⟨hname, hslots⟩
    exact ⟨toNat_ofDigits hpid, toNat_ofDigits hppid, (commStr_field rfl).trans hname, hslots, rfl⟩

/-- The address and the port that are stored. -/
theorem tcp_of_member {ev : SecurityEvent} {daddr : UInt32} {port : Bytes}
    (hu : ev.u = tcpMember daddr (UInt32.ofNat (ofDigits port))) (hport : Number 65536 port) :
    ev.tcpDaddr = daddr ∧ ev.tcpDport.toNat = ofDigits port ∧ ev.tcpFamily = 2 := by
  obtain ⟨haddr, hdport, hfamily⟩ := tcpMember_fields daddr (UInt32.ofNat (ofDigits port))
  have hlt : ofDigits port < 65536 := hport.2
  have hvalue : (UInt32.ofNat (ofDigits port)).toUInt16.toNat = ofDigits port := by
    rw [UInt32.toNat_toUInt16, UInt32.toNat_ofNat_of_lt' (hlt.trans (by decide)),
      Nat.mod_eq_of_lt hlt]
  refine ⟨?_, ?_, ?_⟩
  · rw [SecurityEvent.tcpDaddr, hu, haddr, ofLe_toLe (UInt32.toNat_lt _), UInt32.ofNat_toNat]
  · rw [SecurityEvent.tcpDport, hu, hdport, ofLe_toLe (UInt16.toNat_lt _), UInt16.ofNat_toNat,
      hvalue]
  · rw [SecurityEvent.tcpFamily, hu, hfamily]

/-- The numbers of a file that are stored, and its access. -/
theorem file_of_member {ev : SecurityEvent} {access ino dev path : Bytes}
    (hu : ev.u = fileMember access (UInt64.ofNat (ofDigits ino)) (UInt64.ofNat (ofDigits dev)) path)
    (hino : Number (2 ^ 64) ino) (hdev : Number (2 ^ 32) dev) :
    ev.fileAccess = accessBits access ∧ ev.fileIno.toNat = ofDigits ino ∧
      ev.fileDev.toNat = ofDigits dev ∧ (pathStr ev = pathText path ↔ PathFits path) := by
  obtain ⟨hpath, hbits, hinode, hdevice⟩ := fileMember_fields access
    (UInt64.ofNat (ofDigits ino)) (UInt64.ofNat (ofDigits dev)) path
  have hvalue : (UInt64.ofNat (ofDigits dev)).toUInt32.toNat = ofDigits dev := by
    have hlt : ofDigits dev < 2 ^ 32 := hdev.2
    rw [UInt64.toNat_toUInt32, UInt64.toNat_ofNat_of_lt' (hlt.trans (by decide)),
      Nat.mod_eq_of_lt hlt]
  refine ⟨?_, ?_, ?_, ?_⟩
  · rw [SecurityEvent.fileAccess, hu, hbits, ofLe_toLe (UInt32.toNat_lt _), UInt32.ofNat_toNat,
      accessFromStr_eq]
  · rw [SecurityEvent.fileIno, hu, hinode, ofLe_toLe (UInt64.toNat_lt _), UInt64.ofNat_toNat,
      UInt64.toNat_ofNat_of_lt' hino.2]
  · rw [SecurityEvent.fileDev, hu, hdevice, ofLe_toLe (UInt32.toNat_lt _), UInt32.ofNat_toNat,
      hvalue]
  · rw [pathStr, hu, hpath]
    exact storedPath_iff path

/-- An event line that is grammatical is read, and says what its tokens say when they fit. -/
theorem eventShows_iff {kind s : Bytes} {args : List Bytes} (hs : words s = args)
    (hdelay : kind ≠ lit "delay") (h : Production (kind :: args)) :
    ∃ ev, parseEvent kind s = .ok ev ∧ (EventShows kind args ev ↔ Fits (kind :: args)) := by
  have hkinds : lit "execve" ≠ lit "connect" ∧ lit "execve" ≠ lit "fileopen" ∧
      lit "connect" ≠ lit "execve" ∧ lit "connect" ≠ lit "fileopen" ∧
      lit "fileopen" ≠ lit "execve" ∧ lit "fileopen" ≠ lit "connect" := by decide
  obtain ⟨hec, hef, hce, hcf, hfe, hfc⟩ := hkinds
  rcases h with ⟨rfl, hargs⟩ | ⟨rfl, hargs⟩ | ⟨rfl, hargs⟩ | ⟨rfl, hargs⟩
  · obtain ⟨pid, ppid, comm, filename, rest, rfl, hpid, hppid, hrest⟩ := execveArgs_iff.mp hargs
    obtain ⟨ev, hok, htype, hu, hhead⟩ := parseEvent_of_member hs hpid hppid
      (fun s hs => parseMember_execve hs) hrest
    have hpath : pathStr ev = fieldText filename ↔ FieldFits PQSEC_FILENAME_LEN filename := by
      rw [pathStr, hu, pathStr_execveMember, stored_iff (by decide)]
    refine ⟨ev, hok, ?_⟩
    rw [EventShows, Fits, ExecveShows, hhead, hpath]
    simp [hec, hef, hdelay, htype, and_comm, and_assoc, and_left_comm]
  · obtain ⟨pid, ppid, comm, ip, port, rest, rfl,
      hpid, hppid, hip, hport, hrest⟩ := connectArgs_iff.mp hargs
    obtain ⟨daddr, hdaddr⟩ := Option.isSome_iff_exists.mp hip.2
    obtain ⟨ev, hok, htype, hu, hhead⟩ := parseEvent_of_member hs hpid hppid
      (fun s hs => parseMember_connect hs ((cString_eq_self hip.1).symm ▸ hdaddr) hport) hrest
    obtain ⟨haddr, hdport, hfamily⟩ := tcp_of_member hu hport
    refine ⟨ev, hok, ?_⟩
    rw [EventShows, Fits, ConnectShows, hhead]
    simp [hce, hcf, hdelay, htype, hdaddr, haddr, hdport, hfamily]
  · obtain ⟨pid, ppid, comm, access, ino, dev, path, rest, rfl,
      hpid, hppid, -, hino, hdev, hrest⟩ := fileopenArgs_iff.mp hargs
    obtain ⟨ev, hok, htype, hu, hhead⟩ := parseEvent_of_member hs hpid hppid
      (fun s hs => parseMember_fileopen hs hino ⟨hdev.1, hdev.2.trans (by decide)⟩) hrest
    obtain ⟨hbits, hinode, hdevice, hpath⟩ := file_of_member hu hino hdev
    refine ⟨ev, hok, ?_⟩
    rw [EventShows, Fits, FileopenShows, hhead, hpath]
    simp [hfe, hfc, hdelay, htype, hbits, hinode, hdevice, and_comm, and_assoc, and_left_comm]
  · exact absurd rfl hdelay

/-- A delay of plain digits. -/
theorem parseDelay_of_words {s ms : Bytes} (h : words s = [ms]) (hms : Number (2 ^ 63) ms) :
    parseDelay s = .ok (ofDigits ms) := by
  obtain ⟨rest, hget, -⟩ := exists_getWord h
  have hlt : ofDigits ms < 2 ^ 63 := hms.2
  have hlong : getLong s = some ((ofDigits ms : ℤ), rest) := by
    rw [getLong, scanInt_of_digits hget hms.1]
    simp only [Bool.false_eq_true, if_false, if_pos hlt]
  rw [parseDelay, hlong]
  simp only [if_neg (Int.not_lt.mpr (Int.natCast_nonneg (ofDigits ms))), Int.toNat_natCast]
  rfl

/-- What the parser makes of a line without words. -/
theorem parseLine_of_nil {line : Bytes} (h : words (bodyOf line) = []) (n : ℕ) :
    parseLine n line = .ok (directiveOf (commentOf line) n) := by
  have hword : getWord (line.takeWhile (· ≠ 35)) = none := getWord_eq_none.mpr h
  rw [parseLine, hword, directiveOf, commentOf]
  simp only
  split_ifs <;> rfl

/-- A grammatical line is read, and what is delivered is what it says when its tokens fit. -/
theorem lineShows_iff {line : Bytes} (h : Grammatical line) (n : ℕ) :
    ∃ o, parseLine n line = .ok o ∧ (LineShows line n o ↔ Fits (words (bodyOf line))) := by
  rcases hwords : words (bodyOf line) with _ | ⟨kind, args⟩
  · refine ⟨_, parseLine_of_nil hwords n, iff_of_true ⟨h, ?_⟩ trivial⟩
    rw [hwords]
  · have hproduction := h
    rw [Grammatical, hwords] at hproduction
    obtain ⟨s, hget, hs⟩ := exists_getWord hwords
    have hword : getWord (line.takeWhile (· ≠ 35)) = some (kind, s) := hget
    by_cases hdelay : kind = lit "delay"
    · obtain ⟨ms, rfl, hms⟩ : ∃ ms, args = [ms] ∧ Number (2 ^ 63) ms := by
        rcases hproduction with ⟨hk, -⟩ | ⟨hk, -⟩ | ⟨hk, -⟩ | ⟨-, hargs⟩
        · exact absurd (hk.symm.trans hdelay) (by decide)
        · exact absurd (hk.symm.trans hdelay) (by decide)
        · exact absurd (hk.symm.trans hdelay) (by decide)
        · exact delayArgs_iff.mp hargs
      refine ⟨some (.delay (ofDigits ms) (expectLabel (commentOf line)) n), ?_, ?_⟩
      · rw [parseLine, hword]
        simp only [if_pos hdelay, parseDelay_of_words hs hms]
        rfl
      · refine iff_of_true ⟨h, ?_⟩ (fun hne => absurd hdelay hne)
        rw [hwords]
        simp [hdelay]
    · obtain ⟨ev, hok, hshows⟩ := eventShows_iff hs hdelay hproduction
      refine ⟨some (.event ev (expectLabel (commentOf line)) n), ?_, ?_⟩
      · rw [parseLine, hword]
        simp only [if_neg hdelay, hok]
        rfl
      · rw [← hshows, LineShows, and_iff_right h, hwords]
        simp [hdelay]

/-! ## 6. The text -/

/-- **Fail-closed.**  Each line up to the first that is not grammatical is delivered as what it says,
and that one is an exception. -/
inductive FailClosed (name : String) : ℕ → List Bytes → List Entry → Option Exn → Prop
  | done (lineno : ℕ) : FailClosed name lineno [] [] none
  | refused {lineno : ℕ} {line : Bytes} (rest : List Bytes) (why : String) :
      ¬ Grammatical line → FailClosed name lineno (line :: rest) [] (some (bad name (lineno + 1) why))
  | delivered {lineno : ℕ} {line : Bytes} {rest : List Bytes} {o : Option Entry} {es : List Entry}
      {err : Option Exn} : LineShows line (lineno + 1) o → FailClosed name (lineno + 1) rest es err →
      FailClosed name lineno (line :: rest) (o.toList ++ es) err

/-- Up to the first line that is not even loosely well formed, the lines are exact and fit. -/
def ReadExactly : List Bytes → Prop
  | [] => True
  | line :: rest => ¬ Loose (words (bodyOf line)) ∨
    Exact (words (bodyOf line)) ∧ Fits (words (bodyOf line)) ∧ ReadExactly rest

theorem grammatical_iff {line : Bytes} :
    Grammatical line ↔ Loose (words (bodyOf line)) ∧ Exact (words (bodyOf line)) :=
  production_iff

/-- Every line without words is grammatical. -/
theorem grammatical_of_nil {line : Bytes} (h : words (bodyOf line) = []) : Grammatical line := by
  rw [Grammatical, h]
  trivial

/-- A line with words that is read has an entry. -/
theorem isSome_of_parseLine {line : Bytes} {n : ℕ} {o : Option Entry}
    (h : parseLine n line = .ok o) (hwords : words (bodyOf line) ≠ []) : o.isSome = true := by
  obtain ⟨kind, args, hcons⟩ := List.exists_cons_of_ne_nil hwords
  obtain ⟨s, hget, -⟩ := exists_getWord hcons
  have hword : getWord (line.takeWhile (· ≠ 35)) = some (kind, s) := hget
  rw [parseLine, hword] at h
  by_cases hdelay : kind = lit "delay"
  · simp only [if_pos hdelay] at h
    rcases hms : parseDelay s with why | ms <;> rw [hms] at h
    · cases h
    · cases h
      rfl
  · simp only [if_neg hdelay] at h
    rcases hev : parseEvent kind s with why | ev <;> rw [hev] at h
    · cases h
    · cases h
      rfl

/-- What is delivered of a text tells what is delivered of its first line. -/
theorem eq_of_lineShows {line : Bytes} {n : ℕ} {o o' : Option Entry} {es es' : List Entry}
    (h : LineShows line n o) (hread : parseLine n line = .ok o')
    (heq : o'.toList ++ es' = o.toList ++ es) : o = o' ∧ es = es' := by
  rcases hwords : words (bodyOf line) with _ | ⟨kind, args⟩
  · have hsays := h.2
    rw [hwords] at hsays
    obtain rfl : o = o' := by
      rw [parseLine_of_nil hwords] at hread
      exact hsays.trans (Except.ok.inj hread)
    exact ⟨rfl, (List.append_cancel_left heq).symm⟩
  · obtain ⟨e', rfl⟩ := Option.isSome_iff_exists.mp (isSome_of_parseLine hread (by simp [hwords]))
    obtain ⟨e, rfl⟩ : ∃ e, o = some e := by
      have hsays := h.2
      rw [hwords] at hsays
      by_cases hdelay : kind = lit "delay"
      · simp only [if_pos hdelay] at hsays
        obtain ⟨ms, -, rfl⟩ := hsays
        exact ⟨_, rfl⟩
      · simp only [if_neg hdelay] at hsays
        obtain ⟨ev, rfl, -⟩ := hsays
        exact ⟨_, rfl⟩
    obtain ⟨rfl, rfl⟩ := List.cons.inj heq
    exact ⟨rfl, rfl⟩

/-- One line that is read. -/
theorem failClosed_cons_iff {name : String} {n : ℕ} {line : Bytes} {l : List Bytes}
    {o : Option Entry} {es : List Entry} {err : Option Exn}
    (hread : parseLine (n + 1) line = .ok o) :
    FailClosed name n (line :: l) (o.toList ++ es) err ↔
      LineShows line (n + 1) o ∧ FailClosed name (n + 1) l es err := by
  constructor
  · intro h
    generalize hes : o.toList ++ es = es₀ at h
    cases h with
    | refused _ why hno =>
      have hnone : o = none := by simpa using (List.append_eq_nil_iff.mp hes).1
      by_cases hwords : words (bodyOf line) = []
      · exact absurd (grammatical_of_nil hwords) hno
      · have hsome := isSome_of_parseLine hread hwords
        rw [hnone] at hsome
        cases hsome
    | delivered hshows hrest =>
      obtain ⟨rfl, rfl⟩ := eq_of_lineShows hshows hread hes
      exact ⟨hshows, hrest⟩
  · rintro ⟨hshows, hrest⟩
    exact FailClosed.delivered hshows hrest

/-- A text on which the parser is fail-closed is accepted exactly when it is grammatical. -/
theorem FailClosed.accepted_iff {name : String} {n : ℕ} {l : List Bytes} {es : List Entry}
    {err : Option Exn} (h : FailClosed name n l es err) :
    err = none ↔ ∀ line ∈ l, Grammatical line := by
  induction h with
  | done => simp
  | refused rest why hno => simp [hno]
  | delivered hshows _ ih => simp [hshows.1, ih]

theorem parseLines_of_ok {name : String} {n : ℕ} {line : Bytes} {o : Option Entry}
    (h : parseLine (n + 1) line = .ok o) (l : List Bytes) :
    parseLines name n (line :: l) =
      (o.toList ++ (parseLines name (n + 1) l).1, (parseLines name (n + 1) l).2) := by
  rw [parseLines, h]
  cases o <;> rfl

theorem failClosed_parseLines_iff (name : String) (l : List Bytes) (n : ℕ) :
    FailClosed name n l (parseLines name n l).1 (parseLines name n l).2 ↔ ReadExactly l := by
  induction l generalizing n with
  | nil => exact iff_of_true (FailClosed.done n) trivial
  | cons line l ih =>
    have hline := accepts_parseLine (n + 1) line
    rw [ReadExactly, ← ih (n + 1)]
    rcases hread : parseLine (n + 1) line with why | o <;> rw [hread] at hline
    · have hno : ¬ Loose (words (bodyOf line)) := fun hloose => not_accepts_throw _ (hline.mpr hloose)
      rw [parseLines, hread]
      refine iff_of_true ?_ (Or.inl hno)
      exact FailClosed.refused l why fun h => hno (grammatical_iff.mp h).1
    · have hloose : Loose (words (bodyOf line)) := hline.mp ⟨o, rfl⟩
      rw [parseLines_of_ok hread, or_iff_right (not_not.mpr hloose), failClosed_cons_iff hread,
        ← and_assoc]
      refine and_congr_left fun _ => ?_
      constructor
      · intro hshows
        obtain ⟨o', hok, hfits⟩ := lineShows_iff hshows.1 (n + 1)
        obtain rfl := Except.ok.inj (hread.symm.trans hok)
        exact ⟨(grammatical_iff.mp hshows.1).2, hfits.mp hshows⟩
      · rintro ⟨hexact, hfit⟩
        obtain ⟨o', hok, hfits⟩ := lineShows_iff (grammatical_iff.mpr ⟨hloose, hexact⟩) (n + 1)
        obtain rfl := Except.ok.inj (hread.symm.trans hok)
        exact hfits.mpr hfit

/-- A text is accepted exactly when its lines are. -/
theorem parseLines_accepts_iff (name : String) (l : List Bytes) (n : ℕ) :
    (parseLines name n l).2 = none ↔ ∀ line ∈ l, Loose (words (bodyOf line)) := by
  induction l generalizing n with
  | nil => simp [parseLines]
  | cons line l ih =>
    have hline := accepts_parseLine (n + 1) line
    rw [parseLines, List.forall_mem_cons, ← hline, ← ih (n + 1)]
    rcases parseLine (n + 1) line with why | _ | e <;> simp [Accepts]

/-- **When the parser is fail-closed.**  It refuses no grammatical text.  And what it does with a
text, whether it accepts it and what it delivers, is what the grammar says exactly when the lines up
to the first that is refused are exact and fit. -/
theorem events_grammar_fail_closed_iff (text : Bytes) (name : String) :
    ((∀ line ∈ lines text, Grammatical line) → (parse text name).2 = none) ∧
      (((parse text name).2 = none ↔ ∀ line ∈ lines text, Grammatical line) ∧
        FailClosed name 0 (lines text) (parse text name).1 (parse text name).2 ↔
          ReadExactly (lines text)) := by
  refine ⟨fun h => ?_, ?_⟩
  · exact (parseLines_accepts_iff name (lines text) 0).mpr fun line hline =>
      (grammatical_iff.mp (h line hline)).1
  · rw [and_iff_right_of_imp FailClosed.accepted_iff]
    exact failClosed_parseLines_iff name (lines text) 0

def Entry.event? : Entry → Option SecurityEvent
  | .event ev _ _ => some ev
  | .delay _ _ _ => none
  | .directive _ _ => none

/-- An access letter that there is not, a negative inode and a leftover token. -/
def looseText : Bytes := lit "fileopen 7 6 sh rw -1 2 /etc/passwd anx:1:sh"

/-- It is accepted, and the inode that is delivered is the largest that there is. -/
theorem events_grammar_accepts_loose :
    (parse looseText "f").2 = none ∧ ¬ (∀ line ∈ lines looseText, Grammatical line) ∧
      ((parse looseText "f").1.filterMap Entry.event?).map (fun ev => (ev.fileAccess, ev.fileIno)) =
        [(PQSEC_FA_WRITE, 0xffffffffffffffff)] := by
  refine ⟨by decide, ?_, by decide +kernel⟩
  intro h
  have hline := h looseText (by decide)
  have hwords : words (bodyOf looseText) = [lit "fileopen", lit "7", lit "6", lit "sh", lit "rw",
    lit "-1", lit "2", lit "/etc/passwd", lit "anx:1:sh"] := by decide
  have hexact := (grammatical_iff.mp hline).2
  rw [hwords, Exact, if_neg (by decide)] at hexact
  have haccess := (hexact.2.2.2.2 rfl).1 (lit "rw") rfl
  rcases haccess with heq | hall
  · exact absurd heq (by decide)
  · exact absurd hall (by decide)

end PqcEdr.EventsFile
