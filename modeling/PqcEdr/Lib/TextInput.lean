/-
# Reading text as C++ does

Extraction from a `std::istream` and the `strto..` functions, on the bytes that are left: `getline`,
`>>` into a string, and the three readings of a number.  A word ends at white space; a number ends
at the first byte that is not a digit, takes a sign, and an unsigned one wraps.

* `words_of_getWord`, `exists_getWord`: extracting words one after another gives `words`.
* `scanInt_of_digits`: where the next word is plain digits, reading a number reads that word.
* `readNumber_words`: what reading a number does to the words that are left.
-/
import Mathlib.Algebra.Group.Nat.Defs
import Mathlib.Data.List.DropRight
import Mathlib.Tactic.Common

namespace TextInput

/-! ## 1. Characters -/

/-- `isspace` in the "C" locale. -/
def isSpace (c : UInt8) : Bool := c == 32 || (9 ≤ c && c ≤ 13)

def isDigit (c : UInt8) : Bool := 48 ≤ c && c ≤ 57

/-- The value of a hexadecimal digit. -/
def hexDigit? (c : UInt8) : Option ℕ :=
  if isDigit c then some (c.toNat - 48)
  else if 65 ≤ c && c ≤ 70 then some (c.toNat - 55)
  else if 97 ≤ c && c ≤ 102 then some (c.toNat - 87)
  else none

theorem isSpace_of_isDigit {c : UInt8} (h : isDigit c = true) : isSpace c = false := by
  simp only [isDigit, Bool.and_eq_true, decide_eq_true_eq, UInt8.le_iff_toNat_le] at h
  have hlow : 48 ≤ c.toNat := h.1
  have hne : c ≠ 32 := by
    rintro rfl
    simp at hlow
  have hgt : ¬ c ≤ 13 := by
    rw [UInt8.le_iff_toNat_le]
    change ¬ c.toNat ≤ 13
    omega
  simp [isSpace, hne, hgt]

/-! ## 2. Lines and words -/

/-- What repeated `getline` gives: what ends with a line feed, and a last line that does not. -/
def lines : List UInt8 → List (List UInt8)
  | [] => []
  | c :: s =>
    if c = 10 then [] :: lines s
    else match lines s with
      | [] => [[c]]
      | line :: rest => (c :: line) :: rest

/-- What repeated `>>` into a string gives. -/
def words (s : List UInt8) : List (List UInt8) := (s.splitOnP isSpace).filter (· ≠ [])

/-- `>>` into a string: the word and what is left. -/
def getWord (s : List UInt8) : Option (List UInt8 × List UInt8) :=
  let t := s.dropWhile isSpace
  if t = [] then none else some (t.takeWhile (!isSpace ·), t.dropWhile (!isSpace ·))

theorem lines_append_newline {line : List UInt8} (h : 10 ∉ line) (t : List UInt8) :
    lines (line ++ 10 :: t) = line :: lines t := by
  induction line with
  | nil => rw [List.nil_append, lines, if_pos rfl]
  | cons c line ih =>
    rw [List.mem_cons, not_or] at h
    rw [List.cons_append, lines, if_neg (Ne.symm h.1), ih h.2]

@[simp] theorem words_nil : words [] = [] := rfl

theorem words_append_cons {c : UInt8} (hc : isSpace c = true) (s t : List UInt8) :
    words (s ++ c :: t) = words s ++ words t := by
  rw [words, List.splitOnP_append_cons _ _ hc, List.filter_append]
  rfl

theorem words_cons {c : UInt8} (hc : isSpace c = true) (s : List UInt8) :
    words (c :: s) = words s :=
  words_append_cons hc [] s

theorem words_singleton {w : List UInt8} (hw : w ≠ []) (h : ∀ c ∈ w, isSpace c = false) :
    words w = [w] := by
  rw [words, List.splitOnP_eq_singleton h]
  simp [hw]

theorem words_dropWhile (s : List UInt8) : words (s.dropWhile isSpace) = words s := by
  induction s with
  | nil => rfl
  | cons c s ih =>
    by_cases hc : isSpace c = true
    · rw [List.dropWhile_cons_of_pos hc, ih, words_cons hc]
    · rw [List.dropWhile_cons_of_neg hc]

/-- The pieces hold no separator, and nothing that the text does not hold. -/
theorem of_mem_splitOnP {p : UInt8 → Bool} {s w : List UInt8} (h : w ∈ s.splitOnP p) :
    ∀ c ∈ w, p c = false ∧ c ∈ s := by
  induction s generalizing w with
  | nil =>
    rw [List.splitOnP_nil, List.mem_singleton] at h
    simp [h]
  | cons c s ih =>
    have hrest : ∀ {w}, w ∈ s.splitOnP p → ∀ d ∈ w, p d = false ∧ d ∈ c :: s := fun hw d hd =>
      ⟨(ih hw d hd).1, List.mem_cons_of_mem c (ih hw d hd).2⟩
    rw [List.splitOnP_cons_eq_if_modifyHead] at h
    by_cases hc : p c = true
    · rw [if_pos hc, List.mem_cons] at h
      rcases h with rfl | h
      · simp
      · exact hrest h
    · rw [if_neg hc] at h
      rcases hs : s.splitOnP p with _ | ⟨w', ws⟩
      · exact absurd hs (List.splitOnP_ne_nil p s)
      · rw [hs, List.modifyHead_cons, List.mem_cons] at h
        rcases h with rfl | h
        · intro d hd
          rcases List.mem_cons.mp hd with rfl | hd
          · exact ⟨by simpa using hc, List.mem_cons_self⟩
          · exact hrest (hs ▸ List.mem_cons_self) d hd
        · exact hrest (hs ▸ List.mem_cons_of_mem w' h)

/-- What `dropWhile` leaves begins with the other kind. -/
theorem dropWhile_cases (p : UInt8 → Bool) (s : List UInt8) :
    s.dropWhile p = [] ∨ ∃ c t, s.dropWhile p = c :: t ∧ p c = false := by
  rcases hs : s.dropWhile p with _ | ⟨c, t⟩
  · exact Or.inl rfl
  · have hc := List.head?_dropWhile_not p s
    rw [hs] at hc
    exact Or.inr ⟨c, t, rfl, hc⟩

/-- A word in front of what is white space or nothing. -/
theorem words_append {w t : List UInt8} (hw : ∀ c ∈ w, isSpace c = false)
    (ht : ∀ c ∈ t.head?, isSpace c = true) :
    words (w ++ t) = if w = [] then words t else w :: words t := by
  by_cases hnil : w = []
  · rw [if_pos hnil, hnil, List.nil_append]
  · rw [if_neg hnil]
    cases t with
    | nil => rw [List.append_nil, words_singleton hnil hw, words_nil]
    | cons c t =>
      have hc : isSpace c = true := ht c rfl
      rw [words_append_cons hc, words_singleton hnil hw, words_cons hc]
      rfl

/-- The word and what is left, as parts of the text. -/
theorem of_getWord {s w rest : List UInt8} (h : getWord s = some (w, rest)) :
    s.dropWhile isSpace = w ++ rest ∧ w ≠ [] ∧ (∀ c ∈ w, isSpace c = false) ∧
      ∀ c ∈ rest.head?, isSpace c = true := by
  rw [getWord] at h
  rcases dropWhile_cases isSpace s with hnil | ⟨c, t, hct, hc⟩
  · simp [hnil] at h
  · rw [if_neg (by simp [hct]), hct, Option.some.injEq, Prod.mk.injEq] at h
    obtain ⟨rfl, rfl⟩ := h
    refine ⟨by rw [hct, List.takeWhile_append_dropWhile], by simp [hc], ?_, ?_⟩
    · intro d hd
      simpa using (List.all_eq_true.mp List.all_takeWhile) d hd
    · intro d hd
      have hhead := List.head?_dropWhile_not (!isSpace ·) (c :: t)
      rw [Option.mem_def.mp hd] at hhead
      simpa using hhead

/-- The first word and the rest. -/
theorem words_of_getWord {s w rest : List UInt8} (h : getWord s = some (w, rest)) :
    words s = w :: words rest := by
  obtain ⟨hsplit, hne, hw, hrest⟩ := of_getWord h
  rw [← words_dropWhile, hsplit, words_append hw hrest, if_neg hne]

theorem getWord_eq_none {s : List UInt8} : getWord s = none ↔ words s = [] := by
  constructor
  · intro h
    rw [getWord] at h
    by_cases ht : s.dropWhile isSpace = []
    · rw [← words_dropWhile, ht, words_nil]
    · simp [ht] at h
  · intro h
    rcases hs : getWord s with _ | ⟨w, rest⟩
    · rfl
    · rw [words_of_getWord hs] at h
      cases h

theorem exists_getWord {s w : List UInt8} {ws : List (List UInt8)} (h : words s = w :: ws) :
    ∃ rest, getWord s = some (w, rest) ∧ words rest = ws := by
  rcases hs : getWord s with _ | ⟨w', rest⟩
  · rw [getWord_eq_none.mp hs] at h
    cases h
  · rw [words_of_getWord hs] at h
    obtain ⟨rfl, rfl⟩ := List.cons.inj h
    exact ⟨rest, rfl, rfl⟩

/-! ## 3. Numbers -/

/-- The value of decimal digits. -/
def ofDigits (d : List UInt8) : ℕ := d.foldl (fun n c => 10 * n + (c.toNat - 48)) 0

/-- Decimal digits and nothing else. -/
def Digits (d : List UInt8) : Prop := d ≠ [] ∧ ∀ c ∈ d, isDigit c = true

instance instDecidableDigits (d : List UInt8) : Decidable (Digits d) :=
  @instDecidableAnd _ _ inferInstance (List.decidableBAll _ d)

/-- An optional sign. -/
def sign (s : List UInt8) : Bool × List UInt8 :=
  match s with
  | [] => (false, [])
  | c :: t => if c = 45 then (true, t) else if c = 43 then (false, t) else (false, c :: t)

/-- White space, a sign and decimal digits: is it negative, the magnitude, and what is left. -/
def scanInt (s : List UInt8) : Option (Bool × ℕ × List UInt8) :=
  let (negative, t) := sign (s.dropWhile isSpace)
  let digits := t.takeWhile isDigit
  if digits = [] then none else some (negative, ofDigits digits, t.dropWhile isDigit)

/-- `>>` into an unsigned integer with `size` values.  A magnitude that does not fit fails; a
negative one wraps. -/
def getUnsigned (size : ℕ) (s : List UInt8) : Option (ℕ × List UInt8) :=
  match scanInt s with
  | none => none
  | some (negative, n, rest) =>
    if n < size then some (if negative then (size - n) % size else n, rest) else none

/-- `>>` into a signed integer of 64 bits. -/
def getLong (s : List UInt8) : Option (ℤ × List UInt8) :=
  match scanInt s with
  | none => none
  | some (negative, n, rest) =>
    if negative then if n ≤ 2 ^ 63 then some (-n, rest) else none
    else if n < 2 ^ 63 then some (n, rest)
    else none

/-- `strtoul(s, nullptr, 10)`, which clamps what does not fit into 64 bits. -/
def strtoul (s : List UInt8) : ℕ :=
  match scanInt s with
  | none => 0
  | some (negative, n, _) =>
    if 2 ^ 64 ≤ n then 2 ^ 64 - 1 else if negative then (2 ^ 64 - n) % 2 ^ 64 else n

/-- `strtol(s, &end, 16)` of at most two characters, for which there is no `0x` prefix to skip and
nothing to clamp: the value and what `end` points to. -/
def strtolHex (s : List UInt8) : ℤ × List UInt8 :=
  let (negative, t) := sign (s.dropWhile isSpace)
  let digits := (t.takeWhile fun c => (hexDigit? c).isSome).filterMap hexDigit?
  if digits = [] then (0, s)
  else
    let n : ℕ := digits.foldl (fun n d => 16 * n + d) 0
    (if negative then -(n : ℤ) else n, t.dropWhile fun c => (hexDigit? c).isSome)

/-- What stands behind does not matter where it stops the run anyway. -/
theorem takeWhile_append_stop {p : UInt8 → Bool} (s : List UInt8) {t : List UInt8}
    (ht : ∀ c ∈ t.head?, p c = false) :
    (s ++ t).takeWhile p = s.takeWhile p ∧ (s ++ t).dropWhile p = s.dropWhile p ++ t := by
  induction s with
  | nil =>
    cases t with
    | nil => exact ⟨rfl, rfl⟩
    | cons c t =>
      have hc : p c = false := ht c rfl
      simp [hc]
  | cons c s ih =>
    by_cases hc : p c = true
    · simp [hc, ih]
    · simp [hc]

theorem takeWhile_of_forall {p : UInt8 → Bool} {d t : List UInt8} (hd : ∀ c ∈ d, p c = true)
    (ht : ∀ c ∈ t.head?, p c = false) :
    (d ++ t).takeWhile p = d ∧ (d ++ t).dropWhile p = t := by
  obtain ⟨htake, hdrop⟩ := takeWhile_append_stop d ht
  rw [List.takeWhile_eq_self_iff.mpr hd] at htake
  rw [List.dropWhile_eq_nil_iff.mpr hd, List.nil_append] at hdrop
  exact ⟨htake, hdrop⟩

/-- No digit stands behind a word. -/
theorem isDigit_of_stop {t : List UInt8} (h : ∀ c ∈ t.head?, isSpace c = true) :
    ∀ c ∈ t.head?, isDigit c = false := by
  intro c hc
  by_contra hdigit
  have hspace := isSpace_of_isDigit (by simpa using hdigit)
  rw [h c hc] at hspace
  cases hspace

theorem sign_of_isDigit {c : UInt8} (hc : isDigit c = true) (s : List UInt8) :
    sign (c :: s) = (false, c :: s) := by
  rw [sign, if_neg, if_neg]
  · rintro rfl
    exact absurd hc (by decide)
  · rintro rfl
    exact absurd hc (by decide)

/-- Plain digits up to a byte of another kind. -/
theorem scanInt_append {d t : List UInt8} (hd : Digits d) (ht : ∀ c ∈ t.head?, isDigit c = false) :
    scanInt (d ++ t) = some (false, ofDigits d, t) := by
  obtain ⟨c, d', rfl⟩ := List.exists_cons_of_ne_nil hd.1
  have hc := hd.2 c List.mem_cons_self
  obtain ⟨htake, hdrop⟩ := takeWhile_of_forall hd.2 ht
  have hskip : (c :: d' ++ t).dropWhile isSpace = c :: d' ++ t := by
    rw [List.cons_append, List.dropWhile_cons_of_neg (by simp [isSpace_of_isDigit hc])]
  rw [scanInt, hskip, List.cons_append, sign_of_isDigit hc]
  simp only [← List.cons_append, htake, hdrop]
  rw [if_neg (List.cons_ne_nil c d')]

/-- White space in front of a number is skipped. -/
theorem scanInt_dropWhile (s : List UInt8) : scanInt (s.dropWhile isSpace) = scanInt s := by
  rw [scanInt, scanInt, List.dropWhile_idempotent]

/-- Where the next word is plain digits, a number is that word. -/
theorem scanInt_of_digits {s d rest : List UInt8} (h : getWord s = some (d, rest))
    (hd : Digits d) : scanInt s = some (false, ofDigits d, rest) := by
  obtain ⟨hsplit, -, -, hrest⟩ := of_getWord h
  rw [← scanInt_dropWhile, hsplit]
  exact scanInt_append hd (isDigit_of_stop hrest)

/-! ## 4. Numbers among words -/

/-- The number that the first word begins with.  What is left of the word is a word of its own. -/
def readNumber : List (List UInt8) → Option (Bool × ℕ × List (List UInt8))
  | [] => none
  | w :: ws =>
    let (negative, t) := sign w
    if t.takeWhile isDigit = [] then none
    else some (negative, ofDigits (t.takeWhile isDigit),
      if t.dropWhile isDigit = [] then ws else t.dropWhile isDigit :: ws)

theorem readNumber_of_digits {d : List UInt8} (hd : Digits d) (ws : List (List UInt8)) :
    readNumber (d :: ws) = some (false, ofDigits d, ws) := by
  obtain ⟨c, t, rfl⟩ := List.exists_cons_of_ne_nil hd.1
  have hall : (c :: t).takeWhile isDigit = c :: t := List.takeWhile_eq_self_iff.mpr hd.2
  have hnone : (c :: t).dropWhile isDigit = [] := List.dropWhile_eq_nil_iff.mpr hd.2
  rw [readNumber, sign_of_isDigit (hd.2 c List.mem_cons_self)]
  simp only [hall, hnone, if_true]
  rw [if_neg (List.cons_ne_nil c t)]

/-- A sign is looked for in the first word only. -/
theorem sign_append {w : List UInt8} (hw : w ≠ []) (t : List UInt8) :
    sign (w ++ t) = ((sign w).1, (sign w).2 ++ t) := by
  obtain ⟨c, w, rfl⟩ := List.exists_cons_of_ne_nil hw
  rw [List.cons_append, sign, sign]
  split_ifs <;> rfl

theorem mem_of_mem_sign {w : List UInt8} {c : UInt8} (h : c ∈ (sign w).2) : c ∈ w := by
  cases w with
  | nil => exact h
  | cons d w =>
    rw [sign] at h
    split_ifs at h
    · exact List.mem_cons_of_mem d h
    · exact List.mem_cons_of_mem d h
    · exact h

/-- Reading a number, on the words. -/
theorem readNumber_words (s : List UInt8) :
    readNumber (words s) = (scanInt s).map fun x => (x.1, x.2.1, words x.2.2) := by
  rcases hget : getWord s with _ | ⟨w, rest⟩
  · have hskip : s.dropWhile isSpace = [] := by
      by_contra ht
      simp [getWord, ht] at hget
    rw [getWord_eq_none.mp hget, ← scanInt_dropWhile, hskip]
    rfl
  · obtain ⟨hsplit, hne, hw, hrest⟩ := of_getWord hget
    obtain ⟨htake, hdrop⟩ := takeWhile_append_stop (sign w).2 (isDigit_of_stop hrest)
    have hleft : ∀ c ∈ (sign w).2.dropWhile isDigit, isSpace c = false := fun c hc =>
      hw c (mem_of_mem_sign ((List.dropWhile_sublist _).subset hc))
    rw [words_of_getWord hget, readNumber, scanInt, hsplit, sign_append hne]
    simp only [htake, hdrop]
    by_cases hdigits : (sign w).2.takeWhile isDigit = []
    · rw [if_pos hdigits, if_pos hdigits]
      rfl
    · rw [if_neg hdigits, if_neg hdigits, Option.map_some, words_append hleft hrest]

end TextInput
