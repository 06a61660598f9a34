/-
# UTF-8 and its boundaries

Texts of characters, as the bytes that Lean encodes a `Char` by.  A character's first byte is never
a continuation byte and all others are, so in a valid text the positions between characters are
exactly those where no continuation byte stands.  A scan that steps back over continuation bytes
therefore finds the last boundary at or before its start.
-/
import Mathlib.Data.List.Basic
import Mathlib.Tactic.Common

namespace Utf8

/-! ## 1. Valid text -/

/-- The bytes of some characters. -/
def encode (cs : List Char) : List UInt8 := cs.flatMap String.utf8EncodeChar

/-- The bytes are those of some characters. -/
def Valid (s : List UInt8) : Prop := ∃ cs, s = encode cs

/-- A position between two characters, or at an end. -/
def Boundary (s : List UInt8) (k : ℕ) : Prop :=
  k ≤ s.length ∧ Valid (s.take k) ∧ Valid (s.drop k)

/-- The last boundary at or before `n`. -/
structure LastBoundary (s : List UInt8) (n k : ℕ) : Prop where
  le : k ≤ n
  boundary : Boundary s k
  last : ∀ j ≤ n, Boundary s j → j ≤ k

/-- `10xxxxxx`. -/
def isCont (b : UInt8) : Bool := b &&& 0xC0 = 0x80

@[simp] theorem encode_nil : encode [] = [] := rfl

@[simp] theorem encode_cons (c : Char) (cs : List Char) :
    encode (c :: cs) = String.utf8EncodeChar c ++ encode cs := List.flatMap_cons

theorem encode_append (cs ds : List Char) : encode (cs ++ ds) = encode cs ++ encode ds :=
  List.flatMap_append

theorem valid_nil : Valid [] := ⟨[], rfl⟩

theorem Valid.append {s t : List UInt8} (hs : Valid s) (ht : Valid t) : Valid (s ++ t) := by
  obtain ⟨cs, rfl⟩ := hs
  obtain ⟨ds, rfl⟩ := ht
  exact ⟨cs ++ ds, (encode_append cs ds).symm⟩

/-! ## 2. The bytes of one character -/

theorem isCont_of_lt {n : ℕ} (h : n < 64) : isCont (UInt8.ofNat (n + 0x80)) = true := by
  have hall : ∀ n < 64, isCont (UInt8.ofNat (n + 0x80)) = true := by decide
  exact hall n h

theorem not_isCont_of_lt {n : ℕ} (h : n < 0x80) : isCont (UInt8.ofNat n) = false := by
  have hall : ∀ n < 0x80, isCont (UInt8.ofNat n) = false := by decide
  exact hall n h

theorem not_isCont_of_ge {n : ℕ} (h : 0xc0 ≤ n) (hlt : n < 0x100) :
    isCont (UInt8.ofNat n) = false := by
  have hall : ∀ n < 64, isCont (UInt8.ofNat (n + 0xc0)) = false := by decide
  have hn := hall (n - 0xc0) (by omega)
  rwa [Nat.sub_add_cancel h] at hn

/-- A character is one byte that is no continuation byte, and continuation bytes behind it. -/
theorem utf8EncodeChar_eq (c : Char) :
    ∃ b t, String.utf8EncodeChar c = b :: t ∧ isCont b = false ∧ ∀ d ∈ t, isCont d = true := by
  have htail : ∀ v, isCont (UInt8.ofNat (v % 0x40 + 0x80)) = true :=
    fun v => isCont_of_lt (Nat.mod_lt v (by decide))
  have hall : ∀ {d : UInt8} {t : List UInt8}, isCont d = true → (∀ x ∈ t, isCont x = true) →
      ∀ x ∈ d :: t, isCont x = true := fun hd ht => List.forall_mem_cons.mpr ⟨hd, ht⟩
  have hnil : ∀ x ∈ ([] : List UInt8), isCont x = true := by simp
  unfold String.utf8EncodeChar
  dsimp only
  split
  · exact ⟨_, _, rfl, not_isCont_of_lt (by omega), hnil⟩
  · split
    · exact ⟨_, _, rfl, not_isCont_of_ge (by omega) (by omega), hall (htail _) hnil⟩
    · split
      · exact ⟨_, _, rfl, not_isCont_of_ge (by omega) (by omega),
          hall (htail _) (hall (htail _) hnil)⟩
      · exact ⟨_, _, rfl, not_isCont_of_ge (by omega) (by omega),
          hall (htail _) (hall (htail _) (hall (htail _) hnil))⟩

theorem toNat_ofNat_of_lt {n : ℕ} (h : n < 0x80) : (Char.ofNat n).toNat = n := by
  unfold Char.ofNat
  rw [dif_pos (show n.isValidChar from Or.inl (by omega))]
  rfl

theorem utf8EncodeChar_of_lt {c : Char} (h : c.toNat < 0x80) :
    String.utf8EncodeChar c = [UInt8.ofNat c.toNat] := by
  have hle : c.val.toNat ≤ 0x7f := Nat.le_of_lt_succ h
  unfold String.utf8EncodeChar
  dsimp only
  rw [if_pos hle]
  rfl

/-- All bytes of a character outside of ASCII are 0x80 or more. -/
theorem le_of_mem_utf8EncodeChar {c : Char} (h : 0x80 ≤ c.toNat) :
    ∀ b ∈ String.utf8EncodeChar c, 0x80 ≤ b.toNat := by
  have hle : ¬ c.val.toNat ≤ 0x7f := Nat.not_le.mpr h
  unfold String.utf8EncodeChar
  dsimp only
  rw [if_neg hle]
  intro b hb
  split at hb
  · simp only [List.mem_cons, List.not_mem_nil, or_false] at hb
    rcases hb with rfl | rfl <;> rw [UInt8.toNat_ofNat'] <;> omega
  · split at hb
    · simp only [List.mem_cons, List.not_mem_nil, or_false] at hb
      rcases hb with rfl | rfl | rfl <;> rw [UInt8.toNat_ofNat'] <;> omega
    · simp only [List.mem_cons, List.not_mem_nil, or_false] at hb
      rcases hb with rfl | rfl | rfl | rfl <;> rw [UInt8.toNat_ofNat'] <;> omega

/-! ## 3. Boundaries -/

theorem boundary_zero {s : List UInt8} (h : Valid s) : Boundary s 0 :=
  ⟨Nat.zero_le _, valid_nil, h⟩

/-- Behind a boundary a character starts. -/
theorem Boundary.not_isCont {s : List UInt8} {k : ℕ} (h : Boundary s k) (hlt : k < s.length) :
    isCont s[k] = false := by
  obtain ⟨-, -, ds, hds⟩ := h
  have hdrop := List.drop_eq_getElem_cons hlt
  rw [hds] at hdrop
  cases ds with
  | nil => cases hdrop
  | cons d ds =>
    obtain ⟨b, t, hchar, hb, -⟩ := utf8EncodeChar_eq d
    rw [encode_cons, hchar, List.cons_append, List.cons.injEq] at hdrop
    rw [← hdrop.1]
    exact hb

/-- In a valid text, a position without a continuation byte is a boundary. -/
theorem Valid.boundary_of_not_isCont {s : List UInt8} (h : Valid s) {k : ℕ} (hlt : k < s.length)
    (hk : isCont s[k] = false) : Boundary s k := by
  obtain ⟨cs, rfl⟩ := h
  induction cs generalizing k with
  | nil => exact absurd hlt (Nat.not_lt_zero k)
  | cons c cs ih =>
    obtain ⟨b, t, hchar, -, htail⟩ := utf8EncodeChar_eq c
    by_cases hzero : k = 0
    · subst hzero
      exact boundary_zero ⟨c :: cs, rfl⟩
    rcases Nat.lt_or_ge k (String.utf8EncodeChar c).length with hin | hout
    · -- inside the first character stand continuation bytes only
      obtain ⟨j, rfl⟩ := Nat.exists_eq_succ_of_ne_zero hzero
      rw [hchar, List.length_cons] at hin
      have hj : j < t.length := Nat.lt_of_succ_lt_succ hin
      have hget : (encode (c :: cs))[j + 1] = t[j] := by
        simp [hchar, List.getElem_append_left hj]
      rw [hget, htail _ (List.getElem_mem _)] at hk
      cases hk
    · have hrest : k - (String.utf8EncodeChar c).length < (encode cs).length := by
        rw [encode_cons, List.length_append] at hlt
        omega
      have hget : (encode (c :: cs))[k] =
          (encode cs)[k - (String.utf8EncodeChar c).length] := by
        simp only [encode_cons, List.getElem_append_right hout]
      rw [hget] at hk
      obtain ⟨hle, ⟨as, has⟩, ⟨ds, hds⟩⟩ := ih hrest hk
      refine ⟨Nat.le_of_lt hlt, ⟨c :: as, ?_⟩, ⟨ds, ?_⟩⟩
      · rw [encode_cons, encode_cons, List.take_append, List.take_of_length_le hout, has]
      · rw [encode_cons, List.drop_append, List.drop_of_length_le hout, hds, List.nil_append]

theorem getD_of_lt {s : List UInt8} {k : ℕ} (h : k < s.length) : s.getD k 0 = s[k] := by
  simp [h]

/-- **The scan.**  The position where a scan back over continuation bytes from `n` stops is the
last boundary at or before `n`. -/
theorem Valid.lastBoundary {s : List UInt8} (h : Valid s) {n k : ℕ} (hn : n < s.length)
    (hk : k ≤ n) (hstop : k = 0 ∨ isCont (s.getD k 0) = false)
    (hover : ∀ j, k < j → j ≤ n → isCont (s.getD j 0) = true) : LastBoundary s n k := by
  refine ⟨hk, ?_, ?_⟩
  · rcases hstop with rfl | hstop
    · exact boundary_zero h
    · have hlt : k < s.length := by omega
      rw [getD_of_lt hlt] at hstop
      exact h.boundary_of_not_isCont hlt hstop
  · intro j hj hb
    refine Nat.not_lt.mp fun hlt => ?_
    have hover := hover j hlt hj
    have hjs : j < s.length := by omega
    rw [getD_of_lt hjs, hb.not_isCont hjs] at hover
    cases hover

/-! ## 4. Replacing ASCII by ASCII -/

/-- Replacing ASCII bytes by ASCII bytes, and no others, keeps a text valid. -/
theorem Valid.map {s : List UInt8} (h : Valid s) {f : UInt8 → UInt8}
    (hascii : ∀ b, b.toNat < 0x80 → (f b).toNat < 0x80) (hother : ∀ b, 0x80 ≤ b.toNat → f b = b) :
    Valid (s.map f) := by
  obtain ⟨cs, rfl⟩ := h
  induction cs with
  | nil => exact valid_nil
  | cons c cs ih =>
    rw [encode_cons, List.map_append]
    refine Valid.append ?_ ih
    rcases Nat.lt_or_ge c.toNat 0x80 with hlt | hge
    · have hbyte : (UInt8.ofNat c.toNat).toNat < 0x80 := by
        rw [UInt8.toNat_ofNat']
        omega
      have hnew := hascii _ hbyte
      have hchar : (Char.ofNat (f (UInt8.ofNat c.toNat)).toNat).toNat =
          (f (UInt8.ofNat c.toNat)).toNat :=
        toNat_ofNat_of_lt hnew
      refine ⟨[Char.ofNat (f (UInt8.ofNat c.toNat)).toNat], ?_⟩
      rw [utf8EncodeChar_of_lt hlt, encode_cons, encode_nil, List.append_nil,
        utf8EncodeChar_of_lt (by rw [hchar]; exact hnew), hchar, UInt8.ofNat_toNat]
      rfl
    · refine ⟨[c], ?_⟩
      rw [encode_cons, encode_nil, List.append_nil]
      refine (List.map_congr_left fun b hb => ?_).trans (List.map_id _)
      exact hother b (le_of_mem_utf8EncodeChar hge b hb)

end Utf8
