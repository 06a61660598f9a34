/-
# The table of well-formed byte sequences

UTF-8 as its readers see it: the first byte of a character fixes how many bytes follow and the
range of each.  The table leaves out the overlong forms, the surrogates and what lies above
U+10FFFF, so it describes the same texts as the encoding of `Char` does:

* `valid_iff_wellFormed`: a text is the encoding of some characters exactly where the table
  takes it.
-/
import PqcEdr.Lib.Utf8
import Mathlib.Data.List.Forall2

namespace Utf8

/-! ## 1. The table -/

/-- A least and a greatest byte. -/
abbrev Range := UInt8 × UInt8

/-- `10xxxxxx`. -/
def tail : Range := (0x80, 0xBF)

/-- The ranges of the bytes behind a first byte. -/
def followers (b : UInt8) : Option (List Range) :=
  if b ≤ 0x7F then some []
  else if 0xC2 ≤ b ∧ b ≤ 0xDF then some [tail]
  else if b = 0xE0 then some [(0xA0, 0xBF), tail]
  else if b = 0xED then some [(0x80, 0x9F), tail]
  else if 0xE1 ≤ b ∧ b ≤ 0xEF then some [tail, tail]
  else if b = 0xF0 then some [(0x90, 0xBF), tail, tail]
  else if 0xF1 ≤ b ∧ b ≤ 0xF3 then some [tail, tail, tail]
  else if b = 0xF4 then some [(0x80, 0x8F), tail, tail]
  else none

/-- A byte of a range. -/
def In (r : Range) (c : UInt8) : Prop := r.1 ≤ c ∧ c ≤ r.2

instance instDecidableIn (r : Range) (c : UInt8) : Decidable (In r c) :=
  inferInstanceAs (Decidable (r.1 ≤ c ∧ c ≤ r.2))

/-- As many bytes as ranges, each in its own. -/
abbrev Follows : List Range → List UInt8 → Prop := List.Forall₂ In

/-- Characters of the table, one behind the other. -/
inductive WellFormed : List UInt8 → Prop
  | nil : WellFormed []
  | char {b : UInt8} {ranges : List Range} {t rest : List UInt8} :
    followers b = some ranges → Follows ranges t → WellFormed rest → WellFormed (b :: t ++ rest)

/-! ## 2. The characters -/

theorem in_iff_toNat {r : Range} {c : UInt8} :
    In r c ↔ r.1.toNat ≤ c.toNat ∧ c.toNat ≤ r.2.toNat := by
  rw [In, UInt8.le_iff_toNat_le, UInt8.le_iff_toNat_le]

theorem in_tail_ofNat (v : ℕ) : In tail (UInt8.ofNat (v % 0x40 + 0x80)) := by
  rw [in_iff_toNat, UInt8.toNat_ofNat', Nat.mod_eq_of_lt (by omega)]
  change 0x80 ≤ v % 0x40 + 0x80 ∧ v % 0x40 + 0x80 ≤ 0xBF
  omega

/-- A first byte by its value. -/
theorem followers_eq (b : UInt8) : followers b =
    if b.toNat ≤ 0x7F then some []
    else if 0xC2 ≤ b.toNat ∧ b.toNat ≤ 0xDF then some [tail]
    else if b.toNat = 0xE0 then some [(0xA0, 0xBF), tail]
    else if b.toNat = 0xED then some [(0x80, 0x9F), tail]
    else if 0xE1 ≤ b.toNat ∧ b.toNat ≤ 0xEF then some [tail, tail]
    else if b.toNat = 0xF0 then some [(0x90, 0xBF), tail, tail]
    else if 0xF1 ≤ b.toNat ∧ b.toNat ≤ 0xF3 then some [tail, tail, tail]
    else if b.toNat = 0xF4 then some [(0x80, 0x8F), tail, tail]
    else none := by
  unfold followers
  simp only [UInt8.le_iff_toNat_le, ← UInt8.toNat_inj]
  rfl

/-- The bytes of a character are a line of the table. -/
theorem follows_utf8EncodeChar (c : Char) : ∃ b ranges t,
    String.utf8EncodeChar c = b :: t ∧ followers b = some ranges ∧ Follows ranges t := by
  have hvalid : c.val.toNat < 0xD800 ∨ 0xDFFF < c.val.toNat ∧ c.val.toNat < 0x110000 := c.valid
  generalize hv : c.val.toNat = v at hvalid
  unfold String.utf8EncodeChar
  simp only [hv]
  have hbyte : ∀ n < 256, (UInt8.ofNat n).toNat = n := fun n hn => by
    rw [UInt8.toNat_ofNat', Nat.mod_eq_of_lt hn]
  have hin : ∀ {lo hi : UInt8} {n : ℕ}, n < 256 → lo.toNat ≤ n → n ≤ hi.toNat →
      In (lo, hi) (UInt8.ofNat n) := fun hn hlo hhi => by
    rw [in_iff_toNat, hbyte _ hn]
    exact ⟨hlo, hhi⟩
  split
  · exact ⟨_, [], [], rfl, by rw [followers_eq, hbyte _ (by omega), if_pos (by omega)], .nil⟩
  · split
    · refine ⟨_, [tail], _, rfl, ?_, .cons (in_tail_ofNat v) .nil⟩
      rw [followers_eq, hbyte _ (by omega), if_neg (by omega), if_pos (by omega)]
    · split
      · have hlead := hbyte (v / 4096 % 16 + 224) (by omega)
        by_cases he0 : v / 4096 % 16 = 0
        · refine ⟨_, [(0xA0, 0xBF), tail], _, rfl, ?_, .cons ?_ (.cons (in_tail_ofNat v) .nil)⟩
          · rw [followers_eq, hlead, if_neg (by omega), if_neg (by omega), if_pos (by omega)]
          · exact hin (by omega) (by change 0xA0 ≤ _; omega) (by change _ ≤ 0xBF; omega)
        · by_cases hed : v / 4096 % 16 = 13
          · refine ⟨_, [(0x80, 0x9F), tail], _, rfl, ?_, .cons ?_ (.cons (in_tail_ofNat v) .nil)⟩
            · rw [followers_eq, hlead, if_neg (by omega), if_neg (by omega), if_neg (by omega),
                if_pos (by omega)]
            · exact hin (by omega) (by change 0x80 ≤ _; omega) (by change _ ≤ 0x9F; omega)
          · refine ⟨_, [tail, tail], _, rfl, ?_, .cons (in_tail_ofNat (v / 64))
              (.cons (in_tail_ofNat v) .nil)⟩
            rw [followers_eq, hlead, if_neg (by omega), if_neg (by omega), if_neg (by omega),
              if_neg (by omega), if_pos (by omega)]
      · have hlead := hbyte (v / 262144 % 8 + 240) (by omega)
        have htails := List.Forall₂.cons (in_tail_ofNat (v / 64))
          (.cons (in_tail_ofNat v) .nil)
        by_cases hf0 : v / 262144 % 8 = 0
        · refine ⟨_, [(0x90, 0xBF), tail, tail], _, rfl, ?_, .cons ?_ htails⟩
          · rw [followers_eq, hlead, if_neg (by omega), if_neg (by omega), if_neg (by omega),
              if_neg (by omega), if_neg (by omega), if_pos (by omega)]
          · exact hin (by omega) (by change 0x90 ≤ _; omega) (by change _ ≤ 0xBF; omega)
        · by_cases hf4 : v / 262144 % 8 = 4
          · refine ⟨_, [(0x80, 0x8F), tail, tail], _, rfl, ?_, .cons ?_ htails⟩
            · rw [followers_eq, hlead, if_neg (by omega), if_neg (by omega), if_neg (by omega),
                if_neg (by omega), if_neg (by omega), if_neg (by omega), if_neg (by omega),
                if_pos (by omega)]
            · exact hin (by omega) (by change 0x80 ≤ _; omega) (by change _ ≤ 0x8F; omega)
          · refine ⟨_, [tail, tail, tail], _, rfl, ?_, .cons (in_tail_ofNat (v / 4096)) htails⟩
            rw [followers_eq, hlead, if_neg (by omega), if_neg (by omega), if_neg (by omega),
              if_neg (by omega), if_neg (by omega), if_neg (by omega), if_pos (by omega)]

theorem exists_char {v : ℕ} (h : v < 0xD800 ∨ 0xDFFF < v ∧ v < 0x110000) :
    ∃ c : Char, c.val.toNat = v := by
  have hvalid : v.isValidChar := h
  refine ⟨Char.ofNat v, ?_⟩
  rw [Char.ofNat, dif_pos hvalid]
  rfl

theorem eq_ofNat {b : UInt8} {n : ℕ} (h : n = b.toNat) : UInt8.ofNat n = b := by
  rw [h, UInt8.ofNat_toNat]

theorem toNat_of_in_tail {c : UInt8} (h : In tail c) : 0x80 ≤ c.toNat ∧ c.toNat ≤ 0xBF :=
  in_iff_toNat.mp h

theorem exists_char_two {b c₁ : UInt8} (hb : 0xC2 ≤ b.toNat ∧ b.toNat ≤ 0xDF) (h₁ : In tail c₁) :
    ∃ c : Char, String.utf8EncodeChar c = [b, c₁] := by
  have h₁ := toNat_of_in_tail h₁
  obtain ⟨c, hc⟩ := exists_char (v := (b.toNat - 0xC0) * 64 + (c₁.toNat - 0x80)) (by omega)
  refine ⟨c, ?_⟩
  unfold String.utf8EncodeChar
  simp only [hc]
  rw [if_neg (by omega), if_pos (by omega), eq_ofNat (b := b) (by omega),
    eq_ofNat (b := c₁) (by omega)]

theorem exists_char_three {b c₁ c₂ : UInt8} (hb : 0xE0 ≤ b.toNat ∧ b.toNat ≤ 0xEF)
    (h₁ : In tail c₁) (h₂ : In tail c₂) (hlong : b.toNat = 0xE0 → 0xA0 ≤ c₁.toNat)
    (hsurrogate : b.toNat = 0xED → c₁.toNat ≤ 0x9F) :
    ∃ c : Char, String.utf8EncodeChar c = [b, c₁, c₂] := by
  have h₁ := toNat_of_in_tail h₁
  have h₂ := toNat_of_in_tail h₂
  obtain ⟨c, hc⟩ := exists_char
    (v := (b.toNat - 0xE0) * 4096 + (c₁.toNat - 0x80) * 64 + (c₂.toNat - 0x80)) (by omega)
  refine ⟨c, ?_⟩
  unfold String.utf8EncodeChar
  simp only [hc]
  rw [if_neg (by omega), if_neg (by omega), if_pos (by omega), eq_ofNat (b := b) (by omega),
    eq_ofNat (b := c₁) (by omega), eq_ofNat (b := c₂) (by omega)]

theorem exists_char_four {b c₁ c₂ c₃ : UInt8} (hb : 0xF0 ≤ b.toNat ∧ b.toNat ≤ 0xF4)
    (h₁ : In tail c₁) (h₂ : In tail c₂) (h₃ : In tail c₃)
    (hlong : b.toNat = 0xF0 → 0x90 ≤ c₁.toNat) (hlast : b.toNat = 0xF4 → c₁.toNat ≤ 0x8F) :
    ∃ c : Char, String.utf8EncodeChar c = [b, c₁, c₂, c₃] := by
  have h₁ := toNat_of_in_tail h₁
  have h₂ := toNat_of_in_tail h₂
  have h₃ := toNat_of_in_tail h₃
  obtain ⟨c, hc⟩ := exists_char
    (v := (b.toNat - 0xF0) * 262144 + (c₁.toNat - 0x80) * 4096 + (c₂.toNat - 0x80) * 64 +
      (c₃.toNat - 0x80)) (by omega)
  refine ⟨c, ?_⟩
  unfold String.utf8EncodeChar
  simp only [hc]
  rw [if_neg (by omega), if_neg (by omega), if_neg (by omega), eq_ofNat (b := b) (by omega),
    eq_ofNat (b := c₁) (by omega), eq_ofNat (b := c₂) (by omega), eq_ofNat (b := c₃) (by omega)]

theorem follows_one {r : Range} {t : List UInt8} : Follows [r] t → ∃ c, t = [c] ∧ In r c
  | .cons h .nil => ⟨_, rfl, h⟩

theorem follows_two {r₁ r₂ : Range} {t : List UInt8} :
    Follows [r₁, r₂] t → ∃ c₁ c₂, t = [c₁, c₂] ∧ In r₁ c₁ ∧ In r₂ c₂
  | .cons h₁ (.cons h₂ .nil) => ⟨_, _, rfl, h₁, h₂⟩

theorem follows_three {r₁ r₂ r₃ : Range} {t : List UInt8} :
    Follows [r₁, r₂, r₃] t → ∃ c₁ c₂ c₃, t = [c₁, c₂, c₃] ∧ In r₁ c₁ ∧ In r₂ c₂ ∧ In r₃ c₃
  | .cons h₁ (.cons h₂ (.cons h₃ .nil)) => ⟨_, _, _, rfl, h₁, h₂, h₃⟩

/-- A narrower range of continuation bytes. -/
theorem In.tail {lo hi : ℕ} {r : Range} {c : UInt8} (h : In r c) (hlo : r.1.toNat = lo)
    (hhi : r.2.toNat = hi) (h80 : 0x80 ≤ lo) (hbf : hi ≤ 0xBF) :
    In tail c ∧ lo ≤ c.toNat ∧ c.toNat ≤ hi := by
  obtain ⟨h₁, h₂⟩ := in_iff_toNat.mp h
  rw [hlo] at h₁
  rw [hhi] at h₂
  exact ⟨in_iff_toNat.mpr ⟨Nat.le_trans h80 h₁, Nat.le_trans h₂ hbf⟩, h₁, h₂⟩

/-- A line of the table is the bytes of a character. -/
theorem exists_utf8EncodeChar {b : UInt8} {ranges : List Range} {t : List UInt8}
    (hb : followers b = some ranges) (ht : Follows ranges t) :
    ∃ c : Char, String.utf8EncodeChar c = b :: t := by
  rw [followers_eq] at hb
  split_ifs at hb with h1 h2 he0 hed h3 hf0 h4 hf4 <;> obtain rfl := Option.some.inj hb
  · obtain ⟨⟩ := ht
    obtain ⟨c, hc⟩ := exists_char (v := b.toNat) (by omega)
    refine ⟨c, ?_⟩
    unfold String.utf8EncodeChar
    simp only [hc]
    rw [if_pos h1, UInt8.ofNat_toNat]
  · obtain ⟨c₁, rfl, h₁⟩ := follows_one ht
    exact exists_char_two h2 h₁
  · obtain ⟨c₁, c₂, rfl, h₁, h₂⟩ := follows_two ht
    obtain ⟨h₁, hlo, -⟩ := h₁.tail rfl rfl (by decide) (by decide)
    exact exists_char_three (by omega) h₁ h₂ (fun _ => hlo) (by omega)
  · obtain ⟨c₁, c₂, rfl, h₁, h₂⟩ := follows_two ht
    obtain ⟨h₁, -, hhi⟩ := h₁.tail rfl rfl (by decide) (by decide)
    exact exists_char_three (by omega) h₁ h₂ (by omega) (fun _ => hhi)
  · obtain ⟨c₁, c₂, rfl, h₁, h₂⟩ := follows_two ht
    exact exists_char_three (by omega) h₁ h₂ (by omega) (by omega)
  · obtain ⟨c₁, c₂, c₃, rfl, h₁, h₂, h₃⟩ := follows_three ht
    obtain ⟨h₁, hlo, -⟩ := h₁.tail rfl rfl (by decide) (by decide)
    exact exists_char_four (by omega) h₁ h₂ h₃ (fun _ => hlo) (by omega)
  · obtain ⟨c₁, c₂, c₃, rfl, h₁, h₂, h₃⟩ := follows_three ht
    exact exists_char_four (by omega) h₁ h₂ h₃ (by omega) (by omega)
  · obtain ⟨c₁, c₂, c₃, rfl, h₁, h₂, h₃⟩ := follows_three ht
    obtain ⟨h₁, -, hhi⟩ := h₁.tail rfl rfl (by decide) (by decide)
    exact exists_char_four (by omega) h₁ h₂ h₃ (by omega) (fun _ => hhi)

/-! ## 3. Texts -/

/-- The table takes the encodings of texts and nothing else. -/
theorem valid_iff_wellFormed {s : List UInt8} : Valid s ↔ WellFormed s := by
  constructor
  · rintro ⟨cs, rfl⟩
    induction cs with
    | nil => exact .nil
    | cons c cs ih =>
      obtain ⟨b, ranges, t, henc, hb, ht⟩ := follows_utf8EncodeChar c
      rw [encode_cons, henc]
      exact .char hb ht ih
  · intro h
    induction h with
    | nil => exact valid_nil
    | char hb ht _ ih =>
      obtain ⟨c, hc⟩ := exists_utf8EncodeChar hb ht
      rw [← hc, ← List.append_nil (String.utf8EncodeChar c)]
      exact Valid.append ⟨[c], rfl⟩ ih

theorem WellFormed.append {s t : List UInt8} (hs : WellFormed s) (ht : WellFormed t) :
    WellFormed (s ++ t) := by
  rw [← valid_iff_wellFormed] at hs ht ⊢
  exact hs.append ht

theorem wellFormed_char {b : UInt8} {ranges : List Range} {t : List UInt8}
    (hb : followers b = some ranges) (ht : Follows ranges t) : WellFormed (b :: t) := by
  have h := WellFormed.char hb ht .nil
  rwa [List.append_nil] at h

end Utf8
