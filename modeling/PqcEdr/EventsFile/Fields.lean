/-
# Fields and words

`encode_field` replaces some bytes by three others and leaves the rest, so it commutes with cutting a
text at any byte that it leaves and that no escape contains.  Of white space it leaves vertical tabs
and form feeds: the words of an encoded field are the encodings of the pieces between these.
-/
import PqcEdr.EventsFile.Format

namespace PqcEdr.EventsFile

open TextInput

/-! ## 1. `encode_field` -/

/-- What a byte becomes. -/
def encodeByte (c : UInt8) : Bytes :=
  if isEscaped c then [37, hexDigit (c.toNat / 16), hexDigit (c.toNat % 16)] else [c]

@[simp] theorem encodeField_nil : encodeField [] = [] := rfl

theorem encodeField_cons (c : UInt8) (s : Bytes) :
    encodeField (c :: s) = encodeByte c ++ encodeField s := List.flatMap_cons

theorem encodeField_append (s t : Bytes) :
    encodeField (s ++ t) = encodeField s ++ encodeField t := List.flatMap_append

theorem encodeByte_of_not {c : UInt8} (h : isEscaped c = false) : encodeByte c = [c] := by
  simp [encodeByte, h]

theorem isEscaped_cases {c : UInt8} (h : isEscaped c = true) :
    c = 32 ∨ c = 35 ∨ c = 37 ∨ c = 9 ∨ c = 10 ∨ c = 13 := by
  simpa [isEscaped, or_assoc] using h

/-- Text without the escaped bytes is its own encoding. -/
theorem encodeField_eq_self {s : Bytes} (h : ∀ c ∈ s, isEscaped c = false) : encodeField s = s := by
  induction s with
  | nil => rfl
  | cons c s ih =>
    rw [encodeField_cons, encodeByte_of_not (h c List.mem_cons_self),
      ih fun d hd => h d (List.mem_cons_of_mem c hd)]
    rfl

theorem length_encodeField_le (s : Bytes) : (encodeField s).length ≤ 3 * s.length := by
  induction s with
  | nil => rfl
  | cons c s ih =>
    have hbyte : (encodeByte c).length ≤ 3 := by
      rw [encodeByte]
      split <;> simp
    rw [encodeField_cons, List.length_append, List.length_cons]
    omega

theorem encodeField_ne_nil {s : Bytes} (h : s ≠ []) : encodeField s ≠ [] := by
  obtain ⟨c, t, rfl⟩ := List.exists_cons_of_ne_nil h
  have hbyte : encodeByte c ≠ [] := by
    rw [encodeByte]
    split <;> simp
  rw [encodeField_cons]
  exact List.append_ne_nil_of_left_ne_nil hbyte _

/-- A byte that the encoding leaves alone and that no escape contains. -/
def Kept (b : UInt8) : Prop := isEscaped b = false ∧ ∀ c, isEscaped c = true → b ∉ encodeByte c

theorem kept_of {b : UInt8} (h : isEscaped b = false)
    (hhex : b ∉ ([48, 50, 51, 53, 57, 65, 68] : Bytes)) : Kept b := by
  refine ⟨h, ?_⟩
  intro c hc hmem
  refine hhex ?_
  have h37 : b ≠ 37 := by
    rintro rfl
    exact absurd h (by decide)
  rcases isEscaped_cases hc with rfl | rfl | rfl | rfl | rfl | rfl <;>
    simp [encodeByte, isEscaped, hexDigit, h37] at hmem <;>
    rcases hmem with rfl | rfl <;> simp

theorem mem_encodeField_of_kept {b : UInt8} (hb : Kept b) {s : Bytes} :
    b ∈ encodeField s ↔ b ∈ s := by
  induction s with
  | nil => rfl
  | cons c s ih =>
    rw [encodeField_cons, List.mem_append, ih, List.mem_cons]
    refine or_congr_left ?_
    by_cases hc : isEscaped c = true
    · refine iff_of_false (hb.2 c hc) ?_
      rintro rfl
      rw [hb.1] at hc
      cases hc
    · rw [encodeByte_of_not (by simpa using hc), List.mem_singleton]

/-- What the encoding is there for. -/
theorem not_mem_encodeField {b : UInt8} (hb : isEscaped b = true) (h37 : b ≠ 37) (s : Bytes) :
    b ∉ encodeField s := by
  induction s with
  | nil => exact List.not_mem_nil
  | cons c s ih =>
    rw [encodeField_cons, List.mem_append, not_or]
    refine ⟨?_, ih⟩
    by_cases hc : isEscaped c = true
    · rcases isEscaped_cases hc with rfl | rfl | rfl | rfl | rfl | rfl <;>
        rcases isEscaped_cases hb with rfl | rfl | rfl | rfl | rfl | rfl <;>
        first | exact absurd rfl h37 | decide
    · rw [encodeByte_of_not (by simpa using hc), List.mem_singleton]
      rintro rfl
      exact hc hb

/-! ## 2. `decode_field` -/

theorem decodeField_cons {c : UInt8} (hc : c ≠ 37) (s : Bytes) :
    decodeField (c :: s) = c :: decodeField s := by
  rw [decodeField]
  rintro a b t h -
  exact hc h

theorem decodeField_escape {a b v : UInt8} (h : hexByte? a b = some v) (s : Bytes) :
    decodeField (37 :: a :: b :: s) = v :: decodeField s := by
  rw [decodeField, h]

/-- Decoding undoes encoding, for all bytes. -/
theorem decodeField_encodeField (s : Bytes) : decodeField (encodeField s) = s := by
  induction s with
  | nil => rfl
  | cons c s ih =>
    rw [encodeField_cons]
    by_cases hc : isEscaped c = true
    · have hhex : hexByte? (hexDigit (c.toNat / 16)) (hexDigit (c.toNat % 16)) = some c := by
        rcases isEscaped_cases hc with rfl | rfl | rfl | rfl | rfl | rfl <;> decide
      rw [encodeByte, if_pos hc]
      exact (decodeField_escape hhex _).trans (congrArg (c :: ·) ih)
    · have h37 : c ≠ 37 := by
        rintro rfl
        exact hc (by decide)
      rw [encodeByte_of_not (by simpa using hc)]
      exact (decodeField_cons h37 _).trans (congrArg (c :: ·) ih)

/-- **The field codec.**  Whatever bytes a field is made of, decoding undoes encoding, so no two
fields are written alike. -/
theorem field_codec_round_trip :
    (∀ s, decodeField (encodeField s) = s) ∧ Function.Injective encodeField := by
  refine ⟨decodeField_encodeField, ?_⟩
  intro s t h
  rw [← decodeField_encodeField s, h, decodeField_encodeField]

-- an escape that ends with the string, behind a `%` that looks like one
example : encodeField (lit "%41 ") = lit "%2541%20" := by decide

/-- An encoding that begins with an unescaped byte. -/
theorem encodeField_eq_cons {s t : Bytes} {c : UInt8} (h : encodeField s = c :: t) (hc : c ≠ 37) :
    ∃ s', s = c :: s' ∧ t = encodeField s' := by
  cases s with
  | nil => cases h
  | cons d s =>
    rw [encodeField_cons] at h
    by_cases hd : isEscaped d = true
    · rw [encodeByte, if_pos hd, List.cons_append, List.cons.injEq] at h
      exact absurd h.1.symm hc
    · rw [encodeByte_of_not (by simpa using hd), List.singleton_append, List.cons.injEq] at h
      obtain ⟨rfl, rfl⟩ := h
      exact ⟨s, rfl, rfl⟩

/-! ## 3. Cutting -/

/-- Cutting the encoding at `p` is cutting the text at `q`, when no escape has a byte to cut at. -/
theorem splitOnP_encodeField {p q : UInt8 → Bool}
    (hesc : ∀ c, isEscaped c = true → q c = false ∧ ∀ b ∈ encodeByte c, p b = false)
    (hkeep : ∀ c, isEscaped c = false → p c = q c) (s : Bytes) :
    (encodeField s).splitOnP p = (s.splitOnP q).map encodeField := by
  induction s with
  | nil => rfl
  | cons c s ih =>
    obtain ⟨w, ws, hws⟩ := List.exists_cons_of_ne_nil (List.splitOnP_ne_nil q s)
    rw [encodeField_cons, List.splitOnP_cons_eq_if_modifyHead]
    by_cases hc : isEscaped c = true
    · obtain ⟨hq, hp⟩ := hesc c hc
      rw [encodeByte, if_pos hc] at hp
      rw [encodeByte, if_pos hc]
      simp only [List.cons_append, List.nil_append, List.splitOnP_cons_eq_if_modifyHead,
        hp _ (List.mem_cons_self), hp _ (List.mem_cons_of_mem _ List.mem_cons_self),
        hp _ (List.mem_cons_of_mem _ (List.mem_cons_of_mem _ List.mem_cons_self)), hq, ih, hws]
      simp [encodeField_cons, encodeByte, hc]
    · have hc' : isEscaped c = false := by simpa using hc
      rw [encodeByte_of_not hc', List.singleton_append, List.splitOnP_cons_eq_if_modifyHead,
        hkeep c hc', ih, hws]
      by_cases hq : q c = true
      · simp [hq]
      · simp [hq, encodeField_cons, encodeByte_of_not hc']

/-- The white space that `encode_field` leaves. -/
def isBreak (c : UInt8) : Bool := c == 11 || c == 12

/-- The parts of a text between breaks. -/
def pieces (s : Bytes) : List Bytes := (s.splitOnP isBreak).filter (· ≠ [])

theorem isSpace_encodeByte {c : UInt8} (hc : isEscaped c = true) :
    isBreak c = false ∧ ∀ b ∈ encodeByte c, isSpace b = false := by
  rcases isEscaped_cases hc with rfl | rfl | rfl | rfl | rfl | rfl <;> decide

theorem isSpace_eq_isBreak {c : UInt8} (hc : isEscaped c = false) : isSpace c = isBreak c := by
  rw [Bool.eq_iff_iff]
  simp only [isEscaped, Bool.or_eq_false_iff, beq_eq_false_iff_ne, ne_eq] at hc
  simp only [isSpace, isBreak, Bool.or_eq_true, Bool.and_eq_true, beq_iff_eq, decide_eq_true_eq,
    UInt8.le_iff_toNat_le, ← UInt8.toNat_inj] at hc ⊢
  simp at hc ⊢
  omega

/-- The words of an encoded field. -/
theorem words_encodeField (s : Bytes) : words (encodeField s) = (pieces s).map encodeField := by
  have hfilter : ∀ l : List Bytes, (l.map encodeField).filter (· ≠ []) =
      (l.filter (· ≠ [])).map encodeField := by
    intro l
    induction l with
    | nil => rfl
    | cons w l ih =>
      by_cases hw : w = []
      · subst hw
        simpa using ih
      · have hne := encodeField_ne_nil hw
        simp only [List.map_cons, List.filter_cons, hne, hw, ne_eq, not_false_eq_true, decide_true,
          if_true]
        exact congrArg _ ih
  rw [words, splitOnP_encodeField (fun c => isSpace_encodeByte) (fun c => isSpace_eq_isBreak),
    hfilter, pieces]

theorem of_mem_pieces {s w : Bytes} (h : w ∈ pieces s) : ∀ c ∈ w, isBreak c = false := by
  intro c hc
  exact (of_mem_splitOnP (List.mem_filter.mp h).1 c hc).1

theorem pieces_singleton {s : Bytes} (hs : s ≠ []) (h : ∀ c ∈ s, isBreak c = false) :
    pieces s = [s] := by
  rw [pieces, List.splitOnP_eq_singleton h]
  simp [hs]

/-- The items between bars. -/
theorem splitOn_encodeField {b : UInt8} (hb : Kept b) (s : Bytes) :
    (encodeField s).splitOn b = (s.splitOn b).map encodeField := by
  rw [List.splitOn_eq_splitOnP, List.splitOn_eq_splitOnP]
  refine splitOnP_encodeField ?_ (fun c _ => rfl) s
  intro c hc
  refine ⟨?_, ?_⟩
  · rw [beq_eq_false_iff_ne]
    rintro rfl
    rw [hb.1] at hc
    cases hc
  · intro d hd
    rw [beq_eq_false_iff_ne]
    rintro rfl
    exact hb.2 c hc hd

end PqcEdr.EventsFile
