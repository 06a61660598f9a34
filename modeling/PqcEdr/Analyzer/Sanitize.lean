/-
# What `sanitize_context` keeps

`analyzer/src/llm_client_claude.cpp`: the control bytes of a context become spaces, one byte for
one byte, and a context of more than 600 bytes is cut and marked.  The cut is found by stepping
back from byte 600 over continuation bytes, which reads inside the string only, and in valid UTF-8
it is the last boundary between characters up to there.
-/
import PqcEdr.Analyzer.Prompt
import PqcEdr.Lib.Utf8

namespace PqcEdr.Analyzer

/-! ## 1. What is promised -/

/-- The loop over `out[cut]` with each index checked: `none` outside of the string. -/
def utf8CutChecked (out : Bytes) : ℕ → Option ℕ
  | 0 => some 0
  | cut + 1 =>
    match out[cut + 1]? with
    | none => none
    | some c => if c &&& 0xC0 = 0x80 then utf8CutChecked out cut else some (cut + 1)

/-- The text of a context that is sent, as the comment on `sanitize_context` has it. -/
structure Sanitized (context out : Bytes) : Prop where
  clean : ∀ c ∈ out, ¬ c < 0x20 ∧ c ≠ 0x7F
  length_le : out.length ≤ kMaxContextBytes + truncationMark.length
  short : context.length ≤ kMaxContextBytes → out = context.map spaceOutControl
  long : kMaxContextBytes < context.length → ∃ k,
    utf8CutChecked (context.map spaceOutControl) kMaxContextBytes = some k ∧
      k ≤ kMaxContextBytes ∧ out = (context.map spaceOutControl).take k ++ truncationMark ∧
      (Utf8.Valid context → Utf8.LastBoundary context kMaxContextBytes k)
  valid : Utf8.Valid context → Utf8.Valid out

/-! ## 2. The replacement -/

theorem not_isControl_iff {c : UInt8} : isControl c = false ↔ ¬ c < 0x20 ∧ c ≠ 0x7F := by
  simp [isControl]

theorem spaceOutControl_clean (c : UInt8) : isControl (spaceOutControl c) = false := by
  unfold spaceOutControl
  split
  · rfl
  · simp_all

theorem toNat_lt_of_isControl {c : UInt8} (h : isControl c = true) : c.toNat < 0x80 := by
  simp only [isControl, Bool.or_eq_true, decide_eq_true_eq, UInt8.lt_iff_toNat_lt] at h
  rcases h with h | rfl
  · exact h.trans (by decide)
  · decide

theorem valid_map_spaceOutControl {context : Bytes} (h : Utf8.Valid context) :
    Utf8.Valid (context.map spaceOutControl) := by
  refine h.map ?_ ?_
  · intro b hb
    unfold spaceOutControl
    split
    · decide
    · exact hb
  · intro b hb
    have hnot : ¬ isControl b = true :=
      fun hc => absurd (toNat_lt_of_isControl hc) (Nat.not_lt.mpr hb)
    exact if_neg hnot

theorem truncationMark_clean : ∀ c ∈ truncationMark, isControl c = false := by decide

theorem truncationMark_valid : Utf8.Valid truncationMark :=
  ⟨" ...(truncated)".toList, by decide⟩

/-! ## 3. The scan -/

theorem utf8Cut_le (out : Bytes) (cut : ℕ) : utf8Cut out cut ≤ cut := by
  induction cut with
  | zero => exact Nat.le_refl 0
  | succ cut ih =>
    unfold utf8Cut
    split
    · omega
    · exact Nat.le_refl _

/-- Where the scan stops, no continuation byte stands, or the string starts. -/
theorem utf8Cut_stop (out : Bytes) (cut : ℕ) :
    utf8Cut out cut = 0 ∨ Utf8.isCont (out.getD (utf8Cut out cut) 0) = false := by
  induction cut with
  | zero => exact Or.inl rfl
  | succ cut ih =>
    unfold utf8Cut
    split
    · exact ih
    · rename_i hnot
      exact Or.inr (decide_eq_false hnot)

/-- What the scan steps over are continuation bytes. -/
theorem utf8Cut_over (out : Bytes) (cut : ℕ) :
    ∀ j, utf8Cut out cut < j → j ≤ cut → Utf8.isCont (out.getD j 0) = true := by
  induction cut with
  | zero =>
    intro j hlt hle
    exact absurd hle (Nat.not_le.mpr hlt)
  | succ cut ih =>
    unfold utf8Cut
    split
    · rename_i hcont
      intro j hlt hle
      rcases Nat.lt_or_ge cut j with hj | hj
      · obtain rfl : j = cut + 1 := by omega
        exact decide_eq_true hcont
      · exact ih j hlt hj
    · intro j hlt hle
      exact absurd hle (Nat.not_le.mpr hlt)

/-- Inside the string no index is refused. -/
theorem utf8CutChecked_eq {out : Bytes} {cut : ℕ} (h : cut < out.length) :
    utf8CutChecked out cut = some (utf8Cut out cut) := by
  induction cut with
  | zero => rfl
  | succ cut ih =>
    have hget : out[cut + 1]? = some (out.getD (cut + 1) 0) := by simp [h]
    unfold utf8CutChecked utf8Cut
    rw [hget]
    dsimp only
    split
    · exact ih (by omega)
    · rfl

theorem lastBoundary_utf8Cut {context : Bytes} (h : Utf8.Valid context) {cut : ℕ}
    (hlt : cut < context.length) : Utf8.LastBoundary context cut (utf8Cut context cut) :=
  h.lastBoundary hlt (utf8Cut_le context cut) (utf8Cut_stop context cut)
    (utf8Cut_over context cut)

/-! ## 4. The theorem -/

theorem valid_take_utf8Cut {context : Bytes} (h : Utf8.Valid context) {cut : ℕ}
    (hlt : cut < context.length) : Utf8.Valid (context.take (utf8Cut context cut)) :=
  (lastBoundary_utf8Cut h hlt).boundary.2.1

/-- A long context, cut and marked. -/
theorem sanitizeContext_of_long {context : Bytes} (h : kMaxContextBytes < context.length) :
    sanitizeContext context =
      (context.map spaceOutControl).take (utf8Cut (context.map spaceOutControl) kMaxContextBytes)
        ++ truncationMark := by
  unfold sanitizeContext
  exact if_pos (by rwa [List.length_map])

theorem sanitizeContext_of_short {context : Bytes} (h : context.length ≤ kMaxContextBytes) :
    sanitizeContext context = context.map spaceOutControl := by
  unfold sanitizeContext
  exact if_neg (by rwa [List.length_map, gt_iff_lt, Nat.not_lt])

/-- **The sent text is bounded and whole.** -/
theorem sanitize_context_bounded (context : Bytes) :
    Sanitized context (sanitizeContext context) := by
  have hclean : ∀ c ∈ context.map spaceOutControl, isControl c = false := by
    intro c hc
    obtain ⟨b, -, rfl⟩ := List.mem_map.mp hc
    exact spaceOutControl_clean b
  rcases Nat.lt_or_ge kMaxContextBytes context.length with hlong | hshort
  · have hmap : kMaxContextBytes < (context.map spaceOutControl).length := by
      rwa [List.length_map]
    have hcut := utf8Cut_map context kMaxContextBytes hlong
    rw [sanitizeContext_of_long hlong]
    refine ⟨?_, ?_, fun hle => absurd hlong (Nat.not_lt.mpr hle), fun _ => ?_, fun hvalid => ?_⟩
    · intro c hc
      rw [← not_isControl_iff]
      rcases List.mem_append.mp hc with hc | hc
      · exact hclean c (List.mem_of_mem_take hc)
      · exact truncationMark_clean c hc
    · rw [List.length_append]
      have hle := utf8Cut_le (context.map spaceOutControl) kMaxContextBytes
      have htake := List.length_take_le (utf8Cut (context.map spaceOutControl) kMaxContextBytes)
        (context.map spaceOutControl)
      omega
    · refine ⟨_, utf8CutChecked_eq hmap, utf8Cut_le _ _, rfl, fun hvalid => ?_⟩
      rw [hcut]
      exact lastBoundary_utf8Cut hvalid hlong
    · exact (valid_take_utf8Cut (valid_map_spaceOutControl hvalid) hmap).append
        truncationMark_valid
  · rw [sanitizeContext_of_short hshort]
    refine ⟨?_, ?_, fun _ => rfl, fun hlong => absurd hlong (Nat.not_lt.mpr hshort),
      valid_map_spaceOutControl⟩
    · intro c hc
      exact not_isControl_iff.mp (hclean c hc)
    · rw [List.length_map]
      omega

end PqcEdr.Analyzer
