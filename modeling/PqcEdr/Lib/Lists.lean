/-
# Places in lists

Related lists place by place, an element with what stands around it, and sublists that are too
short to be anything but prefixes.
-/
import Mathlib.Data.List.Basic
import Mathlib.Data.List.Forall2

namespace Lists

variable {α β : Type} {R : α → β → Prop} {l : List α} {l' : List β}

/-- The partner of an element, at the same place. -/
theorem getElem?_of_forall₂ (h : List.Forall₂ R l l') {k : ℕ} {a : α} (hk : l[k]? = some a) :
    ∃ b, l'[k]? = some b ∧ R a b := by
  induction h generalizing k with
  | nil => cases hk
  | cons hr _ ih =>
    cases k with
    | zero =>
      cases hk
      exact ⟨_, rfl, hr⟩
    | succ k => exact ih hk

theorem exists_of_forall₂ (h : List.Forall₂ R l l') {a : α} (ha : a ∈ l) : ∃ b ∈ l', R a b := by
  obtain ⟨k, hk⟩ := List.mem_iff_getElem?.mp ha
  obtain ⟨b, hb, hab⟩ := getElem?_of_forall₂ h hk
  exact ⟨b, List.mem_of_getElem? hb, hab⟩

/-- An element of a list and what stands before and behind it. -/
theorem exists_append_of_getElem? {k : ℕ} {x : α} (h : l[k]? = some x) :
    ∃ l₁ l₂, l = l₁ ++ x :: l₂ ∧ l₁.length = k := by
  obtain ⟨hk, rfl⟩ := List.getElem?_eq_some_iff.mp h
  refine ⟨l.take k, l.drop (k + 1), ?_, by rw [List.length_take]; omega⟩
  rw [← List.drop_eq_getElem_cons hk, List.take_append_drop]

/-- A sublist of at most one element is a prefix. -/
theorem prefix_of_sublist {m : List α} (h : l.Sublist m) (hlen : m.length ≤ 1) : l <+: m := by
  rcases m with _ | ⟨a, _ | ⟨b, m⟩⟩
  · obtain rfl := List.sublist_nil.mp h
    exact List.nil_prefix
  · rcases List.sublist_singleton.mp h with rfl | rfl
    · exact List.nil_prefix
    · exact List.prefix_rfl
  · simp at hlen

end Lists
