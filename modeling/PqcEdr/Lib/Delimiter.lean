/-
# Occurrences of a delimiter

When does a text that ends with a delimiter hold no other occurrence of it?  Two facts decide it
for a concrete message: an occurrence never crosses a symbol that the delimiter does not have,
and a delimiter whose first symbol does not come back in it never overlaps itself.
-/
import Mathlib.Data.List.Infix
import Mathlib.Tactic.Common

namespace Delimiter

variable {α : Type} {n : List α}

/-- An occurrence lies on one side of a symbol that is not in it. -/
theorem infix_append_cons_iff {l r : List α} {c : α} (hc : c ∉ n) :
    n <:+: l ++ c :: r ↔ n <:+: l ∨ n <:+: r := by
  constructor
  · rintro ⟨s, t, h⟩
    rcases List.append_eq_append_iff.mp h with ⟨m, hl, -⟩ | ⟨m, hs, hr⟩
    · exact Or.inl ⟨s, m, hl.symm⟩
    · rcases m with _ | ⟨d, m⟩
      · exact Or.inl ⟨s, [], by simpa using hs⟩
      · -- the occurrence ends behind `c`; it starts behind it, or holds it
        obtain ⟨rfl, rfl⟩ := List.cons.inj hr
        rcases List.append_eq_append_iff.mp hs with ⟨k, -, hn⟩ | ⟨k, -, hn⟩
        · exact absurd (hn ▸ List.mem_append_right k List.mem_cons_self) hc
        · rcases k with _ | ⟨d, k⟩
          · rw [List.nil_append] at hn
            exact absurd (hn ▸ List.mem_cons_self) hc
          · obtain ⟨rfl, rfl⟩ := List.cons.inj hn
            exact Or.inr ⟨k, t, rfl⟩
  · rintro (h | h)
    · exact List.infix_append_of_infix_left h
    · exact List.infix_append_of_infix_right (h.trans (List.infix_cons List.infix_rfl))

/-- A map that keeps a word's symbols apart from all others neither makes nor destroys an
occurrence of it. -/
theorem infix_map_iff {f : α → α} (hf : ∀ x, ∀ y ∈ n, f x = y ↔ x = y) {l : List α} :
    n <:+: l.map f ↔ n <:+: l := by
  have hfix : n.map f = n := by
    have : ∀ y ∈ n, f y = id y := by
      intro y hy
      exact (hf y y hy).mpr rfl
    rw [List.map_congr_left this, List.map_id]
  constructor
  · intro h
    obtain ⟨n', h', hmap⟩ := List.infix_map_iff.mp h
    have heq : n' = n := by
      refine List.ext_getElem (by rw [hmap, List.length_map]) ?_
      intro i hi hi'
      refine (hf _ _ (List.getElem_mem hi')).mp ?_
      simp [hmap]
    rwa [← heq]
  · intro h
    exact hfix ▸ h.map f

/-- The text ends with the delimiter, and that is its only occurrence. -/
def ClosedOnce (n m : List α) : Prop := n <:+ m ∧ ∀ p q, m = p ++ n ++ q → q = []

/-- A delimiter that does not overlap itself closes a text once exactly when the text before it
is free of it. -/
theorem closedOnce_append_iff {a : α} {t w : List α} (ha : a ∉ t) :
    ClosedOnce (a :: t) (w ++ a :: t) ↔ ¬ a :: t <:+: w := by
  constructor
  · rintro ⟨-, hlast⟩ ⟨p, q, rfl⟩
    have := hlast p (q ++ a :: t) (by simp)
    simp at this
  · intro hfree
    refine ⟨List.suffix_append w (a :: t), ?_⟩
    intro p q h
    rw [List.append_assoc] at h
    rcases List.append_eq_append_iff.mp h with ⟨m, -, hm⟩ | ⟨m, rfl, hm⟩
    · have hlen := congrArg List.length hm
      simp only [List.length_append] at hlen
      exact List.eq_nil_of_length_eq_zero (by omega)
    · rcases List.append_eq_append_iff.mp hm with ⟨k, rfl, -⟩ | ⟨k, hk, hk'⟩
      · exact absurd ⟨p, k, by simp⟩ hfree
      · rcases k with _ | ⟨b, k⟩
        · rw [List.append_nil] at hk
          exact absurd ⟨p, [], by simp [hk]⟩ hfree
        · -- the two occurrences overlap in `b :: k`, so `b = a` comes back
          obtain ⟨rfl, -⟩ := List.cons.inj hk'
          rcases m with _ | ⟨c, m⟩
          · simpa using hm
          · obtain ⟨rfl, rfl⟩ := List.cons.inj hk
            simp at ha

end Delimiter
