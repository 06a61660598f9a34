/-
# Sorted sets

`std::set` read in iteration order: a strictly increasing list.  The order is carried by the
type, so "the first element that passes a test" is the least one.
-/
import Mathlib.Order.Lattice
import Mathlib.Tactic.Common

/-- A finite set, listed in strictly increasing order. -/
structure OrdSet (α : Type) [LinearOrder α] where
  elems : List α
  sorted : elems.Pairwise (· < ·)

namespace OrdSet

variable {α : Type} [LinearOrder α]

instance : EmptyCollection (OrdSet α) := ⟨⟨[], List.Pairwise.nil⟩⟩

theorem ext_elems {s t : OrdSet α} (h : s.elems = t.elems) : s = t := by
  cases s
  cases t
  cases h
  rfl

instance : DecidableEq (OrdSet α) := fun s t =>
  decidable_of_iff (s.elems = t.elems) ⟨ext_elems, congrArg elems⟩

instance : Membership α (OrdSet α) := ⟨fun s x => x ∈ s.elems⟩

instance (x : α) (s : OrdSet α) : Decidable (x ∈ s) := inferInstanceAs (Decidable (x ∈ s.elems))

/-- Insert into a sorted list, unless the element is there. -/
def insertSorted (x : α) : List α → List α
  | [] => [x]
  | y :: ys => if x < y then x :: y :: ys else if y < x then y :: insertSorted x ys else y :: ys

theorem mem_insertSorted {x z : α} {l : List α} : z ∈ insertSorted x l ↔ z = x ∨ z ∈ l := by
  induction l with
  | nil => simp [insertSorted]
  | cons y ys ih =>
    unfold insertSorted
    split
    · simp
    · split
      · rw [List.mem_cons, ih, List.mem_cons]
        tauto
      · have : x = y := le_antisymm (not_lt.mp ‹_›) (not_lt.mp ‹_›)
        subst this
        simp

theorem pairwise_insertSorted {x : α} {l : List α} (h : l.Pairwise (· < ·)) :
    (insertSorted x l).Pairwise (· < ·) := by
  induction l with
  | nil => simp [insertSorted]
  | cons y ys ih =>
    obtain ⟨hy, hys⟩ := List.pairwise_cons.mp h
    unfold insertSorted
    split
    · rename_i hxy
      refine List.pairwise_cons.mpr ⟨?_, h⟩
      intro z hz
      rcases List.mem_cons.mp hz with rfl | hz
      · exact hxy
      · exact hxy.trans (hy z hz)
    · split
      · rename_i hyx
        refine List.pairwise_cons.mpr ⟨?_, ih hys⟩
        intro z hz
        rcases mem_insertSorted.mp hz with rfl | hz
        · exact hyx
        · exact hy z hz
      · exact h

/-- `s.insert(x)`. -/
def insert (s : OrdSet α) (x : α) : OrdSet α :=
  ⟨insertSorted x s.elems, pairwise_insertSorted s.sorted⟩

/-- `s.insert(x)` guarded by a test. -/
def insertIf (p : α → Bool) (s : OrdSet α) (x : α) : OrdSet α := if p x then s.insert x else s

/-- The first element in order that passes the test. -/
def find? (s : OrdSet α) (p : α → Bool) : Option α := s.elems.find? p

@[simp] theorem not_mem_empty (x : α) : ¬ x ∈ (∅ : OrdSet α) := List.not_mem_nil

@[simp] theorem mem_insert {x z : α} {s : OrdSet α} : z ∈ s.insert x ↔ z = x ∨ z ∈ s :=
  mem_insertSorted

theorem mem_insertIf {p : α → Bool} {x z : α} {s : OrdSet α} :
    z ∈ s.insertIf p x ↔ (z = x ∧ p x = true) ∨ z ∈ s := by
  unfold insertIf
  split <;> simp [*]

/-- Guarded insertion of a whole list. -/
theorem mem_foldl_insertIf {p : α → Bool} {z : α} {l : List α} {s : OrdSet α} :
    z ∈ l.foldl (insertIf p) s ↔ (z ∈ l ∧ p z = true) ∨ z ∈ s := by
  induction l generalizing s with
  | nil => simp
  | cons x l ih =>
    rw [List.foldl_cons, ih, mem_insertIf, List.mem_cons]
    constructor
    · rintro (⟨hz, hp⟩ | ⟨rfl, hp⟩ | hz)
      · exact Or.inl ⟨Or.inr hz, hp⟩
      · exact Or.inl ⟨Or.inl rfl, hp⟩
      · exact Or.inr hz
    · rintro (⟨rfl | hz, hp⟩ | hz)
      · exact Or.inr (Or.inl ⟨rfl, hp⟩)
      · exact Or.inl ⟨hz, hp⟩
      · exact Or.inr (Or.inr hz)

theorem mem_of_find?_eq_some {s : OrdSet α} {p : α → Bool} {x : α} (h : s.find? p = some x) :
    x ∈ s ∧ p x = true := ⟨List.mem_of_find?_eq_some h, List.find?_some h⟩

theorem find?_eq_none_iff {s : OrdSet α} {p : α → Bool} :
    s.find? p = none ↔ ∀ x ∈ s, ¬ p x = true := List.find?_eq_none

end OrdSet
