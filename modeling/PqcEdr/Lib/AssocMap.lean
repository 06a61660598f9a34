/-
# Finite maps with a conditional sweep

A thin layer over Mathlib's `AList`: the operations a `std::map` is used with when it serves
as a cache (look up, assign, erase every entry that a test picks out).  The key order of
the original is not kept, because none of these operations depends on it.
-/
import Mathlib.Data.List.AList
import Mathlib.Data.List.Forall2

/-- A finite map from `κ` to `ν` with at most one entry a key. -/
abbrev AssocMap (κ ν : Type) := AList (fun _ : κ => ν)

namespace AssocMap

variable {κ ν : Type} [DecidableEq κ]

/-! ## 1. The operations -/

/-- The value stored under `k`. -/
def find? (m : AssocMap κ ν) (k : κ) : Option ν := m.lookup k

/-- `m[k] = v`: overwrite or create the entry. -/
def put (m : AssocMap κ ν) (k : κ) (v : ν) : AssocMap κ ν := m.insert k v

/-- Erase every entry that `p` picks out. -/
def eraseIf (m : AssocMap κ ν) (p : κ → ν → Bool) : AssocMap κ ν :=
  ⟨m.entries.filter fun e => !p e.1 e.2, m.nodupKeys.sublist List.filter_sublist⟩

/-- The number of entries. -/
def size (m : AssocMap κ ν) : ℕ := m.entries.length

/-! ## 2. Looking up -/

@[simp] theorem find?_put_self (m : AssocMap κ ν) (k : κ) (v : ν) :
    find? (put m k v) k = some v := AList.lookup_insert m

theorem find?_put_of_ne {m : AssocMap κ ν} {k k' : κ} {v : ν} (h : k' ≠ k) :
    find? (put m k v) k' = find? m k' := AList.lookup_insert_ne h

theorem find?_eq_some_iff {m : AssocMap κ ν} {k : κ} {v : ν} :
    find? m k = some v ↔ ⟨k, v⟩ ∈ m.entries := AList.mem_lookup_iff

/-- A sweep keeps an entry exactly when the test passes it over. -/
theorem find?_eraseIf (m : AssocMap κ ν) (p : κ → ν → Bool) (k : κ) :
    find? (eraseIf m p) k = (find? m k).filter fun v => !p k v := by
  ext v
  rw [Option.filter_eq_some_iff, find?_eq_some_iff, find?_eq_some_iff]
  simp [eraseIf]

theorem find?_eraseIf_of_none {m : AssocMap κ ν} {p : κ → ν → Bool} {k : κ}
    (h : find? m k = none) : find? (eraseIf m p) k = none := by
  rw [find?_eraseIf, h]
  rfl

theorem find?_eraseIf_of_keep {m : AssocMap κ ν} {p : κ → ν → Bool} {k : κ} {v : ν}
    (h : find? m k = some v) (hp : p k v = false) : find? (eraseIf m p) k = some v := by
  rw [find?_eraseIf, h, Option.filter_some, if_pos (by simp [hp])]

theorem find?_eraseIf_of_erase {m : AssocMap κ ν} {p : κ → ν → Bool} {k : κ} {v : ν}
    (h : find? m k = some v) (hp : p k v = true) : find? (eraseIf m p) k = none := by
  rw [find?_eraseIf, h, Option.filter_some, if_neg (by simp [hp])]

/-! ## 3. Counting -/

/-- In a list with distinct keys, erasing a key filters it out. -/
theorem kerase_eq_filter (k : κ) {l : List (Sigma fun _ : κ => ν)} (hl : l.NodupKeys) :
    List.kerase k l = l.filter fun e => e.1 ≠ k := by
  induction l with
  | nil => rfl
  | cons e l ih =>
    obtain ⟨hnot, hl'⟩ := List.nodupKeys_cons.mp hl
    by_cases hk : k = e.1
    · have hfil : l.filter (fun e => e.1 ≠ k) = l := by
        refine List.filter_eq_self.mpr ?_
        intro x hx
        have hne : x.1 ≠ k := by
          intro he
          rw [← hk, ← he] at hnot
          exact hnot (List.mem_keys_of_mem hx)
        simpa using hne
      rw [List.kerase_cons_eq hk, List.filter_cons_of_neg (by simp [hk]), hfil]
    · rw [List.kerase_cons_ne hk, ih hl', List.filter_cons_of_pos (by simpa using Ne.symm hk)]

theorem entries_put (m : AssocMap κ ν) (k : κ) (v : ν) :
    (put m k v).entries = ⟨k, v⟩ :: m.entries.filter fun e => e.1 ≠ k :=
  congrArg _ (kerase_eq_filter k m.nodupKeys)

omit [DecidableEq κ] in
theorem length_keys (m : AssocMap κ ν) : m.keys.length = size m := by
  rw [AList.keys, List.keys, List.length_map, size]

/-- A map whose keys are all in a list is no larger. -/
theorem size_le_length {m : AssocMap κ ν} {l : List κ} (h : ∀ k v, find? m k = some v → k ∈ l) :
    size m ≤ l.length := by
  rw [← length_keys]
  refine (List.subperm_of_subset m.keys_nodup ?_).length_le
  intro k hk
  obtain ⟨⟨k, v⟩, hmem, rfl⟩ := List.mem_map.mp hk
  exact h k v (find?_eq_some_iff.mpr hmem)

theorem length_le_size {m : AssocMap κ ν} {l : List κ} (hl : l.Nodup)
    (h : ∀ k ∈ l, ∃ v, find? m k = some v) : l.length ≤ size m := by
  rw [← length_keys]
  refine (List.subperm_of_subset hl ?_).length_le
  intro k hk
  obtain ⟨v, hv⟩ := h k hk
  exact List.mem_keys_of_mem (find?_eq_some_iff.mp hv)

/-- Assigning a new key adds exactly one entry. -/
theorem size_put_of_find?_none {m : AssocMap κ ν} {k : κ} {v : ν} (h : find? m k = none) :
    size (put m k v) = size m + 1 := by
  rw [size, size, entries_put, List.length_cons]
  congr 2
  refine List.filter_eq_self.mpr ?_
  intro x hx
  have : x.1 ≠ k := by
    rintro rfl
    have := find?_eq_some_iff.mpr hx
    rw [h] at this
    exact absurd this (by simp)
  simpa using this

/-- Assigning to a key that is there adds none. -/
theorem size_put_of_find?_some {m : AssocMap κ ν} {k : κ} {v w : ν} (h : find? m k = some w) :
    size (put m k v) = size m := by
  have hmem : k ∈ m.keys := List.mem_keys_of_mem (find?_eq_some_iff.mp h)
  have hkeys : (put m k v).keys.length = m.keys.length := by
    rw [put, AList.keys_insert, List.length_cons, List.length_erase_of_mem hmem]
    exact Nat.sub_add_cancel (List.length_pos_of_mem hmem)
  simpa [size, AList.keys, List.keys] using hkeys

omit [DecidableEq κ] in
/-- A sweep that picks out nothing. -/
theorem eraseIf_of_keep {m : AssocMap κ ν} {p : κ → ν → Bool}
    (h : ∀ e ∈ m.entries, p e.1 e.2 = false) : eraseIf m p = m := by
  refine AList.ext (List.filter_eq_self.mpr fun e he => ?_)
  rw [h e he]
  rfl

/-! ## 4. Two maps alike -/

section Alike

variable {ν' : Type} {R : ν → ν' → Prop} {m : AssocMap κ ν} {m' : AssocMap κ ν'}

/-- The same keys in the same order, with values that `R` relates. -/
def Alike (R : ν → ν' → Prop) (m : AssocMap κ ν) (m' : AssocMap κ ν') : Prop :=
  List.Forall₂ (fun e e' => e.1 = e'.1 ∧ R e.2 e'.2) m.entries m'.entries

namespace Alike

omit [DecidableEq κ] in
theorem empty : Alike R (∅ : AssocMap κ ν) (∅ : AssocMap κ ν') := List.Forall₂.nil

omit [DecidableEq κ] in
theorem mono {S : ν → ν' → Prop} (hRS : ∀ v v', R v v' → S v v') (h : Alike R m m') :
    Alike S m m' :=
  List.Forall₂.imp (fun _ _ he => ⟨he.1, hRS _ _ he.2⟩) h

omit [DecidableEq κ] in
theorem size_eq (h : Alike R m m') : size m = size m' := h.length_eq

theorem find? (h : Alike R m m') (k : κ) : Option.Rel R (m.find? k) (m'.find? k) := by
  change Option.Rel R (List.dlookup k m.entries) (List.dlookup k m'.entries)
  rw [Alike] at h
  generalize m.entries = l at h
  generalize m'.entries = l' at h
  induction h with
  | nil => exact Option.Rel.none
  | @cons e e' _ _ he _ ih =>
    obtain ⟨a, v⟩ := e
    obtain ⟨b, v'⟩ := e'
    obtain rfl : a = b := he.1
    by_cases hk : a = k
    · subst hk
      rw [List.dlookup_cons_eq, List.dlookup_cons_eq]
      exact Option.Rel.some he.2
    · rw [List.dlookup_cons_ne _ _ (Ne.symm hk), List.dlookup_cons_ne _ _ (Ne.symm hk)]
      exact ih

theorem put (h : Alike R m m') (k : κ) {v : ν} {v' : ν'} (hv : R v v') :
    Alike R (m.put k v) (m'.put k v') := by
  rw [Alike, entries_put, entries_put]
  refine List.Forall₂.cons ⟨rfl, hv⟩ (List.rel_filter ?_ h)
  intro e e' he
  simp [he.1]

omit [DecidableEq κ] in
/-- A sweep whose tests agree on related values erases the same keys. -/
theorem eraseIf {p : κ → ν → Bool} {p' : κ → ν' → Bool}
    (hp : ∀ k v v', R v v' → p k v = p' k v') (h : Alike R m m') :
    Alike R (m.eraseIf p) (m'.eraseIf p') := by
  refine List.rel_filter ?_ h
  intro e e' he
  simp [he.1, hp _ _ _ he.2]

end Alike

end Alike

end AssocMap
