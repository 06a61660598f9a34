/-
# Counting keys in a map

`++m[k]` over a list of keys: a map that had no entry for a key gets one with the count 1.  The
counters have 64 bits and wrap.

* `find?_tally`: the map holds a key exactly when the list does, with its number of occurrences.
-/
import Mathlib.Data.UInt
import PqcEdr.Lib.AssocMap

namespace Tally

variable {κ : Type} [DecidableEq κ]

/-- `++m[k]`. -/
def bump (m : AssocMap κ UInt64) (k : κ) : AssocMap κ UInt64 := m.put k ((m.find? k).getD 0 + 1)

/-- The map after the keys, one after the other. -/
def tally (ks : List κ) : AssocMap κ UInt64 := ks.foldl bump ∅

theorem tally_append (ks : List κ) (k : κ) : tally (ks ++ [k]) = bump (tally ks) k := by
  rw [tally, List.foldl_append]
  rfl

theorem find?_bump_self (m : AssocMap κ UInt64) (k : κ) :
    (bump m k).find? k = some ((m.find? k).getD 0 + 1) := AssocMap.find?_put_self m k _

theorem find?_bump_of_ne (m : AssocMap κ UInt64) {k k' : κ} (h : k' ≠ k) :
    (bump m k).find? k' = m.find? k' := AssocMap.find?_put_of_ne h

theorem find?_tally (ks : List κ) (k : κ) :
    (tally ks).find? k = if k ∈ ks then some (UInt64.ofNat (ks.count k)) else none := by
  induction ks using List.reverseRecOn with
  | nil => rfl
  | append_singleton ks k' ih =>
    rw [tally_append]
    by_cases hk : k = k'
    · subst hk
      have hcount : (ks ++ [k]).count k = ks.count k + 1 := by simp
      have hprev : ((tally ks).find? k).getD 0 = UInt64.ofNat (ks.count k) := by
        rw [ih]
        by_cases hmem : k ∈ ks
        · rw [if_pos hmem, Option.getD_some]
        · rw [if_neg hmem, List.count_eq_zero_of_not_mem hmem]
          rfl
      rw [find?_bump_self, hprev, if_pos (by simp), hcount, UInt64.ofNat_add]
      rfl
    · have hcount : (ks ++ [k']).count k = ks.count k := by
        rw [List.count_append, List.count_singleton, if_neg (by simpa using Ne.symm hk), add_zero]
      rw [find?_bump_of_ne _ hk, ih, hcount]
      simp [hk]

/-- The counter of a key that is computed from each element. -/
theorem getD_tally_map {α : Type} (xs : List α) (key : α → κ) (k : κ) :
    ((tally (xs.map key)).find? k).getD 0 = UInt64.ofNat (xs.countP fun x => key x = k) := by
  have hcount : (xs.map key).count k = xs.countP fun x => key x = k := by
    rw [List.count_eq_countP, List.countP_map]
    exact List.countP_congr fun x _ => by simp
  rw [find?_tally, ← hcount]
  by_cases hk : k ∈ xs.map key
  · rw [if_pos hk, Option.getD_some]
  · rw [if_neg hk, List.count_eq_zero_of_not_mem hk]
    rfl

end Tally
