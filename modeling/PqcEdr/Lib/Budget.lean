/-
# Distinct requests under a budget

What a memo with a budget passes on of a list of requests: each distinct one when it comes first,
as long as the budget lasts.  The others that it does not know are rejected.
-/
import Mathlib.Data.List.Induction
import Mathlib.Data.List.Nodup
import Mathlib.Tactic.Common

namespace Budget

variable {α : Type} [DecidableEq α] {cap : ℕ} {xs : List α} {x : α}

/-- The first `cap` distinct requests. -/
def admitted (cap : ℕ) (xs : List α) : List α := xs.eraseDups.take cap

@[simp] theorem admitted_nil : admitted cap ([] : List α) = [] := List.take_nil

theorem length_admitted_le : (admitted cap xs).length ≤ cap := List.length_take_le _ _

theorem eraseDups_append_of_mem (h : x ∈ xs) : (xs ++ [x]).eraseDups = xs.eraseDups := by
  simp [List.eraseDups_append, List.removeAll, h]

theorem eraseDups_append_of_notMem (h : x ∉ xs) : (xs ++ [x]).eraseDups = xs.eraseDups ++ [x] := by
  simp [List.eraseDups_append, List.removeAll, List.eraseDups_cons, h]

theorem nodup_eraseDups (xs : List α) : xs.eraseDups.Nodup := by
  induction xs using List.reverseRecOn with
  | nil => exact List.nodup_nil
  | append_singleton xs x ih =>
    by_cases hx : x ∈ xs
    · rwa [eraseDups_append_of_mem hx]
    · rw [eraseDups_append_of_notMem hx]
      refine ih.append (List.nodup_singleton x) ?_
      intro y hy hyx
      rw [List.mem_singleton.mp hyx] at hy
      exact hx (List.mem_eraseDups.mp hy)

theorem length_eraseDups_le (xs : List α) : xs.eraseDups.length ≤ xs.length := by
  induction xs using List.reverseRecOn with
  | nil => exact Nat.le_refl _
  | append_singleton xs x ih =>
    rw [List.length_append]
    by_cases hx : x ∈ xs
    · rw [eraseDups_append_of_mem hx]
      exact Nat.le_trans ih (Nat.le_add_right _ _)
    · rw [eraseDups_append_of_notMem hx, List.length_append]
      exact Nat.add_le_add_right ih _

theorem nodup_admitted : (admitted cap xs).Nodup :=
  (nodup_eraseDups xs).sublist (List.take_sublist _ _)

/-- A request that was passed on is not passed on again. -/
theorem admitted_append_of_mem (h : x ∈ admitted cap xs) :
    admitted cap (xs ++ [x]) = admitted cap xs := by
  have hx : x ∈ xs := List.mem_eraseDups.mp (List.mem_of_mem_take h)
  rw [admitted, eraseDups_append_of_mem hx, admitted]

/-- With the budget used up nothing is passed on. -/
theorem admitted_append_of_full (h : cap ≤ (admitted cap xs).length) :
    admitted cap (xs ++ [x]) = admitted cap xs := by
  have hlen : cap ≤ xs.eraseDups.length := Nat.le_trans h (List.length_take_le' _ _)
  by_cases hx : x ∈ xs
  · rw [admitted, eraseDups_append_of_mem hx, admitted]
  · rw [admitted, eraseDups_append_of_notMem hx, List.take_append_of_le_length hlen, admitted]

/-- Within the budget a request that was not passed on is a new one, and is. -/
theorem admitted_append_of_new (hx : x ∉ admitted cap xs) (h : (admitted cap xs).length < cap) :
    admitted cap (xs ++ [x]) = admitted cap xs ++ [x] := by
  have hall : admitted cap xs = xs.eraseDups := by
    rw [admitted, List.length_take] at h
    exact List.take_of_length_le (by omega)
  rw [hall] at hx h
  have hnew : x ∉ xs := fun hmem => hx (List.mem_eraseDups.mpr hmem)
  rw [hall, admitted, eraseDups_append_of_notMem hnew]
  refine List.take_of_length_le ?_
  rw [List.length_append, List.length_singleton]
  exact h

/-- While there is room, all that came is passed on. -/
theorem mem_admitted_of_room (hx : x ∈ xs) (h : (admitted cap xs).length < cap) :
    x ∈ admitted cap xs := by
  have hall : admitted cap xs = xs.eraseDups := by
    rw [admitted, List.length_take] at h
    exact List.take_of_length_le (by omega)
  rw [hall]
  exact List.mem_eraseDups.mpr hx

/-- What comes later does not change what was passed on. -/
theorem mem_admitted_append {y : α} (hy : y ∈ xs) :
    y ∈ admitted cap (xs ++ [x]) ↔ y ∈ admitted cap xs := by
  by_cases hx : x ∈ admitted cap xs
  · rw [admitted_append_of_mem hx]
  · by_cases hroom : (admitted cap xs).length < cap
    · rw [admitted_append_of_new hx hroom]
      have hmem := mem_admitted_of_room hy hroom
      simp [hmem]
    · rw [admitted_append_of_full (Nat.le_of_not_lt hroom)]

/-- The requests that get no answer. -/
def rejected (cap : ℕ) (xs : List α) : List α := xs.filter fun x => x ∉ admitted cap xs

theorem rejected_append : rejected cap (xs ++ [x]) =
    rejected cap xs ++ if x ∈ admitted cap (xs ++ [x]) then [] else [x] := by
  have hold : xs.filter (fun y => y ∉ admitted cap (xs ++ [x])) = rejected cap xs :=
    List.filter_congr fun y hy => decide_eq_decide.mpr (not_congr (mem_admitted_append hy))
  rw [rejected, List.filter_append, hold]
  by_cases hx : x ∈ admitted cap (xs ++ [x]) <;> simp [hx]

theorem rejected_eq_nil_of_append {ys : List α} (h : rejected cap (xs ++ ys) = []) :
    rejected cap xs = [] := by
  induction ys using List.reverseRecOn with
  | nil => rwa [List.append_nil] at h
  | append_singleton ys y ih =>
    rw [← List.append_assoc, rejected_append] at h
    exact ih (List.append_eq_nil_iff.mp h).1

/-- A budget for all of them is enough. -/
theorem rejected_eq_nil_of_length_le (h : xs.length ≤ cap) : rejected cap xs = [] := by
  have hall : admitted cap xs = xs.eraseDups :=
    List.take_of_length_le (Nat.le_trans (length_eraseDups_le xs) h)
  rw [rejected, hall, List.filter_eq_nil_iff]
  intro x hx
  simp [hx]

end Budget
