/-
# Capped windows over a growing log

A detector that asks "did this happen within the last `W`?" keeps, instead of the whole log, a
queue of its latest entries: old entries leave at the front when they fall out of the window,
and the front entry is dropped when the queue grows past a cap.  This module says when such a
queue answers for the log.

* `popWhile` and `pushCapped` are the two queue operations.
* `Covers`: the queue is the tail of the log, and what it lost is either out of the window or
  older than `cap` kept entries.
* `Covers.expire`, `Covers.push`, `Covers.drop`: the operations keep that, on a log whose times
  never decrease.
* `Evolves` lists what may happen to a queue while one event arrives; `Evolves.suffix`,
  `Evolves.length_le` and `Evolves.covers` are the invariants of all of it.
* `Covers.mem_of_recent` and `Covers.count_iff`: a queue that covers the log answers membership
  among the latest `cap` entries, and counts up to `cap`, exactly as the log does.
* `forall₂_popWhile`, `forall₂_pushCapped`: two queues that are related entry by entry stay so.
-/
import Mathlib.Data.List.DropRight
import Mathlib.Data.List.Forall2
import Mathlib.Tactic.Common

namespace Recency

variable {α β : Type}

/-! ## 1. The queue operations -/

/-- Pop the front entries that `p` condemns. -/
def popWhile (p : α → Bool) (q : List α) : List α := q.dropWhile p

/-- Push at the back; if the queue is then longer than `cap`, pop the front. -/
def pushCapped (cap : ℕ) (q : List α) (x : α) : List α :=
  if cap < (q ++ [x]).length then (q ++ [x]).tail else q ++ [x]

theorem popWhile_suffix (p : α → Bool) (q : List α) : popWhile p q <:+ q :=
  List.dropWhile_suffix p

theorem pushCapped_suffix (cap : ℕ) (q : List α) (x : α) : pushCapped cap q x <:+ q ++ [x] := by
  unfold pushCapped
  split
  · exact List.tail_suffix _
  · exact List.suffix_refl _

theorem suffix_append_singleton {q full : List α} (h : q <:+ full) (x : α) :
    q ++ [x] <:+ full ++ [x] := by
  obtain ⟨pre, rfl⟩ := h
  exact ⟨pre, by simp⟩

/-- A push keeps the queue no longer than its cap. -/
theorem getLast?_pushCapped {cap : ℕ} (hcap : 0 < cap) (q : List α) (x : α) :
    (pushCapped cap q x).getLast? = some x := by
  unfold pushCapped
  split
  · rename_i h
    cases q with
    | nil => simp at h; omega
    | cons a q => simp
  · simp

/-- The latest entry of a tail is that of the whole. -/
theorem getLast?_of_suffix {q full : List α} (h : q <:+ full) {y : α}
    (hy : q.getLast? = some y) : full.getLast? = some y := by
  obtain ⟨pre, rfl⟩ := h
  rw [List.getLast?_append, hy, Option.some_or]

theorem length_pushCapped_le {cap : ℕ} {q : List α} (h : q.length ≤ cap) (x : α) :
    (pushCapped cap q x).length ≤ cap := by
  unfold pushCapped
  split <;> simp_all

/-! ## 2. Times and the window -/

variable (time : α → ℕ) (W : ℕ)

/-- The log's times never decrease. -/
def Chronological (l : List α) : Prop := l.Pairwise fun a b => time a ≤ time b

/-- The entry is more than `W` old at `now`. -/
def Stale (now : ℕ) (x : α) : Prop := time x + W < now

variable {time W}

theorem Chronological.suffix {l l' : List α} (h : Chronological time l) (hs : l' <:+ l) :
    Chronological time l' := h.sublist hs.sublist

/-- Expiring the front of a chronological queue expires all of it. -/
theorem not_stale_of_mem_popWhile {now : ℕ} {p : α → Bool} {q : List α}
    (hq : Chronological time q) (hp : ∀ x ∈ q, Stale time W now x → p x = true) :
    ∀ x ∈ popWhile p q, ¬ Stale time W now x := by
  induction q with
  | nil => simp [popWhile]
  | cons a q ih =>
    obtain ⟨ha, hq'⟩ := List.pairwise_cons.mp hq
    cases hpa : p a with
    | true =>
      have hpop : popWhile p (a :: q) = popWhile p q := List.dropWhile_cons_of_pos hpa
      rw [hpop]
      refine ih hq' ?_
      intro x hx
      exact hp x (List.mem_cons_of_mem _ hx)
    | false =>
      have hkeep : popWhile p (a :: q) = a :: q := List.dropWhile_cons_of_neg (by simp [hpa])
      have hfresh : ¬ Stale time W now a := by
        intro hs
        have hpop := hp a List.mem_cons_self hs
        simp [hpa] at hpop
      rw [hkeep]
      intro x hx hs
      rcases List.mem_cons.mp hx with rfl | hx
      · exact hfresh hs
      · exact hfresh (lt_of_le_of_lt (Nat.add_le_add_right (ha x hx) W) hs)

/-! ## 3. A queue that covers the log -/

/-- The queue `kept` covers the log `full` at `now`: it is the log's tail, and every entry it
lost is out of the window, unless `cap` later entries are still there. -/
def Covers (time : α → ℕ) (W cap now : ℕ) (full kept : List α) : Prop :=
  ∃ lost, full = lost ++ kept ∧ (cap ≤ kept.length ∨ ∀ x ∈ lost, Stale time W now x)

namespace Covers

variable {cap now : ℕ} {full kept : List α}

theorem nil : Covers time W cap now ([] : List α) [] := ⟨[], rfl, Or.inr (by simp)⟩

theorem suffix (h : Covers time W cap now full kept) : kept <:+ full := by
  obtain ⟨lost, rfl, _⟩ := h
  exact List.suffix_append lost kept

/-- Entries popped at the front were stale, and then everything lost before them was too. -/
theorem expire {p : α → Bool} (hfull : Chronological time full)
    (hp : ∀ x ∈ kept, p x = true → Stale time W now x) (h : Covers time W cap now full kept) :
    Covers time W cap now full (popWhile p kept) := by
  obtain ⟨lost, rfl, hlost⟩ := h
  have hsplit : kept.takeWhile p ++ popWhile p kept = kept := List.takeWhile_append_dropWhile
  cases hpop : kept.takeWhile p with
  | nil =>
    rw [hpop, List.nil_append] at hsplit
    rw [hsplit]
    exact ⟨lost, rfl, hlost⟩
  | cons a popped =>
    have hstale : ∀ x ∈ kept.takeWhile p, Stale time W now x := by
      intro x hx
      exact hp x (List.takeWhile_subset _ hx) (List.mem_takeWhile_imp hx)
    have ha : a ∈ kept.takeWhile p := by rw [hpop]; exact List.mem_cons_self
    refine ⟨lost ++ kept.takeWhile p, by rw [List.append_assoc, hsplit], Or.inr ?_⟩
    intro x hx
    rcases List.mem_append.mp hx with hx | hx
    · have hle : time x ≤ time a :=
        (List.pairwise_append.mp hfull).2.2 x hx a (List.takeWhile_subset _ ha)
      exact lt_of_le_of_lt (Nat.add_le_add_right hle W) (hstale a ha)
    · exact hstale x hx

/-- A capped push covers the log with the new entry. -/
theorem push (h : Covers time W cap now full kept) (x : α) :
    Covers time W cap now (full ++ [x]) (pushCapped cap kept x) := by
  obtain ⟨lost, rfl, hlost⟩ := h
  unfold pushCapped
  split
  · rename_i hlong
    cases kept with
    | nil => exact ⟨lost ++ [x], by simp, Or.inl (by simp at hlong ⊢; omega)⟩
    | cons a kept => exact ⟨lost ++ [a], by simp, Or.inl (by simp at hlong ⊢; omega)⟩
  · refine ⟨lost, by simp, hlost.imp_left ?_⟩
    intro hcap
    simp only [List.length_append, List.length_singleton]
    omega

/-- Dropping a queue whose latest entry is stale loses only stale entries. -/
theorem drop (hfull : Chronological time full) (h : Covers time W cap now full kept)
    (hlast : ∀ x, kept.getLast? = some x → Stale time W now x) (hne : kept ≠ []) :
    Covers time W cap now full [] := by
  obtain ⟨lost, rfl, -⟩ := h
  obtain ⟨init, last, rfl⟩ := (List.eq_nil_or_concat' kept).resolve_left hne
  have hl : Stale time W now last := hlast last (by simp)
  refine ⟨lost ++ (init ++ [last]), by simp, Or.inr ?_⟩
  intro x hx
  have hle : time x ≤ time last := by
    rw [← List.append_assoc] at hfull hx
    rcases List.mem_append.mp hx with hx | hx
    · exact (List.pairwise_append.mp hfull).2.2 x hx last (by simp)
    · rw [List.mem_singleton.mp hx]
  exact lt_of_le_of_lt (Nat.add_le_add_right hle W) hl

/-- An entry still in the window, among the latest `cap` of the log, is in the queue. -/
theorem mem_of_recent (h : Covers time W cap now full kept) {x : α} (hx : x ∈ full.rtake cap)
    (hfresh : ¬ Stale time W now x) : x ∈ kept := by
  obtain ⟨lost, rfl, hlost⟩ := h
  rw [List.rtake, List.length_append] at hx
  rcases hlost with hcap | hstale
  · have hdrop : (lost ++ kept).drop (lost.length + kept.length - cap)
        = kept.drop (kept.length - cap) := by
      rw [List.drop_append, List.drop_eq_nil_of_le (by omega), List.nil_append]
      congr 1
      omega
    rw [hdrop] at hx
    exact List.mem_of_mem_drop hx
  · rcases List.mem_append.mp (List.mem_of_mem_drop hx) with hx | hx
    · exact absurd (hstale x hx) hfresh
    · exact hx

/-- Counting up to `cap` in the window gives the same answer on the queue as on the log. -/
theorem count_iff {n : ℕ} {fresh : α → Bool} (hn : n ≤ cap) (hfull : Chronological time full)
    (hf : ∀ x ∈ full, fresh x = true ↔ ¬ Stale time W now x)
    (h : Covers time W cap now full kept) :
    n ≤ (full.filter fresh).length ↔ n ≤ (kept.filter fresh).length := by
  obtain ⟨lost, rfl, hlost⟩ := h
  rw [List.filter_append, List.length_append]
  by_cases hall : ∀ x ∈ lost, Stale time W now x
  · have hnil : lost.filter fresh = [] := by
      refine List.filter_eq_nil_iff.mpr ?_
      intro x hx hfx
      exact (hf x (List.mem_append_left _ hx)).mp hfx (hall x hx)
    rw [hnil, List.length_nil, Nat.zero_add]
  · -- a lost entry is still fresh: then every kept entry is, and there are `cap` of them
    obtain ⟨y, hy, hyf⟩ := not_forall₂.mp hall
    have hkeep : kept.filter fresh = kept := by
      refine List.filter_eq_self.mpr ?_
      intro x hx
      have hle : time y ≤ time x := (List.pairwise_append.mp hfull).2.2 y hy x hx
      refine (hf x (List.mem_append_right _ hx)).mpr ?_
      intro hs
      exact hyf (lt_of_le_of_lt (Nat.add_le_add_right hle W) hs)
    have hcap : cap ≤ kept.length := hlost.resolve_right hall
    rw [hkeep]
    omega

end Covers

/-! ## 4. One event's worth of queue operations -/

/-- What may happen to a queue while one event arrives, which adds `x?` to the log: front
expiries, at most one capped push, and clearing the queue when its latest entry has expired. -/
inductive Evolves (cap : ℕ) (p : α → Bool) (q : List α) : Option α → List α → Prop where
  | refl : Evolves cap p q none q
  | expire {x? : Option α} {q' : List α} : Evolves cap p q x? q' → Evolves cap p q x? (popWhile p q')
  | push {q' : List α} (x : α) :
      Evolves cap p q none q' → Evolves cap p q (some x) (pushCapped cap q' x)
  | clear {x? : Option α} {q' : List α} : Evolves cap p q x? q' →
      (∀ y, q'.getLast? = some y → p y = true) → Evolves cap p q x? []

namespace Evolves

variable {cap : ℕ} {p : α → Bool} {q q' : List α} {x? : Option α}

/-- The queue stays a tail of the log, whatever the clock does. -/
theorem suffix {full : List α} (h : Evolves cap p q x? q') (hq : q <:+ full) :
    q' <:+ full ++ x?.toList := by
  induction h with
  | refl => simpa using hq
  | expire _ ih => exact (popWhile_suffix p _).trans ih
  | push x _ ih =>
    refine (pushCapped_suffix cap _ x).trans ?_
    simpa using suffix_append_singleton ih x
  | clear _ _ _ => exact List.nil_suffix

/-- The queue stays within its cap. -/
theorem length_le (h : Evolves cap p q x? q') (hq : q.length ≤ cap) : q'.length ≤ cap := by
  induction h with
  | refl => exact hq
  | expire _ ih => exact (popWhile_suffix p _).length_le.trans ih
  | push x _ ih => exact length_pushCapped_le ih x
  | clear _ _ _ => exact Nat.zero_le cap

/-- The latest entry stays, unless it is expired itself. -/
theorem getLast? (hcap : 0 < cap) (h : Evolves cap p q x? q') {y : α}
    (hy : (q ++ x?.toList).getLast? = some y) (hp : p y = false) : q'.getLast? = some y := by
  induction h with
  | refl => simpa using hy
  | @expire x? q' _ ih =>
    have hlast := ih hy
    have hne : popWhile p q' ≠ [] := by
      intro hnil
      have hall := List.dropWhile_eq_nil_iff.mp hnil y (List.mem_of_getLast? hlast)
      rw [hp] at hall
      cases hall
    have hkept := List.getLast?_eq_some_getLast hne
    rw [hkept, ← hlast, getLast?_of_suffix (popWhile_suffix p q') hkept]
  | push x _ ih =>
    have hxy : x = y := by simpa using hy
    rw [getLast?_pushCapped hcap, hxy]
  | clear _ hgone ih =>
    rw [hgone y (ih hy)] at hp
    cases hp

/-- The queue keeps its order when the new entry is not older than those it finds there. -/
theorem chronological (h : Evolves cap p q x? q') (hq : Chronological time q)
    (hnew : ∀ x, x? = some x → ∀ y ∈ q, time y ≤ time x) : Chronological time q' := by
  induction h with
  | refl => exact hq
  | expire _ ih => exact (ih hnew).suffix (popWhile_suffix p _)
  | @push q' x hev ih =>
    have hold : q' <:+ q := by simpa using hev.suffix (List.suffix_refl q)
    have hall : Chronological time (q' ++ [x]) := by
      refine List.pairwise_append.mpr ⟨ih (by simp), List.pairwise_singleton _ _, ?_⟩
      intro y hy z hz
      rw [List.mem_singleton.mp hz]
      exact hnew x rfl y (hold.subset hy)
    exact hall.suffix (pushCapped_suffix cap q' x)
  | clear _ _ _ => exact List.Pairwise.nil

/-- On a log whose times never decrease the queue keeps covering the log. -/
theorem covers {full : List α} {now : ℕ} (h : Evolves cap p q x? q')
    (hfull : Chronological time (full ++ x?.toList))
    (hp : ∀ x ∈ full ++ x?.toList, p x = true → Stale time W now x)
    (hq : Covers time W cap now full q) : Covers time W cap now (full ++ x?.toList) q' := by
  induction h with
  | refl => simpa using hq
  | expire _ ih =>
    have hcov := ih hfull hp
    exact hcov.expire hfull fun x hx => hp x (hcov.suffix.subset hx)
  | push x _ ih =>
    have hpre : Chronological time full := (List.pairwise_append.mp hfull).1
    simp only [Option.toList_none, List.append_nil] at ih
    exact (ih hpre fun y hy => hp y (List.mem_append_left _ hy)).push x
  | @clear _ q' _ hlast ih =>
    have hcov := ih hfull hp
    by_cases hne : q' = []
    · rwa [hne] at hcov
    · refine hcov.drop hfull (fun y hy => hp y ?_ (hlast y hy)) hne
      exact hcov.suffix.subset (List.mem_of_getLast? hy)

end Evolves

/-! ## 5. Two queues side by side -/

section Related

variable {R : α → β → Prop} {q : List α} {q' : List β}

/-- Expiry with tests that agree on related entries. -/
theorem forall₂_popWhile {p : α → Bool} {p' : β → Bool} (hp : ∀ x y, R x y → p x = p' y)
    (h : List.Forall₂ R q q') : List.Forall₂ R (popWhile p q) (popWhile p' q') := by
  induction h with
  | nil => exact List.Forall₂.nil
  | @cons x y _ _ hxy hq ih =>
    unfold popWhile
    cases hx : p x with
    | true =>
      rw [List.dropWhile_cons_of_pos hx, List.dropWhile_cons_of_pos ((hp x y hxy).symm.trans hx)]
      exact ih
    | false =>
      rw [List.dropWhile_cons_of_neg (by simp [hx]),
        List.dropWhile_cons_of_neg (by simp [← hp x y hxy, hx])]
      exact List.Forall₂.cons hxy hq

theorem forall₂_pushCapped (cap : ℕ) (h : List.Forall₂ R q q') {x : α} {y : β} (hxy : R x y) :
    List.Forall₂ R (pushCapped cap q x) (pushCapped cap q' y) := by
  have hpush : List.Forall₂ R (q ++ [x]) (q' ++ [y]) :=
    List.rel_append h (List.Forall₂.cons hxy List.Forall₂.nil)
  unfold pushCapped
  rw [hpush.length_eq]
  split
  · rw [← List.drop_one, ← List.drop_one]
    exact List.forall₂_drop 1 hpush
  · exact hpush

theorem forall₂_getLast? (h : List.Forall₂ R q q') : Option.Rel R q.getLast? q'.getLast? := by
  have hrev : List.Forall₂ R q.reverse q'.reverse := List.rel_reverse h
  rw [List.getLast?_eq_head?_reverse, List.getLast?_eq_head?_reverse]
  generalize q.reverse = r at hrev ⊢
  generalize q'.reverse = r' at hrev ⊢
  cases hrev with
  | nil => exact Option.Rel.none
  | cons hxy _ => exact Option.Rel.some hxy

end Related

end Recency
