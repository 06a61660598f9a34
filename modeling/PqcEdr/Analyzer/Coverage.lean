/-
# The correlator on a steady clock

With timestamps that never decrease and additions that do not wrap, the containers lose nothing
that still matters: each of them covers the list it answers for (`Recency.Covers`) within its
cap.  And `observe` is defined on every event, because the sweep of `conns_` then never erases
the entry that was just touched.
-/
import PqcEdr.Analyzer.Steps

namespace PqcEdr.Analyzer

open Recency

/-! ## 1. The window test in numbers -/

theorem expired_iff {W now t : UInt64} (h : t.toNat + W.toNat < 2 ^ 64) :
    expired W now t = true ↔ t.toNat + W.toNat < now.toNat := by
  unfold expired
  rw [decide_eq_true_iff, gt_iff_lt, UInt64.lt_iff_toNat_lt, UInt64.toNat_add, Nat.mod_eq_of_lt h]

/-- A wrapped sum only makes an entry look older. -/
theorem expired_of_lt {W now t : UInt64} (h : t.toNat + W.toNat < now.toNat) :
    expired W now t = true := by
  have := now.toNat_lt
  exact (expired_iff (by omega)).mpr h

/-- The front expiry of a chronological queue leaves nothing stale, whether or not the sums of
its window test wrap. -/
theorem not_stale_of_mem_popExpired {β : Type} {time : β → ℕ} {stamp : β → UInt64}
    (W now : UInt64) {q : List β} (htime : ∀ x, time x = (stamp x).toNat)
    (hq : Chronological time q) :
    ∀ x ∈ popWhile (fun x => expired W now (stamp x)) q, ¬ Stale time W.toNat now.toNat x := by
  refine not_stale_of_mem_popWhile hq ?_
  intro x _ hx
  rw [Stale, htime] at hx
  exact expired_of_lt hx

/-- An event list with timestamps that never decrease and window ends below `2 ^ 64`. -/
structure SteadyClock (W : UInt64) (log : List SecurityEvent) : Prop where
  ordered : log.Pairwise fun a b => a.ts_ns ≤ b.ts_ns
  noWrap : ∀ ev ∈ log, ev.ts_ns.toNat + W.toNat < 2 ^ 64

namespace SteadyClock

variable {W : UInt64} {log log' : List SecurityEvent} {ev : SecurityEvent}

theorem of_sublist (h : SteadyClock W log) (hs : log'.Sublist log) : SteadyClock W log' :=
  ⟨h.ordered.sublist hs, fun ev hev => h.noWrap ev (hs.subset hev)⟩

theorem left (h : SteadyClock W (log ++ log')) : SteadyClock W log :=
  h.of_sublist (List.sublist_append_left log log')

theorem last_noWrap (h : SteadyClock W (log ++ [ev])) : ev.ts_ns.toNat + W.toNat < 2 ^ 64 :=
  h.noWrap ev (by simp)

/-- The last event is the latest. -/
theorem le_last (h : SteadyClock W (log ++ [ev])) :
    ∀ x ∈ log, x.ts_ns.toNat ≤ ev.ts_ns.toNat := by
  intro x hx
  have hle := (List.pairwise_append.mp h.ordered).2.2 x hx ev (by simp)
  exact UInt64.le_iff_toNat_le.mp hle

/-- A list read off a steady log by timestamp is chronological. -/
theorem chronological {β : Type} {time : β → ℕ} (h : SteadyClock W log)
    (p : SecurityEvent → Bool) {f : SecurityEvent → β} (hf : ∀ x, time (f x) = x.ts_ns.toNat) :
    Chronological time ((log.filter p).map f) := by
  refine List.pairwise_map.mpr ((h.ordered.sublist List.filter_sublist).imp ?_)
  intro a b hab
  rw [hf, hf]
  exact UInt64.le_iff_toNat_le.mp hab

end SteadyClock

/-! ## 2. Nothing that matters is lost -/

/-- Each container covers the list it answers for, within its cap. -/
structure Covered (W : UInt64) (log : List SecurityEvent) (now : ℕ) (c : Correlator) : Prop where
  downloads : Covers (fun d : Lineage => d.ts_ns.toNat) W.toNat kMaxDownloads now
    (downloadsOf log) c.downloads
  staged : ∀ p, Covers (fun w : StagedWrite => w.ts_ns.toNat) W.toNat 1 now
    (writesOf p log) (c.staged.find? p).toList
  conns : ∀ k, Covers UInt64.toNat W.toNat kMaxHistPerKey now
    (connectsOf k log) ((c.conns.find? k).getD [])

/-- One list and one container: the queue operations of a call keep it covered. -/
theorem covers_step {β : Type} (stamp : β → UInt64) {time : β → ℕ} {W : UInt64} {cap now : ℕ}
    {log : List SecurityEvent} {ev : SecurityEvent} {p : SecurityEvent → Bool}
    {f : SecurityEvent → β} {q q' : List β} (hclock : SteadyClock W (log ++ [ev]))
    (hnow : ev.ts_ns.toNat ≤ now) (htime : ∀ x, time x = (stamp x).toNat)
    (hf : ∀ x, stamp (f x) = x.ts_ns)
    (hev : Evolves cap (fun x => expired W ev.ts_ns (stamp x)) q (added p f ev) q')
    (hq : Covers time W.toNat cap now ((log.filter p).map f) q) :
    Covers time W.toNat cap now (((log ++ [ev]).filter p).map f) q' := by
  have hchron : Chronological time (((log ++ [ev]).filter p).map f) :=
    hclock.chronological p fun x => (htime (f x)).trans (congrArg UInt64.toNat (hf x))
  rw [map_filter_append] at hchron ⊢
  refine hev.covers hchron ?_ hq
  intro x hx hexp
  rw [← map_filter_append] at hx
  obtain ⟨y, hy, rfl⟩ := List.mem_map.mp hx
  have hwrap := hclock.noWrap y (List.mem_of_mem_filter hy)
  rw [hf, expired_iff hwrap] at hexp
  rw [Stale, htime, hf]
  omega

theorem Covered.step {W : UInt64} {log : List SecurityEvent} {now : ℕ} {c c' : Correlator}
    {ev : SecurityEvent} (h : Covered W log now c) (hW : c.window_ns = W) (hs : Steps c ev c')
    (hclock : SteadyClock W (log ++ [ev])) (hnow : ev.ts_ns.toNat ≤ now) :
    Covered W (log ++ [ev]) now c' := by
  subst hW
  exact {
    downloads := covers_step Lineage.ts_ns hclock hnow (fun _ => rfl) (fun _ => rfl)
      hs.downloads h.downloads
    staged := fun p => covers_step StagedWrite.ts_ns hclock hnow (fun _ => rfl) (fun _ => rfl)
      (hs.staged p) (h.staged p)
    conns := fun k => covers_step id hclock hnow (fun _ => rfl) (fun _ => rfl)
      (hs.conns k) (h.conns k) }

/-- After every steady stream the containers cover their lists, at any later time. -/
theorem observeAll_covered {W : UInt64} {N : ℕ} {log : List SecurityEvent} {c : Correlator}
    (h : (Correlator.init W N).observeAll log = some c) (hclock : SteadyClock W log) {now : ℕ}
    (hnow : ∀ ev ∈ log, ev.ts_ns.toNat ≤ now) : Covered W log now c := by
  have hrun : c.window_ns = W ∧ (SteadyClock W log → (∀ ev ∈ log, ev.ts_ns.toNat ≤ now) →
      Covered W log now c) := by
    refine observeAll_induction (P := fun log c => c.window_ns = W ∧ (SteadyClock W log →
      (∀ ev ∈ log, ev.ts_ns.toNat ≤ now) → Covered W log now c)) ⟨rfl, ?_⟩ ?_ h
    · intro _ _
      exact ⟨Covers.nil, fun _ => Covers.nil, fun _ => Covers.nil⟩
    · intro log c ev hit c' hP hobs
      have hs := observe_steps hobs
      refine ⟨hs.window.trans hP.1, ?_⟩
      intro hck hle
      have hcov := hP.2 hck.left fun x hx => hle x (List.mem_append_left _ hx)
      exact hcov.step hP.1 hs hck (hle ev (by simp))
  exact hrun.2 hclock hnow

/-! ## 3. Every event has a defined answer -/

theorem getLast?_touchHistory (c : Correlator) (ev : SecurityEvent) :
    (c.touchHistory ev).getLast? = some ev.ts_ns := by
  rw [Correlator.touchHistory, getLast?_pushCapped (by decide)]

/-- The entry just touched survives its own sweep when the event has not itself expired. -/
theorem find?_touchConns_self {c : Correlator} {ev : SecurityEvent}
    (h : expired c.window_ns ev.ts_ns ev.ts_ns = false) :
    (c.touchConns ev).find? (connKeyOf ev) = some (c.touchHistory ev) := by
  have hkeep : Correlator.sweepsOut c.window_ns ev.ts_ns (c.touchHistory ev) = false := by
    rw [Correlator.sweepsOut, getLast?_touchHistory]
    exact h
  have hput := AssocMap.find?_put_self c.conns (connKeyOf ev) (c.touchHistory ev)
  unfold Correlator.touchConns
  dsimp only
  split
  · exact AssocMap.find?_eraseIf_of_keep hput hkeep
  · exact hput

/-- Whatever the sweep leaves under the touched key is the touched history. -/
theorem eq_touchHistory {c : Correlator} {ev : SecurityEvent} {hist : List UInt64}
    (h : (c.touchConns ev).find? (connKeyOf ev) = some hist) : hist = c.touchHistory ev := by
  have hput := AssocMap.find?_put_self c.conns (connKeyOf ev) (c.touchHistory ev)
  unfold Correlator.touchConns at h
  dsimp only at h
  split at h
  · rw [AssocMap.find?_eraseIf, hput, Option.filter_eq_some_iff] at h
    exact (Option.some.inj h.1).symm
  · rw [hput] at h
    exact (Option.some.inj h).symm

theorem not_expired_self {W t : UInt64} (h : t.toNat + W.toNat < 2 ^ 64) :
    expired W t t = false := by
  rw [Bool.eq_false_iff, Ne, expired_iff h]
  omega

theorem observe_defined (c : Correlator) {ev : SecurityEvent}
    (h : ev.ts_ns.toNat + c.window_ns.toNat < 2 ^ 64) : ∃ hit c', c.observe ev = some (hit, c') := by
  unfold Correlator.observe
  split
  · exact ⟨_, _, rfl⟩
  · split
    · unfold Correlator.observeConnect
      split
      · exact ⟨_, _, rfl⟩
      · dsimp only
        rw [find?_touchConns_self (not_expired_self h)]
        dsimp only
        split
        · exact ⟨_, _, rfl⟩
        · exact ⟨_, _, rfl⟩
    · split
      · exact ⟨_, _, rfl⟩
      · exact ⟨_, _, rfl⟩

/-- A steady stream has a defined state after it. -/
theorem observeAll_defined {W : UInt64} {N : ℕ} {log : List SecurityEvent}
    (h : SteadyClock W log) : ∃ c, (Correlator.init W N).observeAll log = some c := by
  induction log using List.reverseRecOn with
  | nil => exact ⟨_, rfl⟩
  | append_singleton log ev ih =>
    obtain ⟨c, hc⟩ := ih h.left
    have hwrap : ev.ts_ns.toNat + c.window_ns.toNat < 2 ^ 64 := by
      rw [(observeAll_params hc).1]
      exact h.last_noWrap
    obtain ⟨hit, c', hev⟩ := observe_defined c hwrap
    exact ⟨c', observeAll_append_singleton.mpr ⟨c, hit, hc, hev⟩⟩

/-- On a steady clock the next event is answered, in a state that covers everything before it. -/
theorem observe_on_steady {W : UInt64} {N : ℕ} {log : List SecurityEvent} {ev : SecurityEvent}
    (h : SteadyClock W (log ++ [ev])) :
    ∃ c hit c', (Correlator.init W N).observeAll log = some c ∧ c.observe ev = some (hit, c') ∧
      c.window_ns = W ∧ c.beacon_threshold = N ∧ Covered W log ev.ts_ns.toNat c := by
  obtain ⟨c, hc⟩ := observeAll_defined (N := N) h.left
  obtain ⟨hW, hN⟩ := observeAll_params hc
  have hwrap : ev.ts_ns.toNat + c.window_ns.toNat < 2 ^ 64 := by
    rw [hW]
    exact h.last_noWrap
  obtain ⟨hit, c', hev⟩ := observe_defined c hwrap
  exact ⟨c, hit, c', hc, hev, hW, hN, observeAll_covered hc h.left h.le_last⟩

end PqcEdr.Analyzer
