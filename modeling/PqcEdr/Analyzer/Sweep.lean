/-
# The sweep of the connections

`Correlator::observe_connect` holds a reference to the history that it has just pushed the event's
time on, and sweeps `conns_` when there are more than 4096 keys.  The sweep must pass over that
entry, since the history's size is read behind it.  Its test is `now > back + window_ns_` with
`back` the time that was just pushed, so the event is compared with itself: the entry is safe as
long as the sum does not wrap.  Nothing checks the time that the record brings.
-/
import PqcEdr.Analyzer.Bounds

namespace PqcEdr.Analyzer

open Recency

/-! ## 1. What the sweep must not do -/

/-- The keys of `conns_` once the event's own is among them. -/
def keysWith (c : Correlator) (ev : SecurityEvent) : ℕ :=
  if (c.conns.find? (connKeyOf ev)).isSome then c.conns.size else c.conns.size + 1

/-- What the end of `observe_connect` relies on: the touched entry is still there with its history,
the sweep's comparison was right about it, and the history counted is the whole one. -/
structure KeepsEntry (c : Correlator) (ev : SecurityEvent) : Prop where
  kept : (c.touchConns ev).find? (connKeyOf ev) = some (c.touchHistory ev)
  judged : keysWith c ev > kSweepKeys → ∀ back, (c.touchHistory ev).getLast? = some back →
    (expired c.window_ns ev.ts_ns back = true ↔
      back.toNat + c.window_ns.toNat < ev.ts_ns.toNat)
  counted : ∃ hit c', c.observe ev = some (hit, c') ∧
    c'.conns.find? (connKeyOf ev) = some (c.touchHistory ev) ∧
    (hit.hit = true ↔ c.beacon_threshold ≤ (c.touchHistory ev).length)

/-- The map is small enough to go without a sweep, or the event's own window ends below `2 ^ 64`. -/
def SweepOk (c : Correlator) (ev : SecurityEvent) : Prop :=
  keysWith c ev ≤ kSweepKeys ∨ ev.ts_ns.toNat + c.window_ns.toNat < 2 ^ 64

/-! ## 2. The sweep's own entry -/

theorem sweepsOut_touchHistory (c : Correlator) (ev : SecurityEvent) :
    Correlator.sweepsOut c.window_ns ev.ts_ns (c.touchHistory ev)
      = expired c.window_ns ev.ts_ns ev.ts_ns := by
  rw [Correlator.sweepsOut, getLast?_touchHistory]

theorem size_put_connKeyOf (c : Correlator) (ev : SecurityEvent) (hist : List UInt64) :
    (c.conns.put (connKeyOf ev) hist).size = keysWith c ev := by
  unfold keysWith
  cases hfind : c.conns.find? (connKeyOf ev) with
  | none => exact AssocMap.size_put_of_find?_none hfind
  | some w => exact AssocMap.size_put_of_find?_some hfind

/-- A wrapped sum is earlier than its own time. -/
theorem expired_self_iff {W t : UInt64} : expired W t t = true ↔ 2 ^ 64 ≤ t.toNat + W.toNat := by
  have ht := t.toNat_lt
  have hW := W.toNat_lt
  rcases Nat.lt_or_ge (t.toNat + W.toNat) (2 ^ 64) with hlt | hge
  · rw [not_expired_self hlt]
    exact iff_of_false Bool.false_ne_true (Nat.not_le.mpr hlt)
  · refine iff_of_true ?_ hge
    have hmod : (t.toNat + W.toNat) % 2 ^ 64 = t.toNat + W.toNat - 2 ^ 64 := by omega
    unfold expired
    rw [decide_eq_true_iff, gt_iff_lt, UInt64.lt_iff_toNat_lt, UInt64.toNat_add, hmod]
    omega

theorem find?_touchConns_iff (c : Correlator) (ev : SecurityEvent) :
    (c.touchConns ev).find? (connKeyOf ev) = some (c.touchHistory ev) ↔ SweepOk c ev := by
  have hput := AssocMap.find?_put_self c.conns (connKeyOf ev) (c.touchHistory ev)
  unfold SweepOk Correlator.touchConns
  dsimp only
  rw [size_put_connKeyOf]
  split
  · rename_i hlarge
    rw [AssocMap.find?_eraseIf, hput, Option.filter_some, sweepsOut_touchHistory]
    rw [or_iff_right (Nat.not_le.mpr hlarge), ← Nat.not_le, ← expired_self_iff]
    simp
  · rename_i hsmall
    exact iff_of_true hput (Or.inl (Nat.not_lt.mp hsmall))

/-- When the entry is kept, the call goes on with its whole history. -/
theorem observe_of_kept {c : Correlator} {ev : SecurityEvent}
    (htype : ev.type = PQSEC_EVT_TCP_CONNECT) (hpub : isPrivateIpv4 ev.tcpDaddr = false)
    (h : (c.touchConns ev).find? (connKeyOf ev) = some (c.touchHistory ev)) :
    ∃ hit c', c.observe ev = some (hit, c') ∧
      c'.conns.find? (connKeyOf ev) = some (c.touchHistory ev) ∧
      (hit.hit = true ↔ c.beacon_threshold ≤ (c.touchHistory ev).length) := by
  have hne : ¬ ev.type = PQSEC_EVT_EXECVE := by
    rw [htype]
    decide
  unfold Correlator.observe
  rw [if_neg hne, if_pos htype]
  unfold Correlator.observeConnect
  rw [if_neg (by simp [hpub])]
  dsimp only
  rw [h]
  dsimp only
  split
  · rename_i hlt
    exact ⟨_, _, rfl, h, iff_of_false Bool.false_ne_true (Nat.not_le.mpr hlt)⟩
  · rename_i hge
    exact ⟨_, _, rfl, h, iff_of_true rfl (Nat.not_lt.mp hge)⟩

/-- A call is safe exactly when the sweep is not run or the event's window does not wrap. -/
theorem keepsEntry_iff {c : Correlator} {ev : SecurityEvent}
    (htype : ev.type = PQSEC_EVT_TCP_CONNECT) (hpub : isPrivateIpv4 ev.tcpDaddr = false) :
    KeepsEntry c ev ↔ SweepOk c ev := by
  rw [← find?_touchConns_iff]
  refine ⟨KeepsEntry.kept, fun h => ⟨h, ?_, observe_of_kept htype hpub h⟩⟩
  intro hlarge back hback
  obtain rfl := Option.some.inj ((getLast?_touchHistory c ev).symm.trans hback)
  have hwrap : ev.ts_ns.toNat + c.window_ns.toNat < 2 ^ 64 :=
    ((find?_touchConns_iff c ev).mp h).resolve_left (Nat.not_le.mpr hlarge)
  exact expired_iff hwrap

/-! ## 3. Runs -/

/-- Every connect of the run is safe from its own sweep. -/
def RunSweepOk (c₀ : Correlator) (run : List SecurityEvent) : Prop :=
  ∀ log ev c, log ++ [ev] <+: run → c₀.observeAll log = some c →
    ev.type = PQSEC_EVT_TCP_CONNECT → isPrivateIpv4 ev.tcpDaddr = false → SweepOk c ev

theorem RunSweepOk.left {c₀ : Correlator} {run : List SecurityEvent} {ev : SecurityEvent}
    (h : RunSweepOk c₀ (run ++ [ev])) : RunSweepOk c₀ run := by
  intro log x c hpre
  exact h log x c (hpre.trans (List.prefix_append run [ev]))

/-- A connect that is safe, and every other event, is answered. -/
theorem observe_defined_of_sweepOk {c : Correlator} {ev : SecurityEvent}
    (h : ev.type = PQSEC_EVT_TCP_CONNECT → isPrivateIpv4 ev.tcpDaddr = false → SweepOk c ev) :
    ∃ hit c', c.observe ev = some (hit, c') := by
  by_cases htype : ev.type = PQSEC_EVT_TCP_CONNECT
  · cases hpriv : isPrivateIpv4 ev.tcpDaddr with
    | false =>
      obtain ⟨hit, c', hobs, -⟩ := ((keepsEntry_iff htype hpriv).mpr (h htype hpriv)).counted
      exact ⟨hit, c', hobs⟩
    | true =>
      unfold Correlator.observe
      rw [if_neg (by rw [htype]; decide), if_pos htype]
      unfold Correlator.observeConnect
      rw [if_pos hpriv]
      exact ⟨_, _, rfl⟩
  · unfold Correlator.observe
    rw [if_neg htype]
    split
    · exact ⟨_, _, rfl⟩
    · split
      · exact ⟨_, _, rfl⟩
      · exact ⟨_, _, rfl⟩

theorem observeAll_defined_of_sweepOk {c₀ : Correlator} {run : List SecurityEvent}
    (h : RunSweepOk c₀ run) : ∃ last, c₀.observeAll run = some last := by
  induction run using List.reverseRecOn with
  | nil => exact ⟨c₀, rfl⟩
  | append_singleton run ev ih =>
    obtain ⟨c, hc⟩ := ih h.left
    obtain ⟨hit, c', hobs⟩ :=
      observe_defined_of_sweepOk (h run ev c (List.prefix_refl _) hc)
    exact ⟨c', observeAll_append_singleton.mpr ⟨c, hit, hc, hobs⟩⟩

/-- **When the sweep keeps the entry it works on.**  In every state that a run reaches, a connect
to a public address finds its own entry again behind the sweep exactly when there are at most 4096
keys, or its time plus the window is below `2 ^ 64`.  A run of such connects never leaves the
defined states. -/
theorem sweep_keeps_entry_iff (W : UInt64) (N : ℕ) (run : List SecurityEvent) :
    (∀ log ev c, log ++ [ev] <+: run → (Correlator.init W N).observeAll log = some c →
        ev.type = PQSEC_EVT_TCP_CONNECT → isPrivateIpv4 ev.tcpDaddr = false →
        (KeepsEntry c ev ↔ keysWith c ev ≤ kSweepKeys ∨ ev.ts_ns.toNat + W.toNat < 2 ^ 64)) ∧
      (RunSweepOk (Correlator.init W N) run →
        ∃ last, (Correlator.init W N).observeAll run = some last) := by
  refine ⟨?_, observeAll_defined_of_sweepOk⟩
  intro log ev c _ hc htype hpub
  rw [keepsEntry_iff htype hpub, SweepOk, (observeAll_params hc).1]

/-! ## 4. A connect at the end of time -/

/-- Connects of as many keys as fit without a sweep are all kept. -/
theorem conns_burst {W : UInt64} {N : ℕ} {log : List SecurityEvent}
    (hlog : ∀ f ∈ log, f.type = PQSEC_EVT_TCP_CONNECT ∧ isPrivateIpv4 f.tcpDaddr = false)
    (hdistinct : (log.map connKeyOf).Nodup) (hlen : log.length ≤ kSweepKeys) :
    ∃ c, (Correlator.init W N).observeAll log = some c ∧ c.conns.size = log.length ∧
      ∀ k, (c.conns.find? k).isSome → k ∈ log.map connKeyOf := by
  induction log using List.reverseRecOn with
  | nil => exact ⟨_, rfl, rfl, fun k h => by cases h⟩
  | append_singleton log ev ih =>
    rw [List.map_append, List.map_singleton] at hdistinct
    obtain ⟨hnd, -, hnew⟩ := List.nodup_append'.mp hdistinct
    rw [List.length_append, List.length_singleton] at hlen
    obtain ⟨c, hc, hsize, hkeys⟩ := ih (fun f hf => hlog f (by simp [hf])) hnd (by omega)
    obtain ⟨htype, hpub⟩ := hlog ev (by simp)
    have hfresh : ¬ (c.conns.find? (connKeyOf ev)).isSome = true :=
      fun h => hnew (hkeys _ h) (List.mem_singleton_self _)
    have hwith : keysWith c ev = log.length + 1 := by rw [keysWith, if_neg hfresh, hsize]
    obtain ⟨hit, c', hobs, -⟩ :=
      ((keepsEntry_iff (c := c) htype hpub).mpr (Or.inl (by omega))).counted
    have hconns : c'.conns = c.conns.put (connKeyOf ev) (c.touchHistory ev) := by
      have hcall := hobs
      unfold Correlator.observe at hcall
      rw [if_neg (by rw [htype]; decide), if_pos htype] at hcall
      obtain ⟨_, _, rfl, _⟩ := observeConnect_eq_some hpub hcall
      have hsmall : ¬ (c.conns.put (connKeyOf ev) (c.touchHistory ev)).size > kSweepKeys := by
        rw [size_put_connKeyOf]
        omega
      exact if_neg hsmall
    refine ⟨c', observeAll_append_singleton.mpr ⟨c, hit, hc, hobs⟩, ?_, ?_⟩
    · rw [hconns, size_put_connKeyOf, hwith, List.length_append, List.length_singleton]
    · intro k hk
      rw [hconns] at hk
      rw [List.map_append, List.mem_append]
      by_cases hkey : k = connKeyOf ev
      · exact Or.inr (by simp [hkey])
      · rw [AssocMap.find?_put_of_ne hkey] at hk
        exact Or.inl (hkeys k hk)

/-- A connect to 8.8.8.8 at the given port. -/
def portConnect (ts : UInt64) (i : ℕ) : SecurityEvent :=
  .synTcp (lit "scan") 0x08080808 (UInt16.ofNat i) 7 6 ts

theorem portConnect_inj {ts ts' : UInt64} {i j : ℕ} (hi : i ≤ 4096) (hj : j ≤ 4096)
    (h : connKeyOf (portConnect ts i) = connKeyOf (portConnect ts' j)) : i = j := by
  have hport : (portConnect ts i).tcpDport = (portConnect ts' j).tcpDport :=
    congrArg ConnKey.dport h
  rw [portConnect, portConnect, SecurityEvent.tcpDport_synTcp,
    SecurityEvent.tcpDport_synTcp] at hport
  have hnat := congrArg UInt16.toNat hport
  simp only [UInt16.toNat_ofNat'] at hnat
  omega

/-- 4096 ports at time 0, and one more in the last nanosecond of the clock: the sweep erases the
entry of the connect that it is run for. -/
theorem sweep_erases_entry :
    ∃ c, (Correlator.init 60000000000 3).observeAll ((List.range 4096).map (portConnect 0)) =
        some c ∧
      ¬ KeepsEntry c (portConnect 0xffffffffffffffff 4096) := by
  have hconnects : ∀ f ∈ (List.range 4096).map (portConnect 0),
      f.type = PQSEC_EVT_TCP_CONNECT ∧ isPrivateIpv4 f.tcpDaddr = false := by
    intro f hf
    obtain ⟨i, -, rfl⟩ := List.mem_map.mp hf
    refine ⟨rfl, ?_⟩
    rw [portConnect, SecurityEvent.tcpDaddr_synTcp]
    decide
  have hdistinct : (((List.range 4096).map (portConnect 0)).map connKeyOf).Nodup := by
    rw [List.map_map]
    refine List.Nodup.map_on ?_ List.nodup_range
    intro i hi j hj h
    exact portConnect_inj (List.mem_range.mp hi).le (List.mem_range.mp hj).le h
  obtain ⟨c, hc, hsize, hkeys⟩ := conns_burst (W := 60000000000) (N := 3) hconnects hdistinct
    (by rw [List.length_map, List.length_range]; rfl)
  refine ⟨c, hc, ?_⟩
  have hfresh : ¬ (c.conns.find? (connKeyOf (portConnect 0xffffffffffffffff 4096))).isSome := by
    intro h
    obtain ⟨f, hf, hkey⟩ := List.mem_map.mp (hkeys _ h)
    obtain ⟨i, hi, rfl⟩ := List.mem_map.mp hf
    have hlt := List.mem_range.mp hi
    have heq := portConnect_inj hlt.le (Nat.le_refl 4096) hkey
    omega
  rw [keepsEntry_iff rfl rfl, SweepOk, keysWith, if_neg hfresh, hsize, List.length_map,
    List.length_range, (observeAll_params hc).1]
  decide

end PqcEdr.Analyzer
