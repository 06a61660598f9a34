/-
# The beacon rule, C2

`observe_connect` keeps at most 256 times a key and sweeps the keys that went quiet.  For a
threshold within that cap, none of this shows: the rule fires exactly when the whole log holds
enough connects of the same process name to the same public address and port in the window.
-/
import PqcEdr.Analyzer.Chains

namespace PqcEdr.Analyzer

open Recency

/-! ## 1. What the rule counts -/

/-- The connects so far, `ev` included, that agree with it in `(comm, daddr, dport)` and are no
more than `W` before it. -/
def connectsWithin (W : UInt64) (log : List SecurityEvent) (ev : SecurityEvent) :
    List SecurityEvent :=
  (log ++ [ev]).filter fun f =>
    f.type = PQSEC_EVT_TCP_CONNECT ∧ f.commStr = ev.commStr ∧ f.tcpDaddr = ev.tcpDaddr ∧
      f.tcpDport = ev.tcpDport ∧ ev.ts_ns.toNat ≤ f.ts_ns.toNat + W.toNat

theorem isConnectTo_iff {ev f : SecurityEvent} (hpub : isPrivateIpv4 ev.tcpDaddr = false) :
    isConnectTo (connKeyOf ev) f = true ↔ f.type = PQSEC_EVT_TCP_CONNECT ∧
      f.commStr = ev.commStr ∧ f.tcpDaddr = ev.tcpDaddr ∧ f.tcpDport = ev.tcpDport := by
  simp only [isConnectTo, connKeyOf, ConnKey.mk.injEq, Bool.and_eq_true, decide_eq_true_eq,
    Bool.not_eq_true']
  constructor
  · rintro ⟨⟨ht, -⟩, hkey⟩
    exact ⟨ht, hkey⟩
  · rintro ⟨ht, hcomm, haddr, hport⟩
    exact ⟨⟨ht, by rw [haddr]; exact hpub⟩, hcomm, haddr, hport⟩

/-- The count, read off the times that the key's history answers for. -/
theorem length_connectsWithin {W : UInt64} {log : List SecurityEvent} {ev : SecurityEvent}
    (hpub : isPrivateIpv4 ev.tcpDaddr = false) :
    (connectsWithin W log ev).length = ((connectsOf (connKeyOf ev) (log ++ [ev])).filter fun t =>
      decide (ev.ts_ns.toNat ≤ t.toNat + W.toNat)).length := by
  rw [connectsOf, List.filter_map, List.length_map, List.filter_filter, connectsWithin]
  congr 1
  refine List.filter_congr ?_
  intro f _
  rw [Bool.eq_iff_iff, Bool.and_eq_true, isConnectTo_iff hpub]
  simp only [decide_eq_true_eq, Function.comp]
  tauto

/-! ## 2. The touched history -/

/-- After the front expiry of a chronological history, everything in it is in the window. -/
theorem not_stale_of_mem_touchHistory {c : Correlator} {ev : SecurityEvent}
    (hchron : Chronological UInt64.toNat ((c.conns.find? (connKeyOf ev)).getD [])) :
    ∀ t ∈ c.touchHistory ev, ¬ Stale UInt64.toNat c.window_ns.toNat ev.ts_ns.toNat t := by
  intro t ht
  have hpop := not_stale_of_mem_popExpired c.window_ns ev.ts_ns (fun _ => rfl) hchron
  rcases List.mem_append.mp ((pushCapped_suffix _ _ _).subset ht) with hmem | hmem
  · exact hpop t hmem
  · rw [List.mem_singleton.mp hmem]
    exact not_lt.mpr (Nat.le_add_right _ _)

theorem observe_connect_eq {c : Correlator} {ev : SecurityEvent}
    (ht : ev.type = PQSEC_EVT_TCP_CONNECT) : c.observe ev = c.observeConnect ev := by
  rw [Correlator.observe, if_neg (by rw [ht]; decide), if_pos ht]

/-- What a defined answer to a public connect is: the size of the touched history against the
threshold. -/
theorem observe_connect_cases {c c' : Correlator} {ev : SecurityEvent} {hit : CorrelationHit}
    (ht : ev.type = PQSEC_EVT_TCP_CONNECT) (hpub : isPrivateIpv4 ev.tcpDaddr = false)
    (h : c.observe ev = some (hit, c')) :
    (c'.conns.find? (connKeyOf ev)) = some (c.touchHistory ev) ∧
      (((c.touchHistory ev).length < c.beacon_threshold ∧ hit = {}) ∨
        (c.beacon_threshold ≤ (c.touchHistory ev).length ∧
          hit = ⟨true, .High, "beacon",
            beaconReason (connKeyOf ev) c.window_ns (c.touchHistory ev).length⟩)) := by
  rw [observe_connect_eq ht] at h
  obtain ⟨hist, hfind, rfl, rfl⟩ := observeConnect_eq_some hpub h
  obtain rfl := eq_touchHistory hfind
  refine ⟨hfind, ?_⟩
  by_cases hlt : (c.touchHistory ev).length < c.beacon_threshold
  · exact Or.inl ⟨hlt, if_pos hlt⟩
  · exact Or.inr ⟨not_lt.mp hlt, if_neg hlt⟩

/-! ## 3. The rule, exactly -/

section Exact

variable {W : UInt64} {N : ℕ} {log : List SecurityEvent} {ev : SecurityEvent}

/-- Beacon detection is counting over the whole log. -/
theorem beacon_detection (hcap : N ≤ kMaxHistPerKey)
    (hclock : SteadyClock W (log ++ [ev])) (hconn : ev.type = PQSEC_EVT_TCP_CONNECT) :
    ∃ c hit c', (Correlator.init W N).observeAll log = some c ∧ c.observe ev = some (hit, c') ∧
      (isPrivateIpv4 ev.tcpDaddr = true → hit = {}) ∧
      (isPrivateIpv4 ev.tcpDaddr = false →
        (IsHit hit .High "beacon" ↔ N ≤ (connectsWithin W log ev).length)) := by
  obtain ⟨c, hit, c', hc, hev, hW, hN, hcov⟩ := observe_on_steady (N := N) hclock
  refine ⟨c, hit, c', hc, hev, ?_, ?_⟩
  · intro hpriv
    rw [observe_connect_eq hconn, Correlator.observeConnect, if_pos hpriv] at hev
    exact (congrArg Prod.fst (Option.some.inj hev)).symm
  · intro hpub
    obtain ⟨hfind, hcases⟩ := observe_connect_cases hconn hpub hev
    -- the touched history covers the key's connects, this one included, and is all in the window
    have hcov' := (hcov.step hW (observe_steps hev) hclock le_rfl).conns (connKeyOf ev)
    rw [hfind, Option.getD_some] at hcov'
    have hchron : Chronological UInt64.toNat (connectsOf (connKeyOf ev) (log ++ [ev])) :=
      hclock.chronological _ fun _ => rfl
    have hold : Chronological UInt64.toNat ((c.conns.find? (connKeyOf ev)).getD []) :=
      Chronological.suffix (hclock.left.chronological _ fun _ => rfl) (hcov.conns _).suffix
    have hin : (c.touchHistory ev).filter (fun t => decide (ev.ts_ns.toNat ≤ t.toNat + W.toNat))
        = c.touchHistory ev := by
      refine List.filter_eq_self.mpr ?_
      intro t ht
      have hin := not_stale_of_mem_touchHistory hold t ht
      rw [hW] at hin
      exact decide_eq_true (not_lt.mp hin)
    have hfresh : ∀ t ∈ connectsOf (connKeyOf ev) (log ++ [ev]),
        decide (ev.ts_ns.toNat ≤ t.toNat + W.toNat) = true ↔
          ¬ Stale UInt64.toNat W.toNat ev.ts_ns.toNat t := by
      intro t _
      rw [decide_eq_true_iff, Stale, not_lt]
    have hcount := hcov'.count_iff hcap hchron hfresh
    rw [length_connectsWithin hpub, hcount, hin]
    rcases hcases with ⟨hlt, rfl⟩ | ⟨hge, rfl⟩
    · exact iff_of_false not_isHit_default (by omega)
    · exact iff_of_true ⟨rfl, rfl, rfl⟩ (hN ▸ hge)

/-- The third connect of one implant, each a second after the other. -/
theorem beacon_detection_third_connect :
    ∃ c hit c',
      (Correlator.init 60000000000 3).observeAll
        [.synTcp (lit "implant") 0x076433c6 4444 7010 7000 5,
          .synTcp (lit "implant") 0x076433c6 4444 7010 7000 1000000005] = some c ∧
      c.observe (.synTcp (lit "implant") 0x076433c6 4444 7010 7000 2000000005) = some (hit, c') ∧
      (isPrivateIpv4 (SecurityEvent.synTcp (lit "implant") 0x076433c6 4444 7010 7000
        2000000005).tcpDaddr = true → hit = {}) ∧
      (isPrivateIpv4 (SecurityEvent.synTcp (lit "implant") 0x076433c6 4444 7010 7000
          2000000005).tcpDaddr = false →
        (IsHit hit .High "beacon" ↔ 3 ≤ (connectsWithin 60000000000
          [.synTcp (lit "implant") 0x076433c6 4444 7010 7000 5,
            .synTcp (lit "implant") 0x076433c6 4444 7010 7000 1000000005]
          (.synTcp (lit "implant") 0x076433c6 4444 7010 7000 2000000005)).length)) :=
  beacon_detection (by decide) ⟨by decide, by decide⟩ rfl

end Exact

end PqcEdr.Analyzer
