/-
# What a hit rests on when the clock misbehaves

The analyzer outlives the agent's boots and reads several CPUs' records as they arrive, so a
timestamp may lie before one that was seen earlier.  The window tests are one-sided
(`now > then + window_ns_`), and the two queues are expired at the front only; both are sound
just as long as no event is older than the stored entries it is compared with (`ClockOk`).
`hits_rest_on_the_window` proves that for every run, wrapped additions included: a wrapped sum
makes an entry look older, never younger.  `download_exec_stale_evidence` is the run that shows
the condition is needed.
-/
import PqcEdr.Analyzer.Beacon

namespace PqcEdr.Analyzer

open Recency

/-! ## 1. Evidence -/

/-- `f` lies in the window that ends at `ev`. -/
def InWindow (W : UInt64) (f ev : SecurityEvent) : Prop :=
  f.ts_ns.toNat ≤ ev.ts_ns.toNat ∧ ev.ts_ns.toNat ≤ f.ts_ns.toNat + W.toNat

instance (W : UInt64) (f ev : SecurityEvent) : Decidable (InWindow W f ev) :=
  inferInstanceAs (Decidable (_ ∧ _))

/-- The entry that the scan of `downloads_` stops at. -/
def Correlator.relatedDownload (c : Correlator) (ev : SecurityEvent) : Option Lineage :=
  (c.liveDownloads ev).find? fun d => decide (commonAncestor d.anc (ancestorSet ev) ≠ 0)

/-- What a hit of `observe` in the state `c` rests on: the staged write or the download that it
found there, which is that of an event observed in the window, or the times that it counted, which
are those of the last connects, all of them in the window and the event among them. -/
structure RestsOnWindow (W : UInt64) (N : ℕ) (log : List SecurityEvent) (c : Correlator)
    (ev : SecurityEvent) (hit : CorrelationHit) : Prop where
  rule : hit.hit = true →
    hit.rule = "write-exec-chain" ∨ hit.rule = "download-exec-chain" ∨ hit.rule = "beacon"
  writeExec : hit.rule = "write-exec-chain" → ∃ w, c.liveWrite ev = some w ∧
    hit.reason = writeExecReason w ev.execveFilename ev.ts_ns ∧
    ∃ f ∈ log, isWriteTo ev.execveFilename f = true ∧ InWindow W f ev ∧ w = stagedWriteOf f
  downloadExec : hit.rule = "download-exec-chain" → ∃ d, c.relatedDownload ev = some d ∧
    hit.reason = downloadExecReason d (commonAncestor d.anc (ancestorSet ev)) ev.ts_ns ∧
    ∃ f ∈ log, isDownload f = true ∧ InWindow W f ev ∧ d = lineageOf f ∧ ShareAncestor f ev
  beacon : hit.rule = "beacon" → N ≤ (c.touchHistory ev).length ∧
    hit.reason = beaconReason (connKeyOf ev) W (c.touchHistory ev).length ∧
    ∃ fs, fs <:+ (log ++ [ev]).filter (isConnectTo (connKeyOf ev)) ∧ ev ∈ fs ∧
      (∀ f ∈ fs, InWindow W f ev) ∧ c.touchHistory ev = fs.map (·.ts_ns)

/-! ## 2. The condition on the clock -/

/-- The event is not older than the stored entries that its observer consults. -/
structure ClockOk (c : Correlator) (ev : SecurityEvent) : Prop where
  downloads : ev.type = PQSEC_EVT_EXECVE →
    isDownloader ev = true ∨ isTempPath ev.execveFilename = true →
      ∀ d ∈ c.downloads, d.ts_ns.toNat ≤ ev.ts_ns.toNat
  staged : ev.type = PQSEC_EVT_EXECVE → isTempPath ev.execveFilename = true →
    ∀ w, c.staged.find? ev.execveFilename = some w → w.ts_ns.toNat ≤ ev.ts_ns.toNat
  conns : ev.type = PQSEC_EVT_TCP_CONNECT →
    ∀ t ∈ (c.conns.find? (connKeyOf ev)).getD [], t.toNat ≤ ev.ts_ns.toNat

/-- Every event of the run meets the condition in the state that observes it. -/
def RunClockOk (c₀ : Correlator) (run : List SecurityEvent) : Prop :=
  ∀ pre ev, pre ++ [ev] <+: run → ∀ c, c₀.observeAll pre = some c → ClockOk c ev

theorem RunClockOk.left {c₀ : Correlator} {run : List SecurityEvent} {ev : SecurityEvent}
    (h : RunClockOk c₀ (run ++ [ev])) : RunClockOk c₀ run := by
  intro pre x hpre
  exact h pre x (hpre.trans (List.prefix_append run [ev]))

theorem RunClockOk.last {c₀ c : Correlator} {run : List SecurityEvent} {ev : SecurityEvent}
    (h : RunClockOk c₀ (run ++ [ev])) (hc : c₀.observeAll run = some c) : ClockOk c ev :=
  h run ev (List.prefix_refl _) c hc

/-- Timestamps that never decrease meet the condition. -/
theorem clockOk_of_latest {W : UInt64} {N : ℕ} {log : List SecurityEvent} {c : Correlator}
    {ev : SecurityEvent} (hc : (Correlator.init W N).observeAll log = some c)
    (hlast : ∀ x ∈ log, x.ts_ns.toNat ≤ ev.ts_ns.toNat) : ClockOk c ev := by
  have hp := observeAll_provenance hc
  refine ⟨?_, ?_, ?_⟩
  · intro _ _ d hd
    obtain ⟨x, hx, -, rfl⟩ := hp.of_downloads hd
    exact hlast x hx
  · intro _ _ w hw
    obtain ⟨x, hx, -, rfl⟩ := hp.of_staged hw
    exact hlast x hx
  · intro _ t ht
    obtain ⟨x, hx, -, rfl⟩ := hp.of_conns ht
    exact hlast x hx

/-- A steady run meets it throughout. -/
theorem runClockOk_of_steady {W : UInt64} {N : ℕ} {run : List SecurityEvent}
    (h : SteadyClock W run) : RunClockOk (Correlator.init W N) run := by
  rintro pre ev ⟨post, rfl⟩ c hc
  exact clockOk_of_latest hc h.left.le_last

/-- Both queues are in order of time. -/
structure Ordered (c : Correlator) : Prop where
  downloads : Chronological (fun d : Lineage => d.ts_ns.toNat) c.downloads
  conns : ∀ k, Chronological UInt64.toNat ((c.conns.find? k).getD [])

theorem Ordered.step {c c' : Correlator} {ev : SecurityEvent} (h : Ordered c) (hok : ClockOk c ev)
    (hs : Steps c ev c') : Ordered c' where
  downloads := by
    refine hs.downloads.chronological h.downloads ?_
    intro x hx d hd
    unfold added at hx
    split at hx
    · rename_i hdl
      obtain ⟨ht, hbin⟩ := Bool.and_eq_true_iff.mp hdl
      rw [← Option.some.inj hx]
      exact hok.downloads (of_decide_eq_true ht) (Or.inl hbin) d hd
    · cases hx
  conns k := by
    refine (hs.conns k).chronological (h.conns k) ?_
    intro x hx t ht
    unfold added at hx
    split at hx
    · rename_i hk
      simp only [isConnectTo, Bool.and_eq_true, decide_eq_true_eq] at hk
      obtain ⟨⟨htype, -⟩, rfl⟩ := hk
      rw [← Option.some.inj hx]
      exact hok.conns htype t ht
    · cases hx

theorem observeAll_ordered {W : UInt64} {N : ℕ} {log : List SecurityEvent} {c : Correlator}
    (h : (Correlator.init W N).observeAll log = some c)
    (hok : RunClockOk (Correlator.init W N) log) : Ordered c := by
  induction log using List.reverseRecOn generalizing c with
  | nil =>
    obtain rfl := Option.some.inj h
    exact ⟨List.Pairwise.nil, fun _ => List.Pairwise.nil⟩
  | append_singleton log ev ih =>
    obtain ⟨c₁, hit, hlog, hev⟩ := observeAll_append_singleton.mp h
    exact (ih hlog hok.left).step (hok.last hlog) (observe_steps hev)

/-! ## 3. Every hit rests on the window -/

section Hits

variable {W : UInt64} {N : ℕ} {log : List SecurityEvent} {ev : SecurityEvent} {c c' : Correlator}
  {hit : CorrelationHit}

/-- A live entry is in the window, counted without wrapping. -/
theorem le_of_not_expired {W now t : UInt64} (h : expired W now t = false) :
    now.toNat ≤ t.toNat + W.toNat := by
  by_contra hlt
  rw [expired_of_lt (not_le.mp hlt)] at h
  exact Bool.noConfusion h

/-- The write quoted by C3 is one that was observed. -/
theorem liveWrite_observed (hp : Provenance log c) (hW : c.window_ns = W)
    (hok : ClockOk c ev) (ht : ev.type = PQSEC_EVT_EXECVE)
    (htmp : isTempPath ev.execveFilename = true) {w : StagedWrite} (hw : c.liveWrite ev = some w) :
    ∃ f ∈ log, isWriteTo ev.execveFilename f = true ∧ InWindow W f ev ∧ w = stagedWriteOf f := by
  unfold Correlator.liveWrite at hw
  obtain ⟨hfind, hlive⟩ := Option.filter_eq_some_iff.mp hw
  obtain ⟨f, hlog, hwrite, rfl⟩ := hp.of_staged hfind
  rw [hW] at hlive
  exact ⟨f, hlog, hwrite, ⟨hok.staged ht htmp _ hfind,
    le_of_not_expired (by simpa [stagedWriteOf] using hlive)⟩, rfl⟩

/-- What survives the front expiry of an ordered `downloads_` was observed in the window. -/
theorem liveDownloads_observed (hp : Provenance log c) (hord : Ordered c) (hW : c.window_ns = W)
    (hok : ClockOk c ev) (ht : ev.type = PQSEC_EVT_EXECVE)
    (htmp : isTempPath ev.execveFilename = true) {d : Lineage} (hd : d ∈ c.liveDownloads ev) :
    ∃ f ∈ log, isDownload f = true ∧ InWindow W f ev ∧ d = lineageOf f := by
  have hmem := (popWhile_suffix _ _).subset hd
  have hfresh := not_stale_of_mem_liveDownloads c ev hord.downloads d hd
  rw [hW] at hfresh
  have hle := hok.downloads ht (Or.inr htmp) d hmem
  obtain ⟨f, hlog, hdl, rfl⟩ := hp.of_downloads hmem
  exact ⟨f, hlog, hdl, ⟨hle, not_lt.mp hfresh⟩, rfl⟩

theorem restsOnWindow_default : RestsOnWindow W N log c ev {} :=
  ⟨fun h => absurd h (by decide), fun h => absurd h (by decide), fun h => absurd h (by decide),
    fun h => absurd h (by decide)⟩

theorem observeExecve_restsOnWindow (hp : Provenance log c) (hord : Ordered c)
    (hW : c.window_ns = W) (hok : ClockOk c ev) (ht : ev.type = PQSEC_EVT_EXECVE) :
    RestsOnWindow W N log c ev (c.observeExecve ev).1 := by
  rw [observeExecve_hit]
  split
  · exact restsOnWindow_default
  · rename_i hpath
    have htmp : isTempPath ev.execveFilename = true := by
      cases h : isTempPath ev.execveFilename with
      | true => rfl
      | false => exact absurd (Or.inr h) hpath
    split
    · rename_i w hw
      have hobserved := liveWrite_observed hp hW hok ht htmp hw
      exact ⟨fun _ => Or.inl rfl, fun _ => ⟨w, hw, rfl, hobserved⟩, fun h => absurd h (by simp),
        fun h => absurd h (by simp)⟩
    · rw [matchLineage_eq]
      cases hfind : (c.liveDownloads ev).find? fun d =>
          decide (commonAncestor d.anc (ancestorSet ev) ≠ 0) with
      | none => exact restsOnWindow_default
      | some d =>
        have hne : commonAncestor d.anc (ancestorSet ev) ≠ 0 := by
          simpa using List.find?_some hfind
        obtain ⟨f, hlog, hdl, hin, rfl⟩ :=
          liveDownloads_observed hp hord hW hok ht htmp (List.mem_of_find?_eq_some hfind)
        have hshare : ShareAncestor f ev := commonAncestor_ne_zero_iff.mp hne
        exact ⟨fun _ => Or.inr (Or.inl rfl), fun h => absurd h (by simp),
          fun _ => ⟨lineageOf f, hfind, rfl, f, hlog, hdl, hin, rfl, hshare⟩,
          fun h => absurd h (by simp)⟩

/-- The times of a tail of the connects, the last of them among it, are those of events. -/
theorem exists_connects {q : List UInt64} {k : ConnKey} (hev : isConnectTo k ev = true)
    (hne : q ≠ []) (hq : q <:+ connectsOf k (log ++ [ev])) :
    ∃ fs, fs <:+ (log ++ [ev]).filter (isConnectTo k) ∧ ev ∈ fs ∧ q = fs.map (·.ts_ns) := by
  obtain ⟨fs, hfs, rfl⟩ := List.suffix_map_iff.mp hq
  refine ⟨fs, hfs, ?_, rfl⟩
  have hne' : fs ≠ [] := fun h => hne (by rw [h, List.map_nil])
  have hlast : (log ++ [ev]).filter (isConnectTo k) = log.filter (isConnectTo k) ++ [ev] := by
    rw [List.filter_append, List.filter_singleton, hev]
    rfl
  rw [hlast] at hfs
  rcases List.suffix_concat_iff.mp hfs with h | ⟨fs', rfl, -⟩
  · exact absurd h hne'
  · exact List.mem_append_right _ (List.mem_singleton_self ev)

theorem observeConnect_restsOnWindow (hp : Provenance log c) (hord : Ordered c)
    (hW : c.window_ns = W) (hN : c.beacon_threshold = N) (hok : ClockOk c ev)
    (ht : ev.type = PQSEC_EVT_TCP_CONNECT) (h : c.observe ev = some (hit, c')) :
    RestsOnWindow W N log c ev hit := by
  cases hpriv : isPrivateIpv4 ev.tcpDaddr with
  | true =>
    rw [observe_connect_eq ht, Correlator.observeConnect, if_pos hpriv] at h
    obtain ⟨rfl, -⟩ := Prod.mk.inj (Option.some.inj h)
    exact restsOnWindow_default
  | false =>
    obtain ⟨hfind, ⟨-, rfl⟩ | ⟨hge, rfl⟩⟩ := observe_connect_cases ht hpriv h
    · exact restsOnWindow_default
    · refine ⟨fun _ => Or.inr (Or.inr rfl), fun h => absurd h (by simp),
        fun h => absurd h (by simp), fun _ => ⟨hN ▸ hge, by rw [hW], ?_⟩⟩
      have hconn : isConnectTo (connKeyOf ev) ev = true := by simp [isConnectTo, ht, hpriv]
      have hsuf := (hp.step (observe_steps h)).conns (connKeyOf ev)
      rw [hfind, Option.getD_some] at hsuf
      have hne : c.touchHistory ev ≠ [] := by
        intro hnil
        have hlast := getLast?_touchHistory c ev
        rw [hnil] at hlast
        cases hlast
      obtain ⟨fs, hfs, hmem, htimes⟩ := exists_connects hconn hne hsuf
      refine ⟨fs, hfs, hmem, ?_, htimes⟩
      intro f hf
      have htm : f.ts_ns ∈ c.touchHistory ev := htimes ▸ List.mem_map_of_mem hf
      constructor
      · -- an old time was consulted, so the clock condition bounds it
        rcases List.mem_append.mp ((pushCapped_suffix _ _ _).subset htm) with hold | hnew
        · exact hok.conns ht _ ((popWhile_suffix _ _).subset hold)
        · exact (List.mem_singleton.mp hnew ▸ le_rfl)
      · have hfresh := not_stale_of_mem_touchHistory (hord.conns _) _ htm
        rw [hW] at hfresh
        exact not_lt.mp hfresh

/-- In every run whose events all meet the clock condition, the entries that a hit was made from are
those of events that were observed before it, or of itself, and lie in the window that ends at
it. -/
theorem hits_rest_on_the_window
    (hc : (Correlator.init W N).observeAll log = some c) (hev : c.observe ev = some (hit, c'))
    (hok : RunClockOk (Correlator.init W N) (log ++ [ev])) : RestsOnWindow W N log c ev hit := by
  have hp := observeAll_provenance hc
  have hord := observeAll_ordered hc hok.left
  have hlast := hok.last hc
  obtain ⟨hW, hN⟩ := observeAll_params hc
  by_cases ht : ev.type = PQSEC_EVT_EXECVE
  · rw [observe_execve_eq ht hev]
    exact observeExecve_restsOnWindow hp hord hW hlast ht
  · by_cases ht' : ev.type = PQSEC_EVT_TCP_CONNECT
    · exact observeConnect_restsOnWindow hp hord hW hN hlast ht' hev
    · have hnone : hit = {} := by
        rw [Correlator.observe, if_neg ht, if_neg ht'] at hev
        split at hev
        · rw [← observeFile_hit c ev, Option.some.inj hev]
        · exact (congrArg Prod.fst (Option.some.inj hev)).symm
      rw [hnone]
      exact restsOnWindow_default

end Hits

def stagedRun : List SecurityEvent :=
  [.synFileOpen (lit "curl") (lit "/tmp/update") PQSEC_FA_WRITE 7002 7000 5]

def stagedExec : SecurityEvent :=
  .synExecve (lit "systemd") (lit "/tmp/update") 8002 8000 1000000005

/-- The condition is met by the shortest chain there is, whose hit rests on the write. -/
theorem hits_rest_on_the_window_staged :
    ∃ c hit c', (Correlator.init 60000000000 3).observeAll stagedRun = some c ∧
      c.observe stagedExec = some (hit, c') ∧ IsHit hit .Critical "write-exec-chain" ∧
      RestsOnWindow 60000000000 3 stagedRun c stagedExec hit := by
  have hclock : SteadyClock 60000000000 (stagedRun ++ [stagedExec]) := ⟨by decide, by decide⟩
  have hrun : (((Correlator.init 60000000000 3).observeAll stagedRun).bind fun c =>
      (c.observe stagedExec).map fun r =>
        decide (IsHit r.1 .Critical "write-exec-chain")) = some true := by decide
  obtain ⟨c, hc, hrun⟩ := Option.bind_eq_some_iff.mp hrun
  obtain ⟨⟨hit, c'⟩, hev, hhit⟩ := Option.map_eq_some_iff.mp hrun
  exact ⟨c, hit, c', hc, hev, of_decide_eq_true hhit,
    hits_rest_on_the_window hc hev (runClockOk_of_steady hclock)⟩

/-! ## 4. A reboot in the middle

The agent's clock counts from boot.  A download at 100 s, then after a reboot one at 10 s by
another lineage, and at 120 s an execution related to the second: the front of `downloads_` is
the first one, still in the window, so the second is never expired and the hit rests on an entry
that is 110 s old. -/

def rebootRun : List SecurityEvent :=
  [.synExecve (lit "sh") (lit "/usr/bin/curl") 71 70 100000000000,
    .synExecve (lit "sh") (lit "/usr/bin/wget") 51 50 10000000000]

def rebootExec : SecurityEvent := .synExecve (lit "sh") (lit "/tmp/x") 52 50 120000000000

theorem download_exec_stale_evidence :
    ∃ c hit c', (Correlator.init 60000000000 3).observeAll rebootRun = some c ∧
      c.observe rebootExec = some (hit, c') ∧ IsHit hit .Critical "download-exec-chain" ∧
      ¬ RestsOnWindow 60000000000 3 rebootRun c rebootExec hit := by
  have hrun : (((Correlator.init 60000000000 3).observeAll rebootRun).bind fun c =>
      (c.observe rebootExec).map fun r =>
        decide (IsHit r.1 .Critical "download-exec-chain")) = some true := by decide
  obtain ⟨c, hc, hrun⟩ := Option.bind_eq_some_iff.mp hrun
  obtain ⟨⟨hit, c'⟩, hev, hhit⟩ := Option.map_eq_some_iff.mp hrun
  have hhit := of_decide_eq_true hhit
  refine ⟨c, hit, c', hc, hev, hhit, ?_⟩
  intro hrest
  obtain ⟨-, -, -, d, hd, -, hin, -, hshare⟩ := hrest.downloadExec hhit.2.2
  have hnone : ∀ d ∈ rebootRun, ¬ (InWindow 60000000000 d rebootExec ∧
      commonAncestor (ancestorSet d) (ancestorSet rebootExec) ≠ 0) := by decide
  exact hnone d hd ⟨hin, commonAncestor_ne_zero_iff.mpr hshare⟩

end PqcEdr.Analyzer
