/-
# The execution chains, C3 and C1

`observe_execve` answers two questions about the events before an EXECVE: was this very path
written in the window, and did a downloader with a common ancestor run in the window?  Both
answers are exact on a steady clock (`write_exec_iff`, `download_exec_iff`), up to what the code
does on the way there:

* a file whose basename is `curl` or `wget` is taken for a downloader and never looked up among
  the staged writes, so a staged file of that name escapes C3;
* the downloaders are remembered up to `kMaxDownloads`.
-/
import PqcEdr.Analyzer.Coverage

namespace PqcEdr.Analyzer

open Recency

/-- The answer is a hit of this severity under this rule. -/
def IsHit (hit : CorrelationHit) (severity : Severity) (rule : String) : Prop :=
  hit.hit = true ∧ hit.severity = severity ∧ hit.rule = rule

instance (hit : CorrelationHit) (severity : Severity) (rule : String) :
    Decidable (IsHit hit severity rule) := inferInstanceAs (Decidable (_ ∧ _ ∧ _))

theorem not_isHit_default {severity : Severity} {rule : String} :
    ¬ IsHit {} severity rule := by
  intro h
  exact Bool.false_ne_true h.1

/-! ## 1. What the rules are about -/

/-- An earlier write to the executed path, no more than `W` before the execution. -/
def WrittenWithin (W : UInt64) (log : List SecurityEvent) (ev : SecurityEvent) : Prop :=
  ∃ f ∈ log, f.type = PQSEC_EVT_FILE_OPEN ∧ f.fileAccess &&& PQSEC_FA_WRITE ≠ 0 ∧
    f.filePath = ev.execveFilename ∧ ev.ts_ns.toNat ≤ f.ts_ns.toNat + W.toNat

instance (W : UInt64) (log : List SecurityEvent) (ev : SecurityEvent) :
    Decidable (WrittenWithin W log ev) :=
  inferInstanceAs (Decidable (∃ f ∈ log, f.type = PQSEC_EVT_FILE_OPEN ∧
    f.fileAccess &&& PQSEC_FA_WRITE ≠ 0 ∧ f.filePath = ev.execveFilename ∧
      ev.ts_ns.toNat ≤ f.ts_ns.toNat + W.toNat))

/-- The process's parent and recorded ancestors. -/
def lineagePids (ev : SecurityEvent) : List UInt32 := ev.ppid :: ev.anc.toList.map Ancestor.pid

/-- Two events share a pid above 1 in their lineages. -/
def ShareAncestor (a b : SecurityEvent) : Prop :=
  ∃ pid, 1 < pid ∧ pid ∈ lineagePids a ∧ pid ∈ lineagePids b

/-- Among the `kMaxDownloads` latest downloader executions, one in the window shares an
ancestor with the execution. -/
def DownloadedWithin (W : UInt64) (log : List SecurityEvent) (ev : SecurityEvent) : Prop :=
  ∃ d ∈ (log.filter isDownload).rtake kMaxDownloads,
    ev.ts_ns.toNat ≤ d.ts_ns.toNat + W.toNat ∧ ShareAncestor d ev

theorem isWriteTo_iff {p : Bytes} {f : SecurityEvent} (hp : isTempPath p = true) :
    isWriteTo p f = true ↔ f.type = PQSEC_EVT_FILE_OPEN ∧ f.fileAccess &&& PQSEC_FA_WRITE ≠ 0 ∧
      f.filePath = p := by
  have hne : p ≠ [] := by
    rintro rfl
    exact absurd hp (by decide)
  simp only [isWriteTo, isStagingWrite, Bool.and_eq_true, decide_eq_true_eq]
  constructor
  · rintro ⟨⟨ht, ⟨ha, -⟩, -⟩, hpath⟩
    exact ⟨ht, ha, hpath⟩
  · rintro ⟨ht, ha, rfl⟩
    exact ⟨⟨ht, ⟨ha, hne⟩, hp⟩, rfl⟩

theorem mem_ancestorSet {pid : UInt32} {ev : SecurityEvent} :
    pid ∈ ancestorSet ev ↔ 1 < pid ∧ pid ∈ lineagePids ev := by
  unfold ancestorSet lineagePids
  simp only [OrdSet.mem_foldl_insertIf, OrdSet.mem_insertIf, OrdSet.not_mem_empty, or_false,
    decide_eq_true_eq, gt_iff_lt, List.mem_cons]
  constructor
  · rintro (⟨hm, hlt⟩ | ⟨rfl, hlt⟩)
    · exact ⟨hlt, Or.inr hm⟩
    · exact ⟨hlt, Or.inl rfl⟩
  · rintro ⟨hlt, rfl | hm⟩
    · exact Or.inr ⟨rfl, hlt⟩
    · exact Or.inl ⟨hm, hlt⟩

/-- `common_ancestor` of two lineages is nonzero exactly when they share a pid above 1, and
then it is such a pid. -/
theorem commonAncestor_ne_zero_iff {a b : SecurityEvent} :
    commonAncestor (ancestorSet a) (ancestorSet b) ≠ 0 ↔ ShareAncestor a b := by
  unfold commonAncestor ShareAncestor
  cases hf : (ancestorSet a).find? fun p => decide (p ∈ ancestorSet b) with
  | none =>
    have hnone := OrdSet.find?_eq_none_iff.mp hf
    simp only [decide_eq_true_eq] at hnone
    refine iff_of_false (by simp) ?_
    rintro ⟨pid, hlt, ha, hb⟩
    exact hnone pid (mem_ancestorSet.mpr ⟨hlt, ha⟩) (mem_ancestorSet.mpr ⟨hlt, hb⟩)
  | some pid =>
    obtain ⟨ha, hb⟩ := OrdSet.mem_of_find?_eq_some hf
    obtain ⟨hlt, ha⟩ := mem_ancestorSet.mp ha
    have hb := (mem_ancestorSet.mp (of_decide_eq_true hb)).2
    refine iff_of_true ?_ ⟨pid, hlt, ha, hb⟩
    rintro rfl
    exact absurd hlt (by decide)

/-! ## 2. What `observe_execve` answers -/

/-- The scan matches the first entry that shares an ancestor. -/
theorem matchLineage_eq (now : UInt64) (mine : OrdSet UInt32) (ds : List Lineage) :
    Correlator.matchLineage now mine ds =
      match ds.find? fun d => decide (commonAncestor d.anc mine ≠ 0) with
      | none => {}
      | some d => ⟨true, .Critical, "download-exec-chain",
          downloadExecReason d (commonAncestor d.anc mine) now⟩ := by
  induction ds with
  | nil => rfl
  | cons d ds ih =>
    rw [Correlator.matchLineage]
    by_cases hd : commonAncestor d.anc mine = 0
    · simp [hd, ih]
    · simp [hd]

/-- The C1 loop finds no relative, or stops at one. -/
theorem matchLineage_cases (now : UInt64) (mine : OrdSet UInt32) (ds : List Lineage) :
    ((∀ d ∈ ds, commonAncestor d.anc mine = 0) ∧ Correlator.matchLineage now mine ds = {}) ∨
    ∃ d ∈ ds, commonAncestor d.anc mine ≠ 0 ∧ Correlator.matchLineage now mine ds =
      ⟨true, .Critical, "download-exec-chain",
        downloadExecReason d (commonAncestor d.anc mine) now⟩ := by
  rw [matchLineage_eq]
  cases hfind : ds.find? fun d => decide (commonAncestor d.anc mine ≠ 0) with
  | none =>
    refine Or.inl ⟨fun d hd => ?_, rfl⟩
    simpa using List.find?_eq_none.mp hfind d hd
  | some d =>
    have hne := List.find?_some hfind
    exact Or.inr ⟨d, List.mem_of_find?_eq_some hfind, of_decide_eq_true hne, rfl⟩

/-- The queue `observe_execve` scans. -/
def Correlator.liveDownloads (c : Correlator) (ev : SecurityEvent) : List Lineage :=
  popWhile (fun d => expired c.window_ns ev.ts_ns d.ts_ns) c.downloads

/-- The front expiry of an ordered `downloads_` leaves nothing stale to scan. -/
theorem not_stale_of_mem_liveDownloads (c : Correlator) (ev : SecurityEvent)
    (h : Chronological (fun d : Lineage => d.ts_ns.toNat) c.downloads) :
    ∀ d ∈ c.liveDownloads ev, ¬ Stale (fun d : Lineage => d.ts_ns.toNat) c.window_ns.toNat
      ev.ts_ns.toNat d :=
  not_stale_of_mem_popExpired c.window_ns ev.ts_ns (fun _ => rfl) h

/-- The staged write that C3 joins with. -/
def Correlator.liveWrite (c : Correlator) (ev : SecurityEvent) : Option StagedWrite :=
  (c.staged.find? ev.execveFilename).filter fun w => !expired c.window_ns ev.ts_ns w.ts_ns

/-- The answers of `observe_execve`, one line a path through it. -/
theorem observeExecve_hit (c : Correlator) (ev : SecurityEvent) :
    (c.observeExecve ev).1 =
      if isDownloader ev = true ∨ isTempPath ev.execveFilename = false then {}
      else match c.liveWrite ev with
        | some w => ⟨true, .Critical, "write-exec-chain",
            writeExecReason w ev.execveFilename ev.ts_ns⟩
        | none => Correlator.matchLineage ev.ts_ns (ancestorSet ev) (c.liveDownloads ev) := by
  unfold Correlator.observeExecve Correlator.liveWrite Correlator.liveDownloads
  cases hd : isDownloader ev with
  | true => simp
  | false =>
    cases ht : isTempPath ev.execveFilename with
    | false => simp
    | true =>
      simp only [Bool.not_true, Bool.false_eq_true, if_false, or_self, Bool.true_eq_false]
      cases hw : c.staged.find? ev.execveFilename with
      | none => simp
      | some w => cases hx : expired c.window_ns ev.ts_ns w.ts_ns <;> simp [Option.filter_some, hx]

theorem observe_execve_eq {c c' : Correlator} {ev : SecurityEvent} {hit : CorrelationHit}
    (ht : ev.type = PQSEC_EVT_EXECVE) (h : c.observe ev = some (hit, c')) :
    hit = (c.observeExecve ev).1 := by
  rw [Correlator.observe, if_pos ht] at h
  rw [Option.some.inj h]

/-! ## 3. The containers against the log -/

section Steady

variable {W : UInt64} {log : List SecurityEvent} {ev : SecurityEvent} {c : Correlator}

/-- C3 joins with a staged write exactly when the log has one in the window. -/
theorem liveWrite_isSome_iff (hclock : SteadyClock W (log ++ [ev])) (hW : c.window_ns = W)
    (hcov : Covered W log ev.ts_ns.toNat c) (htmp : isTempPath ev.execveFilename = true) :
    (c.liveWrite ev).isSome = true ↔ WrittenWithin W log ev := by
  have hchron : Chronological (fun w : StagedWrite => w.ts_ns.toNat)
      (writesOf ev.execveFilename log) := hclock.left.chronological _ fun _ => rfl
  have hfresh : ∀ x ∈ writesOf ev.execveFilename log,
      (!expired W ev.ts_ns x.ts_ns) = true ↔
        ¬ Stale (fun w : StagedWrite => w.ts_ns.toNat) W.toNat ev.ts_ns.toNat x := by
    intro x hx
    obtain ⟨y, hy, rfl⟩ := List.mem_map.mp hx
    have hwrap := hclock.left.noWrap y (List.mem_of_mem_filter hy)
    rw [Bool.not_eq_true', Bool.eq_false_iff, Ne, stagedWriteOf, expired_iff hwrap, Stale]
  have hcount := (hcov.staged ev.execveFilename).count_iff (n := 1) le_rfl hchron hfresh
  have hkept : 1 ≤ ((c.staged.find? ev.execveFilename).toList.filter fun w =>
      !expired W ev.ts_ns w.ts_ns).length ↔ (c.liveWrite ev).isSome = true := by
    unfold Correlator.liveWrite
    rw [hW]
    cases c.staged.find? ev.execveFilename with
    | none => simp
    | some w => cases hx : expired W ev.ts_ns w.ts_ns <;> simp [Option.filter_some, hx]
  rw [← hkept, ← hcount, Nat.one_le_iff_ne_zero, Ne, List.length_eq_zero_iff,
    List.filter_eq_nil_iff]
  push Not
  constructor
  · rintro ⟨x, hx, hlive⟩
    have hns := (hfresh x hx).mp hlive
    obtain ⟨f, hf, rfl⟩ := List.mem_map.mp hx
    obtain ⟨hmem, hfil⟩ := List.mem_filter.mp hf
    obtain ⟨h1, h2, h3⟩ := (isWriteTo_iff htmp).mp hfil
    exact ⟨f, hmem, h1, h2, h3, not_lt.mp hns⟩
  · rintro ⟨f, hmem, h1, h2, h3, hle⟩
    have hx : stagedWriteOf f ∈ writesOf ev.execveFilename log :=
      List.mem_map_of_mem (List.mem_filter.mpr ⟨hmem, (isWriteTo_iff htmp).mpr ⟨h1, h2, h3⟩⟩)
    exact ⟨stagedWriteOf f, hx, (hfresh _ hx).mpr (not_lt.mpr hle)⟩

/-- The C1 scan meets a relative exactly when one of the latest downloads in the window is. -/
theorem liveDownloads_related_iff (hclock : SteadyClock W (log ++ [ev])) (hW : c.window_ns = W)
    (hcov : Covered W log ev.ts_ns.toNat c) (hlen : c.downloads.length ≤ kMaxDownloads) :
    (∃ d ∈ c.liveDownloads ev, commonAncestor d.anc (ancestorSet ev) ≠ 0) ↔
      DownloadedWithin W log ev := by
  have hchron : Chronological (fun d : Lineage => d.ts_ns.toNat) (downloadsOf log) :=
    hclock.left.chronological _ fun _ => rfl
  have hexp : ∀ x ∈ downloadsOf log, expired c.window_ns ev.ts_ns x.ts_ns = true ↔
      Stale (fun d : Lineage => d.ts_ns.toNat) W.toNat ev.ts_ns.toNat x := by
    intro x hx
    obtain ⟨y, hy, rfl⟩ := List.mem_map.mp hx
    have hwrap := hclock.left.noWrap y (List.mem_of_mem_filter hy)
    rw [hW, lineageOf, expired_iff hwrap, Stale]
  have hsub := hcov.downloads.suffix
  have hlive : Covers (fun d : Lineage => d.ts_ns.toNat) W.toNat kMaxDownloads ev.ts_ns.toNat
      (downloadsOf log) (c.liveDownloads ev) :=
    hcov.downloads.expire hchron fun x hx => (hexp x (hsub.subset hx)).mp
  have hnotStale := not_stale_of_mem_liveDownloads c ev (hchron.suffix hsub)
  rw [hW] at hnotStale
  have hshort : (c.liveDownloads ev).length ≤ kMaxDownloads :=
    (popWhile_suffix _ _).length_le.trans hlen
  have hlast : c.liveDownloads ev <:+ (downloadsOf log).rtake kMaxDownloads :=
    List.suffix_of_suffix_length_le hlive.suffix (List.drop_suffix _ _)
      (by have := hlive.suffix.length_le; simp only [List.rtake, List.length_drop]; omega)
  have hmap : (downloadsOf log).rtake kMaxDownloads
      = ((log.filter isDownload).rtake kMaxDownloads).map lineageOf := by
    simp [downloadsOf, List.rtake, List.map_drop]
  constructor
  · rintro ⟨x, hx, hne⟩
    have hmem := hlast.subset hx
    rw [hmap] at hmem
    obtain ⟨d, hd, rfl⟩ := List.mem_map.mp hmem
    exact ⟨d, hd, not_lt.mp (hnotStale _ hx), commonAncestor_ne_zero_iff.mp hne⟩
  · rintro ⟨d, hd, hle, hshare⟩
    have hmem : lineageOf d ∈ (downloadsOf log).rtake kMaxDownloads :=
      hmap ▸ List.mem_map_of_mem hd
    exact ⟨lineageOf d, hlive.mem_of_recent hmem (not_lt.mpr hle),
      commonAncestor_ne_zero_iff.mpr hshare⟩

end Steady

/-! ## 4. C3 and C1, exactly -/

section Exact

variable {W : UInt64} {N : ℕ} {log : List SecurityEvent} {ev : SecurityEvent}

/-- The paths through `observe_execve` that end in the C3 join. -/
theorem write_exec_iff {c : Correlator} (hclock : SteadyClock W (log ++ [ev]))
    (hW : c.window_ns = W) (hcov : Covered W log ev.ts_ns.toNat c)
    (htmp : isTempPath ev.execveFilename = true) :
    IsHit (c.observeExecve ev).1 .Critical "write-exec-chain" ↔
      isDownloader ev = false ∧ WrittenWithin W log ev := by
  rw [← liveWrite_isSome_iff hclock hW hcov htmp, observeExecve_hit, htmp]
  cases hd : isDownloader ev with
  | true => simp [not_isHit_default]
  | false =>
    cases hw : c.liveWrite ev with
    | some w => simp [IsHit]
    | none =>
      rcases matchLineage_cases ev.ts_ns (ancestorSet ev) (c.liveDownloads ev) with
        ⟨-, hres⟩ | ⟨d, -, -, hres⟩
      · simp [hres, not_isHit_default]
      · simp [hres, IsHit]

/-- Write-to-exec detection answers for the whole log except where a staged file is called
`curl` or `wget`: such an execution is recorded as a download and never joined. -/
theorem write_exec_detection (hclock : SteadyClock W (log ++ [ev]))
    (hexec : ev.type = PQSEC_EVT_EXECVE) (htmp : isTempPath ev.execveFilename = true) :
    ∃ c hit c', (Correlator.init W N).observeAll log = some c ∧ c.observe ev = some (hit, c') ∧
      ((IsHit hit .Critical "write-exec-chain" ↔ WrittenWithin W log ev) ↔
        isDownloader ev = false ∨ ¬ WrittenWithin W log ev) := by
  obtain ⟨c, hit, c', hc, hev, hW, -, hcov⟩ := observe_on_steady (N := N) hclock
  refine ⟨c, hit, c', hc, hev, ?_⟩
  rw [observe_execve_eq hexec hev, write_exec_iff hclock hW hcov htmp]
  cases isDownloader ev <;> simp

/-- A process stages `/tmp/update`, and an unrelated one runs it a second later. -/
theorem write_exec_detection_split_parent :
    ∃ c hit c',
      (Correlator.init 60000000000 3).observeAll
        [.synFileOpen (lit "curl") (lit "/tmp/update") PQSEC_FA_WRITE 7002 7000 5] = some c ∧
      c.observe (.synExecve (lit "systemd") (lit "/tmp/update") 8002 8000 1000000005)
        = some (hit, c') ∧
      ((IsHit hit .Critical "write-exec-chain" ↔ WrittenWithin 60000000000
          [.synFileOpen (lit "curl") (lit "/tmp/update") PQSEC_FA_WRITE 7002 7000 5]
          (.synExecve (lit "systemd") (lit "/tmp/update") 8002 8000 1000000005)) ↔
        isDownloader (.synExecve (lit "systemd") (lit "/tmp/update") 8002 8000 1000000005) = false ∨
          ¬ WrittenWithin 60000000000
            [.synFileOpen (lit "curl") (lit "/tmp/update") PQSEC_FA_WRITE 7002 7000 5]
            (.synExecve (lit "systemd") (lit "/tmp/update") 8002 8000 1000000005)) :=
  write_exec_detection ⟨by decide, by decide⟩ rfl (by decide)

/-- The staged file is called `curl`: it is run within a second and nothing is reported. -/
theorem write_exec_misses_curl :
    WrittenWithin 60000000000
        [.synFileOpen (lit "sh") (lit "/tmp/curl") PQSEC_FA_WRITE 7002 7000 5]
        (.synExecve (lit "sh") (lit "/tmp/curl") 8002 8000 1000000005) ∧
      ∃ c hit c',
        (Correlator.init 60000000000 3).observeAll
          [.synFileOpen (lit "sh") (lit "/tmp/curl") PQSEC_FA_WRITE 7002 7000 5] = some c ∧
        c.observe (.synExecve (lit "sh") (lit "/tmp/curl") 8002 8000 1000000005)
          = some (hit, c') ∧
        ¬ IsHit hit .Critical "write-exec-chain" := by
  refine ⟨by decide, ?_⟩
  have hclock : SteadyClock 60000000000
      ([.synFileOpen (lit "sh") (lit "/tmp/curl") PQSEC_FA_WRITE 7002 7000 5]
        ++ [.synExecve (lit "sh") (lit "/tmp/curl") 8002 8000 1000000005]) :=
    ⟨by decide, by decide⟩
  obtain ⟨c, hit, c', hc, hev, hW, -, hcov⟩ := observe_on_steady (N := 3) hclock
  refine ⟨c, hit, c', hc, hev, ?_⟩
  rw [observe_execve_eq rfl hev, write_exec_iff hclock hW hcov (by decide)]
  intro h
  exact absurd h.1 (by decide)

/-- Download-to-exec detection: where C3 has nothing to say, C1 reports exactly the executions
that share an ancestor with one of the latest `kMaxDownloads` downloaders, still in the window. -/
theorem download_exec_detection (hclock : SteadyClock W (log ++ [ev]))
    (hexec : ev.type = PQSEC_EVT_EXECVE) (htmp : isTempPath ev.execveFilename = true)
    (hbin : isDownloader ev = false) (hno : ¬ WrittenWithin W log ev) :
    ∃ c hit c', (Correlator.init W N).observeAll log = some c ∧ c.observe ev = some (hit, c') ∧
      (IsHit hit .Critical "download-exec-chain" ↔ DownloadedWithin W log ev) ∧
      (¬ DownloadedWithin W log ev → hit = {}) := by
  obtain ⟨c, hit, c', hc, hev, hW, -, hcov⟩ := observe_on_steady (N := N) hclock
  refine ⟨c, hit, c', hc, hev, ?_⟩
  have hnone : c.liveWrite ev = none := by
    rw [← Option.not_isSome_iff_eq_none, liveWrite_isSome_iff hclock hW hcov htmp]
    exact hno
  have hres : hit = Correlator.matchLineage ev.ts_ns (ancestorSet ev) (c.liveDownloads ev) := by
    rw [observe_execve_eq hexec hev, observeExecve_hit, hbin, htmp, hnone]
    simp
  rw [hres, ← liveDownloads_related_iff hclock hW hcov (observeAll_capped hc).1]
  rcases matchLineage_cases ev.ts_ns (ancestorSet ev) (c.liveDownloads ev) with
    ⟨hall, hm⟩ | ⟨d, hd, hne, hm⟩
  · have hno : ¬ ∃ d ∈ c.liveDownloads ev, commonAncestor d.anc (ancestorSet ev) ≠ 0 := by
      rintro ⟨d, hd, hne⟩
      exact hne (hall d hd)
    rw [hm]
    exact ⟨iff_of_false not_isHit_default hno, fun _ => rfl⟩
  · have hyes : ∃ d ∈ c.liveDownloads ev, commonAncestor d.anc (ancestorSet ev) ≠ 0 := ⟨d, hd, hne⟩
    rw [hm]
    refine ⟨iff_of_true ⟨rfl, rfl, rfl⟩ hyes, ?_⟩
    intro hnot
    exact absurd hyes hnot

/-- The same shell runs `curl` and then a file it left under `/tmp`. -/
theorem download_exec_detection_same_shell :
    ∃ c hit c',
      (Correlator.init 60000000000 3).observeAll
        [.synExecve (lit "bash") (lit "/usr/bin/curl") 5002 5000 5] = some c ∧
      c.observe (.synExecve (lit "bash") (lit "/tmp/.x/sysupdate") 5004 5000 1000000005)
        = some (hit, c') ∧
      (IsHit hit .Critical "download-exec-chain" ↔ DownloadedWithin 60000000000
        [.synExecve (lit "bash") (lit "/usr/bin/curl") 5002 5000 5]
        (.synExecve (lit "bash") (lit "/tmp/.x/sysupdate") 5004 5000 1000000005)) ∧
      (¬ DownloadedWithin 60000000000
        [.synExecve (lit "bash") (lit "/usr/bin/curl") 5002 5000 5]
        (.synExecve (lit "bash") (lit "/tmp/.x/sysupdate") 5004 5000 1000000005) → hit = {}) :=
  download_exec_detection ⟨by decide, by decide⟩ rfl (by decide) (by decide) (by decide)

end Exact

end PqcEdr.Analyzer
