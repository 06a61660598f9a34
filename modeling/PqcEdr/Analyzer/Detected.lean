/-
# From a system call to a line of the log

Two of the things that the system is for, from the hook that sees them to the line on the
daemon's standard output, whatever the client answers and whatever else is in the stream.

* `sensitive_open_logged`: an open of a watched file.
* `staged_exec_logged`: a file written in a staging directory and then executed.

The conditions are the code's: a hook leaves early without its scratch buffer, without a place in
the ring buffer and on long paths, `curl` and `wget` are taken for downloaders, and the window is one
of a clock that does not run backwards.
-/
import PqcEdr.Agent.Sources
import PqcEdr.Analyzer.Daemon
import PqcEdr.Analyzer.Staging
import PqcEdr.Lib.Lists

namespace PqcEdr.Analyzer

open Crypto Agent

/-! ## 1. A stream that the daemon handled -/

/-- The standard output holds a line that reads back as this alert. -/
def Logged {L : LlmClient} (d : Analysis L) (a : Alert) : Prop :=
  ∃ ts, ∃ line ∈ TextInput.lines d.printed.out, ∃ fields, readObject line = some fields ∧
    ReadsAs ts a fields

section

variable {L : LlmClient} {time : ℕ → Int64} {evs pre post : List SecurityEvent}
  {ev : SecurityEvent} {llm : L.State} {corr : Correlator} {cs : List (Classified L)}

/-- The call for one event of a stream, and the correlator that it finds. -/
theorem classifyAll_at (h : classifyAll L (pre ++ ev :: post) llm corr = some cs) :
    ∃ c llm' corr', c ∈ cs ∧ corr.observeAll pre = some corr' ∧
      classifyEvent L ev llm' corr' = some c := by
  induction pre generalizing llm corr cs with
  | nil =>
    rw [List.nil_append, classifyAll] at h
    split at h
    · cases h
    · next c hc =>
      split at h
      · cases h
      · next cs' _ =>
        cases h
        exact ⟨c, llm, corr, List.mem_cons_self, rfl, hc⟩
  | cons e pre ih =>
    rw [List.cons_append, classifyAll] at h
    split at h
    · cases h
    · next c hc =>
      split at h
      · cases h
      · next cs' hcs =>
        cases h
        obtain ⟨c', llm', corr', hmem, hobs, hc'⟩ := ih hcs
        refine ⟨c', llm', corr', List.mem_cons_of_mem _ hmem, ?_, hc'⟩
        have hstep : (corr.observe e).map Prod.snd = some c.corr := by
          rw [← classifyEvent_hit e llm corr, hc]
          rfl
        rw [Correlator.observeAll, List.foldlM_cons, hstep]
        exact hobs

/-- Each alert gets its line. -/
theorem exists_stamped (time : ℕ → Int64) {c : Classified L} (hc : c ∈ cs)
    (halert : c.outcome.alerted = true) (k : ℕ) : ∃ ts, (ts, c.outcome.alert) ∈ stampedAlerts time k cs := by
  induction cs generalizing k with
  | nil => cases hc
  | cons c' cs ih =>
    unfold stampedAlerts
    rcases List.mem_cons.mp hc with rfl | hmem
    · rw [if_pos halert]
      exact ⟨_, List.mem_cons_self⟩
    · split
      · obtain ⟨ts, hts⟩ := ih hmem (k + 1)
        exact ⟨ts, List.mem_cons_of_mem _ hts⟩
      · exact ih hmem k

/-- What became of an event of a handled stream: a call of `classify_event` in the state after
the events before it, whose alert, if it makes one, is logged. -/
theorem Handled.at {d : Analysis L} (h : Handled time (Analysis.start llm)
      (classifyRun L (pre ++ ev :: post) llm Correlator.fresh) (some d)) :
    ∃ c llm' corr', Correlator.fresh.observeAll pre = some corr' ∧
      classifyEvent L ev llm' corr' = some c ∧
      (c.outcome.alerted = true → Logged d c.outcome.alert) := by
  obtain ⟨cs, hcs, -, -, hlog⟩ := h.log
  obtain ⟨c, llm', corr', hmem, hobs, hc⟩ := classifyAll_at (classifyAll_of_classifyRun hcs)
  refine ⟨c, llm', corr', hobs, hc, fun halert => ?_⟩
  obtain ⟨ts, hts⟩ := exists_stamped time hmem halert 0
  obtain ⟨line, hline, hread⟩ := Lists.exists_of_forall₂ hlog hts
  exact ⟨ts, line, hline, hread⟩

end

/-! ## 2. The alert of an event -/

/-- An alert that accuses, at least this severe, of the process. -/
structure Accuses (a : Alert) (severity : Severity) (ev : SecurityEvent) : Prop where
  verdict : a.verdict = .Suspicious ∨ a.verdict = .Malicious
  severity_le : severity ≤ a.severity
  pid : a.pid = ev.pid
  comm : a.comm = ev.commPtr

theorem pid_of_judge {L : LlmClient} {ev : SecurityEvent} {llm : L.State} {corr : Correlator}
    (summary : Bytes) (pr : PrefilterResult) (ch : CorrelationHit)
    (h : (judge L ev summary pr ch llm corr).outcome.alerted = true) :
    (judge L ev summary pr ch llm corr).outcome.alert.pid = ev.pid := by
  unfold judge at h ⊢
  split
  · unfold judgeHit
    split <;> rfl
  · next hmiss =>
    rw [if_neg hmiss] at h
    split at h
    · cases h
    · rfl
    · unfold judgeEscalated at h ⊢
      dsimp only at h ⊢
      split
      · next hnormal =>
        rw [if_pos hnormal] at h
        cases h
      · rfl

section

variable {L : LlmClient} {ev : SecurityEvent} {llm : L.State} {corr : Correlator}
  {c : Classified L}

/-- Evidence makes an alert that accuses, no lower than the evidence. -/
theorem accuses_of_evidence (hkind : ev.type ≠ PQSEC_EVT_AGENT_DROP)
    (hc : classifyEvent L ev llm corr = some c) {severity : Severity}
    (hevidence : (prefilter ev).decision = .Alert ∧ (prefilter ev).severity = severity ∨
      ∀ ch corr', corr.observe ev = some (ch, corr') → ch.hit = true ∧ ch.severity = severity) :
    c.outcome.alerted = true ∧ Accuses c.outcome.alert severity ev := by
  rcases classifyEvent_eq_some hc with ⟨hdrop, -⟩ | ⟨-, ch, corr', hobs, rfl⟩
  · exact absurd hdrop hkind
  · have hup : Upholds (prefilter ev) ch
        (judge L ev (eventSummary ev) (prefilter ev) ch llm corr').outcome := judge_upholds
    rcases hevidence with ⟨hrule, rfl⟩ | hhit
    · obtain ⟨halert, hverdict⟩ := hup.alerts (Or.inl hrule)
      exact ⟨halert, hverdict, hup.rule_le hrule, pid_of_judge _ _ _ halert,
        comm_of_judge _ _ _ halert⟩
    · obtain ⟨hch, rfl⟩ := hhit ch corr' hobs
      obtain ⟨halert, hverdict⟩ := hup.alerts (Or.inr hch)
      exact ⟨halert, hverdict, hup.hit_le hch, pid_of_judge _ _ _ halert,
        comm_of_judge _ _ _ halert⟩

end

/-! ## 3. A watched file is opened -/

section

variable {K : Kernel} {pb : PathBuf} {e : SecurityEvent}

/-- The hook's one event for an open that it is to report. -/
theorem handleFileOpen_wanted (file : OpenFile) (hscratch : K.scratch = some pb)
    (hreserve : K.reserve = some e) (hwanted : Wanted K file)
    (hfits : file.isWrite = true → file.path.length < PQSEC_FILENAME_LEN) :
    ∃ ev, handleFileOpen K file = [ev] ∧ ev.type = PQSEC_EVT_FILE_OPEN ∧
      (ev.fileAccess &&& PQSEC_FA_SENSITIVE ≠ 0 ↔ file.isSensitive K = true) ∧
      (ev.fileAccess &&& PQSEC_FA_WRITE ≠ 0 ↔ file.isWrite = true) := by
  rcases handleFileOpen_cases file hscratch hreserve with
    ⟨-, ⟨hwrite, hlong⟩ | hnot⟩ | ⟨⟨ev, hrun, htype, hflags⟩, -, -⟩
  · exact absurd (hfits hwrite) (Nat.not_lt.mpr hlong)
  · exact absurd hwanted hnot
  · refine ⟨ev, hrun, htype, ?_⟩
    rw [hflags]
    exact accessBits_flags _ _ _

/-- **An open of a watched file is logged.**  The agent was given a list of no more than 64
paths, and the file is the one that a path of the list led to when the map was filled, under
whatever name it is opened.  The hook gets its scratch buffer and a place in the ring buffer, and the
file is not open for writing under a name too long for the former.  Then the hook submits an event,
and in every stream in which the daemon handles this event, its log has a line with an alert that
accuses the process, High at least, whatever the client answers. -/
theorem sensitive_open_logged (inodeOf : Bytes → Option SensKey) (files : List Bytes)
    (hmap : K.sensitive_inodes = (populateSensitive (statOf inodeOf) files).1)
    (hfew : (sensitiveList files).length ≤ kMaxSensitive) (file : OpenFile)
    (hlisted : ∃ path ∈ sensitiveList files, inodeOf path = some file.key)
    (hscratch : K.scratch = some pb) (hreserve : K.reserve = some e)
    (hfits : file.isWrite = true → file.path.length < PQSEC_FILENAME_LEN) :
    ∃ ev, handleFileOpen K file = [ev] ∧
      ∀ (L : LlmClient) (time : ℕ → Int64) (llm : L.State) (evs : List SecurityEvent)
        (d : Analysis L), ev ∈ evs →
        Handled time (Analysis.start llm) (classifyRun L evs llm Correlator.fresh) (some d) →
          ∃ a, Logged d a ∧ Accuses a .High ev ∧ a.pid = K.task.tgid := by
  obtain ⟨path, hpath, hinode⟩ := hlisted
  have hsens : file.isSensitive K = true := by
    rw [OpenFile.isSensitive, hmap]
    exact decide_eq_true (mem_populateSensitive_of_few hfew hpath hinode)
  obtain ⟨ev, hrun, htype, hflag, -⟩ :=
    handleFileOpen_wanted file hscratch hreserve (Or.inl hsens) hfits
  refine ⟨ev, hrun, ?_⟩
  intro L time llm evs d hev hhandled
  obtain ⟨pre, post, rfl⟩ := List.append_of_mem hev
  obtain ⟨c, llm', corr', -, hc, hlogged⟩ := hhandled.at
  have hrule : (prefilter ev).decision = .Alert ∧ (prefilter ev).severity = .High := by
    unfold prefilter
    rw [if_neg (by rw [htype]; decide), if_neg (by rw [htype]; decide), if_pos htype, prefilterFile,
      if_pos (hflag.mpr hsens)]
    exact ⟨rfl, rfl⟩
  obtain ⟨halert, haccuses⟩ := accuses_of_evidence (by rw [htype]; decide) hc (Or.inl hrule)
  have hmem : ev ∈ submits K (.open file) := by
    rw [submits, hrun]
    exact List.mem_singleton_self ev
  exact ⟨_, hlogged halert, haccuses, haccuses.pid.trans (submits_common hmem).pid⟩

/-- A run on a stream that has results. -/
theorem exists_handled {L : LlmClient} {evs : List SecurityEvent} {llm : L.State}
    (time : ℕ → Int64) (h : (classifyRun L evs llm Correlator.fresh).isSome = true) :
    ∃ d, Handled time (Analysis.start llm) (classifyRun L evs llm Correlator.fresh) (some d) := by
  obtain ⟨cs, hcs⟩ := Option.isSome_iff_exists.mp h
  rw [hcs]
  exact ⟨_, .done (.refl _)⟩

/-- The default list on a host that has one of its files, which is read under another name. -/
def shadowFile : OpenFile := ⟨0x1, 42, 8, lit "/proc/self/root/etc/shadow", by decide, by decide⟩

theorem sensitive_open_logged_shadow :
    ∃ (d : Analysis (constClient { verdict := .Normal })) (a : Alert), Logged d a ∧
      a.pid = watchingKernel.task.tgid := by
  obtain ⟨ev, hrun, hlog⟩ := sensitive_open_logged (K := watchingKernel)
    (fun path => if path = lit "/etc/shadow" then some ⟨42, 8⟩ else none) [] (by decide) (by decide)
    shadowFile ⟨lit "/etc/shadow", by decide, by decide⟩ rfl rfl (by decide)
  have hdefined : ∀ ev ∈ handleFileOpen watchingKernel shadowFile,
      (classifyRun (constClient { verdict := .Normal }) [ev] () Correlator.fresh).isSome = true := by
    decide +kernel
  obtain ⟨d, hd⟩ := exists_handled (fun _ => 0) (hdefined ev (by rw [hrun]; simp))
  obtain ⟨a, ha, -, hpid⟩ := hlog _ _ _ [ev] d (by simp) hd
  exact ⟨d, a, ha, hpid⟩

/-! ## 4. A staged file is executed -/

/-- The hook's one event for an execution. -/
theorem handleExecve_of_reserve (path : Bytes) (hreserve : K.reserve = some e) :
    ∃ ev, handleExecve K (some path) = [ev] := by
  unfold handleExecve
  rw [hreserve]
  exact ⟨_, rfl⟩

/-- **A staged file's execution is logged.**  A file in one of the three directories is opened for
writing under a name that fits the buffer, and no more than the window later it is executed under
that name, which is not that of a downloader.  The hook of the open gets its scratch buffer, and
both hooks get a place in the ring buffer.  Then both submit an event, and in every stream on a
steady clock in which the daemon handles the two, whatever comes before, between and behind them,
its log has a line with a critical alert that accuses the executing process, whatever the client
answers. -/
theorem staged_exec_logged {K' : Kernel} {e' : SecurityEvent} (file : OpenFile)
    (hwrite : file.isWrite = true) (hdir : InStagingDir file.path)
    (hfits : file.path.length < PQSEC_FILENAME_LEN) (hname : basenameOf file.path ∉ kDownloaders)
    (hscratch : K.scratch = some pb) (hreserve : K.reserve = some e)
    (hreserve' : K'.reserve = some e')
    (hwindow : K'.ktime.toNat ≤ K.ktime.toNat + defaultWindow.toNat) :
    ∃ w x, handleFileOpen K file = [w] ∧ handleExecve K' (some file.path) = [x] ∧
      ∀ (L : LlmClient) (time : ℕ → Int64) (llm : L.State) (pre mid post : List SecurityEvent)
        (d : Analysis L), SteadyClock defaultWindow (pre ++ w :: mid ++ [x]) →
        Handled time (Analysis.start llm)
          (classifyRun L (pre ++ w :: mid ++ x :: post) llm Correlator.fresh) (some d) →
        ∃ a, Logged d a ∧ Accuses a .Critical x ∧ a.pid = K'.task.tgid := by
  obtain ⟨w, hw, hwtype, -, hwflag⟩ :=
    handleFileOpen_wanted file hscratch hreserve (Or.inr ⟨hwrite, hdir⟩) fun _ => hfits
  obtain ⟨x, hx⟩ := handleExecve_of_reserve file.path hreserve'
  refine ⟨w, x, hw, hx, ?_⟩
  have hwmem : w ∈ handleFileOpen K file := by
    rw [hw]
    exact List.mem_singleton_self w
  have hxmem : x ∈ handleExecve K' (some file.path) := by
    rw [hx]
    exact List.mem_singleton_self x
  have hwpath : w.filePath = file.path := by rw [(filePath_handleFileOpen hwmem).2, if_pos hwrite]
  obtain ⟨hxtype, hxpath⟩ := execveFilename_handleExecve hxmem
  rw [Option.getD_some, take_cString_eq file.no_nul hfits] at hxpath
  have hwcommon : Common K w := submits_common (o := .open file) hwmem
  have hxcommon : Common K' x := submits_common (o := .execve (some file.path)) hxmem
  intro L time llm pre mid post d hclock hhandled
  obtain ⟨c, llm', corr', hobs, hc, hlogged⟩ := hhandled.at
  have hwritten : WrittenWithin defaultWindow (pre ++ w :: mid) x := by
    refine ⟨w, by simp, hwtype, hwflag.mpr hwrite, by rw [hwpath, hxpath], ?_⟩
    rw [hwcommon.ts_ns, hxcommon.ts_ns]
    exact hwindow
  have hhit : ∀ ch corr'', corr'.observe x = some (ch, corr'') →
      ch.hit = true ∧ ch.severity = .Critical := by
    intro ch corr'' hanswer
    obtain ⟨c₁, _, _, hobs₁, -, hW, -, hcov⟩ := observe_on_steady (N := 3) hclock
    obtain rfl : corr' = c₁ := Option.some.inj (hobs.symm.trans hobs₁)
    have htmp : isTempPath x.execveFilename = true := by
      rw [hxpath]
      exact isTempPath_iff.mpr hdir
    have hbin : isDownloader x = false := by
      rw [isDownloader, hxpath]
      exact decide_eq_false hname
    obtain ⟨hhit, hcritical, -⟩ :=
      (write_exec_iff hclock hW hcov htmp).mpr ⟨hbin, hwritten⟩
    rw [observe_execve_eq hxtype hanswer]
    exact ⟨hhit, hcritical⟩
  obtain ⟨halert, haccuses⟩ := accuses_of_evidence (by rw [hxtype]; decide) hc (Or.inr hhit)
  exact ⟨_, hlogged halert, haccuses, haccuses.pid.trans hxcommon.pid⟩

/-- A second later, on the same kernel. -/
def laterKernel : Kernel := { watchingKernel with ktime := 1000000001 }

theorem staged_exec_logged_tmp :
    ∃ (d : Analysis (constClient { verdict := .Normal })) (a : Alert), Logged d a ∧
      a.pid = laterKernel.task.tgid := by
  let file : OpenFile := ⟨FMODE_WRITE, 7, 8, lit "/tmp/x", by decide, by decide⟩
  obtain ⟨w, x, hw, hx, hlog⟩ := staged_exec_logged (K := watchingKernel) file
    (by decide) (by decide) (by decide) (by decide) rfl rfl (show laterKernel.reserve = some _ from rfl)
    (by decide)
  have hdefined : ∀ w ∈ handleFileOpen watchingKernel file,
      ∀ x ∈ handleExecve laterKernel (some file.path),
        (classifyRun (constClient { verdict := .Normal }) [w, x] () Correlator.fresh).isSome = true ∧
          w.ts_ns = 1 ∧ x.ts_ns = 1000000001 := by
    decide +kernel
  obtain ⟨hrun, hwts, hxts⟩ := hdefined w (by rw [hw]; simp) x (by rw [hx]; simp)
  have hclock : SteadyClock defaultWindow ([] ++ w :: [] ++ [x]) := by
    refine ⟨?_, ?_⟩
    · simp [hwts, hxts]
    · simp [hwts, hxts, defaultWindow]
  obtain ⟨d, hd⟩ := exists_handled (fun _ => 0) hrun
  obtain ⟨a, ha, -, hpid⟩ := hlog _ _ _ [] [] [] d hclock hd
  exact ⟨d, a, ha, hpid⟩

end

end PqcEdr.Analyzer
