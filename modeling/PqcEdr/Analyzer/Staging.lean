/-
# One notion of a staging directory, written three times

The in-kernel filter compares bytes, the correlator calls `strncmp`, the prefilter `rfind`.  The
first two know `/tmp/`, `/var/tmp/` and `/dev/shm/`; the prefilter's rule leaves `/var/tmp/` out.
So a file executed from there is not an alert by itself, and a name on the white list makes it a
silent drop.
-/
import PqcEdr.Agent.Collector
import PqcEdr.Analyzer.Override

namespace PqcEdr.Analyzer

open Agent

/-! ## 1. The three tests -/

/-- The kernel's, the correlator's and the prefilter's answers for one path. -/
def LayersAgree (path : Bytes) : Prop :=
  ∀ buf, path ++ [0] <+: buf →
    isStaging buf = isTempPath path ∧ isTempPath path = inTempDir path

theorem isTempPath_iff {path : Bytes} : isTempPath path = true ↔ InStagingDir path := by
  simp only [isTempPath, InStagingDir, Bool.or_eq_true, List.isPrefixOf_iff_prefix]
  tauto

theorem inTempDir_iff {path : Bytes} :
    inTempDir path = true ↔ lit "/tmp/" <+: path ∨ lit "/dev/shm/" <+: path := by
  simp only [inTempDir, Bool.or_eq_true, List.isPrefixOf_iff_prefix]

/-- What begins with `/var/tmp/` begins with neither of the others. -/
theorem not_inTempDir_of_var {path : Bytes} (hvar : lit "/var/tmp/" <+: path) :
    ¬ inTempDir path = true := by
  obtain ⟨rest, rfl⟩ := hvar
  intro h
  cases h

theorem layersAgree_iff {path : Bytes} : LayersAgree path ↔ ¬ lit "/var/tmp/" <+: path := by
  constructor
  · intro h hvar
    obtain ⟨-, hagree⟩ := h (path ++ [0]) (List.prefix_refl _)
    rw [isTempPath_iff.mpr (Or.inr (Or.inl hvar))] at hagree
    exact not_inTempDir_of_var hvar hagree.symm
  · intro hvar buf hbuf
    refine ⟨Bool.eq_iff_iff.mpr ?_, Bool.eq_iff_iff.mpr ?_⟩
    · rw [isStaging_eq hbuf, isTempPath_iff]
    · rw [isTempPath_iff, inTempDir_iff, InStagingDir]
      tauto

/-! ## 2. An execution from a staging directory -/

/-- `classify_event` alerts, at `High` or above, and not in a layer that lets the event go. -/
def ExecAlerted (L : LlmClient) (ev : SecurityEvent) (llm : L.State) (corr : Correlator) : Prop :=
  ∃ c, classifyEvent L ev llm corr = some c ∧ c.outcome.alerted = true ∧
    .High ≤ c.outcome.alert.severity ∧ c.outcome.layer ≠ .Drop ∧ c.outcome.layer ≠ .HaikuNormal

/-- Every execution of this path, if it is in a staging directory, whatever was seen before and
whatever the client says. -/
def StagedExecAlerted (path : Bytes) : Prop :=
  ∀ ev : SecurityEvent, ev.type = PQSEC_EVT_EXECVE → ev.execveFilename = path →
    InStagingDir path → ∀ L llm corr, ExecAlerted L ev llm corr

section

variable {L : LlmClient} {ev : SecurityEvent} {llm : L.State} {corr : Correlator}

theorem classifyEvent_execve (htype : ev.type = PQSEC_EVT_EXECVE) :
    classifyEvent L ev llm corr =
      some (judge L ev (eventSummary ev) (prefilterExecve ev) (corr.observeExecve ev).1 llm
        (corr.observeExecve ev).2) := by
  have hne : PQSEC_EVT_EXECVE ≠ PQSEC_EVT_AGENT_DROP := by decide
  simp [classifyEvent, Correlator.observe, prefilter, htype, hne]

/-- An alert of the rule stays one, in one of its two layers. -/
theorem judge_layer_of_rule (L : LlmClient) (ev : SecurityEvent) (summary : Bytes)
    {pr : PrefilterResult} (ch : CorrelationHit) (llm : L.State) (corr : Correlator)
    (hrule : pr.decision = .Alert) :
    (judge L ev summary pr ch llm corr).outcome.layer = .RuleCorrelation ∨
      (judge L ev summary pr ch llm corr).outcome.layer = .Rule := by
  by_cases hhit : ch.hit = true
  · simp [judge, judgeHit, hrule, hhit]
  · simp [judge, hrule, hhit]

theorem execAlerted_of_rule (htype : ev.type = PQSEC_EVT_EXECVE)
    (hrule : (prefilterExecve ev).decision = .Alert)
    (hsev : (prefilterExecve ev).severity = .High) : ExecAlerted L ev llm corr := by
  have hup : Upholds (prefilterExecve ev) (corr.observeExecve ev).1
      (judge L ev (eventSummary ev) (prefilterExecve ev) (corr.observeExecve ev).1 llm
        (corr.observeExecve ev).2).outcome := judge_upholds
  refine ⟨_, classifyEvent_execve htype, (hup.alerts (Or.inl hrule)).1,
    hsev ▸ hup.rule_le hrule, ?_⟩
  rcases judge_layer_of_rule L ev (eventSummary ev) (corr.observeExecve ev).1 llm
    (corr.observeExecve ev).2 hrule with hlayer | hlayer
  · simp [hlayer]
  · simp [hlayer]

/-- The rule fires on its directories and on the names it knows. -/
theorem prefilterExecve_alert (h : inTempDir ev.execveFilename = true ∨
    basenameOf ev.execveFilename ∈ kMaliciousBins) :
    (prefilterExecve ev).decision = .Alert ∧ (prefilterExecve ev).severity = .High := by
  rw [prefilterExecve]
  by_cases hdir : inTempDir ev.execveFilename = true
  · simp [hdir]
  · simp [hdir, h.resolve_left hdir]

theorem prefilterExecve_quiet (hdir : ¬ inTempDir ev.execveFilename = true)
    (hbin : basenameOf ev.execveFilename ∉ kMaliciousBins) :
    (prefilterExecve ev).decision = .Drop ∨ (prefilterExecve ev).decision = .Escalate := by
  rw [prefilterExecve]
  by_cases hbenign : basenameOf ev.execveFilename ∈ kBenignBins
  · simp [hdir, hbin, hbenign]
  · simp [hdir, hbin, hbenign]

end

/-- A correlator that has seen nothing has nothing to say. -/
theorem observeExecve_init (W : UInt64) (N : ℕ) (ev : SecurityEvent) :
    ((Correlator.init W N).observeExecve ev).1 = {} := by
  have hfind : (Correlator.init W N).staged.find? ev.execveFilename = none := rfl
  rw [Correlator.observeExecve]
  by_cases hdown : isDownloader ev = true
  · simp [hdown]
  · by_cases htemp : isTempPath ev.execveFilename = true
    · simp only [hdown, htemp, hfind, Bool.not_true, Bool.false_eq_true, if_false]
      rfl
    · simp [hdown, htemp]

/-- Where the rule does not fire, a fresh correlator and a client that acquits let it go. -/
theorem not_execAlerted {ev : SecurityEvent} (htype : ev.type = PQSEC_EVT_EXECVE)
    (hdir : ¬ inTempDir ev.execveFilename = true)
    (hbin : basenameOf ev.execveFilename ∉ kMaliciousBins) :
    ¬ ExecAlerted (constClient { verdict := .Normal }) ev () (Correlator.init 60000000000 3) := by
  rintro ⟨c, hc, -, -, hdrop, hhaiku⟩
  rw [classifyEvent_execve htype, Option.some.injEq, observeExecve_init] at hc
  subst hc
  rcases prefilterExecve_quiet hdir hbin with hdec | hdec
  · simp [judge, hdec] at hdrop
  · simp [judge, hdec, judgeEscalated, constClient] at hhaiku

/-! ## 3. The theorem -/

/-- **Where the layers agree.**  On a path, the three tests give one answer and its executions
are alerted exactly when the path is not under `/var/tmp/`.  An execution from a staging
directory is alerted for every correlator and every client exactly when its file is not under
`/var/tmp/`, or its name is one the rule takes for malicious anywhere. -/
theorem staging_layers_agree_iff (path : Bytes) (ev : SecurityEvent) :
    (LayersAgree path ∧ StagedExecAlerted path ↔ ¬ lit "/var/tmp/" <+: path) ∧
      (ev.type = PQSEC_EVT_EXECVE → InStagingDir ev.execveFilename →
        ((∀ L llm corr, ExecAlerted L ev llm corr) ↔
          ¬ lit "/var/tmp/" <+: ev.execveFilename ∨
            basenameOf ev.execveFilename ∈ kMaliciousBins)) := by
  have hrule : ∀ path, InStagingDir path → ¬ lit "/var/tmp/" <+: path →
      inTempDir path = true := by
    intro path hdir hvar
    rw [inTempDir_iff]
    rw [InStagingDir] at hdir
    tauto
  refine ⟨?_, ?_⟩
  · rw [layersAgree_iff]
    refine ⟨And.left, fun hvar => ⟨hvar, ?_⟩⟩
    rintro ev' htype rfl hdir L llm corr
    obtain ⟨hdec, hsev⟩ := prefilterExecve_alert (Or.inl (hrule _ hdir hvar))
    exact execAlerted_of_rule htype hdec hsev
  · intro htype hdir
    constructor
    · intro h
      by_cases hvar : lit "/var/tmp/" <+: ev.execveFilename
      · refine Or.inr (Decidable.byContradiction fun hbin => ?_)
        exact not_execAlerted htype (not_inTempDir_of_var hvar) hbin (h _ _ _)
      · exact Or.inl hvar
    · intro h L llm corr
      obtain ⟨hdec, hsev⟩ := prefilterExecve_alert (h.imp_left (hrule _ hdir))
      exact execAlerted_of_rule htype hdec hsev

/-- Both parts at inputs of their own: `/tmp/ls`, and `nc` under `/var/tmp/`. -/
theorem staging_layers_agree_iff_tmp :
    StagedExecAlerted (lit "/tmp/ls") ∧
      ExecAlerted (constClient { verdict := .Normal })
        (SecurityEvent.synExecve (lit "sh") (lit "/var/tmp/nc") 7 6 0) ()
        (Correlator.init 60000000000 3) := by
  obtain ⟨hpath, hexec⟩ := staging_layers_agree_iff (lit "/tmp/ls")
    (SecurityEvent.synExecve (lit "sh") (lit "/var/tmp/nc") 7 6 0)
  exact ⟨(hpath.mpr (by decide)).2, (hexec rfl (by decide)).mpr (Or.inr (by decide)) _ _ _⟩

/-- `ls` run from `/var/tmp/`: the kernel and the correlator call it a staging directory, the
prefilter does not, and the execution ends as a silent drop. -/
theorem staging_misses_var_tmp :
    ¬ LayersAgree (lit "/var/tmp/ls") ∧
      ∃ c, classifyEvent (constClient { verdict := .Normal })
          (SecurityEvent.synExecve (lit "sh") (lit "/var/tmp/ls") 7 6 0) ()
          (Correlator.init 60000000000 3) = some c ∧
        c.outcome.layer = .Drop ∧ c.outcome.alerted = false := by
  refine ⟨?_, _, rfl, by decide, by decide⟩
  intro h
  exact absurd (h (lit "/var/tmp/ls" ++ [0]) (List.prefix_refl _)).2 (by decide)

end PqcEdr.Analyzer
