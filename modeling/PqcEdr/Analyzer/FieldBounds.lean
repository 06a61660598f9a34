/-
# When a field is left

The reads of `classify_event` that have no bound are those of the filename, of a path that is
quoted or staged, and of the process name of an alert.  Which of them a call comes to is decided
by the event and by what the correlator remembers, so the events that are read beyond a field can
be told without running anything.
-/
import PqcEdr.Analyzer.FieldReads
import PqcEdr.Analyzer.Override

namespace PqcEdr.Analyzer

/-! ## 1. When there is an alert -/

/-- The rules accuse. -/
def RuleAlerts (ev : SecurityEvent) : Prop :=
  (ev.type = PQSEC_EVT_EXECVE ∧
      (inTempDir ev.execveFilename = true ∨ basenameOf ev.execveFilename ∈ kMaliciousBins)) ∨
    (ev.type = PQSEC_EVT_TCP_CONNECT ∧ isPrivateIpv4 ev.tcpDaddr = false ∧
      ¬ (ev.tcpDport = 443 ∨ ev.tcpDport = 80 ∨ ev.tcpDport = 53)) ∨
    (ev.type = PQSEC_EVT_FILE_OPEN ∧ ev.fileAccess &&& PQSEC_FA_SENSITIVE ≠ 0)

/-- The rules drop, where they do not accuse. -/
def RuleDrops (ev : SecurityEvent) : Prop :=
  (ev.type = PQSEC_EVT_EXECVE ∧ basenameOf ev.execveFilename ∈ kBenignBins) ∨
    (ev.type = PQSEC_EVT_TCP_CONNECT ∧ isPrivateIpv4 ev.tcpDaddr = true) ∨
    ev.type = PQSEC_EVT_FILE_OPEN

/-- What the correlator remembers makes the event the end of a sequence. -/
def Correlates (c : Correlator) (ev : SecurityEvent) : Prop :=
  (ev.type = PQSEC_EVT_EXECVE ∧ isDownloader ev = false ∧ isTempPath ev.execveFilename = true ∧
      ((c.liveWrite ev).isSome = true ∨
        ∃ d ∈ c.liveDownloads ev, commonAncestor d.anc (ancestorSet ev) ≠ 0)) ∨
    (ev.type = PQSEC_EVT_TCP_CONNECT ∧ isPrivateIpv4 ev.tcpDaddr = false ∧
      c.beacon_threshold ≤ (c.touchHistory ev).length)

/-- A connect does not lose its own entry to the sweep. -/
def Answered (c : Correlator) (ev : SecurityEvent) : Prop :=
  ev.type = PQSEC_EVT_TCP_CONNECT → isPrivateIpv4 ev.tcpDaddr = false → SweepOk c ev

/-- An alert is due: the agent's own notice, a sequence, a rule, or an event that the rules leave
open and the first tier does not acquit. -/
def Alerts (L : LlmClient) (ev : SecurityEvent) (llm : L.State) (c : Correlator) : Prop :=
  ev.type = PQSEC_EVT_AGENT_DROP ∨
    Answered c ev ∧ (Correlates c ev ∨ RuleAlerts ev ∨
      ¬ RuleDrops ev ∧ (L.classify (eventSummary ev) llm).1.verdict ≠ .Normal)

theorem prefilterExecve_decision (ev : SecurityEvent) :
    (prefilterExecve ev).decision =
      if inTempDir ev.execveFilename = true ∨ basenameOf ev.execveFilename ∈ kMaliciousBins then
        .Alert
      else if basenameOf ev.execveFilename ∈ kBenignBins then .Drop else .Escalate := by
  unfold prefilterExecve
  dsimp only
  by_cases htemp : inTempDir ev.execveFilename = true
  · rw [if_pos htemp, if_pos (Or.inl htemp)]
  · rw [if_neg htemp]
    by_cases hbad : basenameOf ev.execveFilename ∈ kMaliciousBins
    · rw [if_pos hbad, if_pos (Or.inr hbad)]
    · rw [if_neg hbad, if_neg (not_or.mpr ⟨htemp, hbad⟩)]
      split <;> rfl

/-- The decision of the rules: an accusation goes before a dismissal. -/
theorem prefilter_decision_cases (ev : SecurityEvent) :
    ((prefilter ev).decision = .Alert ∧ RuleAlerts ev) ∨
      ((prefilter ev).decision = .Drop ∧ ¬ RuleAlerts ev ∧ RuleDrops ev) ∨
      ((prefilter ev).decision = .Escalate ∧ ¬ RuleAlerts ev ∧ ¬ RuleDrops ev) := by
  have h₁₂ : PQSEC_EVT_EXECVE ≠ PQSEC_EVT_TCP_CONNECT := by decide
  have h₁₄ : PQSEC_EVT_EXECVE ≠ PQSEC_EVT_FILE_OPEN := by decide
  have h₂₄ : PQSEC_EVT_TCP_CONNECT ≠ PQSEC_EVT_FILE_OPEN := by decide
  unfold prefilter RuleAlerts RuleDrops
  by_cases hexec : ev.type = PQSEC_EVT_EXECVE
  · rw [if_pos hexec, prefilterExecve_decision]
    simp only [hexec, true_and, h₁₂, h₁₄, false_and, or_false]
    split
    · next h => exact Or.inl ⟨rfl, h⟩
    · next h =>
      split
      · next hb => exact Or.inr (Or.inl ⟨rfl, h, hb⟩)
      · next hb => exact Or.inr (Or.inr ⟨rfl, h, hb⟩)
  · rw [if_neg hexec]
    by_cases htcp : ev.type = PQSEC_EVT_TCP_CONNECT
    · rw [if_pos htcp]
      unfold prefilterTcp
      cases hpriv : isPrivateIpv4 ev.tcpDaddr with
      | true => simp [htcp, h₁₂.symm, h₂₄]
      | false =>
        by_cases hport : ev.tcpDport = 443 ∨ ev.tcpDport = 80 ∨ ev.tcpDport = 53
        · simp [htcp, h₁₂.symm, h₂₄, hport]
        · simp [htcp, h₁₂.symm, h₂₄, hport]
    · rw [if_neg htcp]
      by_cases hfile : ev.type = PQSEC_EVT_FILE_OPEN
      · rw [if_pos hfile]
        unfold prefilterFile
        by_cases hsens : ev.fileAccess &&& PQSEC_FA_SENSITIVE ≠ 0
        · rw [if_pos hsens]
          exact Or.inl ⟨rfl, Or.inr (Or.inr ⟨hfile, hsens⟩)⟩
        · rw [if_neg hsens]
          simp [hfile, h₁₄.symm, h₂₄.symm, not_not.mp hsens]
      · rw [if_neg hfile]
        simp [hexec, htcp, hfile]

section

variable {c c' : Correlator} {ev : SecurityEvent} {ch : CorrelationHit}

theorem matchLineage_hit (now : UInt64) (mine : OrdSet UInt32) (ds : List Lineage) :
    (Correlator.matchLineage now mine ds).hit = true ↔
      ∃ d ∈ ds, commonAncestor d.anc mine ≠ 0 := by
  rcases matchLineage_cases now mine ds with ⟨hnone, hres⟩ | ⟨d, hd, hne, hres⟩
  · rw [hres]
    refine iff_of_false Bool.false_ne_true ?_
    rintro ⟨d, hd, hne⟩
    exact hne (hnone d hd)
  · rw [hres]
    exact iff_of_true rfl ⟨d, hd, hne⟩

/-- A hit of a defined call. -/
theorem observe_hit_iff (h : c.observe ev = some (ch, c')) :
    ch.hit = true ↔ Correlates c ev := by
  have h₁₂ : PQSEC_EVT_EXECVE ≠ PQSEC_EVT_TCP_CONNECT := by decide
  unfold Correlates
  by_cases hexec : ev.type = PQSEC_EVT_EXECVE
  · rw [observe_execve_eq hexec h, observeExecve_hit]
    simp only [hexec, true_and, h₁₂, false_and, or_false]
    split
    · next hquiet =>
      refine iff_of_false Bool.false_ne_true ?_
      rintro ⟨hdown, htemp, -⟩
      rcases hquiet with hdown' | htemp'
      · rw [hdown] at hdown'
        cases hdown'
      · rw [htemp] at htemp'
        cases htemp'
    · next hloud =>
      obtain ⟨hdown, htemp⟩ := not_or.mp hloud
      rw [Bool.not_eq_true] at hdown
      rw [Bool.not_eq_false] at htemp
      cases hwrite : c.liveWrite ev with
      | some w => exact iff_of_true rfl ⟨hdown, htemp, Or.inl rfl⟩
      | none =>
        dsimp only
        rw [matchLineage_hit]
        exact ⟨fun hd => ⟨hdown, htemp, Or.inr hd⟩, fun hd => hd.2.2.resolve_left (by simp)⟩
  · by_cases htcp : ev.type = PQSEC_EVT_TCP_CONNECT
    · simp only [htcp, h₁₂.symm, false_and, false_or, true_and]
      cases hpub : isPrivateIpv4 ev.tcpDaddr with
      | true =>
        rw [observe_connect_eq htcp, Correlator.observeConnect, if_pos hpub] at h
        obtain ⟨rfl, -⟩ := Prod.mk.inj (Option.some.inj h)
        simp
      | false =>
        rcases (observe_connect_cases htcp hpub h).2 with ⟨hlt, rfl⟩ | ⟨hge, rfl⟩
        · simp [Nat.not_le.mpr hlt]
        · simp [hge]
    · have hch : ch.hit = false := by
        rw [Correlator.observe, if_neg hexec, if_neg htcp] at h
        split at h
        · have hfile := observeFile_hit c ev
          rw [Option.some.inj h] at hfile
          exact congrArg CorrelationHit.hit hfile
        · rw [← (Prod.mk.inj (Option.some.inj h)).1]
      simp [hch, hexec, htcp]

theorem observe_defined_iff : (∃ ch c', c.observe ev = some (ch, c')) ↔ Answered c ev := by
  constructor
  · rintro ⟨ch, c', h⟩ htcp hpub
    rw [← find?_touchConns_iff]
    rw [observe_connect_eq htcp] at h
    obtain ⟨hist, hfind, -, -⟩ := observeConnect_eq_some hpub h
    rw [hfind, eq_touchHistory hfind]
  · exact observe_defined_of_sweepOk

end

section

variable {L : LlmClient} {ev : SecurityEvent} {corr : Correlator} {llm : L.State}

theorem judge_alerted_iff (summary : Bytes) (pr : PrefilterResult) (ch : CorrelationHit) :
    (judge L ev summary pr ch llm corr).outcome.alerted = true ↔
      ch.hit = true ∨ pr.decision = .Alert ∨
        pr.decision = .Escalate ∧ (L.classify summary llm).1.verdict ≠ .Normal := by
  unfold judge
  by_cases hhit : ch.hit = true
  · rw [if_pos hhit]
    unfold judgeHit
    split <;> exact iff_of_true rfl (Or.inl hhit)
  · rw [if_neg hhit]
    cases hpr : pr.decision with
    | Drop => simp [hhit]
    | Alert => simp
    | Escalate =>
      unfold judgeEscalated
      by_cases hnormal : (L.classify summary llm).1.verdict = .Normal
      · simp [hhit, hnormal, account]
      · simp [hnormal]

/-- An alert is made exactly when one is due. -/
theorem alertMade_iff : AlertMade L ev llm corr ↔ Alerts L ev llm corr := by
  unfold AlertMade Alerts
  by_cases hdrop : ev.type = PQSEC_EVT_AGENT_DROP
  · unfold classifyEvent
    rw [if_pos hdrop]
    exact iff_of_true ⟨_, rfl, rfl⟩ (Or.inl hdrop)
  · rw [or_iff_right hdrop, ← observe_defined_iff]
    have hdue : ∀ ch corr', corr.observe ev = some (ch, corr') →
        ((judge L ev (eventSummary ev) (prefilter ev) ch llm corr').outcome.alerted = true ↔
          Correlates corr ev ∨ RuleAlerts ev ∨
            ¬ RuleDrops ev ∧ (L.classify (eventSummary ev) llm).1.verdict ≠ .Normal) := by
      intro ch corr' hobs
      rw [judge_alerted_iff, observe_hit_iff hobs]
      rcases prefilter_decision_cases ev with ⟨hpr, hrule⟩ | ⟨hpr, hrule, hdrops⟩ |
          ⟨hpr, hrule, hdrops⟩
      · simp [hpr, hrule]
      · simp [hpr, hrule, hdrops]
      · simp [hpr, hrule, hdrops]
    constructor
    · rintro ⟨r, hr, halert⟩
      rcases classifyEvent_eq_some hr with ⟨hdrop', -⟩ | ⟨-, ch, corr', hobs, rfl⟩
      · exact absurd hdrop' hdrop
      · exact ⟨⟨ch, corr', hobs⟩, (hdue ch corr' hobs).mp halert⟩
    · rintro ⟨⟨ch, corr', hobs⟩, hwhy⟩
      refine ⟨_, ?_, (hdue ch corr' hobs).mpr hwhy⟩
      unfold classifyEvent
      rw [if_neg hdrop, hobs]

end

/-! ## 2. The exact condition -/

/-- Every unbounded read that the call comes to finds its NUL in the field. -/
structure FieldsEnd (L : LlmClient) (ev : SecurityEvent) (llm : L.State) (c : Correlator) :
    Prop where
  filename : ev.type = PQSEC_EVT_EXECVE → PathEnds ev
  path : ev.type = PQSEC_EVT_FILE_OPEN →
    ev.fileAccess &&& PQSEC_FA_SENSITIVE ≠ 0 ∨ isStagingWrite ev = true → PathEnds ev
  comm : Alerts L ev llm c → CommEnds ev

theorem fieldsEnd_iff {L : LlmClient} {ev : SecurityEvent} {llm : L.State} {c : Correlator} :
    FieldsEnd L ev llm c ↔
      (ev.type ≠ PQSEC_EVT_AGENT_DROP →
        PathEndsIf ev (ev.fileAccess &&& PQSEC_FA_SENSITIVE ≠ 0) ∧
          PathEndsIf ev (isStagingWrite ev = true)) ∧
      (AlertMade L ev llm c → CommEnds ev) := by
  rw [alertMade_iff]
  constructor
  · intro h
    refine ⟨fun _ => ⟨⟨h.filename, fun hfile hsens => ?_⟩, ⟨h.filename, fun hfile hstage => ?_⟩⟩,
      h.comm⟩
    · exact h.path hfile (Or.inl hsens)
    · exact h.path hfile (Or.inr hstage)
  · rintro ⟨hpaths, hcomm⟩
    refine ⟨fun hexec => ?_, fun hfile hwhy => ?_, hcomm⟩
    · exact (hpaths (by rw [hexec]; decide)).1.1 hexec
    · have h := hpaths (by rw [hfile]; decide)
      exact hwhy.elim (h.1.2 hfile) (h.2.2 hfile)

/-- **Which payloads are read beyond a field.**  For every payload, client and correlator the
strings of `classify_event` stay inside their fields exactly when each unbounded one that is read
has its NUL there; the result is then that of the model. -/
theorem classification_in_fields_iff (pt : Payload) (L : LlmClient) (llm : L.State)
    (c : Correlator) :
    ((∃ r, classifyEventReads pt.event L llm c = .ok r) ↔ FieldsEnd L pt.event llm c) ∧
      ∀ r, classifyEventReads pt.event L llm c = .ok r → r = classifyEvent L pt.event llm c := by
  have hreads : BoundedRead.StaysIff (classifyEventReads pt.event L llm c)
      (FieldsEnd L pt.event llm c) (classifyEvent L pt.event llm c) :=
    classifyEventReads_staysIff.congr fieldsEnd_iff.symm
  refine ⟨hreads.iff, fun r hr => ?_⟩
  have hinside := hreads.inside (hreads.iff.mp ⟨r, hr⟩)
  exact Except.ok.inj (hr.symm.trans hinside)

/-- A file run from `/tmp` by a process whose name fills its sixteen bytes. -/
def unterminatedName : Payload :=
  Payload.ofEvent { SecurityEvent.synExecve [] (lit "/tmp/x") 7 6 0 with
    comm := CharArray.ofBytes _ (List.replicate PQSEC_COMM_LEN 65) }

/-- Its alert reads the name beyond the field. -/
theorem classification_leaves_comm :
    classifyEventReads unterminatedName.event (constClient {}) () (Correlator.init 60000000000 3) =
      .error .comm := rfl

end PqcEdr.Analyzer
