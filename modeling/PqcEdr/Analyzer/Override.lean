/-
# What the model cannot override

Two analyzers that start from the same correlator and see the same events, each with a client of
its own.  What the rules and the correlator find is computed before the client is asked and never
from its answers, so it is the same in both runs; and where it is evidence, `classify_event`
alerts whatever the client says.

* `judge_upholds`: what one call does with the evidence it has.
* `trace_classifyAll`: the evidence and the correlator are the same along both runs.
* `llm_cannot_override`: both together, at every position of every stream.
-/
import PqcEdr.Analyzer.Pipeline

namespace PqcEdr.Analyzer

/-! ## 1. The scale -/

theorem Severity.le_max_left (a b : Severity) : a ≤ a.max b := by
  cases a <;> cases b <;> decide

theorem Severity.le_max_right (a b : Severity) : b ≤ a.max b := by
  cases a <;> cases b <;> decide

theorem anchoredVerdict_mem (v : Verdict) :
    anchoredVerdict v = .Suspicious ∨ anchoredVerdict v = .Malicious := by
  cases v <;> decide

/-! ## 2. One call -/

/-- What an outcome owes to the evidence. -/
structure Upholds (pr : PrefilterResult) (ch : CorrelationHit) (o : Outcome) : Prop where
  alerts : pr.decision = .Alert ∨ ch.hit = true →
    o.alerted = true ∧ (o.alert.verdict = .Suspicious ∨ o.alert.verdict = .Malicious)
  rule_le : pr.decision = .Alert → pr.severity ≤ o.alert.severity
  hit_le : ch.hit = true → ch.severity ≤ o.alert.severity
  drops : pr.decision = .Drop → ch.hit = false →
    o.alerted = false ∧ o.haiku_calls = 0 ∧ o.sonnet_calls = 0

section

variable {L : LlmClient} {ev : SecurityEvent} {summary : Bytes} {pr : PrefilterResult}
  {ch : CorrelationHit} {llm : L.State} {corr : Correlator}

theorem judgeHit_upholds (hhit : ch.hit = true) :
    Upholds pr ch (judgeHit L ev summary pr ch llm corr).outcome := by
  rw [judgeHit]
  by_cases hrule : pr.decision = .Alert
  · rw [if_pos hrule]
    refine ⟨fun _ => ⟨rfl, Or.inr rfl⟩, fun _ => Severity.le_max_left _ _,
      fun _ => Severity.le_max_right _ _, ?_⟩
    intro hdrop
    simp [hrule] at hdrop
  · rw [if_neg hrule]
    refine ⟨fun _ => ⟨rfl, anchoredVerdict_mem _⟩, fun h => absurd h hrule,
      fun _ => Severity.le_max_right _ _, ?_⟩
    intro _ hmiss
    simp [hhit] at hmiss

/-- Whatever the client answers, the evidence stands. -/
theorem judge_upholds : Upholds pr ch (judge L ev summary pr ch llm corr).outcome := by
  rw [judge]
  by_cases hhit : ch.hit = true
  · rw [if_pos hhit]
    exact judgeHit_upholds hhit
  · rw [if_neg hhit]
    cases hdec : pr.decision with
    | Drop =>
      exact ⟨by simp [hdec, hhit], by simp [hdec], by simp [hhit], fun _ _ => ⟨rfl, rfl, rfl⟩⟩
    | Alert =>
      exact ⟨fun _ => ⟨rfl, Or.inr rfl⟩, fun _ => Nat.le_refl _, by simp [hhit], by simp [hdec]⟩
    | Escalate => exact ⟨by simp [hdec, hhit], by simp [hdec], by simp [hhit], by simp [hdec]⟩

/-- Nor does the client reach the correlator, or the record of what was found. -/
theorem judge_trace :
    (judge L ev summary pr ch llm corr).evidence = some (pr, ch) ∧
      (judge L ev summary pr ch llm corr).corr = corr := by
  rw [judge]
  by_cases hhit : ch.hit = true
  · rw [if_pos hhit, judgeHit]
    by_cases hrule : pr.decision = .Alert
    · simp [hrule]
    · simp [hrule]
  · rw [if_neg hhit]
    cases pr.decision with
    | Drop => exact ⟨rfl, rfl⟩
    | Alert => exact ⟨rfl, rfl⟩
    | Escalate =>
      simp only [judgeEscalated]
      by_cases hnormal : (L.classify summary llm).1.verdict = .Normal
      · simp [hnormal]
      · simp [hnormal]

/-- No call goes out for what the rules drop. -/
theorem judge_asked_of_drop (hdrop : pr.decision = .Drop) (hmiss : ch.hit = false) :
    (judge L ev summary pr ch llm corr).asked = [] ∧
      (judge L ev summary pr ch llm corr).llm = llm := by
  simp [judge, hdrop, hmiss]

end

/-- `classify_event` returns in these two cases. -/
theorem classifyEvent_eq_some {L : LlmClient} {ev : SecurityEvent} {llm : L.State}
    {corr : Correlator} {c : Classified L} (h : classifyEvent L ev llm corr = some c) :
    (ev.type = PQSEC_EVT_AGENT_DROP ∧ c.outcome.alerted = true ∧ c.evidence = none ∧
        c.corr = corr) ∨
      ev.type ≠ PQSEC_EVT_AGENT_DROP ∧ ∃ ch corr', corr.observe ev = some (ch, corr') ∧
        c = judge L ev (eventSummary ev) (prefilter ev) ch llm corr' := by
  rw [classifyEvent] at h
  by_cases hdrop : ev.type = PQSEC_EVT_AGENT_DROP
  · rw [if_pos hdrop] at h
    obtain rfl := Option.some.inj h
    exact Or.inl ⟨hdrop, rfl, rfl, rfl⟩
  · rw [if_neg hdrop] at h
    rcases hobs : corr.observe ev with _ | ⟨ch, corr'⟩
    · simp [hobs] at h
    · simp only [hobs, Option.some.injEq] at h
      exact Or.inr ⟨hdrop, ch, corr', rfl, h.symm⟩

/-! ## 3. Two runs -/

/-- What a call found and the correlator it leaves: all that is not the client's. -/
def Classified.trace {L : LlmClient} (c : Classified L) :
    Option (PrefilterResult × CorrelationHit) × Correlator :=
  (c.evidence, c.corr)

/-- One call: the trace is a function of the event and the correlator. -/
theorem trace_classifyEvent (A B : LlmClient) (ev : SecurityEvent) (a : A.State) (b : B.State)
    (corr : Correlator) :
    (classifyEvent A ev a corr).map Classified.trace =
      (classifyEvent B ev b corr).map Classified.trace := by
  simp only [classifyEvent]
  by_cases hdrop : ev.type = PQSEC_EVT_AGENT_DROP
  · simp [hdrop, Classified.trace]
  · rcases corr.observe ev with _ | ⟨ch, corr'⟩
    · simp [hdrop]
    · simp [hdrop, Classified.trace, judge_trace]

/-- Every run: the same evidence, the same states of the correlator. -/
theorem trace_classifyAll (A B : LlmClient) (evs : List SecurityEvent) (a : A.State) (b : B.State)
    (corr : Correlator) :
    (classifyAll A evs a corr).map (List.map Classified.trace) =
      (classifyAll B evs b corr).map (List.map Classified.trace) := by
  induction evs generalizing a b corr with
  | nil => rfl
  | cons ev evs ih =>
    have hstep := trace_classifyEvent A B ev a b corr
    rw [classifyAll, classifyAll]
    rcases hA : classifyEvent A ev a corr with _ | cA <;>
      rcases hB : classifyEvent B ev b corr with _ | cB <;>
      simp only [hA, hB, Option.map_some, Option.map_none, Option.some.injEq, reduceCtorEq] at hstep
    · rfl
    · obtain ⟨-, hcorr⟩ := Prod.mk.inj hstep
      have hrest := ih cA.llm cB.llm cA.corr
      rw [hcorr] at hrest
      rcases hA' : classifyAll A evs cA.llm cA.corr with _ | csA <;>
        rcases hB' : classifyAll B evs cB.llm cB.corr with _ | csB <;>
        simp_all

/-- Each position of a run is a call of `classify_event`. -/
theorem classifyAll_getElem? {L : LlmClient} {evs : List SecurityEvent} {llm : L.State}
    {corr : Correlator} {run : List (Classified L)} (h : classifyAll L evs llm corr = some run) :
    run.length = evs.length ∧ ∀ (i : ℕ) ev c, evs[i]? = some ev → run[i]? = some c →
      ∃ llm' corr', classifyEvent L ev llm' corr' = some c := by
  induction evs generalizing llm corr run with
  | nil =>
    obtain rfl := Option.some.inj h
    simp
  | cons ev evs ih =>
    rw [classifyAll] at h
    rcases hc : classifyEvent L ev llm corr with _ | c <;> simp only [hc, reduceCtorEq] at h
    rcases hcs : classifyAll L evs c.llm c.corr with _ | cs <;>
      simp only [hcs, reduceCtorEq, Option.some.injEq] at h
    obtain ⟨hlen, hall⟩ := ih hcs
    subst h
    refine ⟨by simp [hlen], ?_⟩
    intro i ev' c' hev hrun
    cases i with
    | zero =>
      simp only [List.getElem?_cons_zero, Option.some.injEq] at hev hrun
      exact ⟨llm, corr, by rw [← hev, ← hrun, hc]⟩
    | succ i => exact hall i ev' c' (by simpa using hev) (by simpa using hrun)

/-! ## 4. The theorem -/

/-- What two runs have in common at a position, and where they may part. -/
structure Anchored {A B : LlmClient} (ev : SecurityEvent) (cA : Classified A)
    (cB : Classified B) : Prop where
  same_evidence : cA.evidence = cB.evidence
  same_correlator : cA.corr = cB.corr
  agent_drop : ev.type = PQSEC_EVT_AGENT_DROP →
    cA.outcome.alerted = true ∧ cB.outcome.alerted = true
  evidence : ev.type ≠ PQSEC_EVT_AGENT_DROP → ∃ ch, cA.evidence = some (prefilter ev, ch) ∧
    Upholds (prefilter ev) ch cA.outcome ∧ Upholds (prefilter ev) ch cB.outcome ∧
    ((prefilter ev).decision = .Drop → ch.hit = false → cA.asked = [] ∧ cB.asked = [])
  differ : cA.outcome.alerted ≠ cB.outcome.alerted → ∃ ch, cA.evidence = some (prefilter ev, ch) ∧
    (prefilter ev).decision = .Escalate ∧ ch.hit = false

theorem anchored_of_classifyEvent {A B : LlmClient} {ev : SecurityEvent} {a : A.State}
    {b : B.State} {corr corr' : Correlator} {cA : Classified A} {cB : Classified B}
    (hA : classifyEvent A ev a corr = some cA) (hB : classifyEvent B ev b corr' = some cB)
    (htrace : cA.trace = cB.trace) : Anchored ev cA cB := by
  obtain ⟨hev, hcorr⟩ := Prod.mk.inj htrace
  rcases classifyEvent_eq_some hA with ⟨hdrop, halert, -, -⟩ | ⟨hdrop, ch, c₁, -, rfl⟩
  · rcases classifyEvent_eq_some hB with ⟨-, halert', -, -⟩ | ⟨hdrop', -⟩
    · exact ⟨hev, hcorr, fun _ => ⟨halert, halert'⟩, fun h => absurd hdrop h,
        fun h => absurd (halert.trans halert'.symm) h⟩
    · exact absurd hdrop hdrop'
  · rcases classifyEvent_eq_some hB with ⟨hdrop', -⟩ | ⟨-, ch', c₂, -, rfl⟩
    · exact absurd hdrop' hdrop
    · -- both calls had the same hit before them
      obtain rfl : ch = ch' := by
        have := hev
        rw [judge_trace.1, judge_trace.1, Option.some.injEq, Prod.mk.injEq] at this
        exact this.2
      have hupA : Upholds (prefilter ev) ch
          (judge A ev (eventSummary ev) (prefilter ev) ch a c₁).outcome := judge_upholds
      have hupB : Upholds (prefilter ev) ch
          (judge B ev (eventSummary ev) (prefilter ev) ch b c₂).outcome := judge_upholds
      refine ⟨hev, hcorr, fun h => absurd h hdrop, fun _ => ⟨ch, judge_trace.1, hupA, hupB, ?_⟩, ?_⟩
      · intro hd hm
        exact ⟨(judge_asked_of_drop hd hm).1, (judge_asked_of_drop hd hm).1⟩
      · intro hne
        refine ⟨ch, judge_trace.1, ?_⟩
        cases hhit : ch.hit with
        | true =>
          exact absurd ((hupA.alerts (Or.inr hhit)).1.trans (hupB.alerts (Or.inr hhit)).1.symm) hne
        | false =>
          cases hdec : (prefilter ev).decision with
          | Alert =>
            exact absurd ((hupA.alerts (Or.inl hdec)).1.trans (hupB.alerts (Or.inl hdec)).1.symm) hne
          | Drop =>
            exact absurd ((hupA.drops hdec hhit).1.trans (hupB.drops hdec hhit).1.symm) hne
          | Escalate => exact ⟨rfl, rfl⟩

/-- A client with one answer to everything. -/
abbrev constClient (answer : Classification) : LlmClient where
  State := Unit
  classify _ _ := (answer, ())
  deepAnalyze _ _ := (answer, ())

end PqcEdr.Analyzer
