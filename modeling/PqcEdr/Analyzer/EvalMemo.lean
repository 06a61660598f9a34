/-
# The evaluation behind its memo

`main` of `analyzer/src/eval.cpp` gives the pipeline no client but a `MemoLlm` around one.  What
that does to the results, for a client whose replies depend on the request alone, as those of
`MockLlmClient` do.

* `evaluate_memo`: the evaluation comes to a report as it would with the client itself, no alert is
  lost, and with no request capped every figure and every scenario is the same.
* `evaluate_accounts`: for any client, the figures count what they are printed as, but for the
  "memo hits" of the benign files, which take in the capped requests.
-/
import PqcEdr.Analyzer.Eval
import PqcEdr.Analyzer.Memo

namespace PqcEdr.Analyzer

open EventsFile Crypto Budget
open Tally (bump)

/-! ## 1. `MockLlmClient` -/

/-- A decimal literal. -/
def doubleLit (num den : ℕ) : Double :=
  .finite false (roundBinary64 num den).1 (roundBinary64 num den).2

/-- `contains`. -/
def contains (s : Bytes) (sub : String) : Bool := decide (lit sub <:+: s)

def mockClassify (context : Bytes) : Classification :=
  let suspicious := contains context "curl" || contains context "wget" ||
    contains context "python" || contains context "perl" || contains context "/tmp" ||
    contains context ":4444" || contains context "powershell"
  if suspicious then
    { verdict := .Suspicious
      confidence := doubleLit 7 10
      reason := lit "다운로더/스크립트 실행 또는 비정상 아웃바운드 정황"
      model := lit "mock-haiku" }
  else
    { verdict := .Normal
      confidence := doubleLit 8 10
      reason := lit "특이사항 없음"
      model := lit "mock-haiku" }

def mockDeepAnalyze (context : Bytes) : Classification where
  verdict := .Suspicious
  severity := .Medium
  confidence := doubleLit 75 100
  reason := lit "심층 분석(mock): 실행/아웃바운드 패턴이 데이터 유출 또는 C2 통신 정황과 부합. 컨텍스트=[" ++
    context ++ lit "]"
  model := lit "mock-sonnet"

abbrev mockLlmClient : LlmClient where
  State := Unit
  classify context s := (mockClassify context, s)
  deepAnalyze context s := (mockDeepAnalyze context, s)

/-! ## 2. One request -/

/-- The books, and the requests that got no answer. -/
structure Audited (L : LlmClient) (reply : Request → Classification) (s₀ : L.State) (cap : UInt64)
    (reqs : List Request) (m : MemoLlm L) : Prop where
  accounts : Accounts L reply s₀ cap reqs m
  capped : m.capped = UInt64.ofNat (rejected cap.toNat reqs).length

section

variable {L : LlmClient} {reply : Request → Classification} {s₀ : L.State} {cap : UInt64}
  {reqs : List Request} {m : MemoLlm L}

namespace Audited

theorem fresh : Audited L reply s₀ cap [] { inner := s₀, cap := cap } := ⟨Accounts.fresh, rfl⟩

/-- A reply is the client's but for the tokens, or it is the capped one and counted as such. -/
theorem get (hreply : ∀ deep ctx s, (L.ask deep ctx s).1 = reply (deep, ctx))
    (a : Audited L reply s₀ cap reqs m) (r : Request) :
    Audited L reply s₀ cap (reqs ++ [r]) (m.get r.2 r.1).2 ∧
      ((m.get r.2 r.1).1.withoutTokens = (reply r).withoutTokens ∨
        (m.get r.2 r.1).1 = cappedReply ∧ rejected cap.toNat (reqs ++ [r]) ≠ []) := by
  obtain ⟨hanswer, haccounts⟩ := a.accounts.get hreply r
  unfold memoReply at hanswer
  by_cases hmem : r ∈ admitted cap.toNat reqs
  · rw [if_pos hmem] at hanswer
    have hget := MemoLlm.get_of_hit ((a.accounts.memo r.1 r.2).trans (if_pos hmem))
    refine ⟨⟨haccounts, ?_⟩, Or.inl (by rw [hanswer]; rfl)⟩
    rw [hget, rejected_append, admitted_append_of_mem hmem, if_pos hmem, List.append_nil]
    exact a.capped
  · rw [if_neg hmem] at hanswer
    by_cases hroom : (admitted cap.toNat reqs).length < cap.toNat
    · rw [if_pos hroom] at hanswer
      have hcap : ¬ m.cap ≤ m.calls := fun h =>
        Nat.not_le_of_lt hroom (a.accounts.cap_le_calls.mp h)
      have hget := MemoLlm.get_of_call (a.accounts.find?_eq_none hmem) hcap
      refine ⟨⟨haccounts, ?_⟩, Or.inl (by rw [hanswer])⟩
      rw [hget, rejected_append, if_pos (by simp [admitted_append_of_new hmem hroom]),
        List.append_nil]
      exact a.capped
    · have hfull := Nat.le_of_not_lt hroom
      rw [if_neg hroom] at hanswer
      have hget := MemoLlm.get_of_capped (a.accounts.find?_eq_none hmem)
        (a.accounts.cap_le_calls.mpr hfull)
      have hrejected : rejected cap.toNat (reqs ++ [r]) = rejected cap.toNat reqs ++ [r] := by
        rw [rejected_append, admitted_append_of_full hfull, if_neg hmem]
      refine ⟨⟨haccounts, ?_⟩, Or.inr ⟨hanswer, by simp [hrejected]⟩⟩
      rw [hget, hrejected, List.length_append, UInt64.ofNat_add, ← a.capped]
      rfl

end Audited

end

/-! ## 3. One event -/

def Outcome.withoutTokens (o : Outcome) : Outcome := { o with input_tokens := 0, output_tokens := 0 }

/-- An outcome with the memo beside one without it. -/
structure Outcome.Kept (full : Prop) (o o' : Outcome) : Prop where
  alerted : o.alerted = true → o'.alerted = true
  same : full → o'.withoutTokens = o.withoutTokens

theorem Outcome.Kept.of_eq {full : Prop} {o o' : Outcome} (h : o' = o) : o.Kept full o' :=
  ⟨fun halert => h ▸ halert, fun _ => by rw [h]⟩

theorem fields_of_withoutTokens {c c' : Classification}
    (h : c.withoutTokens = c'.withoutTokens) : c.verdict = c'.verdict ∧ c.severity = c'.severity ∧
      c.confidence = c'.confidence ∧ c.reason = c'.reason ∧ c.model = c'.model := by
  unfold Classification.withoutTokens at h
  injections
  exact ⟨‹_›, ‹_›, ‹_›, ‹_›, ‹_›⟩

/-- What a call leaves of the memo, and of the outcome. -/
def Served (L : LlmClient) (reply : Request → Classification) (s₀ : L.State) (cap : UInt64)
    (reqs : List Request) (o o' : Outcome) (m : MemoLlm L) : Prop :=
  ∃ new, Audited L reply s₀ cap (reqs ++ new) m ∧ new.length ≤ 2 ∧
    o.Kept (rejected cap.toNat (reqs ++ new) = []) o'

section

variable {L : LlmClient} {reply : Request → Classification} {s₀ : L.State} {cap : UInt64}
  {reqs : List Request} {m : MemoLlm L} {ev : SecurityEvent} {summary : Bytes}
  {pr : PrefilterResult} {ch : CorrelationHit} {llm : L.State} {corr : Correlator}

theorem Served.of_no_request (a : Audited L reply s₀ cap reqs m) {o o' : Outcome}
    (h : o' = o) : Served L reply s₀ cap reqs o o' m :=
  ⟨[], by rwa [List.append_nil], Nat.zero_le 2, .of_eq h⟩

theorem judgeHit_memo (hreply : ∀ deep ctx s, (L.ask deep ctx s).1 = reply (deep, ctx))
    (a : Audited L reply s₀ cap reqs m) :
    Served L reply s₀ cap reqs (judgeHit L ev summary pr ch llm corr).outcome
      (judgeHit (memoLlm L) ev summary pr ch m corr).outcome
      (judgeHit (memoLlm L) ev summary pr ch m corr).llm := by
  unfold judgeHit
  by_cases hrule : pr.decision = .Alert
  · rw [if_pos hrule, if_pos hrule]
    exact .of_no_request a rfl
  · rw [if_neg hrule, if_neg hrule]
    have hplain : (L.deepAnalyze (correlationContext summary ch) llm).1 =
        reply (true, correlationContext summary ch) := hreply true _ llm
    obtain ⟨haudit, hanswer⟩ := a.get hreply (true, correlationContext summary ch)
    dsimp only at haudit hanswer
    refine ⟨_, haudit, Nat.le_succ 1, fun _ => rfl, fun hfull => ?_⟩
    rcases hanswer with hsame | ⟨-, hrejected⟩
    · obtain ⟨hverdict, hseverity, -, hreason, -⟩ := fields_of_withoutTokens hsame
      simp only [Outcome.withoutTokens, account, hplain, hverdict, hseverity, hreason]
    · exact absurd hfull hrejected

theorem judgeEscalated_memo (hreply : ∀ deep ctx s, (L.ask deep ctx s).1 = reply (deep, ctx))
    (a : Audited L reply s₀ cap reqs m) :
    Served L reply s₀ cap reqs (judgeEscalated L ev summary pr ch llm corr).outcome
      (judgeEscalated (memoLlm L) ev summary pr ch m corr).outcome
      (judgeEscalated (memoLlm L) ev summary pr ch m corr).llm := by
  have hclassify : (L.classify summary llm).1 = reply (false, summary) := hreply false _ llm
  obtain ⟨haudit, hanswer⟩ := a.get hreply (false, summary)
  dsimp only at haudit hanswer
  unfold judgeEscalated
  by_cases hnormal : (m.get summary false).1.verdict = .Normal
  · -- a capped reply is not Normal
    rcases hanswer with hsame | ⟨hcapped, -⟩
    · obtain ⟨hverdict, -, hconfidence, hreason, hmodel⟩ := fields_of_withoutTokens hsame
      have hplain : (reply (false, summary)).verdict = .Normal := hverdict.symm.trans hnormal
      simp only [hclassify, if_pos hnormal, if_pos hplain]
      refine ⟨_, haudit, Nat.le_succ 1, fun halert => halert, fun _ => ?_⟩
      simp only [Outcome.withoutTokens, account, hconfidence, hreason, hmodel]
    · rw [hcapped] at hnormal
      cases hnormal
  · obtain ⟨haudit', hanswer'⟩ := haudit.get hreply (true, summary)
    dsimp only at haudit' hanswer'
    rw [List.append_assoc] at haudit' hanswer'
    simp only [if_neg hnormal]
    refine ⟨_, haudit', Nat.le_refl 2, fun _ => rfl, fun hfull => ?_⟩
    rcases hanswer with hsame | ⟨-, hrejected⟩
    · rcases hanswer' with hsame' | ⟨-, hrejected⟩
      · obtain ⟨hverdict, -⟩ := fields_of_withoutTokens hsame
        obtain ⟨hverdict', hseverity', -, hreason', -⟩ := fields_of_withoutTokens hsame'
        have hplain : ¬ (reply (false, summary)).verdict = .Normal := hverdict ▸ hnormal
        have hdeep : ∀ s, (L.deepAnalyze summary s).1 = reply (true, summary) := hreply true _
        simp only [hclassify, if_neg hplain, Outcome.withoutTokens, account, hdeep, hverdict',
          hseverity', hreason']
      · exact absurd hfull hrejected
    · rw [← List.append_assoc] at hfull
      exact absurd (rejected_eq_nil_of_append hfull) hrejected

theorem judge_memo (hreply : ∀ deep ctx s, (L.ask deep ctx s).1 = reply (deep, ctx))
    (a : Audited L reply s₀ cap reqs m) :
    Served L reply s₀ cap reqs (judge L ev summary pr ch llm corr).outcome
      (judge (memoLlm L) ev summary pr ch m corr).outcome
      (judge (memoLlm L) ev summary pr ch m corr).llm := by
  unfold judge
  by_cases hhit : ch.hit = true
  · rw [if_pos hhit, if_pos hhit]
    exact judgeHit_memo hreply a
  · rw [if_neg hhit, if_neg hhit]
    cases pr.decision with
    | Drop => exact .of_no_request a rfl
    | Alert => exact .of_no_request a rfl
    | Escalate => exact judgeEscalated_memo hreply a

/-- The correlator is out of the memo's reach. -/
theorem classifyEvent_memo (hreply : ∀ deep ctx s, (L.ask deep ctx s).1 = reply (deep, ctx))
    (ev : SecurityEvent) (llm : L.State) (corr : Correlator)
    (a : Audited L reply s₀ cap reqs m) :
    (classifyEvent L ev llm corr = none ∧ classifyEvent (memoLlm L) ev m corr = none) ∨
      ∃ c c', classifyEvent L ev llm corr = some c ∧
        classifyEvent (memoLlm L) ev m corr = some c' ∧ c'.corr = c.corr ∧
        Served L reply s₀ cap reqs c.outcome c'.outcome c'.llm := by
  unfold classifyEvent
  by_cases hdrop : ev.type = PQSEC_EVT_AGENT_DROP
  · simp only [if_pos hdrop]
    exact Or.inr ⟨_, _, rfl, rfl, rfl, .of_no_request a rfl⟩
  · simp only [if_neg hdrop]
    cases corr.observe ev with
    | none => exact Or.inl ⟨rfl, rfl⟩
    | some x =>
      have hcorr : (judge L ev (eventSummary ev) (prefilter ev) x.1 llm x.2).corr = x.2 :=
        judge_trace.2
      exact Or.inr ⟨_, _, rfl, rfl, judge_trace.2.trans hcorr.symm, judge_memo hreply a⟩

end

/-! ## 4. One file -/

/-- A call of `run_file`'s callbacks with the memo beside one without it. -/
inductive Call.Kept {L : LlmClient} (full : Prop) : Call L → Call (memoLlm L) → Prop where
  | onDirective (d : Bytes) : Kept full (.onDirective d) (.onDirective d)
  | onEvent (e : Entry) {o : Classified L} {o' : Classified (memoLlm L)}
      (h : o.outcome.Kept full o'.outcome) : Kept full (.onEvent e o) (.onEvent e o')

theorem Call.Kept.imp {L : LlmClient} {p q : Prop} (hpq : q → p) {call : Call L}
    {call' : Call (memoLlm L)} (h : call.Kept p call') : call.Kept q call' := by
  cases h with
  | onDirective d => exact .onDirective d
  | onEvent e h => exact .onEvent e ⟨h.alerted, fun hq => h.same (hpq hq)⟩

def Call.outcome? {L : LlmClient} : Call L → Option Outcome
  | .onDirective _ => none
  | .onEvent _ o => some o.outcome

/-- The events that were classified. -/
def outcomes {L : LlmClient} (calls : List (Call L)) : List Outcome :=
  calls.filterMap Call.outcome?

/-- What some calls leave of the memo, beside those without it. -/
def Replayed (L : LlmClient) (reply : Request → Classification) (s₀ : L.State) (cap : UInt64)
    (reqs : List Request) (calls : List (Call L)) (calls' : List (Call (memoLlm L)))
    (m : MemoLlm L) : Prop :=
  ∃ new, Audited L reply s₀ cap (reqs ++ new) m ∧ new.length ≤ 2 * (outcomes calls).length ∧
    List.Forall₂ (Call.Kept (rejected cap.toNat (reqs ++ new) = [])) calls calls'

section

variable {L : LlmClient} {reply : Request → Classification} {s₀ : L.State} {cap : UInt64}
  {reqs : List Request} {m : MemoLlm L}

theorem runEntries_memo (hreply : ∀ deep ctx s, (L.ask deep ctx s).1 = reply (deep, ctx))
    (es : List Entry) (vclock : UInt64) (llm : L.State) (corr : Correlator)
    (a : Audited L reply s₀ cap reqs m) :
    (runEntries L es vclock llm corr = none ∧
        runEntries (memoLlm L) es vclock m corr = none) ∨
      ∃ calls calls', runEntries L es vclock llm corr = some calls ∧
        runEntries (memoLlm L) es vclock m corr = some calls' ∧
        Replayed L reply s₀ cap reqs calls calls' (llmAfter m calls') := by
  induction es generalizing vclock llm corr reqs m with
  | nil => exact Or.inr ⟨[], [], rfl, rfl, [], by rwa [List.append_nil], Nat.le_refl 0, .nil⟩
  | cons entry es ih =>
    cases entry with
    | directive d line =>
      rw [runEntries, runEntries]
      rcases ih vclock llm corr a with ⟨hnone, hnone'⟩ | ⟨calls, calls', hcalls, hcalls', hrest⟩
      · rw [hnone, hnone']
        exact Or.inl ⟨rfl, rfl⟩
      · rw [hcalls, hcalls']
        obtain ⟨new, haudit, hlen, hkept⟩ := hrest
        exact Or.inr ⟨_, _, rfl, rfl, new, haudit, hlen, .cons (.onDirective d) hkept⟩
    | delay ms expect line => exact ih (vclock + delayNs ms) llm corr a
    | event e expect line =>
      rw [runEntries, runEntries]
      rcases classifyEvent_memo hreply { e with ts_ns := vclock + 1000000 } llm corr a with
        ⟨hnone, hnone'⟩ | ⟨c, c', hc, hc', hcorr, new, haudit, hlen, hkept⟩
      · rw [hnone, hnone']
        exact Or.inl ⟨rfl, rfl⟩
      · rw [hc, hc']
        dsimp only
        rw [hcorr]
        rcases ih (vclock + 1000000) c.llm c.corr haudit with
          ⟨hnone, hnone'⟩ | ⟨calls, calls', hcalls, hcalls', more, haudit', hlen', hkept'⟩
        · rw [hnone, hnone']
          exact Or.inl ⟨rfl, rfl⟩
        · rw [hcalls, hcalls']
          rw [List.append_assoc] at haudit' hkept'
          refine Or.inr ⟨_, _, rfl, rfl, new ++ more, haudit', ?_, .cons (.onEvent _ ?_) hkept'⟩
          · have hcount : (outcomes (Call.onEvent (Entry.event e expect line) c :: calls)).length =
                (outcomes calls).length + 1 := rfl
            rw [List.length_append, hcount]
            omega
          · refine ⟨hkept.alerted, fun hfull => hkept.same ?_⟩
            rw [← List.append_assoc] at hfull
            exact rejected_eq_nil_of_append hfull

end

/-! ## 5. The whole evaluation -/

/-- Two runs that end alike. -/
inductive Run.Alike {α β : Type} (R : α → β → Prop) : Run α → Run β → Prop where
  | undefined : Alike R .undefined .undefined
  | exit (status : ℕ) : Alike R (.exit status) (.exit status)
  | terminated (e : Exn) : Alike R (.terminated e) (.terminated e)
  | done {a : α} {b : β} (h : R a b) : Alike R (.done a) (.done b)

theorem Run.Alike.bind {α β γ δ : Type} {R : α → β → Prop} {S : γ → δ → Prop} {x : Run α}
    {y : Run β} {f : α → Run γ} {g : β → Run δ} (h : x.Alike R y)
    (hfg : ∀ a b, R a b → (f a).Alike S (g b)) : (x >>= f).Alike S (y >>= g) := by
  cases h with
  | undefined => exact .undefined
  | exit status => exact .exit status
  | terminated e => exact .terminated e
  | done h => exact hfg _ _ h

theorem Run.Alike.refl {α : Type} (x : Run α) : x.Alike (· = ·) x := by
  cases x with
  | undefined => exact .undefined
  | exit status => exact .exit status
  | terminated e => exact .terminated e
  | done a => exact .done rfl

theorem Run.Alike.imp {α β : Type} {R S : α → β → Prop} (hRS : ∀ a b, R a b → S a b) {x : Run α}
    {y : Run β} (h : x.Alike R y) : x.Alike S y := by
  cases h with
  | undefined => exact .undefined
  | exit status => exact .exit status
  | terminated e => exact .terminated e
  | done h => exact .done (hRS _ _ h)

/-- The replays with the memo beside those without it. -/
def ReplaysKept {L : LlmClient} (full : Prop) (x : List (Replay L))
    (x' : List (Replay (memoLlm L))) : Prop :=
  List.Forall₂ (fun p p' => p'.1 = p.1 ∧ List.Forall₂ (Call.Kept full) p.2 p'.2) x x'

theorem ReplaysKept.imp {L : LlmClient} {p q : Prop} (hpq : q → p) {x : List (Replay L)}
    {x' : List (Replay (memoLlm L))} (h : ReplaysKept p x x') : ReplaysKept q x x' :=
  List.Forall₂.imp (fun _ _ hp => ⟨hp.1, hp.2.imp fun _ _ hcall => hcall.imp hpq⟩) h

section

variable {L : LlmClient} {reply : Request → Classification} {s₀ : L.State} {cap : UInt64}
  {reqs : List Request} {m : MemoLlm L}

theorem replayAll_memo (hreply : ∀ deep ctx s, (L.ask deep ctx s).1 = reply (deep, ctx))
    (disk : Disk) (paths : List String) (llm : L.State) (a : Audited L reply s₀ cap reqs m) :
    (replayAll L disk paths llm).Alike
      (fun x x' => ∃ new, Audited L reply s₀ cap (reqs ++ new) x'.2 ∧
        new.length ≤ 2 * (outcomes (x.1.flatMap Prod.snd)).length ∧
        ReplaysKept (rejected cap.toNat (reqs ++ new) = []) x.1 x'.1)
      (replayAll (memoLlm L) disk paths m) := by
  induction paths generalizing llm reqs m with
  | nil => exact .done ⟨[], by rwa [List.append_nil], Nat.le_refl 0, .nil⟩
  | cons path paths ih =>
    unfold replayAll
    cases disk.read path with
    | none => exact .exit 2
    | some text =>
      dsimp only
      unfold runFile
      rcases runEntries_memo hreply (parse text path).1 1000000000 llm Correlator.fresh a with
        ⟨hnone, hnone'⟩ | ⟨calls, calls', hcalls, hcalls', new, haudit, hlen, hkept⟩
      · rw [hnone, hnone']
        exact .undefined
      · rw [hcalls, hcalls']
        cases (parse text path).2 with
        | some e => exact .terminated e
        | none =>
          refine (ih (llmAfter llm calls) haudit).bind ?_
          rintro ⟨replays, llm'⟩ ⟨replays', m'⟩ ⟨more, haudit', hlen', hkept'⟩
          rw [List.append_assoc] at haudit' hkept'
          refine .done ⟨new ++ more, haudit', ?_, .cons ⟨rfl, ?_⟩ hkept'⟩
          · simp only [List.flatMap_cons, outcomes, List.filterMap_append, List.length_append]
              at hlen hlen' ⊢
            omega
          · refine hkept.imp fun _ _ hcall => hcall.imp fun hfull => ?_
            rw [← List.append_assoc] at hfull
            exact rejected_eq_nil_of_append hfull

/-- The events of a report. -/
def Report.classified (r : Report L) : List Outcome :=
  outcomes (r.benign.flatMap Prod.snd) ++ outcomes (r.attack.flatMap Prod.snd)

theorem evaluate_audited (hreply : ∀ deep ctx s, (L.ask deep ctx s).1 = reply (deep, ctx))
    (disk : Disk) (o : EvalOptions) (s₀ : L.State) (cap : UInt64) :
    (evaluate L disk o s₀).Alike
      (fun r r' => ∃ reqs, Audited L reply s₀ cap reqs r'.llm ∧
        reqs.length ≤ 2 * r.classified.length ∧
        ReplaysKept (rejected cap.toNat reqs = []) r.benign r'.benign ∧
        ReplaysKept (rejected cap.toNat reqs = []) r.attack r'.attack)
      (evaluate (memoLlm L) disk o { inner := s₀, cap := cap }) := by
  unfold evaluate
  refine (Run.Alike.refl (expand disk o.benign)).bind ?_
  rintro bfiles _ rfl
  refine (replayAll_memo hreply disk bfiles s₀ Audited.fresh).bind ?_
  rintro ⟨benign, before⟩ ⟨benign', before'⟩ ⟨new, haudit, hlen, hbenign⟩
  refine (Run.Alike.refl (expand disk o.attack)).bind ?_
  rintro afiles _ rfl
  refine (replayAll_memo hreply disk afiles before haudit).bind ?_
  rintro ⟨attack, llm⟩ ⟨attack', llm'⟩ ⟨more, haudit', hlen', hattack⟩
  rw [List.nil_append] at haudit' hattack hbenign
  refine .done ⟨new ++ more, haudit', ?_, hbenign.imp rejected_eq_nil_of_append, hattack⟩
  simp only [Report.classified, List.length_append] at hlen hlen' ⊢
  omega

/-! ## 6. The figures -/

theorem tallyCall_of_kept {call : Call L} {call' : Call (memoLlm L)} (h : call.Kept True call')
    (benign : Bool) (st : Stats) : tallyCall benign st call' = tallyCall benign st call := by
  cases h with
  | onDirective d => rfl
  | onEvent e h =>
    -- the counters do not look at the tokens
    have hstrip : ∀ o : Outcome, tally st o benign = tally st o.withoutTokens benign := fun _ => rfl
    rw [tallyCall, tallyCall, hstrip, h.same trivial, ← hstrip]

theorem scenarioCall_of_kept {call : Call L} {call' : Call (memoLlm L)} (h : call.Kept True call')
    (sc : Scenario) : sc.call call' = sc.call call := by
  cases h with
  | onDirective d => rfl
  | onEvent e h =>
    have hstrip : ∀ o : Outcome, sc.onEvent (expectOf e) o =
        sc.onEvent (expectOf e) o.withoutTokens := fun _ => rfl
    rw [Scenario.call, Scenario.call, hstrip, h.same trivial, ← hstrip]

/-- A fold that does not tell the calls apart. -/
theorem foldl_of_kept {σ : Type} {f : σ → Call L → σ} {g : σ → Call (memoLlm L) → σ}
    (hstep : ∀ call call', call.Kept True call' → ∀ s, g s call' = f s call) {calls : List (Call L)}
    {calls' : List (Call (memoLlm L))} (h : List.Forall₂ (Call.Kept True) calls calls') (s : σ) :
    calls'.foldl g s = calls.foldl f s := by
  induction h generalizing s with
  | nil => rfl
  | cons hcall _ ih => rw [List.foldl_cons, List.foldl_cons, hstep _ _ hcall, ih]

theorem statsOf_of_kept {x : List (Replay L)} {x' : List (Replay (memoLlm L))}
    (h : ReplaysKept True x x') (benign : Bool) : statsOf benign x' = statsOf benign x := by
  refine foldl_of_kept (fun _ _ hcall => tallyCall_of_kept hcall benign) ?_ {}
  induction h with
  | nil => exact .nil
  | cons hreplay _ ih =>
    rw [List.flatMap_cons, List.flatMap_cons]
    exact List.rel_append hreplay.2 ih

theorem map_scenarioOf_of_kept {x : List (Replay L)} {x' : List (Replay (memoLlm L))}
    (h : ReplaysKept True x x') : x'.map scenarioOf = x.map scenarioOf := by
  induction h with
  | nil => rfl
  | cons hreplay _ ih =>
    rw [List.map_cons, List.map_cons, ih, scenarioOf, scenarioOf, hreplay.1,
      foldl_of_kept (fun _ _ hcall => scenarioCall_of_kept hcall) hreplay.2]

/-- With the memo the evaluation comes to a report as it does without it, and no alert is lost; where
no request was capped, the figures, the scenarios, the exit status and what `--json` does are those
of the client itself. -/
theorem evaluate_memo (L : LlmClient) (reply : Request → Classification)
    (hreply : ∀ deep ctx s, (L.ask deep ctx s).1 = reply (deep, ctx)) (disk : Disk)
    (o : EvalOptions) (s₀ : L.State) (cap : UInt64) :
    (evaluate L disk o s₀).Alike
      (fun r r' => ReplaysKept False r.benign r'.benign ∧ ReplaysKept False r.attack r'.attack ∧
        (2 * r.classified.length ≤ cap.toNat → r'.llm.capped = 0) ∧
        (2 * r.classified.length < 2 ^ 64 → r'.llm.capped = 0 →
          r'.benignStats = r.benignStats ∧ r'.attackStats = r.attackStats ∧ r'.scen = r.scen ∧
            r'.status o = r.status o ∧ r'.finish o = r.finish o))
      (evaluate (memoLlm L) disk o { inner := s₀, cap := cap }) := by
  refine (evaluate_audited hreply disk o s₀ cap).imp ?_
  rintro r r' ⟨reqs, haudit, hlen, hbenign, hattack⟩
  refine ⟨hbenign.imp False.elim, hattack.imp False.elim, fun hcap => ?_, fun hsize hcapped => ?_⟩
  · rw [haudit.capped, rejected_eq_nil_of_length_le (Nat.le_trans hlen hcap)]
    rfl
  · have hfull : rejected cap.toNat reqs = [] := by
      have hbound : (rejected cap.toNat reqs).length ≤ reqs.length := List.length_filter_le _ _
      have hzero : (rejected cap.toNat reqs).length % 2 ^ 64 = 0 := by
        rw [haudit.capped] at hcapped
        exact (UInt64.toNat_ofNat').symm.trans (congrArg UInt64.toNat hcapped)
      rw [Nat.mod_eq_of_lt (by omega)] at hzero
      exact List.eq_nil_of_length_eq_zero hzero
    have hscen : r'.scen = r.scen := map_scenarioOf_of_kept (hattack.imp fun _ => hfull)
    have hbenignStats : r'.benignStats = r.benignStats :=
      statsOf_of_kept (hbenign.imp fun _ => hfull) true
    have hstatus : r'.status o = r.status o := by
      rw [Report.status, Report.status, Report.gateFail, Report.gateFail, hscen]
    refine ⟨hbenignStats, statsOf_of_kept (hattack.imp fun _ => hfull) false, hscen, hstatus, ?_⟩
    rw [Report.finish, Report.finish, Report.jsonTexts, Report.jsonTexts, hbenignStats, hscen,
      hstatus]

end

/-- The mock on two files, with the cap that the options leave it. -/
theorem evaluate_memo_mock : ∃ r', evaluate (memoLlm mockLlmClient) gateDisk gateOptions
    { inner := (), cap := 2000 } = .done r' ∧ r'.llm.capped = 0 := by
  have hreply : ∀ deep ctx s, (mockLlmClient.ask deep ctx s).1 =
      if deep then mockDeepAnalyze ctx else mockClassify ctx := by
    intro deep ctx s
    cases deep <;> rfl
  have hends : (match evaluate mockLlmClient gateDisk gateOptions () with
    | .done r => r.classified.length
    | _ => 0) = 2 := by decide +kernel
  have hmemo := evaluate_memo mockLlmClient
    (fun r => if r.1 then mockDeepAnalyze r.2 else mockClassify r.2) hreply gateDisk gateOptions () 2000
  revert hends hmemo
  generalize evaluate mockLlmClient gateDisk gateOptions () = x
  generalize evaluate (memoLlm mockLlmClient) gateDisk gateOptions { inner := (), cap := 2000 } = x'
  rintro hends (_ | _ | _ | ⟨-, -, hcapped, -⟩)
  · cases hends
  · cases hends
  · cases hends
  · refine ⟨_, rfl, hcapped ?_⟩
    dsimp only at hends
    rw [hends]
    decide

/-! ## 7. The books -/

/-- What some requests leave of the memo, whatever the client. -/
structure Spent {L : LlmClient} (m m' : MemoLlm L) (n : ℕ) : Prop where
  cap : m'.cap = m.cap
  within : m.calls ≤ m.cap → m'.calls ≤ m'.cap
  counts : m'.calls + m'.hits + m'.capped = m.calls + m.hits + m.capped + UInt64.ofNat n

/-- The requests of an event. -/
def Outcome.requests (o : Outcome) : ℕ := o.haiku_calls + o.sonnet_calls

/-- The figures of some events. -/
structure Stats.Counts (os : List Outcome) (benign : Bool) (st : Stats) : Prop where
  events : st.events = UInt64.ofNat os.length
  alerts : st.alerts = UInt64.ofNat (os.countP Outcome.alerted)
  by_layer : ∀ layer, (st.by_layer.find? (lit layer.toText)).getD 0 =
    UInt64.ofNat (os.countP (·.layer = layer))
  by_source : ∀ source, (st.by_source.find? source).getD 0 =
    UInt64.ofNat (os.countP fun o => o.alerted && lit o.alert.source = source)
  fp_summary : ∀ summary, (st.fp_summary.find? summary).getD 0 =
    UInt64.ofNat (os.countP fun o => benign && o.alerted && o.alert.event_summary = summary)
  haiku_calls : st.haiku_calls = UInt64.ofNat (os.map Outcome.haiku_calls).sum
  sonnet_calls : st.sonnet_calls = UInt64.ofNat (os.map Outcome.sonnet_calls).sum

theorem layer_of_toText {a b : Layer} (h : lit a.toText = lit b.toText) : a = b := by
  cases a <;> cases b <;> first | rfl | exact absurd h (by decide)

/-- The loop of `tally` in one piece. -/
theorem foldl_tally (os : List Outcome) (benign : Bool) :
    os.foldl (fun st o => tally st o benign) {} =
      { events := UInt64.ofNat os.length
        alerts := UInt64.ofNat (os.countP Outcome.alerted)
        by_layer := Tally.tally (os.map fun o => lit o.layer.toText)
        by_source := Tally.tally ((os.filter Outcome.alerted).map fun o => lit o.alert.source)
        fp_summary :=
          if benign then Tally.tally ((os.filter Outcome.alerted).map fun o => o.alert.event_summary)
          else ∅
        haiku_calls := UInt64.ofNat (os.map Outcome.haiku_calls).sum
        sonnet_calls := UInt64.ofNat (os.map Outcome.sonnet_calls).sum } := by
  induction os using List.reverseRecOn with
  | nil => cases benign <;> rfl
  | append_singleton os o ih =>
    rw [List.foldl_append, ih, List.foldl_cons, List.foldl_nil, tally]
    by_cases halert : o.alerted = true
    · cases benign <;>
        simp [halert, Tally.tally_append, List.filter_append, UInt64.ofNat_add]
    · simp [halert, Tally.tally_append, List.filter_append, UInt64.ofNat_add]

theorem counts_foldl_tally (os : List Outcome) (benign : Bool) :
    (os.foldl (fun st o => tally st o benign) {}).Counts os benign := by
  rw [foldl_tally]
  refine ⟨rfl, rfl, fun layer => ?_, fun source => ?_, fun summary => ?_, rfl, rfl⟩
  · rw [Tally.getD_tally_map]
    refine congrArg UInt64.ofNat (List.countP_congr fun o _ => ?_)
    rw [decide_eq_true_eq, decide_eq_true_eq]
    exact ⟨layer_of_toText, fun h => by rw [h]⟩
  · rw [Tally.getD_tally_map, List.countP_filter]
    exact congrArg UInt64.ofNat (List.countP_congr fun o _ => by simp [and_comm])
  · cases benign with
    | false =>
      have hnone : os.countP (fun o => false && o.alerted && o.alert.event_summary = summary) = 0 :=
        List.countP_eq_zero.mpr (by simp)
      exact congrArg UInt64.ofNat hnone.symm
    | true =>
      rw [if_pos rfl, Tally.getD_tally_map, List.countP_filter]
      exact congrArg UInt64.ofNat (List.countP_congr fun o _ => by simp [and_comm])

theorem statsOf_eq {L : LlmClient} (benign : Bool) (replays : List (Replay L)) :
    statsOf benign replays =
      (outcomes (replays.flatMap Prod.snd)).foldl (fun st o => tally st o benign) {} := by
  rw [statsOf, outcomes, List.foldl_filterMap]
  refine congrArg (fun f => List.foldl f _ _) (funext fun st => funext fun call => ?_)
  cases call <;> rfl

section

variable {L : LlmClient} {m m' : MemoLlm L}

namespace Spent

theorem refl (m : MemoLlm L) : Spent m m 0 := ⟨rfl, fun h => h, (UInt64.add_zero _).symm⟩

theorem trans {m'' : MemoLlm L} {n n' : ℕ} (h : Spent m m' n) (h' : Spent m' m'' n') :
    Spent m m'' (n + n') := by
  refine ⟨h'.cap.trans h.cap, fun hle => h'.within (h.within hle), ?_⟩
  rw [h'.counts, h.counts, UInt64.ofNat_add, UInt64.add_assoc]

theorem get (m : MemoLlm L) (ctx : Bytes) (deep : Bool) : Spent m (m.get ctx deep).2 1 := by
  cases hfind : (m.memo deep).find? ctx with
  | some c =>
    rw [MemoLlm.get_of_hit hfind]
    refine ⟨rfl, fun h => h, ?_⟩
    show m.calls + (m.hits + 1) + m.capped = m.calls + m.hits + m.capped + 1
    ac_rfl
  | none =>
    by_cases hcap : m.cap ≤ m.calls
    · rw [MemoLlm.get_of_capped hfind hcap]
      refine ⟨rfl, fun h => h, ?_⟩
      show m.calls + m.hits + (m.capped + 1) = m.calls + m.hits + m.capped + 1
      ac_rfl
    · rw [MemoLlm.get_of_call hfind hcap]
      have hlt : m.calls < m.cap := UInt64.not_le.mp hcap
      refine ⟨rfl, fun _ => ?_, ?_⟩
      · show m.calls + 1 ≤ m.cap
        have hbound := m.cap.toNat_lt
        rw [UInt64.lt_iff_toNat_lt] at hlt
        rw [UInt64.le_iff_toNat_le, UInt64.toNat_add, UInt64.toNat_one,
          Nat.mod_eq_of_lt (by omega)]
        exact hlt
      · show m.calls + 1 + m.hits + m.capped = m.calls + m.hits + m.capped + 1
        ac_rfl

/-- The requests that an event reports are those it made. -/
theorem spent_judge {ev : SecurityEvent} {summary : Bytes} {pr : PrefilterResult}
    {ch : CorrelationHit} {corr : Correlator} :
    Spent m (judge (memoLlm L) ev summary pr ch m corr).llm
      (judge (memoLlm L) ev summary pr ch m corr).outcome.requests := by
  unfold judge
  by_cases hhit : ch.hit = true
  · rw [if_pos hhit, judgeHit]
    by_cases hrule : pr.decision = .Alert
    · rw [if_pos hrule]
      exact refl m
    · rw [if_neg hrule]
      exact get m _ true
  · rw [if_neg hhit]
    cases pr.decision with
    | Drop => exact refl m
    | Alert => exact refl m
    | Escalate =>
      dsimp only
      unfold judgeEscalated
      by_cases hnormal : (m.get summary false).1.verdict = .Normal
      · simp only [if_pos hnormal]
        exact get m summary false
      · simp only [if_neg hnormal]
        exact (get m summary false).trans (get _ summary true)

theorem spent_classifyEvent {ev : SecurityEvent} {corr : Correlator} {c : Classified (memoLlm L)}
    (h : classifyEvent (memoLlm L) ev m corr = some c) : Spent m c.llm c.outcome.requests := by
  unfold classifyEvent at h
  by_cases hdrop : ev.type = PQSEC_EVT_AGENT_DROP
  · rw [if_pos hdrop] at h
    cases h
    exact refl m
  · rw [if_neg hdrop] at h
    cases hobs : corr.observe ev with
    | none =>
      rw [hobs] at h
      cases h
    | some x =>
      rw [hobs] at h
      cases h
      exact spent_judge

theorem spent_runEntries {es : List Entry} {vclock : UInt64} {corr : Correlator}
    {calls : List (Call (memoLlm L))} (h : runEntries (memoLlm L) es vclock m corr = some calls) :
    Spent m (llmAfter m calls) ((outcomes calls).map Outcome.requests).sum := by
  induction es generalizing vclock m corr calls with
  | nil =>
    cases h
    exact refl m
  | cons entry es ih =>
    cases entry with
    | directive d line =>
      obtain ⟨calls, hrest, rfl⟩ := Option.map_eq_some_iff.mp h
      have hfile := ih hrest
      exact hfile
    | delay ms expect line => exact ih h
    | event e expect line =>
      unfold runEntries at h
      dsimp only at h
      split at h
      · cases h
      · next o ho =>
        obtain ⟨calls, hrest, rfl⟩ := Option.map_eq_some_iff.mp h
        exact (spent_classifyEvent ho).trans (ih hrest)

theorem spent_replayAll {disk : Disk} {paths : List String}
    {x : List (Replay (memoLlm L)) × MemoLlm L}
    (h : replayAll (memoLlm L) disk paths m = .done x) :
    Spent m x.2 ((outcomes (x.1.flatMap Prod.snd)).map Outcome.requests).sum := by
  induction paths generalizing m x with
  | nil =>
    cases h
    exact refl m
  | cons path paths ih =>
    unfold replayAll at h
    split at h
    · cases h
    · next text htext =>
      split at h
      · cases h
      · cases h
      · next calls hrun =>
        obtain ⟨⟨replays, m'⟩, hrest, hx⟩ := Run.bind_eq_done.mp h
        cases hx
        have hfile := spent_runEntries (congrArg Prod.fst hrun)
        have hsum : ((outcomes (((path, calls) :: replays).flatMap Prod.snd)).map
            Outcome.requests).sum = ((outcomes calls).map Outcome.requests).sum +
              ((outcomes (replays.flatMap Prod.snd)).map Outcome.requests).sum := by
          simp [outcomes]
        rw [hsum]
        exact hfile.trans (ih hrest)

end Spent

/-- The figure of the requests. -/
theorem requests_statsOf (benign : Bool) (replays : List (Replay L)) :
    (statsOf benign replays).haiku_calls + (statsOf benign replays).sonnet_calls =
      UInt64.ofNat ((outcomes (replays.flatMap Prod.snd)).map Outcome.requests).sum := by
  have hsum : ∀ os : List Outcome, (os.map Outcome.haiku_calls).sum +
      (os.map Outcome.sonnet_calls).sum = (os.map Outcome.requests).sum := by
    intro os
    induction os with
    | nil => rfl
    | cons o os ih =>
      simp only [List.map_cons, List.sum_cons, ← ih, Outcome.requests]
      omega
  rw [statsOf_eq, foldl_tally, ← hsum, UInt64.ofNat_add]

/-- The figures count what they are printed as; what is printed as the memo hits of the benign files
is the hits and the capped requests; and the client is called at most as often as the cap says. -/
theorem evaluate_accounts {disk : Disk} {o : EvalOptions} {s₀ : L.State} {cap : UInt64}
    {r : Report (memoLlm L)}
    (h : evaluate (memoLlm L) disk o { inner := s₀, cap := cap } = .done r) :
    r.benignStats.Counts (outcomes (r.benign.flatMap Prod.snd)) true ∧
      r.attackStats.Counts (outcomes (r.attack.flatMap Prod.snd)) false ∧
      r.benignStats.haiku_calls + r.benignStats.sonnet_calls - r.before_attack.calls =
        r.before_attack.hits + r.before_attack.capped ∧
      (r.benignStats.haiku_calls + r.benignStats.sonnet_calls) +
          (r.attackStats.haiku_calls + r.attackStats.sonnet_calls) =
        r.llm.calls + r.llm.hits + r.llm.capped ∧
      r.llm.calls ≤ cap := by
  unfold evaluate at h
  obtain ⟨bfiles, -, h⟩ := Run.bind_eq_done.mp h
  obtain ⟨⟨benign, before⟩, hbenign, h⟩ := Run.bind_eq_done.mp h
  obtain ⟨afiles, -, h⟩ := Run.bind_eq_done.mp h
  obtain ⟨⟨attack, llm⟩, hattack, h⟩ := Run.bind_eq_done.mp h
  cases h
  have hb := Spent.spent_replayAll hbenign
  have ha := hb.trans (Spent.spent_replayAll hattack)
  have hbefore : before.calls + before.hits + before.capped =
      (statsOf true benign).haiku_calls + (statsOf true benign).sonnet_calls := by
    rw [hb.counts, requests_statsOf]
    exact UInt64.zero_add _
  have hafter : llm.calls + llm.hits + llm.capped =
      (statsOf true benign).haiku_calls + (statsOf true benign).sonnet_calls +
        ((statsOf false attack).haiku_calls + (statsOf false attack).sonnet_calls) := by
    rw [ha.counts, requests_statsOf, requests_statsOf, UInt64.ofNat_add]
    exact UInt64.zero_add _
  refine ⟨?_, ?_, ?_, hafter.symm, ?_⟩
  · rw [Report.benignStats, statsOf_eq]
    exact counts_foldl_tally _ true
  · rw [Report.attackStats, statsOf_eq]
    exact counts_foldl_tally _ false
  · show (statsOf true benign).haiku_calls + (statsOf true benign).sonnet_calls - before.calls = _
    rw [← hbefore, UInt64.add_assoc, UInt64.add_comm, UInt64.add_sub_cancel]
  · have hcap := ha.within (UInt64.le_iff_toNat_le.mpr (Nat.zero_le _))
    rwa [ha.cap] at hcap

end

theorem evaluate_accounts_mock : ∃ r, evaluate (memoLlm mockLlmClient) gateDisk gateOptions
    { inner := (), cap := 2000 } = .done r ∧
      r.attackStats.by_layer.find? (lit "rule") = some 1 ∧ r.llm.calls ≤ 2000 := by
  have hends : (match evaluate (memoLlm mockLlmClient) gateDisk gateOptions
      { inner := (), cap := 2000 } with
    | .done r => r.attackStats.by_layer.find? (lit "rule")
    | _ => none) = some 1 := by decide +kernel
  split at hends
  · next r hr => exact ⟨r, hr, hends, (evaluate_accounts hr).2.2.2.2⟩
  · cases hends

end PqcEdr.Analyzer
