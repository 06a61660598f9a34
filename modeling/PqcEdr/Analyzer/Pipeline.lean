/-
# The pipeline

`analyzer/src/pipeline.cpp`: the rules and the correlator look at an event first, the model is
asked about what they leave open.  The two models behind `LlmClient` are any functions with a
state of their own: they receive a text and answer with a classification, nothing else.

`classifyEvent` is `none` where `Correlator::observe` has no defined result.
-/
import PqcEdr.Analyzer.Correlator
import PqcEdr.Analyzer.Rules

namespace PqcEdr.Analyzer

/-! ## 1. `alert.h`, `llm_client.h`, `pipeline.h` -/

inductive Verdict where
  | Normal
  | Suspicious
  | Malicious
  | Unknown
  deriving DecidableEq, Repr

/-- The position on the scale, which is how an `enum class` compares. -/
def Severity.rank : Severity → ℕ
  | .Info => 0
  | .Low => 1
  | .Medium => 2
  | .High => 3
  | .Critical => 4

instance instLESeverity : LE Severity := ⟨fun a b => a.rank ≤ b.rank⟩

instance instDecidableLESeverity (a b : Severity) : Decidable (a ≤ b) := Nat.decLe a.rank b.rank

/-- `std::max`. -/
def Severity.max (a b : Severity) : Severity := if a.rank < b.rank then b else a

structure Alert where
  verdict : Verdict := .Unknown
  severity : Severity := .Info
  source : String := ""
  reason : Bytes := []
  event_summary : Bytes := []
  pid : UInt32 := 0
  comm : Bytes := []
  deriving DecidableEq

structure Classification where
  verdict : Verdict := .Unknown
  severity : Severity := .Info
  confidence : Double := .finite false 0 1
  reason : Bytes := []
  model : Bytes := []
  input_tokens : UInt64 := 0
  output_tokens : UInt64 := 0
  deriving DecidableEq

/-- The interface: `classify` is the first tier, `deep_analyze` the second. -/
structure LlmClient where
  State : Type
  classify : Bytes → State → Classification × State
  deepAnalyze : Bytes → State → Classification × State

/-- Which layer decided. -/
inductive Layer where
  | Drop
  | Rule
  | RuleCorrelation
  | CorrelationSonnet
  | HaikuNormal
  | Sonnet
  | AgentDrop
  deriving DecidableEq, Repr

structure Outcome where
  layer : Layer := .Drop
  alerted : Bool := false
  alert : Alert := {}
  log_line : Bytes := []
  haiku_calls : ℕ := 0
  sonnet_calls : ℕ := 0
  input_tokens : UInt64 := 0
  output_tokens : UInt64 := 0
  deriving DecidableEq

/-! ## 2. `classify_event` -/

def makeAlert (ev : SecurityEvent) (summary : Bytes) (v : Verdict) (s : Severity)
    (source : String) (reason : Bytes) : Alert where
  verdict := v
  severity := s
  source := source
  reason := reason
  event_summary := summary
  pid := ev.pid
  comm := ev.commPtr

/-- Count a call and its tokens. -/
def account (o : Outcome) (c : Classification) (sonnet : Bool) : Outcome :=
  { o with
    haiku_calls := if sonnet then o.haiku_calls else o.haiku_calls + 1
    sonnet_calls := if sonnet then o.sonnet_calls + 1 else o.sonnet_calls
    input_tokens := o.input_tokens + c.input_tokens
    output_tokens := o.output_tokens + c.output_tokens }

/-- What one call leaves.  `evidence` (the locals `pr` and `ch`, where they are computed) and
`asked` (the texts handed to the model) are kept for the statements about it. -/
structure Classified (L : LlmClient) where
  outcome : Outcome
  llm : L.State
  corr : Correlator
  evidence : Option (PrefilterResult × CorrelationHit)
  asked : List Bytes

/-- The verdict of an alert that rests on a correlation: the model may explain, not acquit. -/
def anchoredVerdict (v : Verdict) : Verdict :=
  if v = .Normal ∨ v = .Unknown then .Suspicious else v

def dropNoticeReason (ev : SecurityEvent) : Bytes :=
  snprintf 240 [lit "agent 백프레셔 드롭: 이 구간에서 ", decimal ev.dropDropped.toNat,
    lit "개 이벤트 유실 (누적 ", decimal ev.dropDroppedTotal.toNat, lit ", 전송 ",
    decimal ev.dropSentTotal.toNat, lit ") — 탐지 공백 가능"]

def correlationContext (summary : Bytes) (ch : CorrelationHit) : Bytes :=
  summary ++ lit " | correlation: " ++ ch.reason

section

variable (L : LlmClient) (ev : SecurityEvent) (summary : Bytes) (pr : PrefilterResult)
  (ch : CorrelationHit) (llm : L.State) (corr : Correlator)

/-- The branch of a correlation hit. -/
def judgeHit : Classified L :=
  if pr.decision = .Alert then
    { outcome :=
        { layer := .RuleCorrelation
          alerted := true
          alert := makeAlert ev summary .Malicious (pr.severity.max ch.severity)
            ("rule+" ++ ch.rule) (pr.reason ++ lit "; " ++ ch.reason) }
      llm := llm
      corr := corr
      evidence := some (pr, ch)
      asked := [] }
  else
    let context := correlationContext summary ch
    let (s, llm) := L.deepAnalyze context llm
    { outcome :=
        { account {} s true with
          layer := .CorrelationSonnet
          alerted := true
          alert := makeAlert ev summary (anchoredVerdict s.verdict) (s.severity.max ch.severity)
            (ch.rule ++ "+sonnet") (ch.reason ++ lit " / " ++ s.reason) }
      llm := llm
      corr := corr
      evidence := some (pr, ch)
      asked := [context] }

/-- Neither the rules nor the correlator have decided: the first tier, then the second. -/
def judgeEscalated : Classified L :=
  let (h, llm) := L.classify summary llm
  let o := account {} h false
  if h.verdict = .Normal then
    let conf := snprintf 32 [h.confidence.fixed 2]
    { outcome :=
        { o with
          layer := .HaikuNormal
          log_line := lit "  [llm:" ++ h.model ++ lit " normal] " ++ summary ++ lit "  (" ++ h.reason
            ++ lit ", conf=" ++ conf ++ lit ")" }
      llm := llm
      corr := corr
      evidence := some (pr, ch)
      asked := [summary] }
  else
    let (s, llm) := L.deepAnalyze summary llm
    { outcome :=
        { account o s true with
          layer := .Sonnet
          alerted := true
          alert := makeAlert ev summary s.verdict s.severity "sonnet" s.reason }
      llm := llm
      corr := corr
      evidence := some (pr, ch)
      asked := [summary, summary] }

/-- `classify_event` once the rules and the correlator have looked. -/
def judge : Classified L :=
  if ch.hit then judgeHit L ev summary pr ch llm corr
  else
    match pr.decision with
    | .Drop =>
      { outcome :=
          { layer := .Drop
            log_line := lit "  [drop]  " ++ summary ++ lit "  (" ++ pr.reason ++ lit ")" }
        llm := llm
        corr := corr
        evidence := some (pr, ch)
        asked := [] }
    | .Alert =>
      { outcome :=
          { layer := .Rule
            alerted := true
            alert := makeAlert ev summary .Malicious pr.severity "rule" pr.reason }
        llm := llm
        corr := corr
        evidence := some (pr, ch)
        asked := [] }
    | .Escalate => judgeEscalated L ev summary pr ch llm corr

end

def classifyEvent (L : LlmClient) (ev : SecurityEvent) (llm : L.State) (corr : Correlator) :
    Option (Classified L) :=
  let summary := eventSummary ev
  if ev.type = PQSEC_EVT_AGENT_DROP then
    some
      { outcome :=
          { layer := .AgentDrop
            alerted := true
            alert := makeAlert ev summary .Unknown .Medium "agent" (dropNoticeReason ev) }
        llm := llm
        corr := corr
        evidence := none
        asked := [] }
  else
    let pr := prefilter ev
    match corr.observe ev with
    | none => none
    | some (ch, corr) => some (judge L ev summary pr ch llm corr)

/-- A client and a correlator over a whole stream of events. -/
def classifyAll (L : LlmClient) :
    List SecurityEvent → L.State → Correlator → Option (List (Classified L))
  | [], _, _ => some []
  | ev :: evs, llm, corr =>
    match classifyEvent L ev llm corr with
    | none => none
    | some c =>
      match classifyAll L evs c.llm c.corr with
      | none => none
      | some cs => some (c :: cs)

end PqcEdr.Analyzer
