/-
# The evaluation's replay

`run_file` of `analyzer/src/eval.cpp`: a replay file through the pipeline, on a virtual clock that a
`delay` line moves by what it says and an event by one millisecond.

* `stamped`: the records that are classified, as the clock stamps them.
* `hits_runEntries`: what the correlator says during the replay is what it says of these records.
-/
import PqcEdr.Analyzer.Override
import PqcEdr.Analyzer.Retiming
import PqcEdr.EventsFile.Format

namespace PqcEdr.Analyzer

open EventsFile Crypto

/-! ## 1. `run_file` -/

/-- The default argument `60ull * 1000000000ull`. -/
def defaultWindow : UInt64 := 60000000000

/-- `Correlator corr;`, with the default arguments. -/
def Correlator.fresh : Correlator := Correlator.init defaultWindow 3

/-- What the two callbacks are called with; the latency is not modelled. -/
inductive Call (L : LlmClient) where
  | onDirective (directive : Bytes)
  | onEvent (e : Entry) (o : Classified L)

/-- `static_cast<uint64_t>(delay_ms) * 1'000'000ull`. -/
def delayNs (delay_ms : ℕ) : UInt64 := 1000000 * UInt64.ofNat delay_ms

section

variable (L : LlmClient)

/-- The callback of `run_file`, entry after entry. -/
def runEntries : List Entry → UInt64 → L.State → Correlator → Option (List (Call L))
  | [], _, _, _ => some []
  | .directive d _ :: es, vclock, llm, corr =>
    (runEntries es vclock llm corr).map (.onDirective d :: ·)
  | .delay delay_ms _ _ :: es, vclock, llm, corr =>
    runEntries es (vclock + delayNs delay_ms) llm corr
  | .event e expect line :: es, vclock, llm, corr =>
    let vclock := vclock + 1000000
    match classifyEvent L { e with ts_ns := vclock } llm corr with
    | none => none
    | some o => (runEntries es vclock o.llm o.corr).map (.onEvent (.event e expect line) o :: ·)

/-- What the file's text makes it do, and the exception it ends with. -/
def runFile (text : Bytes) (path : String) (llm : L.State) :
    Option (List (Call L)) × Option Exn :=
  (runEntries L (parse text path).1 1000000000 llm Correlator.fresh, (parse text path).2)

end

/-! ## 2. The records it classifies -/

/-- The events of the file, with the virtual clock's times. -/
def stamped : UInt64 → List Entry → List SecurityEvent
  | _, [] => []
  | vclock, .directive _ _ :: es => stamped vclock es
  | vclock, .delay delay_ms _ _ :: es => stamped (vclock + delayNs delay_ms) es
  | vclock, .event e _ _ :: es =>
    { e with ts_ns := vclock + 1000000 } :: stamped (vclock + 1000000) es

variable {L : LlmClient}

/-- The correlator's answer, as `classify_event` saw it. -/
def Classified.hit (o : Classified L) : CorrelationHit := (o.evidence.map Prod.snd).getD {}

def Call.hit? : Call L → Option CorrelationHit
  | .onDirective _ => none
  | .onEvent _ o => some o.hit

/-- `classify_event` consults the correlator once. -/
theorem classifyEvent_hit (ev : SecurityEvent) (llm : L.State) (corr : Correlator) :
    (classifyEvent L ev llm corr).map (fun o => (o.hit, o.corr)) = corr.observe ev := by
  unfold classifyEvent
  by_cases hdrop : ev.type = PQSEC_EVT_AGENT_DROP
  · have hobs : corr.observe ev = some ({}, corr) := by
      rw [Correlator.observe, hdrop, if_neg (by decide), if_neg (by decide), if_neg (by decide)]
    simp [hdrop, hobs, Classified.hit]
  · simp only [if_neg hdrop]
    cases corr.observe ev with
    | none => rfl
    | some x =>
      simp [Classified.hit, judge_trace]

/-- The hits of a replay are those of a correlator that is shown the stamped records. -/
theorem hits_runEntries (es : List Entry) (vclock : UInt64) (llm : L.State) (corr : Correlator) :
    (runEntries L es vclock llm corr).map (List.filterMap Call.hit?) =
      corr.hitsOf (stamped vclock es) := by
  induction es generalizing vclock llm corr with
  | nil => rfl
  | cons entry es ih =>
    cases entry with
    | directive d line =>
      rw [runEntries, stamped, ← ih vclock llm corr, Option.map_map]
      congr 1
    | delay ms expect line =>
      rw [runEntries, stamped]
      exact ih _ llm corr
    | event e expect line =>
      have hclass := classifyEvent_hit { e with ts_ns := vclock + 1000000 } llm corr
      rw [runEntries, stamped, Correlator.hitsOf, ← hclass]
      cases classifyEvent L { e with ts_ns := vclock + 1000000 } llm corr with
      | none => rfl
      | some o =>
        simp only [Option.map_some]
        rw [← ih (vclock + 1000000) o.llm o.corr, Option.map_map, Option.map_map]
        congr 1

end PqcEdr.Analyzer
