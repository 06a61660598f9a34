/-
# The evaluation

`main` of `analyzer/src/eval.cpp`, past its options: the benign files and then the attack files are
replayed, each with a correlator of its own, all with one client; every outcome is counted; and the
gate asks each attack file that is not marked as a known miss for an alert that is High at least.
What is printed is not modelled; the document that `--json` asks for is, as far as writing it can
throw: `dump` is called with its strict handler and nothing catches, so a text of a file that is not
UTF-8 ends the program.

* `gate_iff`: when the gate fails, in terms of the directives and the alerts of a file.
* `gate_passes_of_evidence`: what the rules and the correlator find is enough for it, whatever the
  client answers.
-/
import PqcEdr.Analyzer.Claude
import PqcEdr.Analyzer.Replay
import PqcEdr.Lib.Tally

namespace PqcEdr.Analyzer

open EventsFile Crypto
open Tally (bump)

/-! ## 1. Counting -/

def Layer.toText : Layer → String
  | .Drop => "drop"
  | .Rule => "rule"
  | .RuleCorrelation => "rule+correlation"
  | .CorrelationSonnet => "correlation+sonnet"
  | .HaikuNormal => "haiku-normal"
  | .Sonnet => "sonnet"
  | .AgentDrop => "agent-drop"

/-- `std::map<std::string, uint64_t>`. -/
abbrev Counts := AssocMap Bytes UInt64

/-- The latencies are not modelled. -/
structure Stats where
  events : UInt64 := 0
  alerts : UInt64 := 0
  by_layer : Counts := ∅
  by_source : Counts := ∅
  fp_summary : Counts := ∅
  haiku_calls : UInt64 := 0
  sonnet_calls : UInt64 := 0

def tally (st : Stats) (o : Outcome) (benign : Bool) : Stats :=
  let st :=
    { st with
      events := st.events + 1
      by_layer := bump st.by_layer (lit o.layer.toText)
      haiku_calls := st.haiku_calls + UInt64.ofNat o.haiku_calls
      sonnet_calls := st.sonnet_calls + UInt64.ofNat o.sonnet_calls }
  if o.alerted then
    { st with
      alerts := st.alerts + 1
      by_source := bump st.by_source (lit o.alert.source)
      fp_summary := if benign then bump st.fp_summary o.alert.event_summary else st.fp_summary }
  else st

structure Scenario where
  name : Bytes := []
  /-- Empty: the gate asks for it. -/
  known_miss : Bytes := []
  expect_max_sev : Bytes := []
  events : UInt64 := 0
  expect_alert : UInt64 := 0
  hit_alert : UInt64 := 0
  expect_drop : UInt64 := 0
  fp : UInt64 := 0
  max_sev : Severity := .Info
  any_alert : Bool := false
  layers : Counts := ∅

/-- `parse_sev`: the same chain as `parse_severity`. -/
def parseSev (s : Bytes) : Severity := parseSeverity s

/-- `basename_noext`: the name behind the last slash, up to its last `.events`. -/
def basenameNoext (p : Bytes) : Bytes :=
  let b := basenameOf p
  match (List.range (b.length + 1)).reverse.find? fun k => (lit ".events").isPrefixOf (b.drop k) with
  | some d => b.take d
  | none => b

/-- What stands behind the first colon. -/
def afterColon (d : Bytes) : Bytes := (d.dropWhile (· ≠ 58)).drop 1

/-- The second callback.  Without a colon `find` gives `npos`: a known miss then has no reason, but
an expected severity is read from the whole directive, as `npos + 1` is 0. -/
def Scenario.onDirective (sc : Scenario) (d : Bytes) : Scenario :=
  if (lit "known-miss").isPrefixOf d then { sc with known_miss := trim (afterColon d) }
  else if (lit "expect-max-severity").isPrefixOf d then
    { sc with expect_max_sev := trim (if 58 ∈ d then afterColon d else d) }
  else sc

/-- The first callback, behind `tally`. -/
def Scenario.onEvent (sc : Scenario) (expect : Bytes) (o : Outcome) : Scenario :=
  let sc := { sc with events := sc.events + 1, layers := bump sc.layers (lit o.layer.toText) }
  let sc :=
    if expect = lit "alert" then
      { sc with
        expect_alert := sc.expect_alert + 1
        hit_alert := if o.alerted then sc.hit_alert + 1 else sc.hit_alert }
    else if expect = lit "drop" then
      { sc with
        expect_drop := sc.expect_drop + 1
        fp := if o.alerted then sc.fp + 1 else sc.fp }
    else sc
  if o.alerted then { sc with any_alert := true, max_sev := sc.max_sev.max o.alert.severity } else sc

/-! ## 2. The files -/

/-- What `stat` says of a path; the names are as `readdir` gives them, none if it cannot be read. -/
inductive PathKind where
  | missing
  | directory (names : List String)
  | other

structure Disk where
  stat : String → PathKind
  /-- The text, if the file can be opened. -/
  read : String → Option Bytes

/-- How a part of the program ends. -/
inductive Run (α : Type) where
  /-- The correlator has no defined answer. -/
  | undefined
  | exit (status : ℕ)
  /-- An exception that nothing catches. -/
  | terminated (e : Exn)
  | done (a : α)

def Run.bind {α β : Type} (x : Run α) (f : α → Run β) : Run β :=
  match x with
  | .undefined => .undefined
  | .exit status => .exit status
  | .terminated e => .terminated e
  | .done a => f a

instance instMonadRun : Monad Run where
  pure := .done
  bind := Run.bind

def isEventsFile (n : String) : Bool :=
  (lit n).length > 7 && (lit n).drop ((lit n).length - 7) = lit ".events"

def expandOne (disk : Disk) (p : String) : Run (List String) :=
  match disk.stat p with
  | .missing => .exit 2
  | .directory names =>
    .done (((names.filter isEventsFile).map fun n => p ++ "/" ++ n).mergeSort
      fun a b => decide (lit a ≤ lit b))
  | .other => .done [p]

def expand (disk : Disk) : List String → Run (List String)
  | [] => .done []
  | p :: paths => do
    let files ← expandOne disk p
    let rest ← expand disk paths
    return files ++ rest

/-- A file, and what `run_file` calls the callbacks with. -/
abbrev Replay (L : LlmClient) := String × List (Call L)

section

variable (L : LlmClient)

/-- The client's state after these calls. -/
def llmAfter {L : LlmClient} (llm : L.State) (calls : List (Call L)) : L.State :=
  calls.foldl (fun llm call =>
    match call with
    | .onDirective _ => llm
    | .onEvent _ o => o.llm) llm

/-- One file after the other. -/
def replayAll (disk : Disk) : List String → L.State → Run (List (Replay L) × L.State)
  | [], llm => .done ([], llm)
  | path :: paths, llm =>
    match disk.read path with
    | none => .exit 2
    | some text =>
      match runFile L text path llm with
      | (none, _) => .undefined
      | (some _, some e) => .terminated e
      | (some calls, none) => do
        let (replays, llm) ← replayAll disk paths (llmAfter llm calls)
        return ((path, calls) :: replays, llm)

end

/-! ## 3. `main` -/

structure EvalOptions where
  benign : List String
  attack : List String
  gate : Bool := false
  /-- `!json_out.empty()`. -/
  json : Bool := false

/-- The replays, and the client's state between and behind them. -/
structure Report (L : LlmClient) where
  benign : List (Replay L)
  before_attack : L.State
  attack : List (Replay L)
  llm : L.State

section

variable {L : LlmClient}

/-- `main`, up to what it writes. -/
def evaluate (L : LlmClient) (disk : Disk) (o : EvalOptions) (llm : L.State) : Run (Report L) := do
  let bfiles ← expand disk o.benign
  let (benign, before_attack) ← replayAll L disk bfiles llm
  let afiles ← expand disk o.attack
  let (attack, llm) ← replayAll L disk afiles before_attack
  return { benign := benign, before_attack := before_attack, attack := attack, llm := llm }

/-- `tally` in the callback. -/
def tallyCall (benign : Bool) (st : Stats) : Call L → Stats
  | .onDirective _ => st
  | .onEvent _ o => tally st o.outcome benign

def statsOf (benign : Bool) (replays : List (Replay L)) : Stats :=
  (replays.flatMap Prod.snd).foldl (tallyCall benign) {}

/-- The `expect` of an entry. -/
def expectOf : Entry → Bytes
  | .event _ expect _ => expect
  | .delay _ expect _ => expect
  | .directive _ _ => []

def Scenario.call (sc : Scenario) : Call L → Scenario
  | .onDirective d => sc.onDirective d
  | .onEvent e o => sc.onEvent (expectOf e) o.outcome

def scenarioOf (replay : Replay L) : Scenario :=
  replay.2.foldl Scenario.call { name := basenameNoext (lit replay.1) }

/-- `bs`. -/
def Report.benignStats (r : Report L) : Stats := statsOf true r.benign

/-- `as`. -/
def Report.attackStats (r : Report L) : Stats := statsOf false r.attack

def Report.scen (r : Report L) : List Scenario := r.attack.map scenarioOf

/-- `det`. -/
def Scenario.det (sc : Scenario) : Bool := decide (Severity.High ≤ sc.max_sev)

/-- `sev_ok`. -/
def Scenario.sevOk (sc : Scenario) : Bool :=
  sc.expect_max_sev = [] || decide (parseSev sc.expect_max_sev ≤ sc.max_sev)

def Report.detected (r : Report L) : ℕ := r.scen.countP Scenario.det

def Report.gated (r : Report L) : ℕ := r.scen.countP (·.known_miss = [])

def Report.gatedOk (r : Report L) : ℕ := r.scen.countP fun sc => sc.known_miss = [] && sc.det

def Report.gateFail (r : Report L) : Bool := r.scen.any fun sc => sc.known_miss = [] && !sc.det

/-- What `main` returns. -/
def Report.status (r : Report L) (o : EvalOptions) : ℕ := if o.gate && r.gateFail then 1 else 0

/-- `top`: from the most frequent on. -/
def Stats.top (st : Stats) : List (UInt64 × Bytes) :=
  (st.fp_summary.entries.map fun e => (e.2, e.1)).mergeSort
    fun a b => decide (b.1 < a.1 ∨ b.1 = a.1 ∧ b.2 ≤ a.2)

/-- The strings of the document that are not literals of the program, in the order of its keys. -/
def Report.jsonTexts (r : Report L) : List Bytes :=
  (r.scen.flatMap fun sc => [sc.expect_max_sev, sc.known_miss, sc.name]) ++
    r.benignStats.top.map Prod.snd

/-- What `J.dump(2)` may throw at: its strings, one after the other. -/
def dumpTexts : List Bytes → Throws Unit
  | [] => .ok ()
  | s :: texts => do
    let _ ← dumpEscaped .strict s
    dumpTexts texts

/-- The end of `main`: the document, and the exit status. -/
def Report.finish (r : Report L) (o : EvalOptions) : Throws ℕ := do
  dumpTexts (if o.json then r.jsonTexts else [])
  return r.status o

end

/-! ## 4. The parts of a run -/

theorem Run.bind_eq_done {α β : Type} {x : Run α} {f : α → Run β} {b : β} :
    (x >>= f) = .done b ↔ ∃ a, x = .done a ∧ f a = .done b := by
  change Run.bind x f = .done b ↔ _
  cases x <;> simp [Run.bind]

theorem dumpTexts_eq_ok_iff {texts : List Bytes} :
    dumpTexts texts = .ok () ↔ ∀ s ∈ texts, ∃ out, dumpEscaped .strict s = .ok out := by
  induction texts with
  | nil => simp [dumpTexts]
  | cons s texts ih =>
    rw [dumpTexts, throws_bind_eq_ok, List.forall_mem_cons, ih, exists_and_right]

/-- The program returns its status unless a text that `--json` has to write is refused. -/
theorem finish_eq_ok_iff {L : LlmClient} {r : Report L} {o : EvalOptions} {status : ℕ} :
    r.finish o = .ok status ↔ (o.json = true → ∀ s ∈ r.jsonTexts, ∃ out,
      dumpEscaped .strict s = .ok out) ∧ r.status o = status := by
  have hunit : ∀ texts, (∃ u, dumpTexts texts = .ok u) ↔ dumpTexts texts = .ok () :=
    fun _ => Unique.exists_iff
  unfold Report.finish
  rw [throws_bind_eq_ok, exists_and_right, hunit, dumpTexts_eq_ok_iff]
  by_cases hjson : o.json = true
  · simp [hjson, pure, Except.pure]
  · simp [hjson, pure, Except.pure]

/-- What a file makes `run_file` do. -/
def ReplayOf (L : LlmClient) (disk : Disk) (replay : Replay L) : Prop :=
  ∃ text llm, disk.read replay.1 = some text ∧ runFile L text replay.1 llm = (some replay.2, none)

section

variable {L : LlmClient} {disk : Disk} {o : EvalOptions} {r : Report L}

theorem replays_of_replayAll {paths : List String} {llm : L.State}
    {x : List (Replay L) × L.State} (h : replayAll L disk paths llm = .done x) :
    x.1.map Prod.fst = paths ∧ ∀ replay ∈ x.1, ReplayOf L disk replay := by
  induction paths generalizing llm x with
  | nil =>
    cases h
    exact ⟨rfl, by simp⟩
  | cons path paths ih =>
    unfold replayAll at h
    split at h
    · cases h
    · next text htext =>
      split at h
      · cases h
      · cases h
      · next calls hrun =>
        obtain ⟨⟨replays, llm'⟩, hrest, hx⟩ := Run.bind_eq_done.mp h
        cases hx
        obtain ⟨hpaths, hreplays⟩ := ih hrest
        refine ⟨congrArg (path :: ·) hpaths, fun replay hreplay => ?_⟩
        rcases List.mem_cons.mp hreplay with rfl | hreplay
        · exact ⟨text, llm, htext, hrun⟩
        · exact hreplays replay hreplay

theorem attack_of_evaluate {llm : L.State} (h : evaluate L disk o llm = .done r) :
    expand disk o.attack = .done (r.attack.map Prod.fst) ∧
      ∀ replay ∈ r.attack, ReplayOf L disk replay := by
  unfold evaluate at h
  obtain ⟨bfiles, -, h⟩ := Run.bind_eq_done.mp h
  obtain ⟨⟨benign, before⟩, -, h⟩ := Run.bind_eq_done.mp h
  obtain ⟨afiles, hafiles, h⟩ := Run.bind_eq_done.mp h
  obtain ⟨⟨attack, llm'⟩, hattack, h⟩ := Run.bind_eq_done.mp h
  cases h
  obtain ⟨hpaths, hreplays⟩ := replays_of_replayAll hattack
  exact ⟨hpaths ▸ hafiles, hreplays⟩

end

/-! ## 5. A scenario -/

section

variable {L : LlmClient}

/-- The reason of a known miss. -/
def reasonOf (d : Bytes) : Option Bytes :=
  if (lit "known-miss").isPrefixOf d then some (trim (afterColon d)) else none

/-- The last one counts. -/
def knownMiss (ds : List Bytes) : Bytes := (ds.filterMap reasonOf).getLast?.getD []

def Call.directive? : Call L → Option Bytes
  | .onDirective d => some d
  | .onEvent _ _ => none

theorem known_miss_call (sc : Scenario) (call : Call L) : (sc.call call).known_miss =
    ((call.directive?.bind reasonOf).getD sc.known_miss) := by
  cases call with
  | onDirective d =>
    simp only [Scenario.call, Scenario.onDirective, Call.directive?, Option.bind_some, reasonOf]
    split
    · rfl
    · split <;> rfl
  | onEvent e o =>
    simp only [Scenario.call, Scenario.onEvent, Call.directive?]
    split <;> split <;> try rfl
    all_goals split <;> rfl

theorem known_miss_foldl (calls : List (Call L)) (sc : Scenario) :
    (calls.foldl Scenario.call sc).known_miss =
      ((calls.filterMap Call.directive?).filterMap reasonOf).getLast?.getD sc.known_miss := by
  induction calls using List.reverseRecOn with
  | nil => rfl
  | append_singleton calls call ih =>
    rw [List.foldl_append, List.foldl_cons, List.foldl_nil, known_miss_call, ih,
      List.filterMap_append, List.filterMap_append, List.getLast?_append]
    cases hd : call.directive? with
    | none => simp [hd]
    | some d => cases hr : reasonOf d <;> simp [hd, hr]

/-- Where a call raises the severity to `s` at least. -/
def Call.Reaches (s : Severity) : Call L → Prop
  | .onDirective _ => False
  | .onEvent _ o => o.outcome.alerted = true ∧ s ≤ o.outcome.alert.severity

theorem Severity.le_max_iff (s a b : Severity) : s ≤ a.max b ↔ s ≤ a ∨ s ≤ b := by
  cases s <;> cases a <;> cases b <;> decide

theorem max_sev_call (s : Severity) (sc : Scenario) (call : Call L) :
    s ≤ (sc.call call).max_sev ↔ s ≤ sc.max_sev ∨ call.Reaches s := by
  cases call with
  | onDirective d =>
    have hkeep : (sc.onDirective d).max_sev = sc.max_sev := by
      unfold Scenario.onDirective
      split
      · rfl
      · split <;> rfl
    rw [Scenario.call, hkeep]
    simp [Call.Reaches]
  | onEvent e o =>
    have hsev : (sc.onEvent (expectOf e) o.outcome).max_sev =
        if o.outcome.alerted then sc.max_sev.max o.outcome.alert.severity else sc.max_sev := by
      simp only [Scenario.onEvent]
      split <;> split <;> try rfl
      all_goals split <;> rfl
    rw [Scenario.call, hsev]
    by_cases halert : o.outcome.alerted = true
    · rw [if_pos halert, Severity.le_max_iff]
      simp [Call.Reaches, halert]
    · rw [if_neg halert]
      simp [Call.Reaches, halert]

theorem max_sev_foldl (s : Severity) (calls : List (Call L)) (sc : Scenario) :
    s ≤ (calls.foldl Scenario.call sc).max_sev ↔
      s ≤ sc.max_sev ∨ ∃ call ∈ calls, call.Reaches s := by
  induction calls generalizing sc with
  | nil => simp
  | cons call calls ih =>
    rw [List.foldl_cons, ih, max_sev_call, or_assoc]
    simp

/-- A file is detected when one of its alerts is High at least. -/
theorem det_scenarioOf (replay : Replay L) :
    (scenarioOf replay).det = true ↔ ∃ call ∈ replay.2, call.Reaches .High := by
  have hinfo : ¬ Severity.High ≤ Severity.Info := by decide
  rw [Scenario.det, decide_eq_true_eq, scenarioOf, max_sev_foldl]
  simp [hinfo]

theorem known_miss_scenarioOf (replay : Replay L) :
    (scenarioOf replay).known_miss = knownMiss (replay.2.filterMap Call.directive?) :=
  known_miss_foldl replay.2 _

end

/-! ## 6. The gate -/

/-- The directives of a file. -/
def Entry.directive? : Entry → Option Bytes
  | .directive d _ => some d
  | .event _ _ _ => none
  | .delay _ _ _ => none

/-- The file gives a reason why it is missed. -/
def KnownMiss (text : Bytes) (path : String) : Prop :=
  knownMiss ((parse text path).1.filterMap Entry.directive?) ≠ []

/-- The rules or the correlator have found something that is High at least. -/
def Conclusive (ev : SecurityEvent) (hit : CorrelationHit) : Prop :=
  (prefilter ev).decision = .Alert ∧ Severity.High ≤ (prefilter ev).severity ∨
    hit.hit = true ∧ Severity.High ≤ hit.severity

instance instDecidableConclusive (ev : SecurityEvent) (hit : CorrelationHit) :
    Decidable (Conclusive ev hit) :=
  inferInstanceAs (Decidable (_ ∧ _ ∨ _ ∧ _))

/-- Such a find among the file's events. -/
def HasEvidence (text : Bytes) (path : String) : Prop :=
  ∃ hits, Correlator.fresh.hitsOf (stamped 1000000000 (parse text path).1) = some hits ∧
    ∃ x ∈ (stamped 1000000000 (parse text path).1).zip hits, Conclusive x.1 x.2

section

variable {L : LlmClient} {disk : Disk} {o : EvalOptions} {r : Report L}

theorem directives_runEntries {es : List Entry} {vclock : UInt64} {llm : L.State}
    {corr : Correlator} {calls : List (Call L)}
    (h : runEntries L es vclock llm corr = some calls) :
    calls.filterMap Call.directive? = es.filterMap Entry.directive? := by
  induction es generalizing vclock llm corr calls with
  | nil =>
    cases h
    rfl
  | cons entry es ih =>
    cases entry with
    | directive d line =>
      obtain ⟨calls, hrest, rfl⟩ := Option.map_eq_some_iff.mp h
      exact congrArg (d :: ·) (ih hrest)
    | delay ms expect line => exact ih h
    | event e expect line =>
      unfold runEntries at h
      dsimp only at h
      split at h
      · cases h
      · next o ho =>
        obtain ⟨calls, hrest, rfl⟩ := Option.map_eq_some_iff.mp h
        rw [List.filterMap_cons_none rfl, List.filterMap_cons_none rfl]
        exact ih hrest

/-- Whatever the client answers, a conclusive event is alerted with its severity. -/
theorem reaches_of_conclusive {ev : SecurityEvent} {llm : L.State} {corr : Correlator}
    {o : Classified L} (h : classifyEvent L ev llm corr = some o) (hc : Conclusive ev o.hit) :
    o.outcome.alerted = true ∧ Severity.High ≤ o.outcome.alert.severity := by
  rcases classifyEvent_eq_some h with ⟨htype, -, hnone, -⟩ | ⟨-, ch, corr', -, rfl⟩
  · have hhit : o.hit = {} := by rw [Classified.hit, hnone]; rfl
    rw [hhit] at hc
    rcases hc with ⟨hrule, -⟩ | ⟨hhit, -⟩
    · unfold prefilter at hrule
      rw [htype, if_neg (by decide), if_neg (by decide), if_neg (by decide)] at hrule
      cases hrule
    · cases hhit
  · have hup : Upholds (prefilter ev) ch
        (judge L ev (eventSummary ev) (prefilter ev) ch llm corr').outcome := judge_upholds
    rw [Classified.hit, judge_trace.1] at hc
    rcases hc with ⟨hrule, hsev⟩ | ⟨hhit, hsev⟩
    · exact ⟨(hup.alerts (Or.inl hrule)).1, Nat.le_trans hsev (hup.rule_le hrule)⟩
    · exact ⟨(hup.alerts (Or.inr hhit)).1, Nat.le_trans hsev (hup.hit_le hhit)⟩

theorem reaches_runEntries {es : List Entry} {vclock : UInt64} {llm : L.State}
    {corr : Correlator} {calls : List (Call L)} {hits : List CorrelationHit}
    (h : runEntries L es vclock llm corr = some calls)
    (hhits : corr.hitsOf (stamped vclock es) = some hits)
    (hx : ∃ x ∈ (stamped vclock es).zip hits, Conclusive x.1 x.2) :
    ∃ call ∈ calls, call.Reaches .High := by
  induction es generalizing vclock llm corr calls hits with
  | nil =>
    obtain ⟨x, hmem, -⟩ := hx
    cases hmem
  | cons entry es ih =>
    cases entry with
    | directive d line =>
      obtain ⟨calls, hrest, rfl⟩ := Option.map_eq_some_iff.mp h
      obtain ⟨call, hcall, hreaches⟩ := ih hrest hhits hx
      exact ⟨call, List.mem_cons_of_mem _ hcall, hreaches⟩
    | delay ms expect line => exact ih h hhits hx
    | event e expect line =>
      have hclass := classifyEvent_hit (L := L) { e with ts_ns := vclock + 1000000 } llm corr
      unfold runEntries at h
      dsimp only at h
      split at h
      · cases h
      · next o ho =>
        obtain ⟨calls, hrest, rfl⟩ := Option.map_eq_some_iff.mp h
        rw [ho, Option.map_some] at hclass
        rw [stamped] at hhits hx
        unfold Correlator.hitsOf at hhits
        rw [← hclass] at hhits
        obtain ⟨hits, hmore, rfl⟩ := Option.map_eq_some_iff.mp hhits
        obtain ⟨x, hmem, hc⟩ := hx
        rw [List.zip_cons_cons] at hmem
        rcases List.mem_cons.mp hmem with rfl | hmem
        · exact ⟨_, List.mem_cons_self, reaches_of_conclusive ho hc⟩
        · obtain ⟨call, hcall, hreaches⟩ := ih hrest hmore ⟨x, hmem, hc⟩
          exact ⟨call, List.mem_cons_of_mem _ hcall, hreaches⟩

/-- What the gate looks at, in terms of the file. -/
theorem ReplayOf.scenario {replay : Replay L} (h : ReplayOf L disk replay) :
    ∃ text, disk.read replay.1 = some text ∧
      ((scenarioOf replay).known_miss ≠ [] ↔ KnownMiss text replay.1) ∧
      (HasEvidence text replay.1 → (scenarioOf replay).det = true) := by
  obtain ⟨text, llm, htext, hrun⟩ := h
  have hentries : runEntries L (parse text replay.1).1 1000000000 llm Correlator.fresh =
      some replay.2 := congrArg Prod.fst hrun
  refine ⟨text, htext, ?_, ?_⟩
  · rw [known_miss_scenarioOf, directives_runEntries hentries]
    rfl
  · rintro ⟨hits, hhits, hx⟩
    exact (det_scenarioOf replay).mpr (reaches_runEntries hentries hhits hx)

theorem status_eq_one_iff : r.status o = 1 ↔
    o.gate = true ∧ ∃ replay ∈ r.attack,
      (scenarioOf replay).known_miss = [] ∧ (scenarioOf replay).det = false := by
  unfold Report.status Report.gateFail Report.scen
  simp

/-- The gate fails by a file with no reason whose alerts all stay below High; a file in which the
rules or the correlator find something that is High passes, whatever the client answers. -/
theorem gate_iff {llm : L.State} (h : evaluate L disk o llm = .done r) :
    expand disk o.attack = .done (r.attack.map Prod.fst) ∧
      (r.status o = 1 ↔ o.gate = true ∧ ∃ replay ∈ r.attack, ∃ text,
        disk.read replay.1 = some text ∧ ¬ KnownMiss text replay.1 ∧
          ∀ call ∈ replay.2, ¬ call.Reaches .High) ∧
      ((∀ path ∈ r.attack.map Prod.fst, ∀ text, disk.read path = some text →
        KnownMiss text path ∨ HasEvidence text path) → r.status o = 0) := by
  obtain ⟨hfiles, hreplays⟩ := attack_of_evaluate h
  refine ⟨hfiles, ?_, fun hcovered => ?_⟩
  · rw [status_eq_one_iff]
    refine and_congr_right fun _ => exists_congr fun replay => and_congr_right fun hreplay => ?_
    obtain ⟨text, htext, hmiss, -⟩ := (hreplays replay hreplay).scenario
    have hdet : (scenarioOf replay).det = false ↔ ∀ call ∈ replay.2, ¬ call.Reaches .High := by
      rw [← Bool.not_eq_true, det_scenarioOf]
      simp only [not_exists, not_and]
    rw [← not_ne_iff, hmiss, hdet]
    refine ⟨fun hfail => ⟨text, htext, hfail⟩, fun hfail => ?_⟩
    obtain ⟨text', htext', hfail⟩ := hfail
    cases htext.symm.trans htext'
    exact hfail
  · by_contra hstatus
    have hone : r.status o = 1 := by
      unfold Report.status at hstatus ⊢
      split at hstatus
      · next hfail => exact if_pos hfail
      · exact absurd rfl hstatus
    obtain ⟨-, replay, hreplay, hnone, hdet⟩ := status_eq_one_iff.mp hone
    obtain ⟨text, htext, hmiss, hevidence⟩ := (hreplays replay hreplay).scenario
    rcases hcovered replay.1 (List.mem_map_of_mem hreplay) text htext with hknown | hfound
    · exact hmiss.mpr hknown hnone
    · exact Bool.false_ne_true (hdet.symm.trans (hevidence hfound))

end

/-- A file with a find of the rules, and one that is marked. -/
def gateDisk : Disk where
  stat _ := .other
  read path :=
    if path = "a.events" then some (lit "execve 7 6 sh /tmp/x\n")
    else if path = "b.events" then some (lit "#! known-miss: no rule\nexecve 7 6 sh /bin/ls\n")
    else none

def gateOptions : EvalOptions where
  benign := []
  attack := ["a.events", "b.events"]
  gate := true

theorem gate_iff_gateDisk : ∃ r, evaluate (constClient {}) gateDisk gateOptions () = .done r ∧
    r.status gateOptions = 0 := by
  have hends : (match evaluate (constClient {}) gateDisk gateOptions () with
    | .done _ => true
    | _ => false) = true := by decide +kernel
  split at hends
  · next r hr =>
    obtain ⟨hfiles, -, hpasses⟩ := gate_iff hr
    have hpaths : r.attack.map Prod.fst = ["a.events", "b.events"] := by
      have hexpand : expand gateDisk gateOptions.attack = .done ["a.events", "b.events"] := rfl
      rw [hexpand] at hfiles
      exact (Run.done.inj hfiles).symm
    refine ⟨r, hr, hpasses fun path hpath text htext => ?_⟩
    rw [hpaths] at hpath
    rcases List.mem_cons.mp hpath with rfl | hpath
    · cases htext
      have hfound : ((Correlator.fresh.hitsOf (stamped 1000000000 (parse
          (lit "execve 7 6 sh /tmp/x\n") "a.events").1)).map fun hits =>
          ((stamped 1000000000 (parse (lit "execve 7 6 sh /tmp/x\n") "a.events").1).zip hits).any
            fun x => decide (Conclusive x.1 x.2)) = some true := by decide +kernel
      obtain ⟨hits, hhits, hany⟩ := Option.map_eq_some_iff.mp hfound
      obtain ⟨x, hmem, hx⟩ := List.any_eq_true.mp hany
      exact Or.inr ⟨hits, hhits, x, hmem, of_decide_eq_true hx⟩
    · cases List.mem_singleton.mp hpath
      cases htext
      have hreason : knownMiss ((parse (lit "#! known-miss: no rule\nexecve 7 6 sh /bin/ls\n")
          "b.events").1.filterMap Entry.directive?) ≠ [] := by decide +kernel
      exact Or.inl hreason
  · cases hends

end PqcEdr.Analyzer
