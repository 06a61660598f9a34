/-
# The daemon

`analyzer/src/main.cpp`: connections are accepted one after another; each one is a handshake and
then the loop that receives, opens, classifies and prints.  The client, the correlator and the two
output streams belong to the daemon, not to a connection.

A connection may end in any way at any point: not accepted, the handshake cut or refused, a record
that does not open, bytes that stop in the middle.  What the daemon has done by then stays:

* `mainLoop_handled`: its state is that of `classify_event` on the events that were opened, the
  connections' events one behind the other.
* `daemon_log`: so the lines on its standard output are the alerts of that one stream.

An event whose classification has no defined result makes the run `none`.
-/
import PqcEdr.Analyzer.Alert
import PqcEdr.Analyzer.FieldBounds
import PqcEdr.Analyzer.Replay
import PqcEdr.Crypto.Conn

namespace PqcEdr.Analyzer

open Crypto

/-! ## 1. What the daemon keeps -/

/-- The client's state, the correlator, the two streams, and how many alerts have asked for the
time. -/
structure Analysis (L : LlmClient) where
  llm : L.State
  corr : Correlator
  printed : Printed := {}
  alerts : ℕ := 0

variable {L : LlmClient}

/-- `fprintf(stderr, ..)`. -/
def Analysis.say (d : Analysis L) (text : Bytes) : Analysis L :=
  { d with printed := { d.printed with err := d.printed.err ++ text } }

/-- The end of `process_event`: an alert goes to the log, anything else to the standard error.
`time` answers the calls of `std::time`. -/
def Analysis.record (time : ℕ → Int64) (d : Analysis L) (c : Classified L) : Analysis L :=
  if c.outcome.alerted then
    { llm := c.llm
      corr := c.corr
      printed :=
        { out := d.printed.out ++ (printedAlert (time d.alerts) c.outcome.alert).out
          err := d.printed.err ++ (printedAlert (time d.alerts) c.outcome.alert).err }
      alerts := d.alerts + 1 }
  else
    { d with llm := c.llm, corr := c.corr }.say (cString c.outcome.log_line ++ lit "\n")

def processEvent (time : ℕ → Int64) (ev : SecurityEvent) (d : Analysis L) : Option (Analysis L) :=
  match classifyEventReads ev L d.llm d.corr with
  | .ok (some c) => some (d.record time c)
  | .ok none => none
  | .error _ => none

/-! ## 2. `serve_connection` and `main` -/

/-- The handshake of a connection. -/
def handshakeOver (P : Primitives) (id : Identity) (c : Coins) : Method Exn Conn Channel :=
  (serverHandshake P id c).via makeSocketTransport

/-- `e.what()`. -/
def what : Exn → Bytes
  | .WireError text => lit text
  | .HandshakeError text => lit text
  | .RecordError text => lit text
  | .SocketError text => lit text
  | .runtime_error text => lit text

/-- The loop of `serve_connection`, after `n` events. -/
def serveRecords (A : Gcm) (time : ℕ → Int64) (sock : Socket) (r : RecordReceiver) (n : ℕ)
    (d : Analysis L) : Option (Result Unit × Analysis L) :=
  match _h : recvRecord.call sock with
  | (.error e, _) => some (.error e, d)
  | (.ok [], _) =>
    some (.ok (), d.say (lit "[analyzer] 연결 종료 (" ++ decimal n ++ lit "개 이벤트 처리).\n"))
  | (.ok (b :: bs), sock') =>
    match (RecordReceiver.open A (b :: bs)).call r with
    | (.error e, _) => some (.error e, d)
    | (.ok pt, r') =>
      if hlen : SecurityEvent.sizeOf ≤ pt.length then
        match processEvent time (Payload.event ⟨pt, hlen⟩) d with
        | none => none
        | some d' => serveRecords A time sock' r' (n + 1) d'
      else serveRecords A time sock' r' n (d.say (lit "[analyzer] 짧은 이벤트 무시\n"))
termination_by sock.bytes.length
decreasing_by all_goals exact recvRecord_lt _h

def greeting : Bytes :=
  lit "[analyzer] 핸드셰이크 완료 (agent 인증됨). 이벤트 수신·분류 시작.\n"

def serveConnection (P : Primitives) (A : Gcm) (id : Identity) (time : ℕ → Int64) (c : Coins)
    (conn : Conn) (d : Analysis L) : Option (Result Unit × Analysis L) :=
  match (handshakeOver P id c).call conn with
  | (.error e, _) => some (.error e, d)
  | (.ok ch, conn') => serveRecords A time conn'.incoming ch.receiver 0 (d.say greeting)

/-- What `tcp_accept` did: it threw, or gave a connection, for which the handshake draws coins. -/
inductive Accepted
  | failed (errno : String)
  | connection (c : Coins) (conn : Conn)

/-- The `catch` block of `main`. -/
def Analysis.caught (d : Analysis L) (e : Exn) : Analysis L :=
  d.say (lit "[analyzer] 연결 처리 오류: " ++ what e ++ lit "\n")

def serveAccepted (P : Primitives) (A : Gcm) (id : Identity) (time : ℕ → Int64) (a : Accepted)
    (d : Analysis L) : Option (Analysis L) :=
  match a with
  | .failed errno => some (d.caught (socketError "accept" errno))
  | .connection c conn =>
    match serveConnection P A id time c conn d with
    | none => none
    | some (.ok (), d') => some d'
    | some (.error e, d') => some (d'.caught e)

/-- The loop of `main` up to the signal that ends it, or, with `--once`, one turn. -/
def mainLoop (P : Primitives) (A : Gcm) (id : Identity) (time : ℕ → Int64) (once : Bool) :
    List Accepted → Analysis L → Option (Analysis L)
  | [], d => some d
  | a :: as, d =>
    match serveAccepted P A id time a d with
    | none => none
    | some d' => if once then some d' else mainLoop P A id time once as d'

/-! ## 3. One stream of events -/

/-- What the loop opens of a stream of bytes, whoever looks at it. -/
def openedFrom (A : Gcm) (sock : Socket) (r : RecordReceiver) : List Bytes :=
  (serveLoop A (fun _ => pure ()) sock r ()).opened

/-- The plaintexts that are long enough, as events. -/
def eventsOf (pts : List Bytes) : List SecurityEvent :=
  pts.filterMap fun pt =>
    if hlen : SecurityEvent.sizeOf ≤ pt.length then some (Payload.event ⟨pt, hlen⟩) else none

/-- What the daemon opens of a connection: nothing unless the handshake returns. -/
def openedOn (P : Primitives) (A : Gcm) (id : Identity) (c : Coins) (conn : Conn) : List Bytes :=
  match (handshakeOver P id c).call conn with
  | (.error _, _) => []
  | (.ok ch, conn') => openedFrom A conn'.incoming ch.receiver

def Accepted.opened (P : Primitives) (A : Gcm) (id : Identity) : Accepted → List Bytes
  | .failed _ => []
  | .connection c conn => openedOn P A id c conn

/-- The events of all connections that are served. -/
def eventStream (P : Primitives) (A : Gcm) (id : Identity) (once : Bool) (as : List Accepted) :
    List SecurityEvent :=
  (if once then as.take 1 else as).flatMap fun a => eventsOf (a.opened P A id)

/-- `classify_event` on one event after another, as far as each has a defined result. -/
def classifyRun (L : LlmClient) : List SecurityEvent → L.State → Correlator →
    Option (List (Classified L))
  | [], _, _ => some []
  | ev :: evs, llm, corr =>
    match classifyEventReads ev L llm corr with
    | .ok (some c) => (classifyRun L evs c.llm c.corr).map (c :: ·)
    | .ok none => none
    | .error _ => none

/-- The state after these results. -/
def Analysis.after (time : ℕ → Int64) (d : Analysis L) (cs : List (Classified L)) : Analysis L :=
  cs.foldl (Analysis.record time) d

/-- The same but for the standard error. -/
structure SameLog (d d' : Analysis L) : Prop where
  llm : d.llm = d'.llm
  corr : d.corr = d'.corr
  out : d.printed.out = d'.printed.out
  alerts : d.alerts = d'.alerts

/-- A run of the daemon against the results of its events. -/
inductive Handled (time : ℕ → Int64) (d : Analysis L) :
    Option (List (Classified L)) → Option (Analysis L) → Prop
  | undefined : Handled time d none none
  | done {cs d'} : SameLog (d.after time cs) d' → Handled time d (some cs) (some d')

variable {P : Primitives} {A : Gcm} {id : Identity} {time : ℕ → Int64} {d d' : Analysis L}

theorem SameLog.refl (d : Analysis L) : SameLog d d := ⟨rfl, rfl, rfl, rfl⟩

theorem SameLog.trans {d₁ d₂ d₃ : Analysis L} (h : SameLog d₁ d₂) (h' : SameLog d₂ d₃) :
    SameLog d₁ d₃ :=
  ⟨h.llm.trans h'.llm, h.corr.trans h'.corr, h.out.trans h'.out, h.alerts.trans h'.alerts⟩

theorem SameLog.say (h : SameLog d d') (text : Bytes) : SameLog d (d'.say text) :=
  ⟨h.llm, h.corr, h.out, h.alerts⟩

theorem SameLog.record (h : SameLog d d') (c : Classified L) :
    SameLog (d.record time c) (d'.record time c) := by
  unfold Analysis.record
  split
  · exact ⟨rfl, rfl, by rw [h.out, h.alerts], by rw [h.alerts]⟩
  · exact ⟨rfl, rfl, h.out, h.alerts⟩

theorem SameLog.after (h : SameLog d d') (cs : List (Classified L)) :
    SameLog (d.after time cs) (d'.after time cs) := by
  induction cs generalizing d d' with
  | nil => exact h
  | cons c cs ih => exact ih (h.record c)

/-- What the run ends with does not depend on what was on the standard error before it. -/
theorem Handled.of_same {cs? : Option (List (Classified L))} {d₁ : Option (Analysis L)}
    (h : Handled time d' cs? d₁) (hsame : SameLog d d') : Handled time d cs? d₁ := by
  cases h with
  | undefined => exact .undefined
  | done hlog => exact .done ((hsame.after _).trans hlog)

theorem Handled.say {cs? : Option (List (Classified L))} {d₁ : Option (Analysis L)}
    {text : Bytes} (h : Handled time (d.say text) cs? d₁) : Handled time d cs? d₁ :=
  h.of_same ((SameLog.refl d).say text)

theorem Handled.said {cs? : Option (List (Classified L))}
    (h : Handled time d cs? (some d')) (text : Bytes) :
    Handled time d cs? (some (d'.say text)) := by
  cases h with
  | done hlog => exact .done (hlog.say text)

/-- Nothing came. -/
theorem handled_nil (h : SameLog d d') : Handled time d (some []) (some d') := .done h

theorem llm_record (d : Analysis L) (c : Classified L) : (d.record time c).llm = c.llm := by
  unfold Analysis.record
  split <;> rfl

theorem corr_record (d : Analysis L) (c : Classified L) : (d.record time c).corr = c.corr := by
  unfold Analysis.record
  split <;> rfl

/-- One event, and the events behind it. -/
theorem handled_cons {ev : SecurityEvent} {evs : List SecurityEvent} {r : Option (Analysis L)}
    (hdefined : ∀ d', processEvent time ev d = some d' →
      Handled time d' (classifyRun L evs d'.llm d'.corr) r)
    (hundefined : processEvent time ev d = none → r = none) :
    Handled time d (classifyRun L (ev :: evs) d.llm d.corr) r := by
  unfold processEvent at hdefined hundefined
  unfold classifyRun
  split
  · next c hc =>
    rw [hc] at hdefined
    have h := hdefined _ rfl
    rw [llm_record, corr_record] at h
    cases hrest : classifyRun L evs c.llm c.corr with
    | none =>
      rw [hrest] at h
      cases h
      exact .undefined
    | some cs =>
      rw [hrest] at h
      cases h with
      | done hlog => exact .done hlog
  · next hc =>
    rw [hc] at hundefined
    rw [hundefined rfl]
    exact .undefined
  · next f hc =>
    rw [hc] at hundefined
    rw [hundefined rfl]
    exact .undefined

/-- A run on two pieces of the stream. -/
theorem classifyRun_append (time : ℕ → Int64) (evs evs' : List SecurityEvent) (d : Analysis L) :
    classifyRun L (evs ++ evs') d.llm d.corr =
      (classifyRun L evs d.llm d.corr).bind fun cs =>
        (classifyRun L evs' (d.after time cs).llm (d.after time cs).corr).map (cs ++ ·) := by
  induction evs generalizing d with
  | nil => simp [classifyRun, Analysis.after]
  | cons ev evs ih =>
    rw [List.cons_append, classifyRun, classifyRun]
    rcases classifyEventReads ev L d.llm d.corr with f | _ | c
    · rfl
    · rfl
    · have h := ih (d.record time c)
      rw [llm_record, corr_record] at h
      simp only [h]
      cases classifyRun L evs c.llm c.corr with
      | none => rfl
      | some cs =>
        simp only [Option.bind_some, Option.map_some, Option.map_map]
        rfl

theorem Handled.append {evs evs' : List SecurityEvent} {r r' : Option (Analysis L)}
    (h : Handled time d (classifyRun L evs d.llm d.corr) r)
    (hdefined : ∀ d', r = some d' → Handled time d' (classifyRun L evs' d'.llm d'.corr) r')
    (hundefined : r = none → r' = none) :
    Handled time d (classifyRun L (evs ++ evs') d.llm d.corr) r' := by
  rw [classifyRun_append time]
  cases hrun : classifyRun L evs d.llm d.corr with
  | none =>
    rw [hrun] at h
    cases h
    rw [hundefined rfl]
    exact .undefined
  | some cs =>
    rw [hrun] at h
    cases h with
    | @done _ d' hlog =>
      have h' := hdefined d' rfl
      rw [← hlog.llm, ← hlog.corr] at h'
      rw [Option.bind_some]
      cases hrest : classifyRun L evs' (d.after time cs).llm (d.after time cs).corr with
      | none =>
        rw [hrest] at h'
        cases h'
        exact .undefined
      | some cs' =>
        rw [hrest] at h'
        cases h' with
        | done hlog' =>
          refine .done ?_
          rw [Analysis.after, List.foldl_append]
          exact (hlog.after cs').trans hlog'

/-! ## 4. The loops -/

section

variable {sock sock' : Socket} {r r' : RecordReceiver}

theorem openedFrom_of_error {e : Exn} (h : recvRecord.call sock = (.error e, sock')) :
    openedFrom A sock r = [] := by
  rw [openedFrom, serveLoop]
  split <;> simp_all

theorem openedFrom_of_end (h : recvRecord.call sock = (.ok [], sock')) :
    openedFrom A sock r = [] := by
  rw [openedFrom, serveLoop_of_end r () h]

theorem openedFrom_of_reject {b : UInt8} {bs : Bytes} {e : Exn}
    (h : recvRecord.call sock = (.ok (b :: bs), sock'))
    (hopen : (RecordReceiver.open A (b :: bs)).call r = (.error e, r')) :
    openedFrom A sock r = [] := by
  rw [openedFrom, serveLoop]
  split <;> simp_all

theorem openedFrom_of_open {b : UInt8} {bs pt : Bytes}
    (h : recvRecord.call sock = (.ok (b :: bs), sock'))
    (hopen : (RecordReceiver.open A (b :: bs)).call r = (.ok pt, r')) :
    openedFrom A sock r = pt :: openedFrom A sock' r' := by
  have hidle : ∀ (_ : Bytes) (st : Unit),
      ∃ st', (pure () : Method Exn Unit Unit).call st = (.ok (), st') := fun _ st => ⟨st, rfl⟩
  obtain ⟨st', hserve⟩ := serveLoop_of_open hidle () h hopen
  rw [openedFrom, hserve]
  rfl

end

theorem eventsOf_cons_long {pt : Bytes} (pts : List Bytes) (h : SecurityEvent.sizeOf ≤ pt.length) :
    eventsOf (pt :: pts) = Payload.event ⟨pt, h⟩ :: eventsOf pts :=
  List.filterMap_cons_some (dif_pos h)

theorem eventsOf_cons_short {pt : Bytes} (pts : List Bytes)
    (h : ¬ SecurityEvent.sizeOf ≤ pt.length) : eventsOf (pt :: pts) = eventsOf pts :=
  List.filterMap_cons_none (dif_neg h)

/-- The loop of a connection handles what it opens. -/
theorem serveRecords_handled (A : Gcm) (time : ℕ → Int64) (sock : Socket) (r : RecordReceiver)
    (n : ℕ) (d : Analysis L) :
    Handled time d (classifyRun L (eventsOf (openedFrom A sock r)) d.llm d.corr)
      ((serveRecords A time sock r n d).map Prod.snd) := by
  fun_induction serveRecords A time sock r n d with
  | case1 sock r n d e sock' h =>
    rw [openedFrom_of_error h]
    exact handled_nil (.refl d)
  | case2 sock r n d sock' h =>
    rw [openedFrom_of_end h]
    exact handled_nil ((SameLog.refl d).say _)
  | case3 sock r n d b bs sock' h e r' hopen =>
    rw [openedFrom_of_reject h hopen]
    exact handled_nil (.refl d)
  | case4 sock r n d b bs sock' h pt r' hopen hlen hnone =>
    rw [openedFrom_of_open h hopen, eventsOf_cons_long _ hlen]
    refine handled_cons ?_ fun _ => rfl
    intro d' hd'
    rw [hnone] at hd'
    cases hd'
  | case5 sock r n d b bs sock' h pt r' hopen hlen d₁ hsome ih =>
    rw [openedFrom_of_open h hopen, eventsOf_cons_long _ hlen]
    refine handled_cons ?_ ?_
    · intro d' hd'
      rw [hsome] at hd'
      rwa [← Option.some.inj hd']
    · intro hnone
      rw [hsome] at hnone
      cases hnone
  | case6 sock r n d b bs sock' h pt r' hopen hshort ih =>
    rw [openedFrom_of_open h hopen, eventsOf_cons_short _ hshort]
    exact ih.say

theorem serveAccepted_handled (P : Primitives) (A : Gcm) (id : Identity) (time : ℕ → Int64)
    (a : Accepted) (d : Analysis L) :
    Handled time d (classifyRun L (eventsOf (a.opened P A id)) d.llm d.corr)
      (serveAccepted P A id time a d) := by
  cases a with
  | failed errno => exact handled_nil ((SameLog.refl d).say _)
  | connection c conn =>
    unfold serveAccepted serveConnection Accepted.opened openedOn
    dsimp only
    rcases (handshakeOver P id c).call conn with ⟨e | ch, conn'⟩
    · exact handled_nil ((SameLog.refl d).say _)
    · have h := (serveRecords_handled A time conn'.incoming ch.receiver 0 (d.say greeting)).say
      dsimp only
      rcases hserve : serveRecords A time conn'.incoming ch.receiver 0 (d.say greeting)
        with _ | ⟨e | ⟨⟩, d'⟩ <;> rw [hserve] at h
      · exact h
      · exact h.said _
      · exact h

/-- **The daemon handles one stream.**  Whatever becomes of each connection, the state that the
loop of `main` leaves is that of `classify_event` on the events opened so far, in order. -/
theorem mainLoop_handled (P : Primitives) (A : Gcm) (id : Identity) (time : ℕ → Int64) (once : Bool)
    (as : List Accepted) (d : Analysis L) :
    Handled time d (classifyRun L (eventStream P A id once as) d.llm d.corr)
      (mainLoop P A id time once as d) := by
  induction as generalizing d with
  | nil => cases once <;> exact handled_nil (.refl d)
  | cons a as ih =>
    have hfirst := serveAccepted_handled P A id time a d
    unfold mainLoop
    cases once with
    | true =>
      have hstream : eventStream P A id true (a :: as) = eventsOf (a.opened P A id) := by
        simp [eventStream]
      rw [hstream]
      rcases hserve : serveAccepted P A id time a d with _ | d' <;> rw [hserve] at hfirst
      · exact hfirst
      · exact hfirst
    | false =>
      have hstream : eventStream P A id false (a :: as) =
          eventsOf (a.opened P A id) ++ eventStream P A id false as := rfl
      rw [hstream]
      refine hfirst.append ?_ ?_
      · rintro d' hd'
        rw [hd']
        exact ih d'
      · intro hnone
        rw [hnone]

/-! ## 5. The log -/

/-- The alerts of these results, each with the answer of `std::time` that it got. -/
def stampedAlerts (time : ℕ → Int64) : ℕ → List (Classified L) → List (Int64 × Alert)
  | _, [] => []
  | k, c :: cs =>
    if c.outcome.alerted then (time k, c.outcome.alert) :: stampedAlerts time (k + 1) cs
    else stampedAlerts time k cs

theorem out_after (cs : List (Classified L)) (d : Analysis L) :
    (d.after time cs).printed.out = d.printed.out ++
      (stampedAlerts time d.alerts cs).flatMap fun x => (printedAlert x.1 x.2).out := by
  induction cs generalizing d with
  | nil => simp [Analysis.after, stampedAlerts]
  | cons c cs ih =>
    have h := ih (d.record time c)
    rw [stampedAlerts]
    unfold Analysis.record at h
    by_cases halert : c.outcome.alerted = true
    · rw [if_pos halert] at h
      rw [if_pos halert, List.flatMap_cons, ← List.append_assoc, ← h, Analysis.after,
        List.foldl_cons, Analysis.record, if_pos halert]
      rfl
    · rw [if_neg halert] at h
      rw [if_neg halert, Analysis.after, List.foldl_cons, Analysis.record, if_neg halert]
      exact h

theorem llm_after (cs : List (Classified L)) (d : Analysis L) :
    (d.after time cs).llm = (cs.getLast?.map Classified.llm).getD d.llm := by
  induction cs using List.reverseRecOn with
  | nil => rfl
  | append_singleton cs c ih =>
    rw [Analysis.after, List.foldl_append, List.foldl_cons, List.foldl_nil, llm_record]
    simp

theorem corr_after (cs : List (Classified L)) (d : Analysis L) :
    (d.after time cs).corr = (cs.getLast?.map Classified.corr).getD d.corr := by
  induction cs using List.reverseRecOn with
  | nil => rfl
  | append_singleton cs c ih =>
    rw [Analysis.after, List.foldl_append, List.foldl_cons, List.foldl_nil, corr_record]
    simp

/-- What runs inside the fields is the pipeline's model. -/
theorem classifyAll_of_classifyRun {evs : List SecurityEvent} {llm : L.State} {corr : Correlator}
    {cs : List (Classified L)} (h : classifyRun L evs llm corr = some cs) :
    classifyAll L evs llm corr = some cs := by
  induction evs generalizing llm corr cs with
  | nil => exact h
  | cons ev evs ih =>
    unfold classifyRun at h
    split at h
    · next c hc =>
      obtain ⟨cs', hrest, rfl⟩ := Option.map_eq_some_iff.mp h
      have hevent := classifyEventReads_staysIff.inside
        (classifyEventReads_staysIff.iff.mp ⟨_, hc⟩)
      rw [classifyAll, ← Except.ok.inj (hc.symm.trans hevent)]
      simp only [ih hrest]
    · cases h
    · cases h

/-- The state at the start of `main`. -/
def Analysis.start (llm : L.State) : Analysis L where
  llm := llm
  corr := Correlator.fresh

/-- What the daemon is left with, from its start. -/
theorem Handled.log {evs : List SecurityEvent} {llm : L.State} {d : Analysis L}
    (h : Handled time (Analysis.start llm) (classifyRun L evs llm Correlator.fresh) (some d)) :
    ∃ cs, classifyRun L evs llm Correlator.fresh = some cs ∧
      d.llm = (cs.getLast?.map Classified.llm).getD llm ∧
      d.corr = (cs.getLast?.map Classified.corr).getD Correlator.fresh ∧
      List.Forall₂ (fun x line => ∃ fields, readObject line = some fields ∧
        ReadsAs x.1 x.2 fields) (stampedAlerts time 0 cs) (TextInput.lines d.printed.out) := by
  generalize classifyRun L evs llm Correlator.fresh = cs? at h
  cases h with
  | @done cs _ hlog =>
    refine ⟨cs, rfl, ?_, ?_, ?_⟩
    · rw [← hlog.llm, llm_after]
      rfl
    · rw [← hlog.corr, corr_after]
      rfl
    · rw [← hlog.out, out_after]
      exact printedAlert_lines _

/-- A run of the daemon is defined when its events are. -/
theorem mainLoop_eq_none_iff (P : Primitives) (A : Gcm) (id : Identity) (time : ℕ → Int64)
    (once : Bool) (as : List Accepted) (d : Analysis L) :
    mainLoop P A id time once as d = none ↔
      classifyRun L (eventStream P A id once as) d.llm d.corr = none := by
  have h := mainLoop_handled P A id time once as d
  generalize mainLoop P A id time once as d = run at h ⊢
  generalize classifyRun L (eventStream P A id once as) d.llm d.corr = cs? at h ⊢
  cases h <;> simp

/-- **The daemon's log.**  Whatever connections are accepted and however each of them ends, a run
has a result when every event that it opened has one, and then the results are those of
`classify_event` on the concatenation of the connections' events; the client and the correlator
are left as these results leave them; and the standard output holds one line for each alert among
them, in order, which reads back as that alert. -/
theorem daemon_log (P : Primitives) (A : Gcm) (id : Identity) (L : LlmClient) (time : ℕ → Int64)
    (once : Bool) (as : List Accepted) (llm : L.State) :
    (mainLoop P A id time once as (Analysis.start llm) = none ↔
      classifyRun L (eventStream P A id once as) llm Correlator.fresh = none) ∧
    ∀ d, mainLoop P A id time once as (Analysis.start llm) = some d →
      ∃ cs, classifyAll L (eventStream P A id once as) llm Correlator.fresh = some cs ∧
        d.llm = (cs.getLast?.map Classified.llm).getD llm ∧
        d.corr = (cs.getLast?.map Classified.corr).getD Correlator.fresh ∧
        List.Forall₂ (fun x line => ∃ fields, readObject line = some fields ∧
          ReadsAs x.1 x.2 fields) (stampedAlerts time 0 cs) (TextInput.lines d.printed.out) := by
  refine ⟨mainLoop_eq_none_iff P A id time once as (Analysis.start llm), ?_⟩
  intro d hd
  have h := mainLoop_handled P A id time once as (Analysis.start llm)
  rw [hd] at h
  obtain ⟨cs, hcs, hstate⟩ := Handled.log h
  exact ⟨cs, classifyAll_of_classifyRun hcs, hstate⟩

end PqcEdr.Analyzer
