/-
# The agent's sending queue

`ChannelSink` of `agent/src/main.cpp`: the ring buffer's callback pushes into a bounded queue or
counts a drop, and one thread pops, seals and sends, and reports the drops once the queue has
shrunk.  Each block under the lock is one function on the object's fields, and so is `send_one`,
which touches only what belongs to the sender thread, the socket among it.  The system then
interleaves them freely.
-/
import Mathlib.Logic.Relation
import PqcEdr.Crypto.Framing
import PqcEdr.Crypto.Nonce

namespace PqcEdr.Agent

open Crypto

/-! ## 1. The object -/

structure ChannelSink where
  fd : Outgoing
  sender : RecordSender
  capacity : ℕ
  q : List SecurityEvent := []
  stop : Bool := false
  broken : Bool := false
  dropped : UInt64 := 0
  dropped_pending : UInt64 := 0
  peak : ℕ := 0
  sent : UInt64 := 0

namespace ChannelSink

/-- The ring buffer's callback: copy or drop, never block. -/
def handle (s : ChannelSink) (ev : SecurityEvent) : ChannelSink :=
  if s.broken then s
  else if s.q.length ≥ s.capacity then
    { s with dropped := s.dropped + 1, dropped_pending := s.dropped_pending + 1 }
  else { s with q := s.q ++ [ev], peak := max s.peak (s.q.length + 1) }

/-- The locked block of `run`, once the wait is over: the event to send with `report` and
`report_total`, or `none` to leave the loop. -/
def take (s : ChannelSink) : Option (SecurityEvent × UInt64 × UInt64) × ChannelSink :=
  match s.q with
  | [] => (none, s)
  | ev :: q =>
    if s.dropped_pending > 0 ∧ q.length ≤ s.capacity / 2 then
      (some (ev, s.dropped_pending, s.dropped), { s with q := q, dropped_pending := 0 })
    else (some (ev, 0, 0), { s with q := q })

/-- `make_drop_notice`. -/
def makeDropNotice (s : ChannelSink) (pid : UInt32) (now_ns dropped dropped_total : UInt64) :
    SecurityEvent :=
  { SecurityEvent.zeroed with
    type := PQSEC_EVT_AGENT_DROP
    pid := pid
    ts_ns := now_ns
    comm := CharArray.ofBytes _ ((lit "agent").take (PQSEC_COMM_LEN - 1))
    u := CharArray.ofBytes _ (toLe 8 dropped.toNat ++ toLe 8 dropped_total.toNat ++
      toLe 8 s.sent.toNat) }

/-- The `try` block of `send_one` and the count after it; the record that went out. -/
def sendOne (A : Gcm) (ev : SecurityEvent) (s : ChannelSink) : Result Bytes × ChannelSink :=
  match (RecordSender.seal A ev.toBytes).call s.sender with
  | (.error e, sender) => (.error e, { s with sender := sender })
  | (.ok record, sender) =>
    match (sendRecord record).call s.fd with
    | (.error e, fd) => (.error e, { s with fd := fd, sender := sender })
    | (.ok (), fd) => (.ok record, { s with fd := fd, sender := sender, sent := s.sent + 1 })

end ChannelSink

/-! ## 2. The system -/

/-- Where the sender thread is. -/
inductive Pc
  /-- At the lock or in the wait. -/
  | waiting
  /-- Past the lock, about to send the event. -/
  | sending (ev : SecurityEvent) (report report_total : UInt64)
  /-- The event is sent, the notice is not. -/
  | notifying (report report_total : UInt64)
  /-- In the `catch` block, before its lock. -/
  | failing
  | exited
  deriving DecidableEq

/-- One record that went out. -/
structure Sent where
  isNotice : Bool
  event : SecurityEvent
  record : Bytes

/-- The object, the sender thread, and what happened so far: the events that `handle` pushed, how
many it dropped, the records sent, and the event in hand when a send failed. -/
structure System where
  sink : ChannelSink
  pc : Pc := .waiting
  pushed : List SecurityEvent := []
  drops : ℕ := 0
  log : List Sent := []
  lost : List SecurityEvent := []
  failed : Bool := false

namespace System

def start (fd : Outgoing) (sender : RecordSender) (capacity : ℕ) : System :=
  { sink := { fd := fd, sender := sender, capacity := capacity } }

/-- `handle`, and which of the two it did. -/
def handled (s : System) (ev : SecurityEvent) : System :=
  { s with
    sink := s.sink.handle ev
    pushed := if ¬ s.sink.broken ∧ s.sink.q.length < s.sink.capacity then s.pushed ++ [ev]
      else s.pushed
    drops := if ¬ s.sink.broken ∧ s.sink.q.length ≥ s.sink.capacity then s.drops + 1
      else s.drops }

/-- The locked block of `run`. -/
def taken (s : System) : System :=
  match s.sink.take with
  | (none, sink) => { s with sink := sink, pc := .exited }
  | (some (ev, report, report_total), sink) =>
    { s with sink := sink, pc := .sending ev report report_total }

def sentRecord (s : System) (sink : ChannelSink) (pc : Pc) (r : Sent) : System :=
  { s with sink := sink, pc := pc, log := s.log ++ [r] }

def sendFailed (s : System) (sink : ChannelSink) (lost : List SecurityEvent) : System :=
  { s with sink := sink, pc := .failing, lost := lost, failed := true }

/-- The steps of the producer, of the sender thread and of the destructor.  There is no `handle`
after the destructor has begun. -/
inductive Step (A : Gcm) : System → System → Prop
  | handle (s : System) (ev : SecurityEvent) (hstop : s.sink.stop = false) :
      Step A s (s.handled ev)
  | destroy (s : System) : Step A s { s with sink := { s.sink with stop := true } }
  | take (s : System) (hpc : s.pc = .waiting) (hwait : s.sink.stop = true ∨ s.sink.q ≠ []) :
      Step A s s.taken
  | event {s : System} {ev : SecurityEvent} {report total : UInt64} {sink : ChannelSink}
      {record : Bytes} (hpc : s.pc = .sending ev report total)
      (hsend : s.sink.sendOne A ev = (.ok record, sink)) :
      Step A s (s.sentRecord sink (if report > 0 then .notifying report total else .waiting)
        ⟨false, ev, record⟩)
  | eventFails {s : System} {ev : SecurityEvent} {report total : UInt64} {sink : ChannelSink}
      {e : Exn} (hpc : s.pc = .sending ev report total)
      (hsend : s.sink.sendOne A ev = (.error e, sink)) :
      Step A s (s.sendFailed sink [ev])
  | notice {s : System} {report total : UInt64} {sink : ChannelSink} {record : Bytes}
      (pid : UInt32) (now_ns : UInt64) (hpc : s.pc = .notifying report total)
      (hsend : s.sink.sendOne A (s.sink.makeDropNotice pid now_ns report total) =
        (.ok record, sink)) :
      Step A s (s.sentRecord sink .waiting
        ⟨true, s.sink.makeDropNotice pid now_ns report total, record⟩)
  | noticeFails {s : System} {report total : UInt64} {sink : ChannelSink} {e : Exn}
      (pid : UInt32) (now_ns : UInt64) (hpc : s.pc = .notifying report total)
      (hsend : s.sink.sendOne A (s.sink.makeDropNotice pid now_ns report total) =
        (.error e, sink)) :
      Step A s (s.sendFailed sink [])
  | setBroken (s : System) (hpc : s.pc = .failing) :
      Step A s { s with sink := { s.sink with broken := true }, pc := .exited }

def Reachable (A : Gcm) (fd : Outgoing) (sender : RecordSender) (capacity : ℕ) : System → Prop :=
  Relation.ReflTransGen (Step A) (start fd sender capacity)

end System

end PqcEdr.Agent
