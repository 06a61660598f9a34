/-
# What the sender thread delivers

The queue's bookkeeping over every interleaving: what `handle` pushed is what was sent, what the
sender thread holds, and what is queued, in this order; the records sent are the successive seals
of their events; and they are what the socket has taken, however the kernel cut them.
-/
import PqcEdr.Agent.ChannelSink

namespace PqcEdr.Agent

open Crypto

/-! ## 1. One block each -/

namespace ChannelSink

theorem handle_cases (s : ChannelSink) (ev : SecurityEvent) :
    (s.broken = true ∧ s.handle ev = s) ∨
    (s.broken = false ∧ s.capacity ≤ s.q.length ∧ s.handle ev =
      { s with dropped := s.dropped + 1, dropped_pending := s.dropped_pending + 1 }) ∨
    (s.broken = false ∧ s.q.length < s.capacity ∧ s.handle ev =
      { s with q := s.q ++ [ev], peak := max s.peak (s.q.length + 1) }) := by
  rw [handle]
  cases hbroken : s.broken with
  | true => exact Or.inl ⟨rfl, rfl⟩
  | false =>
    rcases Nat.lt_or_ge s.q.length s.capacity with hlt | hfull
    · exact Or.inr (Or.inr ⟨rfl, hlt, by simp [Nat.not_le.mpr hlt]⟩)
    · exact Or.inr (Or.inl ⟨rfl, hfull, by simp [hfull]⟩)

theorem take_cases (s : ChannelSink) :
    (s.q = [] ∧ s.take = (none, s)) ∨
    ∃ ev q, s.q = ev :: q ∧
      ((0 < s.dropped_pending ∧ q.length ≤ s.capacity / 2 ∧ s.take =
          (some (ev, s.dropped_pending, s.dropped), { s with q := q, dropped_pending := 0 })) ∨
        (¬ (0 < s.dropped_pending ∧ q.length ≤ s.capacity / 2) ∧
          s.take = (some (ev, 0, 0), { s with q := q }))) := by
  rw [take]
  cases hq : s.q with
  | nil => exact Or.inl ⟨rfl, rfl⟩
  | cons ev q =>
    refine Or.inr ⟨ev, q, rfl, ?_⟩
    by_cases hreport : 0 < s.dropped_pending ∧ q.length ≤ s.capacity / 2
    · exact Or.inl ⟨hreport.1, hreport.2, if_pos hreport⟩
    · exact Or.inr ⟨hreport, if_neg hreport⟩

/-- `send_one` touches what belongs to the sender thread, and nothing else. -/
theorem sendOne_eq_ok {A : Gcm} {ev : SecurityEvent} {s s' : ChannelSink} {record : Bytes}
    (h : s.sendOne A ev = (.ok record, s')) :
    ∃ sender fd, (RecordSender.seal A ev.toBytes).call s.sender = (.ok record, sender) ∧
      (sendRecord record).call s.fd = (.ok (), fd) ∧
      s' = { s with fd := fd, sender := sender, sent := s.sent + 1 } := by
  rw [sendOne] at h
  split at h
  · cases h
  · rename_i sealed sender hseal
    split at h
    · cases h
    · rename_i fd hsent
      cases h
      exact ⟨sender, fd, hseal, hsent, rfl⟩

theorem sendOne_eq_error {A : Gcm} {ev : SecurityEvent} {s s' : ChannelSink} {e : Exn}
    (h : s.sendOne A ev = (.error e, s')) :
    ∃ sender fd, s' = { s with fd := fd, sender := sender } ∧
      (fd = s.fd ∨ ∃ record, (RecordSender.seal A ev.toBytes).call s.sender = (.ok record, sender) ∧
        (sendRecord record).call s.fd = (.error e, fd)) := by
  rw [sendOne] at h
  split at h
  · cases h
    exact ⟨_, _, rfl, Or.inl rfl⟩
  · rename_i record sender hseal
    split at h
    · rename_i e' fd hsent
      cases h
      exact ⟨_, _, rfl, Or.inr ⟨record, hseal, hsent⟩⟩
    · cases h

end ChannelSink

namespace System

variable {A : Gcm} {fd : Outgoing} {sender : RecordSender} {capacity : ℕ} {s s' : System}

theorem taken_cases (s : System) :
    (s.sink.q = [] ∧ s.taken = { s with pc := .exited }) ∨
    ∃ ev q, s.sink.q = ev :: q ∧
      ((0 < s.sink.dropped_pending ∧ q.length ≤ s.sink.capacity / 2 ∧ s.taken =
          { s with
            sink := { s.sink with q := q, dropped_pending := 0 }
            pc := .sending ev s.sink.dropped_pending s.sink.dropped }) ∨
        (¬ (0 < s.sink.dropped_pending ∧ q.length ≤ s.sink.capacity / 2) ∧
          s.taken = { s with sink := { s.sink with q := q }, pc := .sending ev 0 0 })) := by
  rcases s.sink.take_cases with ⟨hq, heq⟩ | ⟨ev, q, hq, ⟨hp, hle, heq⟩ | ⟨hno, heq⟩⟩
  · exact Or.inl ⟨hq, by rw [taken, heq]⟩
  · exact Or.inr ⟨ev, q, hq, Or.inl ⟨hp, hle, by rw [taken, heq]⟩⟩
  · exact Or.inr ⟨ev, q, hq, Or.inr ⟨hno, by rw [taken, heq]⟩⟩

theorem handled_of_broken (hbroken : s.sink.broken = true) (ev : SecurityEvent) :
    s.handled ev = s := by
  simp [System.handled, ChannelSink.handle, hbroken]

theorem handled_cases (hbroken : s.sink.broken = false) (ev : SecurityEvent) :
    (s.sink.q.length < s.sink.capacity ∧ (s.handled ev).pushed = s.pushed ++ [ev] ∧
        (s.handled ev).drops = s.drops ∧ (s.handled ev).sink =
          { s.sink with q := s.sink.q ++ [ev], peak := max s.sink.peak (s.sink.q.length + 1) }) ∨
      (s.sink.capacity ≤ s.sink.q.length ∧ (s.handled ev).pushed = s.pushed ∧
        (s.handled ev).drops = s.drops + 1 ∧ (s.handled ev).sink =
          { s.sink with
            dropped := s.sink.dropped + 1
            dropped_pending := s.sink.dropped_pending + 1 }) := by
  simp only [System.handled]
  rcases s.sink.handle_cases ev with ⟨hb, -⟩ | ⟨hb, hfull, heq⟩ | ⟨hb, hlt, heq⟩
  · rw [hbroken] at hb
    cases hb
  · rw [heq, if_neg (by simp [hfull]), if_pos ⟨by simp [hb], hfull⟩]
    exact Or.inr ⟨hfull, rfl, rfl, rfl⟩
  · rw [heq, if_pos ⟨by simp [hb], hlt⟩, if_neg (by simp [hlt])]
    exact Or.inl ⟨hlt, rfl, rfl, rfl⟩

/-! ## 2. What was sent -/

/-- The events sent as records, drop notices excluded. -/
def sentEvents (s : System) : List SecurityEvent :=
  (s.log.filter fun r => !r.isNotice).map (·.event)

/-- The event that the sender thread holds. -/
def held (s : System) : List SecurityEvent :=
  match s.pc with
  | .sending ev _ _ => [ev]
  | _ => []

theorem sentEvents_sentRecord (sink : ChannelSink) (pc : Pc) (r : Sent) :
    (s.sentRecord sink pc r).sentEvents =
      s.sentEvents ++ if r.isNotice then [] else [r.event] := by
  rw [sentEvents, sentRecord, List.filter_append, List.map_append, sentEvents]
  cases hr : r.isNotice <;> simp [hr]

/-- Where the pushed events are. -/
structure Fifo (capacity : ℕ) (s : System) : Prop where
  capacity_eq : s.sink.capacity = capacity
  pushed_eq : s.pushed = s.sentEvents ++ s.lost ++ s.held ++ s.sink.q
  length_le : s.sink.q.length ≤ capacity
  of_alive : s.failed = false → s.lost = [] ∧ s.sink.broken = false ∧ s.pc ≠ .failing
  of_failed : s.failed = true → s.pc = .failing ∨ s.pc = .exited
  of_exited : s.failed = false → s.pc = .exited → s.sink.stop = true ∧ s.sink.q = []

theorem fifo_start (fd : Outgoing) (sender : RecordSender) (capacity : ℕ) :
    Fifo capacity (start fd sender capacity) :=
  ⟨rfl, rfl, Nat.zero_le _, fun _ => ⟨rfl, rfl, by simp [start]⟩, by simp [start], by simp [start]⟩

theorem Fifo.handled (h : Fifo capacity s) (hstop : s.sink.stop = false) (ev : SecurityEvent) :
    Fifo capacity (s.handled ev) := by
  have hrun : s.failed = false → s.pc ≠ .exited := by
    intro hf hpc
    rw [(h.of_exited hf hpc).1] at hstop
    cases hstop
  cases hbroken : s.sink.broken with
  | true =>
    rw [handled_of_broken hbroken]
    exact h
  | false =>
    rcases handled_cases hbroken ev with ⟨hlt, hp, -, hs⟩ | ⟨-, hp, -, hs⟩
    · -- pushed at the end of the queue
      refine ⟨by rw [hs]; exact h.capacity_eq, ?_, ?_, ?_, h.of_failed, ?_⟩
      · rw [hp, hs, h.pushed_eq, List.append_assoc]
        rfl
      · rw [hs, List.length_append, List.length_singleton, ← h.capacity_eq]
        exact hlt
      · rw [hs]
        exact h.of_alive
      · intro hf hpc
        exact absurd hpc (hrun hf)
    · -- dropped
      refine ⟨by rw [hs]; exact h.capacity_eq, ?_, ?_, ?_, h.of_failed, ?_⟩
      · rw [hp, hs]
        exact h.pushed_eq
      · rw [hs]
        exact h.length_le
      · rw [hs]
        exact h.of_alive
      · intro hf hpc
        exact absurd hpc (hrun hf)

/-- A sender thread at work has not failed. -/
theorem Fifo.alive (h : Fifo capacity s) (hfailing : s.pc ≠ .failing) (hexited : s.pc ≠ .exited) :
    s.failed = false := by
  cases hf : s.failed with
  | false => rfl
  | true =>
    rcases h.of_failed hf with hpc | hpc
    · exact absurd hpc hfailing
    · exact absurd hpc hexited

theorem Fifo.taken (h : Fifo capacity s) (hpc : s.pc = .waiting)
    (hwait : s.sink.stop = true ∨ s.sink.q ≠ []) : Fifo capacity s.taken := by
  have hheld : s.held = [] := by rw [held, hpc]
  have hfifo := h.pushed_eq
  rw [hheld, List.append_nil] at hfifo
  have halive : s.failed = false := h.alive (by simp [hpc]) (by simp [hpc])
  obtain ⟨hlost, hbroken, -⟩ := h.of_alive halive
  have hlen := h.length_le
  rcases s.taken_cases with ⟨hq, heq⟩ | ⟨ev, q, hq, ⟨-, -, heq⟩ | ⟨-, heq⟩⟩
  · rw [heq]
    refine ⟨h.capacity_eq, ?_, h.length_le, fun _ => ⟨hlost, hbroken, by simp⟩,
      fun _ => Or.inr rfl, fun _ _ => ⟨?_, hq⟩⟩
    · rw [hq, List.append_nil] at hfifo
      rw [hq, List.append_nil]
      exact hfifo.trans (List.append_nil _).symm
    · rcases hwait with hstop | hne
      · exact hstop
      · exact absurd hq hne
  all_goals
    rw [heq]
    rw [hq] at hfifo hlen
    refine ⟨h.capacity_eq, ?_, Nat.le_of_succ_le hlen, fun _ => ⟨hlost, hbroken, by simp⟩, ?_, ?_⟩
    · exact hfifo.trans (List.append_cons _ _ _)
    · intro hf
      exact absurd (hf.symm.trans halive) (by simp)
    · intro _ hpc'
      cases hpc'

theorem Fifo.sentRecord (h : Fifo capacity s) (halive : s.failed = false) {r : Sent}
    (hr : s.held = if r.isNotice then [] else [r.event]) {pc : Pc}
    (hpc : pc = .waiting ∨ ∃ report total, pc = .notifying report total) (fd' : Outgoing)
    (sender' : RecordSender) (sent : UInt64) :
    Fifo capacity
      (s.sentRecord { s.sink with fd := fd', sender := sender', sent := sent } pc r) := by
  obtain ⟨hlost, hbroken, -⟩ := h.of_alive halive
  have hheld : (s.sentRecord { s.sink with fd := fd', sender := sender', sent := sent } pc
      r).held = [] := by
    rcases hpc with rfl | ⟨report, total, rfl⟩ <;> rfl
  have hwork : pc ≠ .failing ∧ pc ≠ .exited := by
    rcases hpc with rfl | ⟨report, total, rfl⟩ <;> exact ⟨by simp, by simp⟩
  refine ⟨h.capacity_eq, ?_, h.length_le, fun _ => ⟨hlost, hbroken, hwork.1⟩, ?_, ?_⟩
  · have hfifo := h.pushed_eq
    rw [hlost, List.append_nil, hr] at hfifo
    rw [hheld, List.append_nil, sentEvents_sentRecord]
    exact hfifo.trans (by rw [System.sentRecord, hlost, List.append_nil])
  · intro hf
    exact absurd (hf.symm.trans halive) (by simp)
  · intro _ hexited
    exact absurd hexited hwork.2

theorem Fifo.sendFailed (h : Fifo capacity s) (halive : s.failed = false) (fd' : Outgoing)
    (sender' : RecordSender) :
    Fifo capacity (s.sendFailed { s.sink with fd := fd', sender := sender' } s.held) := by
  obtain ⟨hlost, -⟩ := h.of_alive halive
  refine ⟨h.capacity_eq, ?_, h.length_le, ?_, fun _ => Or.inl rfl, ?_⟩
  · have hfifo := h.pushed_eq
    rw [hlost, List.append_nil] at hfifo
    have hheld : (s.sendFailed { s.sink with fd := fd', sender := sender' } s.held).held = [] :=
      rfl
    rw [hheld, List.append_nil]
    exact hfifo
  all_goals
    intro hf
    cases hf

theorem Fifo.destroy (h : Fifo capacity s) :
    Fifo capacity { s with sink := { s.sink with stop := true } } :=
  ⟨h.capacity_eq, h.pushed_eq, h.length_le, h.of_alive, h.of_failed,
    fun hf hpc => ⟨rfl, (h.of_exited hf hpc).2⟩⟩

theorem Fifo.setBroken (h : Fifo capacity s) (hpc : s.pc = .failing) :
    Fifo capacity { s with sink := { s.sink with broken := true }, pc := .exited } := by
  have hfailed : s.failed = true := by
    cases hf : s.failed with
    | true => rfl
    | false => exact absurd hpc (h.of_alive hf).2.2
  have hheld : s.held = [] := by rw [held, hpc]
  refine ⟨h.capacity_eq, ?_, h.length_le, ?_, fun _ => Or.inr rfl, ?_⟩
  · have hfifo := h.pushed_eq
    rw [hheld] at hfifo
    exact hfifo
  all_goals
    intro hf
    exact absurd (hf.symm.trans hfailed) (by simp)

theorem Fifo.step (h : Fifo capacity s) (hstep : Step A s s') : Fifo capacity s' := by
  cases hstep with
  | handle ev hstop => exact h.handled hstop ev
  | destroy => exact h.destroy
  | take hpc hwait => exact h.taken hpc hwait
  | event hpc hsend =>
    obtain ⟨sender', fd', -, -, rfl⟩ := ChannelSink.sendOne_eq_ok hsend
    have halive := h.alive (by simp [hpc]) (by simp [hpc])
    refine h.sentRecord halive (by rw [held, hpc]; rfl) ?_ fd' sender' _
    split
    · exact Or.inr ⟨_, _, rfl⟩
    · exact Or.inl rfl
  | eventFails hpc hsend =>
    obtain ⟨sender', fd', rfl, -⟩ := ChannelSink.sendOne_eq_error hsend
    have hfail := h.sendFailed (h.alive (by simp [hpc]) (by simp [hpc])) fd' sender'
    rwa [held, hpc] at hfail
  | notice pid now_ns hpc hsend =>
    obtain ⟨sender', fd', -, -, rfl⟩ := ChannelSink.sendOne_eq_ok hsend
    have halive := h.alive (by simp [hpc]) (by simp [hpc])
    exact h.sentRecord halive (by rw [held, hpc]; rfl) (Or.inl rfl) fd' sender' _
  | noticeFails pid now_ns hpc hsend =>
    obtain ⟨sender', fd', rfl, -⟩ := ChannelSink.sendOne_eq_error hsend
    have hfail := h.sendFailed (h.alive (by simp [hpc]) (by simp [hpc])) fd' sender'
    rwa [held, hpc] at hfail
  | setBroken hpc => exact h.setBroken hpc

theorem Reachable.fifo (h : Reachable A fd sender capacity s) : Fifo capacity s := by
  induction h with
  | refl => exact fifo_start fd sender capacity
  | tail _ hstep ih => exact ih.step hstep

/-! ## 4. The records -/

/-- The records sent are the successive seals of their events. -/
structure Sealed (A : Gcm) (sender : RecordSender) (s : System) : Prop where
  records_eq : (sealAll A (s.log.map (·.event.toBytes)) sender).1.map (·.record) =
    s.log.map (·.record)
  sender_eq : s.failed = false →
    (sealAll A (s.log.map (·.event.toBytes)) sender).2 = s.sink.sender

/-- A step that sends nothing leaves the log and what belongs to the sender thread. -/
theorem Sealed.of_eq (h : Sealed A sender s) (hlog : s'.log = s.log)
    (hsender : s'.sink.sender = s.sink.sender) (hfailed : s'.failed = s.failed) :
    Sealed A sender s' := by
  refine ⟨by rw [hlog, h.records_eq], ?_⟩
  intro hf
  rw [hlog, hsender, h.sender_eq (hfailed ▸ hf)]

theorem Sealed.sentRecord (h : Sealed A sender s) (halive : s.failed = false) {r : Sent}
    {sink : ChannelSink}
    (hseal : (RecordSender.seal A r.event.toBytes).call s.sink.sender = (.ok r.record, sink.sender))
    (pc : Pc) : Sealed A sender (s.sentRecord sink pc r) := by
  have hrun : sealAll A ((s.sentRecord sink pc r).log.map (·.event.toBytes)) sender =
      ((sealAll A (s.log.map (·.event.toBytes)) sender).1 ++
        (sealAll A [r.event.toBytes] s.sink.sender).1,
        (sealAll A [r.event.toBytes] s.sink.sender).2) := by
    rw [System.sentRecord, List.map_append, sealAll_append, h.sender_eq halive]
    rfl
  have hone : (sealAll A [r.event.toBytes] s.sink.sender).1.map (·.record) = [r.record] ∧
      (sealAll A [r.event.toBytes] s.sink.sender).2 = sink.sender := by
    rw [sealAll, hseal]
    exact ⟨rfl, rfl⟩
  refine ⟨?_, fun _ => ?_⟩
  · rw [hrun, List.map_append, h.records_eq, hone.1, System.sentRecord, List.map_append]
    rfl
  · rw [hrun, hone.2]
    rfl

theorem Sealed.sendFailed (h : Sealed A sender s) (sink : ChannelSink)
    (lost : List SecurityEvent) : Sealed A sender (s.sendFailed sink lost) :=
  ⟨h.records_eq, fun hf => by cases hf⟩

/-- The callback leaves what belongs to the sender thread. -/
theorem handle_owned (s : ChannelSink) (ev : SecurityEvent) :
    (s.handle ev).sender = s.sender ∧ (s.handle ev).fd = s.fd ∧ (s.handle ev).sent = s.sent := by
  rcases s.handle_cases ev with ⟨-, heq⟩ | ⟨-, -, heq⟩ | ⟨-, -, heq⟩ <;> rw [heq] <;>
    exact ⟨rfl, rfl, rfl⟩

theorem Sealed.taken (h : Sealed A sender s) : Sealed A sender s.taken := by
  rcases s.taken_cases with ⟨-, heq⟩ | ⟨ev, q, -, ⟨-, -, heq⟩ | ⟨-, heq⟩⟩
  all_goals
    rw [heq]
    exact h.of_eq rfl rfl rfl

theorem Sealed.step (h : Sealed A sender s) (hfifo : Fifo capacity s) (hstep : Step A s s') :
    Sealed A sender s' := by
  cases hstep with
  | handle ev hstop => exact h.of_eq rfl (handle_owned s.sink ev).1 rfl
  | destroy => exact h.of_eq rfl rfl rfl
  | take hpc hwait => exact h.taken
  | event hpc hsend =>
    obtain ⟨sender', fd', hseal, -, rfl⟩ := ChannelSink.sendOne_eq_ok hsend
    refine h.sentRecord (hfifo.alive (by simp [hpc]) (by simp [hpc])) ?_ _
    exact hseal
  | eventFails hpc hsend => exact h.sendFailed _ _
  | notice pid now_ns hpc hsend =>
    obtain ⟨sender', fd', hseal, -, rfl⟩ := ChannelSink.sendOne_eq_ok hsend
    refine h.sentRecord (hfifo.alive (by simp [hpc]) (by simp [hpc])) ?_ _
    exact hseal
  | noticeFails pid now_ns hpc hsend => exact h.sendFailed _ _
  | setBroken hpc => exact h.of_eq rfl rfl rfl

theorem Reachable.sealed (h : Reachable A fd sender capacity s) : Sealed A sender s := by
  induction h with
  | refl => exact ⟨rfl, fun _ => rfl⟩
  | tail hrun hstep ih => exact ih.step (Reachable.fifo hrun) hstep

/-- Every event of the log was sealed. -/
theorem plaintexts_log (h : Reachable A fd sender capacity s) :
    (sealAll A (s.log.map (·.event.toBytes)) sender).1.map (·.plaintext) =
      s.log.map (·.event.toBytes) := by
  refine (plaintexts_sublist A _ sender).eq_of_length ?_
  have hrecords := congrArg List.length h.sealed.records_eq
  simpa only [List.length_map] using hrecords

/-! ## 5. The wire -/

/-- The records of the log, one behind the other. -/
def recordBytes (s : System) : Bytes := (s.log.map (·.record)).flatten

/-- The event whose send failed: an accepted one, or a notice. -/
def Interrupting (s : System) (ev : SecurityEvent) : Prop :=
  s.lost = [ev] ∨ ∃ pid now_ns dropped dropped_total,
    ev = s.sink.makeDropNotice pid now_ns dropped dropped_total

/-- The beginning of a record: what the socket took of it before it failed. -/
def Torn (A : Gcm) (sender : RecordSender) (ev : SecurityEvent) (part : Bytes) : Prop :=
  ∃ record sender', (RecordSender.seal A ev.toBytes).call sender = (.ok record, sender') ∧
    part <+: record ∧ part ≠ record

/-- What the socket has taken: the records of the log, and after a failure at most the beginning of
the next one. -/
structure Wired (A : Gcm) (fd : Outgoing) (sender : RecordSender) (s : System) : Prop where
  alive : s.failed = false → s.sink.fd.wire = fd.wire ++ s.recordBytes
  torn : s.failed = true → ∃ part, s.sink.fd.wire = fd.wire ++ s.recordBytes ++ part ∧
    (part = [] ∨ ∃ ev, s.Interrupting ev ∧
      Torn A (sealAll A (s.log.map (·.event.toBytes)) sender).2 ev part)
  clean : fd.Clean → s.sink.fd.Clean ∧ s.sink.fd.wire = fd.wire ++ s.recordBytes

/-- A step that sends nothing. -/
theorem Wired.of_eq (h : Wired A fd sender s) (hlog : s'.log = s.log)
    (hfd : s'.sink.fd = s.sink.fd) (hfailed : s'.failed = s.failed) (hlost : s'.lost = s.lost)
    (hsent : s'.sink.sent = s.sink.sent) : Wired A fd sender s' := by
  have hbytes : s'.recordBytes = s.recordBytes := by rw [recordBytes, hlog, recordBytes]
  refine ⟨?_, ?_, ?_⟩
  · intro hf
    rw [hfd, hbytes, h.alive (hfailed ▸ hf)]
  · intro hf
    obtain ⟨part, hwire, htorn⟩ := h.torn (hfailed ▸ hf)
    refine ⟨part, by rw [hfd, hbytes, hwire], htorn.imp_right ?_⟩
    rintro ⟨ev, hev, hpart⟩
    refine ⟨ev, hev.imp (hlost.trans ·) ?_, hlog ▸ hpart⟩
    rintro ⟨pid, now_ns, dropped, dropped_total, rfl⟩
    refine ⟨pid, now_ns, dropped, dropped_total, ?_⟩
    rw [ChannelSink.makeDropNotice, ChannelSink.makeDropNotice, hsent]
  · intro hclean
    rw [hfd, hbytes]
    exact h.clean hclean

theorem Wired.sentRecord (h : Wired A fd sender s) (halive : s.failed = false) {sink : ChannelSink}
    {r : Sent} (hsend : (sendRecord r.record).call s.sink.fd = (.ok (), sink.fd)) (pc : Pc) :
    Wired A fd sender (s.sentRecord sink pc r) := by
  have hwrote := writeAll_wrote s.sink.fd r.record
  have hcall : (writeAll r.record).call s.sink.fd = (.ok (), sink.fd) := hsend
  rw [hcall] at hwrote
  have hbytes : (s.sentRecord sink pc r).recordBytes = s.recordBytes ++ r.record := by
    rw [recordBytes, System.sentRecord, List.map_append, List.flatten_append]
    exact congrArg (s.recordBytes ++ ·) (List.append_nil _)
  have hwire : sink.fd.wire = fd.wire ++ (s.sentRecord sink pc r).recordBytes := by
    rw [hbytes, ← List.append_assoc, ← h.alive halive]
    exact hwrote.whole rfl
  refine ⟨fun _ => hwire, ?_, fun hclean => ⟨?_, hwire⟩⟩
  · intro hf
    exact absurd (hf.symm.trans halive) (by simp)
  · exact (hwrote.ok (h.clean hclean).1).2

theorem Wired.sendFailed (h : Wired A fd sender s) (halive : s.failed = false)
    (hsender : (sealAll A (s.log.map (·.event.toBytes)) sender).2 = s.sink.sender)
    {sink : ChannelSink} {ev : SecurityEvent} {e : Exn} (hsend : s.sink.sendOne A ev = (.error e, sink))
    {lost : List SecurityEvent} (hev : (s.sendFailed sink lost).Interrupting ev) :
    Wired A fd sender (s.sendFailed sink lost) := by
  have hbytes : (s.sendFailed sink lost).recordBytes = s.recordBytes := rfl
  have hbefore := h.alive halive
  obtain ⟨sender', fd', rfl, rfl | ⟨record, hseal, hfail⟩⟩ := ChannelSink.sendOne_eq_error hsend
  · -- the seal failed, and nothing was written
    refine ⟨fun hf => (by cases hf), fun _ => ⟨[], ?_, Or.inl rfl⟩, h.clean⟩
    rw [List.append_nil]
    exact hbefore
  · refine ⟨fun hf => (by cases hf), fun _ => ?_, fun hclean => ?_⟩
    · obtain ⟨w, hw, hne, hwire⟩ := writeLoop_eq_error hfail
      refine ⟨w, ?_, Or.inr ⟨ev, hev, record, sender', hsender ▸ hseal, hw, hne⟩⟩
      rw [hbytes, ← hbefore]
      exact hwire
    · -- a socket that fails nothing took the record
      have hok := ((writeAll_wrote s.sink.fd record).ok (h.clean hclean).1).1
      have hcall : (writeAll record).call s.sink.fd = (.error e, fd') := hfail
      rw [hcall] at hok
      cases hok

theorem Wired.step (h : Wired A fd sender s) (hfifo : Fifo capacity s) (hsealed : Sealed A sender s)
    (hstep : Step A s s') : Wired A fd sender s' := by
  cases hstep with
  | handle ev hstop =>
    obtain ⟨-, hfd, hsent⟩ := handle_owned s.sink ev
    exact h.of_eq rfl hfd rfl rfl hsent
  | destroy => exact h.of_eq rfl rfl rfl rfl rfl
  | take hpc hwait =>
    rcases s.taken_cases with ⟨-, heq⟩ | ⟨ev, q, -, ⟨-, -, heq⟩ | ⟨-, heq⟩⟩
    all_goals
      rw [heq]
      exact h.of_eq rfl rfl rfl rfl rfl
  | event hpc hsend =>
    obtain ⟨sender', fd', -, hsent, rfl⟩ := ChannelSink.sendOne_eq_ok hsend
    exact h.sentRecord (hfifo.alive (by simp [hpc]) (by simp [hpc])) hsent _
  | eventFails hpc hsend =>
    have halive := hfifo.alive (by simp [hpc]) (by simp [hpc])
    exact h.sendFailed halive (hsealed.sender_eq halive) hsend (Or.inl rfl)
  | notice pid now_ns hpc hsend =>
    obtain ⟨sender', fd', -, hsent, rfl⟩ := ChannelSink.sendOne_eq_ok hsend
    exact h.sentRecord (hfifo.alive (by simp [hpc]) (by simp [hpc])) hsent _
  | @noticeFails report total sink e pid now_ns hpc hsend =>
    have halive := hfifo.alive (by simp [hpc]) (by simp [hpc])
    refine h.sendFailed halive (hsealed.sender_eq halive) hsend
      (Or.inr ⟨pid, now_ns, report, total, ?_⟩)
    obtain ⟨sender', fd', rfl, -⟩ := ChannelSink.sendOne_eq_error hsend
    rfl
  | setBroken hpc => exact h.of_eq rfl rfl rfl rfl rfl

theorem Reachable.wired (h : Reachable A fd sender capacity s) : Wired A fd sender s := by
  induction h with
  | refl =>
    refine ⟨fun _ => (List.append_nil _).symm, fun hf => (by cases hf), fun hclean => ?_⟩
    exact ⟨hclean, (List.append_nil _).symm⟩
  | tail hrun hstep ih => exact ih.step (Reachable.fifo hrun) (Reachable.sealed hrun) hstep

/-! ## 6. Nothing lost, doubled or reordered -/

/-- In every interleaving: as long as no send has failed, the pushed events are those sent, the
one in hand and the queue, in this order, and a call of `handle` pushes or counts one drop; the
queue keeps to its capacity; when the destructor's `join` returns all pushed events are sent; and
whatever fails, a prefix of them is.  What the socket has taken is the seals of the events sent, in
order and whole, and after a failure at most the beginning of the record in hand. -/
theorem channel_sink_fifo (A : Gcm) (fd : Outgoing) (sender : RecordSender) (capacity : ℕ)
    (s : System) (h : Reachable A fd sender capacity s) :
    (s.failed = false → s.pushed = s.sentEvents ++ s.held ++ s.sink.q) ∧
    (s.failed = false → s.sink.stop = false → ∀ ev,
      ((s.handled ev).pushed = s.pushed ++ [ev] ∧ (s.handled ev).sink =
          { s.sink with q := s.sink.q ++ [ev], peak := max s.sink.peak (s.sink.q.length + 1) }) ∨
        ((s.handled ev).pushed = s.pushed ∧ (s.handled ev).sink =
          { s.sink with
            dropped := s.sink.dropped + 1
            dropped_pending := s.sink.dropped_pending + 1 })) ∧
    s.sink.q.length ≤ capacity ∧
    (s.failed = false → s.pc = .exited →
      s.sink.stop = true ∧ s.sink.q = [] ∧ s.sentEvents = s.pushed) ∧
    s.sentEvents <+: s.pushed ∧
    (sealAll A (s.log.map (·.event.toBytes)) sender).1.map (·.record) = s.log.map (·.record) ∧
    (sealAll A (s.log.map (·.event.toBytes)) sender).1.map (·.plaintext) =
      s.log.map (·.event.toBytes) ∧
    (s.failed = false → s.sink.fd.wire = fd.wire ++ s.recordBytes) ∧
    (s.failed = true → ∃ part, s.sink.fd.wire = fd.wire ++ s.recordBytes ++ part ∧
      (part = [] ∨ ∃ ev, s.Interrupting ev ∧
        Torn A (sealAll A (s.log.map (·.event.toBytes)) sender).2 ev part)) := by
  have hfifo := h.fifo
  have hpushed : s.failed = false → s.pushed = s.sentEvents ++ s.held ++ s.sink.q := by
    intro hf
    have heq := hfifo.pushed_eq
    rwa [(hfifo.of_alive hf).1, List.append_nil] at heq
  refine ⟨hpushed, ?_, hfifo.length_le, ?_, ?_, h.sealed.records_eq, plaintexts_log h,
    h.wired.alive, h.wired.torn⟩
  · intro hf _ ev
    rcases handled_cases (hfifo.of_alive hf).2.1 ev with ⟨-, hp, -, hs⟩ | ⟨-, hp, -, hs⟩
    · exact Or.inl ⟨hp, hs⟩
    · exact Or.inr ⟨hp, hs⟩
  · intro hf hpc
    obtain ⟨hstop, hq⟩ := hfifo.of_exited hf hpc
    refine ⟨hstop, hq, ?_⟩
    rw [hpushed hf, hq, held, hpc, List.append_nil, List.append_nil]
  · rw [hfifo.pushed_eq, List.append_assoc, List.append_assoc]
    exact List.prefix_append _ _

/-! ### A schedule -/

/-- A move of the scheduler. -/
inductive Move
  | handle (ev : SecurityEvent)
  | destroy
  | take
  | send

/-- One move, or nothing where the thread cannot make it, or a send fails. -/
def move (A : Gcm) (s : System) : Move → System
  | .handle ev => if s.sink.stop = false then s.handled ev else s
  | .destroy => { s with sink := { s.sink with stop := true } }
  | .take =>
    match s.pc with
    | .waiting => if s.sink.stop = true ∨ s.sink.q ≠ [] then s.taken else s
    | _ => s
  | .send =>
    match s.pc with
    | .sending ev report total =>
      match s.sink.sendOne A ev with
      | (.ok record, sink) =>
        s.sentRecord sink (if report > 0 then .notifying report total else .waiting)
          ⟨false, ev, record⟩
      | (.error _, _) => s
    | .notifying report total =>
      let e := s.sink.makeDropNotice 1 0 report total
      match s.sink.sendOne A e with
      | (.ok record, sink) => s.sentRecord sink .waiting ⟨true, e, record⟩
      | (.error _, _) => s
    | _ => s

theorem Reachable.move (h : Reachable A fd sender capacity s) (m : Move) :
    Reachable A fd sender capacity (s.move A m) := by
  cases m with
  | handle ev =>
    rw [System.move]
    split
    · exact h.tail (.handle s ev (by assumption))
    · exact h
  | destroy => exact h.tail (.destroy s)
  | take =>
    rw [System.move]
    split
    · split
      · exact h.tail (.take s (by assumption) (by assumption))
      · exact h
    · exact h
  | send =>
    rw [System.move]
    split
    · split
      · exact h.tail (.event (by assumption) (by assumption))
      · exact h
    · rename_i hpc
      dsimp only
      split
      · exact h.tail (.notice 1 0 hpc (by assumption))
      · exact h
    · exact h

theorem Reachable.moves (h : Reachable A fd sender capacity s) (l : List Move) :
    Reachable A fd sender capacity (l.foldl (System.move A) s) := by
  induction l generalizing s with
  | nil => exact h
  | cons m l ih => exact ih (h.move m)

/-- A queue of one event: the second call drops, the sender reports it, and the destructor
joins.  The socket takes five bytes of the first record at once, and the rest of everything. -/
def drained : System :=
  [Move.handle (SecurityEvent.synExecve (lit "bash") (lit "/bin/ls") 1 0 0),
    .handle (SecurityEvent.synExecve (lit "bash") (lit "/bin/id") 2 0 0),
    .take, .send, .destroy, .send, .take].foldl (System.move (tableGcm []))
      (start ⟨[.taken 5 (by decide), .eintr], []⟩ zeroSender 1)

theorem reachable_drained :
    Reachable (tableGcm []) ⟨[.taken 5 (by decide), .eintr], []⟩ zeroSender 1 drained :=
  Reachable.moves .refl _

theorem channel_sink_fifo_drained :
    drained.sink.q = [] ∧ drained.sentEvents = drained.pushed ∧ drained.log.length = 2 ∧
      drained.pushed = [SecurityEvent.synExecve (lit "bash") (lit "/bin/ls") 1 0 0] ∧
      drained.sink.fd.wire = drained.recordBytes ∧ drained.recordBytes.length = 580 := by
  obtain ⟨-, -, -, hjoin, -, -, -, hwire, -⟩ :=
    channel_sink_fifo (tableGcm []) _ zeroSender 1 drained reachable_drained
  obtain ⟨-, hq, hsent⟩ := hjoin (by decide +kernel) (by decide +kernel)
  have htaken := (hwire (by decide +kernel)).trans (List.nil_append _)
  exact ⟨hq, hsent, by decide +kernel, by decide +kernel, htaken, by decide +kernel⟩

end System

end PqcEdr.Agent
