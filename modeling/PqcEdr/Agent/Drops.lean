/-
# What the drop notices account for

Every drop is pending, or in the notice that the sender thread is making, or in a notice that was
sent, and a step only moves counts along this line.  Nothing stays pending at the end: while a
count is pending the queue is more than half full, because `run` reports as soon as it is not.
-/
import Mathlib.Data.UInt
import PqcEdr.Agent.Delivery

namespace PqcEdr.Agent

open Crypto

/-! ## 1. The notice -/

/-- A 64-bit field is read back from its bytes. -/
theorem ofNat_ofLe_take (v : UInt64) (t : Bytes) :
    UInt64.ofNat (ofLe ((toLe 8 v.toNat ++ t).take 8)) = v := by
  rw [List.take_left' (length_toLe 8 v.toNat), ofLe_toLe v.toNat_lt, UInt64.ofNat_toNat]

namespace ChannelSink

section

variable (s : ChannelSink) (pid : UInt32) (now_ns dropped dropped_total : UInt64)

theorem u_makeDropNotice : (s.makeDropNotice pid now_ns dropped dropped_total).u.toList =
    toLe 8 dropped.toNat ++ (toLe 8 dropped_total.toNat ++
      (toLe 8 s.sent.toNat ++ List.replicate 128 0)) := by
  have hu : (s.makeDropNotice pid now_ns dropped dropped_total).u.toList =
      ((toLe 8 dropped.toNat ++ toLe 8 dropped_total.toNat ++ toLe 8 s.sent.toNat) ++
        List.replicate unionLen 0).take unionLen := rfl
  have hlen : (toLe 8 dropped.toNat ++ toLe 8 dropped_total.toNat ++
      toLe 8 s.sent.toNat).length = 24 := by
    simp only [List.length_append, length_toLe]
  rw [hu, List.take_append, List.take_of_length_le (by rw [hlen]; decide), hlen,
    List.take_replicate, List.append_assoc, List.append_assoc]
  rfl

@[simp] theorem dropDropped_makeDropNotice :
    (s.makeDropNotice pid now_ns dropped dropped_total).dropDropped = dropped := by
  rw [SecurityEvent.dropDropped, u_makeDropNotice, ofNat_ofLe_take]

@[simp] theorem dropDroppedTotal_makeDropNotice :
    (s.makeDropNotice pid now_ns dropped dropped_total).dropDroppedTotal = dropped_total := by
  rw [SecurityEvent.dropDroppedTotal, u_makeDropNotice, List.drop_left' (length_toLe _ _),
    ofNat_ofLe_take]

@[simp] theorem dropSentTotal_makeDropNotice :
    (s.makeDropNotice pid now_ns dropped dropped_total).dropSentTotal = s.sent := by
  rw [SecurityEvent.dropSentTotal, u_makeDropNotice, ← List.append_assoc,
    List.drop_left' (by rw [List.length_append, length_toLe, length_toLe]), ofNat_ofLe_take]

end

end ChannelSink

namespace System

variable {A : Gcm} {fd : Outgoing} {sender : RecordSender} {capacity : ℕ} {s s' : System}

/-! ## 2. Where the drops are -/

/-- The `dropped` fields of the notices among these records. -/
def reports (log : List Sent) : List UInt64 :=
  (log.filter (·.isNotice)).map (·.event.dropDropped)

/-- The count of the notice being made: taken under the lock, not sent yet. -/
def inFlight (s : System) : UInt64 :=
  match s.pc with
  | .sending _ report _ => report
  | .notifying report _ => report
  | _ => 0

theorem reports_append (log log' : List Sent) : reports (log ++ log') =
    reports log ++ reports log' := by
  rw [reports, List.filter_append, List.map_append, reports, reports]

/-- All drops by where they are, each count measured by `f`. -/
def account {M : Type} [AddCommMonoid M] (f : UInt64 → M) (s : System) : M :=
  ((reports s.log).map f).sum + f s.inFlight + f s.sink.dropped_pending

theorem Step.failed_eq_false (hstep : Step A s s') (hf : s'.failed = false) :
    s.failed = false := by
  cases hstep with
  | eventFails hpc hsend => cases hf
  | noticeFails pid now_ns hpc hsend => cases hf
  | take hpc hwait =>
    rw [System.taken] at hf
    split at hf <;> exact hf
  | _ => exact hf

/-! ### A step moves counts -/

section

variable {M : Type} [AddCommMonoid M] {f : UInt64 → M}

theorem account_taken (h0 : f 0 = 0) (hpc : s.pc = .waiting) : s.taken.account f = s.account f := by
  have hnone : s.account f = ((reports s.log).map f).sum + f s.sink.dropped_pending := by
    rw [account, inFlight, hpc, h0, add_zero]
  rw [hnone]
  rcases s.taken_cases with ⟨-, heq⟩ | ⟨ev, q, -, ⟨-, -, heq⟩ | ⟨-, heq⟩⟩
  all_goals simp only [heq, account, inFlight, h0, add_zero]

theorem account_sentRecord_event {ev : SecurityEvent} {report total : UInt64} (record : Bytes)
    (hpc : s.pc = .sending ev report total) (fd' : Outgoing) (sender' : RecordSender)
    (sent : UInt64) : (s.sentRecord { s.sink with fd := fd', sender := sender', sent := sent }
      (if report > 0 then .notifying report total else .waiting) ⟨false, ev, record⟩).account f =
      s.account f := by
  have hreports : reports (s.log ++ [⟨false, ev, record⟩]) = reports s.log := by
    rw [reports_append]
    exact List.append_nil _
  have hflight : s.inFlight = report := by rw [inFlight, hpc]
  rw [System.sentRecord, account, account, hreports, hflight]
  by_cases hreport : report > 0
  · simp only [inFlight, if_pos hreport]
  · have hzero : report = 0 := UInt64.le_zero_iff.mp (UInt64.not_lt.mp hreport)
    rw [if_neg hreport, hzero]
    rfl

theorem account_sentRecord_notice (h0 : f 0 = 0) {report total : UInt64} (pid : UInt32)
    (now_ns : UInt64) (record : Bytes) (hpc : s.pc = .notifying report total)
    (fd' : Outgoing) (sender' : RecordSender) (sent : UInt64) :
    (s.sentRecord { s.sink with fd := fd', sender := sender', sent := sent } .waiting
      ⟨true, s.sink.makeDropNotice pid now_ns report total, record⟩).account f = s.account f := by
  have hreports : reports (s.log ++ [⟨true, s.sink.makeDropNotice pid now_ns report total,
      record⟩]) = reports s.log ++ [report] := by
    rw [reports_append]
    exact congrArg (reports s.log ++ [·]) (ChannelSink.dropDropped_makeDropNotice ..)
  have hflight : s.inFlight = report := by rw [inFlight, hpc]
  rw [System.sentRecord, account, account, hreports, hflight, List.map_append, List.sum_append]
  simp only [inFlight, h0, add_zero, List.map_cons, List.map_nil, List.sum_cons, List.sum_nil]

/-- A drop becomes pending, and every other step moves counts only. -/
theorem Step.account_cases (h0 : f 0 = 0) (hfifo : Fifo capacity s) (hstep : Step A s s')
    (hf : s'.failed = false) :
    (s'.drops = s.drops ∧ s'.sink.dropped = s.sink.dropped ∧ s'.account f = s.account f) ∨
    (s'.drops = s.drops + 1 ∧ s'.sink.dropped = s.sink.dropped + 1 ∧
      s'.sink.dropped_pending = s.sink.dropped_pending + 1 ∧ s'.log = s.log ∧
      s'.inFlight = s.inFlight) := by
  have halive := hstep.failed_eq_false hf
  cases hstep with
  | handle ev hstop =>
    rcases handled_cases (hfifo.of_alive halive).2.1 ev with ⟨-, -, hd, hs⟩ | ⟨-, -, hd, hs⟩
    · exact Or.inl ⟨hd, by rw [hs], by rw [account, hs]; rfl⟩
    · exact Or.inr ⟨hd, by rw [hs], by rw [hs], rfl, rfl⟩
  | destroy => exact Or.inl ⟨rfl, rfl, rfl⟩
  | take hpc hwait =>
    refine Or.inl ⟨?_, ?_, account_taken h0 hpc⟩
    all_goals rcases s.taken_cases with ⟨-, heq⟩ | ⟨ev, q, -, ⟨-, -, heq⟩ | ⟨-, heq⟩⟩ <;> rw [heq]
  | event hpc hsend =>
    obtain ⟨sender', fd', -, -, rfl⟩ := ChannelSink.sendOne_eq_ok hsend
    exact Or.inl ⟨rfl, rfl, account_sentRecord_event _ hpc fd' sender' _⟩
  | notice pid now_ns hpc hsend =>
    obtain ⟨sender', fd', -, -, rfl⟩ := ChannelSink.sendOne_eq_ok hsend
    exact Or.inl ⟨rfl, rfl, account_sentRecord_notice h0 pid now_ns _ hpc fd' sender' _⟩
  | eventFails hpc hsend => cases hf
  | noticeFails pid now_ns hpc hsend => cases hf
  | setBroken hpc => exact absurd hpc (hfifo.of_alive halive).2.2

end

/-! ## 3. Nothing is missing -/

/-- The code's counter, in its own arithmetic. -/
theorem Reachable.dropped_eq (h : Reachable A fd sender capacity s) (hf : s.failed = false) :
    s.sink.dropped = s.account id ∧ s.sink.dropped = UInt64.ofNat s.drops := by
  induction h with
  | refl => exact ⟨rfl, rfl⟩
  | @tail s s' hrun hstep ih =>
    obtain ⟨haccount, hdrops⟩ := ih (hstep.failed_eq_false hf)
    rcases hstep.account_cases (f := id) rfl (Reachable.fifo hrun) hf with
      ⟨hd, hdropped, hsame⟩ | ⟨hd, hdropped, hpending, hlog, hflight⟩
    · rw [hd, hdropped, hsame]
      exact ⟨haccount, hdrops⟩
    · refine ⟨?_, ?_⟩
      · rw [hdropped, haccount, account, account, hpending, hlog, hflight, id, id, id,
          UInt64.add_assoc]
      · rw [hd, hdropped, hdrops, UInt64.ofNat_add]
        rfl

/-- The same in the natural numbers, for as long as the counters can count. -/
theorem Reachable.drops_eq (h : Reachable A fd sender capacity s) (hf : s.failed = false)
    (hlt : s.drops < 2 ^ 64) : s.drops = s.account UInt64.toNat := by
  induction h with
  | refl => rfl
  | @tail s s' hrun hstep ih =>
    have hf' := hstep.failed_eq_false hf
    rcases hstep.account_cases (f := UInt64.toNat) rfl (Reachable.fifo hrun) hf with
      ⟨hd, -, hsame⟩ | ⟨hd, -, hpending, hlog, hflight⟩
    · rw [hd, hsame]
      exact ih hf' (hd ▸ hlt)
    · have haccount := ih hf' (by omega)
      have hstep : (s.sink.dropped_pending + 1).toNat = s.sink.dropped_pending.toNat + 1 := by
        rw [account] at haccount
        rw [UInt64.toNat_add, UInt64.toNat_one, Nat.mod_eq_of_lt (by omega)]
      rw [hd, haccount, account, account, hpending, hlog, hflight, hstep]
      omega

/-- While a drop is pending the queue is more than half full. -/
theorem Reachable.pending (h : Reachable A fd sender capacity s) (hcap : 0 < capacity)
    (hpending : s.sink.dropped_pending ≠ 0) : capacity / 2 < s.sink.q.length := by
  induction h with
  | refl => exact absurd rfl hpending
  | @tail s s' hrun hstep ih =>
    have hcapacity := (Reachable.fifo hrun).capacity_eq
    cases hstep with
    | handle ev hstop =>
      rw [System.handled] at hpending ⊢
      rcases s.sink.handle_cases ev with ⟨-, heq⟩ | ⟨-, hfull, heq⟩ | ⟨-, -, heq⟩
      · rw [heq] at hpending ⊢
        exact ih hpending
      · rw [heq]
        exact Nat.lt_of_lt_of_le (Nat.div_lt_self hcap (by decide)) (hcapacity ▸ hfull)
      · rw [heq] at hpending ⊢
        rw [List.length_append]
        exact Nat.lt_add_right _ (ih hpending)
    | take hpc hwait =>
      rcases s.taken_cases with ⟨-, heq⟩ | ⟨ev, q, -, ⟨-, -, heq⟩ | ⟨hno, heq⟩⟩
      · rw [heq] at hpending ⊢
        exact ih hpending
      · -- the count was taken
        rw [heq] at hpending
        exact absurd rfl hpending
      · -- the count was left, so the queue is still long
        rw [heq] at hpending ⊢
        refine Nat.lt_of_not_le fun hle => hno ⟨?_, hcapacity ▸ hle⟩
        exact UInt64.pos_iff_ne_zero.mpr hpending
    | destroy => exact ih hpending
    | setBroken hpc => exact ih hpending
    | event hpc hsend | notice pid now_ns hpc hsend =>
      obtain ⟨sender', fd', -, -, rfl⟩ := ChannelSink.sendOne_eq_ok hsend
      exact ih hpending
    | eventFails hpc hsend | noticeFails pid now_ns hpc hsend =>
      obtain ⟨sender', fd', rfl, -⟩ := ChannelSink.sendOne_eq_error hsend
      exact ih hpending

/-! ## 4. The totals in the notices -/

/-- The notice at each place of the log carries what was reported up to it and what was sent
before it. -/
def TotalsRight (log : List Sent) : Prop :=
  ∀ i r, log[i]? = some r → r.isNotice = true →
    r.event.type = PQSEC_EVT_AGENT_DROP ∧
      r.event.dropDroppedTotal = (reports (log.take (i + 1))).sum ∧
      r.event.dropSentTotal = UInt64.ofNat i

/-- The total that goes with the notice being made. -/
def TotalInHand (s : System) : Prop :=
  match s.pc with
  | .sending _ report total => 0 < report → total = (reports s.log).sum + report
  | .notifying report total => 0 < report ∧ total = (reports s.log).sum + report
  | _ => True

structure Totals (s : System) : Prop where
  sent_eq : s.sink.sent = UInt64.ofNat s.log.length
  inHand : s.TotalInHand
  right : TotalsRight s.log

theorem TotalsRight.append {log : List Sent} (h : TotalsRight log) {r : Sent}
    (hr : r.isNotice = true → r.event.type = PQSEC_EVT_AGENT_DROP ∧
      r.event.dropDroppedTotal = (reports (log ++ [r])).sum ∧
      r.event.dropSentTotal = UInt64.ofNat log.length) : TotalsRight (log ++ [r]) := by
  intro i e hi hnotice
  rcases Nat.lt_or_ge i log.length with hlt | hge
  · rw [List.getElem?_append_left hlt] at hi
    rw [List.take_append_of_le_length hlt]
    exact h i e hi hnotice
  · rw [List.getElem?_append_right hge, List.getElem?_singleton] at hi
    split at hi
    · obtain rfl := Option.some.inj hi
      have hieq : i = log.length := by omega
      rw [hieq, List.take_of_length_le (by simp)]
      exact hr hnotice
    · cases hi

theorem ofNat_length_concat (log : List Sent) (r : Sent) :
    UInt64.ofNat log.length + 1 = UInt64.ofNat (log ++ [r]).length := by
  rw [List.length_append, List.length_singleton, UInt64.ofNat_add]
  rfl

theorem Totals.event (h : Totals s) {ev : SecurityEvent} {report total : UInt64} (record : Bytes)
    (hpc : s.pc = .sending ev report total) (fd' : Outgoing) (sender' : RecordSender) :
    Totals (s.sentRecord { s.sink with fd := fd', sender := sender', sent := s.sink.sent + 1 }
      (if report > 0 then .notifying report total else .waiting) ⟨false, ev, record⟩) := by
  have hreports : reports (s.log ++ [⟨false, ev, record⟩]) = reports s.log := by
    rw [reports_append]
    exact List.append_nil _
  have hhand := h.inHand
  rw [TotalInHand, hpc] at hhand
  refine ⟨?_, ?_, ?_⟩
  · exact (congrArg (· + 1) h.sent_eq).trans (ofNat_length_concat _ _)
  · rw [System.sentRecord, TotalInHand]
    by_cases hreport : report > 0
    · rw [if_pos hreport]
      exact ⟨hreport, by rw [hreports]; exact hhand hreport⟩
    · rw [if_neg hreport]
      exact trivial
  · refine h.right.append ?_
    intro hnotice
    cases hnotice

theorem Totals.notice (h : Totals s) {report total : UInt64} (pid : UInt32) (now_ns : UInt64)
    (record : Bytes) (hpc : s.pc = .notifying report total) (fd' : Outgoing)
    (sender' : RecordSender) : Totals
    (s.sentRecord { s.sink with fd := fd', sender := sender', sent := s.sink.sent + 1 } .waiting
      ⟨true, s.sink.makeDropNotice pid now_ns report total, record⟩) := by
  have hhand := h.inHand
  rw [TotalInHand, hpc] at hhand
  refine ⟨?_, trivial, h.right.append fun _ => ⟨rfl, ?_, ?_⟩⟩
  · exact (congrArg (· + 1) h.sent_eq).trans (ofNat_length_concat _ _)
  · rw [ChannelSink.dropDroppedTotal_makeDropNotice, hhand.2, reports_append, List.sum_append]
    refine congrArg (_ + ·) ?_
    exact ((add_zero _).trans (ChannelSink.dropDropped_makeDropNotice ..)).symm
  · rw [ChannelSink.dropSentTotal_makeDropNotice, h.sent_eq]

/-- A step that sends nothing and leaves the sender thread where it is. -/
theorem Totals.of_eq (h : Totals s) (hsent : s'.sink.sent = s.sink.sent) (hlog : s'.log = s.log)
    (hhand : s'.TotalInHand) : Totals s' :=
  ⟨by rw [hsent, hlog, h.sent_eq], hhand, by rw [hlog]; exact h.right⟩

theorem Totals.taken (h : Totals s) (hpc : s.pc = .waiting)
    (hdropped : s.sink.dropped = s.account id) : Totals s.taken := by
  rcases s.taken_cases with ⟨-, heq⟩ | ⟨ev, q, -, ⟨-, -, heq⟩ | ⟨-, heq⟩⟩
  · rw [heq]
    exact h.of_eq rfl rfl trivial
  · rw [heq]
    refine h.of_eq rfl rfl ?_
    intro _
    rw [hdropped, account, inFlight, hpc, List.map_id, id, id, add_zero]
  · rw [heq]
    exact h.of_eq rfl rfl fun hreport => absurd hreport (by decide)

theorem Totals.step (h : Totals s) (hrun : Reachable A fd sender capacity s)
    (hstep : Step A s s') : Totals s' := by
  cases hstep with
  | handle ev hstop =>
    refine h.of_eq ?_ rfl h.inHand
    rw [System.handled]
    rcases s.sink.handle_cases ev with ⟨-, heq⟩ | ⟨-, -, heq⟩ | ⟨-, -, heq⟩ <;> rw [heq]
  | destroy => exact h.of_eq rfl rfl h.inHand
  | take hpc hwait =>
    have halive := hrun.fifo.alive (by simp [hpc]) (by simp [hpc])
    exact h.taken hpc (hrun.dropped_eq halive).1
  | event hpc hsend =>
    obtain ⟨sender', fd', -, -, rfl⟩ := ChannelSink.sendOne_eq_ok hsend
    exact h.event _ hpc fd' sender'
  | notice pid now_ns hpc hsend =>
    obtain ⟨sender', fd', -, -, rfl⟩ := ChannelSink.sendOne_eq_ok hsend
    exact h.notice pid now_ns _ hpc fd' sender'
  | eventFails hpc hsend | noticeFails pid now_ns hpc hsend =>
    obtain ⟨sender', fd', rfl, -⟩ := ChannelSink.sendOne_eq_error hsend
    exact h.of_eq rfl rfl trivial
  | setBroken hpc => exact h.of_eq rfl rfl trivial

theorem Reachable.totals (h : Reachable A fd sender capacity s) : Totals s := by
  induction h with
  | refl => exact ⟨rfl, trivial, fun i r hi => by cases hi⟩
  | tail hrun hstep ih => exact ih.step hrun hstep

/-- The counter of records does not wrap: the nonces run out first. -/
theorem Reachable.length_log_lt (h : Reachable A fd sender capacity s) : s.log.length < 2 ^ 64 := by
  have hlen := congrArg List.length h.sealed.records_eq
  rw [List.length_map, List.length_map] at hlen
  rw [← hlen]
  exact length_sealAll_lt A _ sender

/-! ## 5. Every drop is reported once -/

theorem toNat_sum (l : List UInt64) : l.sum.toNat = (l.map UInt64.toNat).sum % 2 ^ 64 := by
  induction l with
  | nil => rfl
  | cons n l ih =>
    rw [List.sum_cons, UInt64.toNat_add, ih, List.map_cons, List.sum_cons, Nat.add_mod_mod]

/-- In every interleaving in which no send has failed: `dropped_` is what the notices sent have
reported, what the notice in the making reports, and what is pending; a pending count keeps the
queue nonempty, so that nothing is unreported when the sender thread leaves; and the totals of
every notice are right.  The notices are those on the wire: what the socket has taken is the seals
of the events of the log, whole and in its order.  Where fewer than 2^64 events were dropped, no
counter has wrapped. -/
theorem every_drop_reported (A : Gcm) (fd : Outgoing) (sender : RecordSender) (capacity : ℕ)
    (hcap : 1 ≤ capacity) (s : System) (h : Reachable A fd sender capacity s)
    (hf : s.failed = false) :
    (s.sink.fd.wire = fd.wire ++
        ((sealAll A (s.log.map (·.event.toBytes)) sender).1.map (·.record)).flatten ∧
      (sealAll A (s.log.map (·.event.toBytes)) sender).1.map (·.plaintext) =
        s.log.map (·.event.toBytes)) ∧
    s.sink.dropped = (reports s.log).sum + s.inFlight + s.sink.dropped_pending ∧
    (s.pc = .waiting → s.sink.dropped = (reports s.log).sum + s.sink.dropped_pending) ∧
    s.sink.dropped = UInt64.ofNat s.drops ∧
    (s.sink.dropped_pending > 0 → s.sink.q ≠ []) ∧
    (s.pc = .exited → s.sink.dropped_pending = 0 ∧ s.sink.dropped = (reports s.log).sum) ∧
    (∀ i r, s.log[i]? = some r → r.isNotice = true →
      r.event.type = PQSEC_EVT_AGENT_DROP ∧
        r.event.dropDroppedTotal = (reports (s.log.take (i + 1))).sum ∧
        r.event.dropSentTotal.toNat = i) ∧
    (s.drops < 2 ^ 64 →
      s.drops = ((reports s.log).map UInt64.toNat).sum + s.inFlight.toNat +
        s.sink.dropped_pending.toNat ∧
      ∀ i, (reports (s.log.take i)).sum.toNat =
        ((reports (s.log.take i)).map UInt64.toNat).sum) := by
  obtain ⟨hdropped, hdrops⟩ := h.dropped_eq hf
  rw [account, List.map_id] at hdropped
  have hqueue : s.sink.dropped_pending > 0 → s.sink.q ≠ [] := by
    intro hpending hq
    have hlen := h.pending hcap (UInt64.pos_iff_ne_zero.mp hpending)
    rw [hq] at hlen
    exact absurd hlen (Nat.not_lt_zero _)
  refine ⟨⟨?_, plaintexts_log h⟩, hdropped, ?_, hdrops, hqueue, ?_, ?_, ?_⟩
  · rw [h.sealed.records_eq, h.wired.alive hf, recordBytes]
  · intro hpc
    rw [hdropped, inFlight, hpc]
    exact congrArg (· + _) (add_zero _)
  · intro hpc
    have hq := (h.fifo.of_exited hf hpc).2
    have hpending : s.sink.dropped_pending = 0 := by
      by_contra hne
      exact hqueue (UInt64.pos_iff_ne_zero.mpr hne) hq
    refine ⟨hpending, ?_⟩
    rw [hdropped, hpending, inFlight, hpc]
    exact (add_zero _).trans (add_zero _)
  · intro i r hi hnotice
    obtain ⟨htype, htotal, hsent⟩ := h.totals.right i r hi hnotice
    have hlt := (List.getElem?_eq_some_iff.mp hi).1
    refine ⟨htype, htotal, ?_⟩
    rw [hsent, UInt64.toNat_ofNat_of_lt' (Nat.lt_trans hlt h.length_log_lt)]
  · intro hlt
    have heq := h.drops_eq hf hlt
    refine ⟨heq, fun i => ?_⟩
    have hsplit : reports s.log = reports (s.log.take i) ++ reports (s.log.drop i) := by
      rw [← reports_append, List.take_append_drop]
    rw [account, hsplit, List.map_append, List.sum_append] at heq
    rw [toNat_sum, Nat.mod_eq_of_lt]
    exact Nat.lt_of_le_of_lt (by omega) hlt

theorem every_drop_reported_drained :
    drained.drops = 1 ∧ reports drained.log = [1] ∧ drained.sink.dropped_pending = 0 ∧
      drained.sink.dropped = (reports drained.log).sum ∧ drained.sink.fd.wire =
        ((sealAll (tableGcm []) (drained.log.map (·.event.toBytes)) zeroSender).1.map
          (·.record)).flatten := by
  obtain ⟨⟨hwire, -⟩, -, -, -, -, hexit, -⟩ := every_drop_reported (tableGcm []) _ zeroSender 1
    (by decide) drained reachable_drained (by decide +kernel)
  obtain ⟨hpending, hdropped⟩ := hexit (by decide +kernel)
  have htaken := hwire.trans (List.nil_append _)
  exact ⟨by decide +kernel, by decide +kernel, hpending, hdropped, htaken⟩

end System

end PqcEdr.Agent
