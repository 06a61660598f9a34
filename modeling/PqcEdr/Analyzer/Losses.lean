/-
# What the log says was lost

The agent drops events when its queue is full and tells the analyzer how many; the analyzer turns
each notice into an alert.  So whoever has nothing but the daemon's standard output can say how
many events are missing from it.

* `losses_of_lines`: the lines that tell of a loss are those of the notices, with their counts; no
  other alert is taken for one, whatever its texts hold.
* `losses_logged`: in a session that ends well, the events that were classified and the losses that
  the log tells of are all the events that the sink was handed.
-/
import PqcEdr.Analyzer.Defined

/-! ## 1. What the sink was handed -/

namespace PqcEdr.Agent.System

open Crypto

variable {A : Gcm} {fd : Outgoing} {sender : RecordSender} {capacity : ℕ} {s : System} {evs : List SecurityEvent}

/-- A run of the sink, with the events that `handle` was called with. -/
inductive Offered (A : Gcm) (fd : Outgoing) (sender : RecordSender) (capacity : ℕ) :
    List SecurityEvent → System → Prop
  | start : Offered A fd sender capacity [] (start fd sender capacity)
  | handle {evs : List SecurityEvent} {s : System} (h : Offered A fd sender capacity evs s)
      (ev : SecurityEvent) (hstop : s.sink.stop = false) :
      Offered A fd sender capacity (evs ++ [ev]) (s.handled ev)
  /-- A step of the sender thread or of the destructor. -/
  | other {evs : List SecurityEvent} {s s' : System} (h : Offered A fd sender capacity evs s)
      (hstep : Step A s s') (hkeep : s'.pushed = s.pushed ∧ s'.drops = s.drops) :
      Offered A fd sender capacity evs s'

theorem Offered.reachable (h : Offered A fd sender capacity evs s) :
    Reachable A fd sender capacity s := by
  induction h with
  | start => exact .refl
  | handle _ ev hstop ih => exact ih.tail (.handle _ ev hstop)
  | other _ hstep _ ih => exact ih.tail hstep

/-- While nothing has failed, each of the events was pushed, in order, or is one drop. -/
theorem Offered.split (h : Offered A fd sender capacity evs s) (hf : s.failed = false) :
    s.pushed.Sublist evs ∧ evs.length = s.pushed.length + s.drops := by
  induction h with
  | start => exact ⟨.slnil, rfl⟩
  | @handle evs s h ev hstop ih =>
    obtain ⟨hsub, hlen⟩ := ih hf
    rw [List.length_append, List.length_singleton]
    rcases handled_cases (h.reachable.fifo.of_alive hf).2.1 ev with
      ⟨-, hp, hd, -⟩ | ⟨-, hp, hd, -⟩
    · rw [hp, hd, List.length_append, List.length_singleton]
      exact ⟨hsub.append (List.Sublist.refl _), by omega⟩
    · rw [hp, hd]
      exact ⟨hsub.trans (List.sublist_append_left _ _), by omega⟩
  | other _ hstep hkeep ih =>
    rw [hkeep.1, hkeep.2]
    exact ih (hstep.failed_eq_false hf)

/-- Once the sender thread has left without a failure, all that was dropped is reported. -/
theorem Reachable.drops_eq_reports (h : Reachable A fd sender capacity s) (hcap : 0 < capacity)
    (hf : s.failed = false) (hpc : s.pc = .exited) (hlt : s.drops < 2 ^ 64) :
    s.drops = ((reports s.log).map UInt64.toNat).sum := by
  have hq := (h.fifo.of_exited hf hpc).2
  have hpending : s.sink.dropped_pending = 0 := by
    by_contra hne
    have hlen := h.pending hcap hne
    rw [hq] at hlen
    exact absurd hlen (Nat.not_lt_zero _)
  rw [h.drops_eq hf hlt, account, inFlight, hpc, hpending]
  rfl

end PqcEdr.Agent.System

namespace PqcEdr.Analyzer

open Crypto Agent
open TextInput (isDigit ofDigits lines)
open EventsFile (digits_decimal ofDigits_decimal)

/-! ## 2. Reading the log -/

/-- The words of a notice's reason up to its count. -/
def dropNoticeHead : Bytes := lit "agent 백프레셔 드롭: 이 구간에서 "

/-- The count behind these words. -/
def readLoss (reason : Bytes) : Option ℕ :=
  if reason.take dropNoticeHead.length = dropNoticeHead then
    some (ofDigits ((reason.drop dropNoticeHead.length).takeWhile isDigit))
  else none

/-- The text at a key. -/
def textAt (key : String) (fields : List (Bytes × Scalar)) : Bytes :=
  match fields.find? (·.1 = lit key) with
  | some (_, .text s) => s
  | _ => []

/-- The loss that a line tells of, if it is one of the agent's. -/
def lineLoss (line : Bytes) : Option ℕ :=
  match readObject line with
  | some fields =>
    if textAt "source" fields = lit "agent" then readLoss (textAt "reason" fields) else none
  | none => none

/-- The losses that a log tells of. -/
def losses (out : Bytes) : List ℕ := (lines out).filterMap lineLoss

/-! ## 3. The alert of a notice -/

theorem valid_decimal (n : ℕ) : Utf8.Valid (decimal n) := by
  refine Utf8.valid_iff_wellFormed.mpr ?_
  have hall : ∀ c ∈ decimal n, Utf8.followers c = some [] := by
    intro c hc
    have hc := mem_decimal hc
    rw [Utf8.followers_eq, if_pos (by omega)]
  generalize decimal n = d at hall
  induction d with
  | nil => exact .nil
  | cons c d ih =>
    rw [List.forall_mem_cons] at hall
    exact Utf8.wellFormed_char hall.1 .nil |>.append (ih hall.2)

/-- The buffer is long enough for the three counts. -/
theorem dropNoticeReason_eq (ev : SecurityEvent) : dropNoticeReason ev =
    dropNoticeHead ++ decimal ev.dropDropped.toNat ++ (lit "개 이벤트 유실 (누적 " ++
      decimal ev.dropDroppedTotal.toNat ++ lit ", 전송 " ++ decimal ev.dropSentTotal.toNat ++
      lit ") — 탐지 공백 가능") := by
  have hcount (v : UInt64) : (decimal v.toNat).length ≤ 20 :=
    EventsFile.length_decimal_le (by decide) (v.toNat_lt.trans_le (by decide))
  have h₁ := hcount ev.dropDropped
  have h₂ := hcount ev.dropDroppedTotal
  have h₃ := hcount ev.dropSentTotal
  have hhead : (lit "agent 백프레셔 드롭: 이 구간에서 ").length ≤ 45 := by decide
  have hlost : (lit "개 이벤트 유실 (누적 ").length ≤ 30 := by decide
  have hsent : (lit ", 전송 ").length ≤ 10 := by decide
  have hend : (lit ") — 탐지 공백 가능").length ≤ 30 := by decide
  rw [dropNoticeReason, snprintf, List.take_of_length_le]
  · simp [dropNoticeHead]
  · simp only [List.flatten_cons, List.flatten_nil, List.length_append, List.append_nil]
    omega

theorem valid_dropNoticeReason (ev : SecurityEvent) : Utf8.Valid (dropNoticeReason ev) := by
  rw [dropNoticeReason_eq]
  exact ((valid_lit _).append (valid_decimal _)).append
    (((((valid_lit _).append (valid_decimal _)).append (valid_lit _)).append
      (valid_decimal _)).append (valid_lit _))

theorem readLoss_dropNoticeReason (ev : SecurityEvent) :
    readLoss (dropNoticeReason ev) = some ev.dropDropped.toNat := by
  obtain ⟨c, rest, hrest, hc⟩ : ∃ c rest, lit "개 이벤트 유실 (누적 " = c :: rest ∧
      isDigit c = false := ⟨_, _, rfl, by decide⟩
  rw [dropNoticeReason_eq, hrest, readLoss, List.append_assoc, List.take_left, if_pos rfl,
    List.drop_left]
  have htake := (TextInput.takeWhile_of_forall (digits_decimal ev.dropDropped.toNat).2
    (t := c :: rest ++ decimal ev.dropDroppedTotal.toNat ++ lit ", 전송 " ++
      decimal ev.dropSentTotal.toNat ++ lit ") — 탐지 공백 가능") (by simpa using hc)).1
  rw [htake, ofDigits_decimal]

/-- No other branch names the agent as the source. -/
theorem source_judge {L : LlmClient} {ev : SecurityEvent} {summary : Bytes} {pr : PrefilterResult}
    {ch : CorrelationHit} {llm : L.State} {corr : Correlator} :
    (judge L ev summary pr ch llm corr).outcome.alert.source ≠ "agent" := by
  have hrule : "rule+" ++ ch.rule ≠ "agent" := by
    intro h
    have hchars := congrArg String.toList h
    rw [String.toList_append] at hchars
    simp at hchars
  have hothers : "" ≠ "agent" ∧ "rule" ≠ "agent" ∧ "sonnet" ≠ "agent" := by decide
  have hsonnet : ch.rule ++ "+sonnet" ≠ "agent" := by
    intro h
    have hlen := congrArg String.length h
    rw [String.length_append] at hlen
    have h₁ : "+sonnet".length = 7 := by decide
    have h₂ : "agent".length = 5 := by decide
    omega
  unfold judge
  split
  · unfold judgeHit
    split
    · exact hrule
    · exact hsonnet
  · split
    · exact hothers.1
    · exact hothers.2.1
    · unfold judgeEscalated
      dsimp only
      split
      · exact hothers.1
      · exact hothers.2.2

/-- What `classify_event` makes of a notice, and of nothing else. -/
theorem source_of_classifyEvent {L : LlmClient} {ev : SecurityEvent} {llm : L.State}
    {corr : Correlator} {c : Classified L} (h : classifyEvent L ev llm corr = some c) :
    (isNoticeEvent ev = true ∧ c.outcome.alerted = true ∧ c.outcome.alert.source = "agent" ∧
        c.outcome.alert.reason = dropNoticeReason ev) ∨
      (isNoticeEvent ev = false ∧ c.outcome.alert.source ≠ "agent") := by
  unfold classifyEvent at h
  dsimp only at h
  split at h
  · next htype =>
    obtain rfl := Option.some.inj h
    exact Or.inl ⟨decide_eq_true htype, rfl, rfl, rfl⟩
  · next htype =>
    split at h
    · cases h
    · obtain rfl := Option.some.inj h
      exact Or.inr ⟨decide_eq_false htype, source_judge⟩

/-! ## 4. The losses of a log -/

theorem textAt_of_readsAs {ts : Int64} {a : Alert} {fields : List (Bytes × Scalar)}
    (h : ReadsAs ts a fields) : textAt "source" fields = lit a.source ∧
      (Utf8.Valid a.reason → textAt "reason" fields = a.reason) := by
  obtain ⟨comm, event, reason, -, -, hreason, rfl⟩ := h
  have hkeys : lit "comm" ≠ lit "source" ∧ lit "event" ≠ lit "source" ∧
      lit "pid" ≠ lit "source" ∧ lit "reason" ≠ lit "source" ∧ lit "severity" ≠ lit "source" ∧
      lit "comm" ≠ lit "reason" ∧ lit "event" ≠ lit "reason" ∧ lit "pid" ≠ lit "reason" := by
    decide
  obtain ⟨h₁, h₂, h₃, h₄, h₅, h₆, h₇, h₈⟩ := hkeys
  refine ⟨by simp [textAt, h₁, h₂, h₃, h₄, h₅], fun hvalid => ?_⟩
  rw [← hreason.2 hvalid]
  simp [textAt, h₆, h₇, h₈]

theorem lit_injective {s t : String} (h : lit s = lit t) : s = t :=
  String.toByteArray_inj.mp (ByteArray.ext (Array.toList_inj.mp h))

/-- A line that reads as an alert, and the loss that it tells of. -/
theorem lineLoss_of_readsAs {line : Bytes} {ts : Int64} {a : Alert}
    (h : ∃ fields, readObject line = some fields ∧ ReadsAs ts a fields) :
    (a.source ≠ "agent" → lineLoss line = none) ∧
      (a.source = "agent" → Utf8.Valid a.reason → lineLoss line = readLoss a.reason) := by
  obtain ⟨fields, hread, hfields⟩ := h
  obtain ⟨hsource, hreason⟩ := textAt_of_readsAs hfields
  unfold lineLoss
  rw [hread]
  dsimp only
  rw [hsource]
  refine ⟨fun hne => if_neg fun h => hne (lit_injective h), fun heq hvalid => ?_⟩
  rw [heq, if_pos rfl, hreason hvalid]

/-- The counts of the notices in a stream. -/
def noticeCounts (evs : List SecurityEvent) : List ℕ :=
  (evs.filter isNoticeEvent).map (·.dropDropped.toNat)

/-- The lines of a stream's alerts tell of the losses that its notices count, and of no others. -/
theorem losses_of_lines {L : LlmClient} {time : ℕ → Int64} {evs : List SecurityEvent}
    {llm : L.State} {corr : Correlator} {cs : List (Classified L)} {k : ℕ} {ls : List Bytes}
    (h : classifyAll L evs llm corr = some cs)
    (hlines : List.Forall₂ (fun x line => ∃ fields, readObject line = some fields ∧
      ReadsAs x.1 x.2 fields) (stampedAlerts time k cs) ls) :
    ls.filterMap lineLoss = noticeCounts evs := by
  induction evs generalizing llm corr cs k ls with
  | nil =>
    cases h
    cases hlines
    rfl
  | cons ev evs ih =>
    unfold classifyAll at h
    split at h
    · cases h
    · next c hc =>
      split at h
      · cases h
      · next cs hcs =>
        obtain rfl := Option.some.inj h
        unfold stampedAlerts at hlines
        rcases source_of_classifyEvent hc with ⟨hnotice, halert, hsource, hreason⟩ |
          ⟨hnotice, hsource⟩
        · rw [if_pos halert] at hlines
          obtain ⟨line, ls, hline, hrest, rfl⟩ := List.forall₂_cons_left_iff.mp hlines
          have hvalid : Utf8.Valid c.outcome.alert.reason := hreason ▸ valid_dropNoticeReason ev
          have hloss := (lineLoss_of_readsAs hline).2 hsource hvalid
          rw [hreason, readLoss_dropNoticeReason] at hloss
          rw [List.filterMap_cons_some hloss, ih hcs hrest, noticeCounts, noticeCounts,
            List.filter_cons_of_pos hnotice, List.map_cons]
        · have hskip : noticeCounts (ev :: evs) = noticeCounts evs := by
            rw [noticeCounts, List.filter_cons_of_neg (by simp [hnotice]), noticeCounts]
          rw [hskip]
          split at hlines
          · obtain ⟨line, ls, hline, hrest, rfl⟩ := List.forall₂_cons_left_iff.mp hlines
            rw [List.filterMap_cons_none ((lineLoss_of_readsAs hline).1 hsource), ih hcs hrest]
          · exact ih hcs hlines

/-- What a handled stream adds to the log. -/
theorem Handled.losses {L : LlmClient} {time : ℕ → Int64} {evs : List SecurityEvent}
    {d d' : Analysis L}
    (h : Handled time d (classifyRun L evs d.llm d.corr) (some d')) :
    ∃ out, d'.printed.out = d.printed.out ++ out ∧ losses out = noticeCounts evs := by
  generalize hcs : classifyRun L evs d.llm d.corr = cs? at h
  cases h with
  | @done cs _ hlog =>
    refine ⟨_, hlog.out.symm.trans (out_after cs d), ?_⟩
    exact losses_of_lines (classifyAll_of_classifyRun hcs) (printedAlert_lines _)

/-! ## 5. A session -/

/-- The counts of a queue's log are what its notices report. -/
theorem noticeCounts_log {A : Gcm} {fd : Outgoing} {sender : RecordSender} {capacity : ℕ}
    {S : System} (h : System.Reachable A fd sender capacity S)
    (hkind : ∀ ev ∈ S.pushed, isNoticeEvent ev = false) :
    noticeCounts (S.log.map (·.event)) = (System.reports S.log).map UInt64.toNat := by
  rw [noticeCounts, System.reports, List.filter_map, List.map_map, List.map_map]
  exact congrArg (List.map _) (List.filter_congr (isNoticeEvent_log h hkind))

/-- **Every loss is told.**  An agent in any mode and a daemon that pin each other's keys, over
sockets that fail nothing, whatever the queue's capacity and however the threads interleave: when
the queue, which sends on the agent's socket, has been shut down without a failure, and the
daemon's socket has brought what the agent's has taken, the events that the daemon classified are
some of those that the sink was handed, in order, and the losses that the daemon's log tells of are
exactly the rest.  The kernel ends the names of its tasks, the agent's clock does not end within a
window, and no counter wraps. -/
theorem losses_logged (P : Primitives) (A : Gcm) (agent analyzer : Identity) (c c' : Coins)
    (hP : P.Correct) (hA : A.Correct)
    (hagent : P.dsa.IsKeyPair agent.sig_public agent.sig_secret)
    (hanalyzer : P.dsa.IsKeyPair analyzer.sig_public analyzer.sig_secret)
    (hpinClient : agent.peer_sig_public = analyzer.sig_public)
    (hpinServer : analyzer.peer_sig_public = agent.sig_public)
    {v v' : CharArray Wire.kRandomLen} (hv : c.random = some v) (hv' : c'.random = some v') :
    ∃ (client : Channel) (ch sh sa ca : Bytes), client.sender.seq = 0 ∧
      ∀ conn : Conn, conn.Unbroken → conn.outgoing.wire = [] →
        ∀ tail, conn.incoming.bytes = sh ++ sa ++ tail →
        ∃ conn', ((clientHandshake P agent c).via makeSocketTransport).call conn =
            (.ok client, conn') ∧ conn'.outgoing.Clean ∧ conn'.outgoing.wire = ch ++ ca ∧
          ∀ (src : Source) (capacity : ℕ) (S : System), src.NamesEnd →
            (∀ ev ∈ src.run.1, InTime ev) → src.run.1.length < 2 ^ 64 → 0 < capacity →
            System.Offered A conn'.outgoing client.sender capacity src.run.1 S →
            S.failed = false → S.pc = .exited →
          ∀ connD : Conn, connD.Unbroken → connD.incoming.bytes = S.sink.fd.wire →
          ∀ (L : LlmClient) (time : ℕ → Int64) (d : Analysis L), d.corr.window_ns = defaultWindow →
            ∃ d' classified out,
              serveAccepted P A analyzer time (.connection c' connD) d = some d' ∧
              (eventsOf (openedOn P A analyzer c' connD)).filter (!isNoticeEvent ·) = classified ∧
              classified.Sublist src.run.1 ∧ d'.printed.out = d.printed.out ++ out ∧
              classified.length + (losses out).sum = src.run.1.length := by
  obtain ⟨x⟩ := exists_exchange hP hagent hanalyzer hpinClient hpinServer hv hv'
  refine ⟨x.client.channel, x.client.ch_frame, x.client.sh_frame, x.client.sa_frame,
    x.client.ca_frame, x.mirrors.c2s_seq.1, ?_⟩
  intro conn h hfresh tail hbytes
  obtain ⟨conn', hcall, h', -, hwire⟩ := client_returns x h hbytes
  rw [hfresh, List.nil_append] at hwire
  refine ⟨conn', hcall, h'.outgoing, hwire, ?_⟩
  intro src capacity S hnames htime hlen hcap hoffered hf hpc connD hD hbytesD L time d hwindow
  have hS := hoffered.reachable
  obtain ⟨hsub, hsplit⟩ := hoffered.split hf
  have hkind : ∀ ev ∈ S.pushed, isNoticeEvent ev = false := fun ev hev =>
    decide_eq_false (type_of_source (hsub.subset hev))
  have hpushed : FromSource S := ⟨src, hnames, htime, fun ev hev => hsub.subset hev⟩
  have hanswerable : ∀ ev ∈ S.log.map (·.event), Answerable ev := by
    intro ev hev
    obtain ⟨r, hr, rfl⟩ := List.mem_map.mp hev
    exact log_answerable hS hpushed.answerable r hr
  obtain ⟨-, hevents⟩ := brings_events x hA hS h'.outgoing hwire hD hbytesD
  have hsent : (S.log.map (·.event)).filter (!isNoticeEvent ·) = S.pushed := by
    rw [filter_log hS hkind, sentEvents_eq_pushed hS hf hpc]
  have hhandled := serveAccepted_handled P A analyzer time (.connection c' connD) d
  rw [Accepted.opened, hevents] at hhandled
  obtain ⟨cs, hcs⟩ := classifyRun_defined L d.llm hanswerable hwindow
  rcases hserve : serveAccepted P A analyzer time (.connection c' connD) d with _ | d'
  · rw [hcs, hserve] at hhandled
    cases hhandled
  · rw [hserve] at hhandled
    obtain ⟨out, hout, hlosses⟩ := Handled.losses hhandled
    refine ⟨d', S.pushed, out, rfl, by rw [hevents, hsent], hsub, hout, ?_⟩
    rw [hlosses, noticeCounts_log hS hkind, ← hS.drops_eq_reports hcap hf hpc (by omega), hsplit]

/-! ### A queue that is too small -/

def firstEvent : SecurityEvent := SecurityEvent.synExecve (lit "bash") (lit "/bin/ls") 1 0 0

def lossySource : Source :=
  .replay (lit "execve 1 0 bash /bin/ls\nexecve 7 6 bash /tmp/x") "x" fun _ => 0

/-- The cipher of the stand-ins seals whatever fits a record, and such a socket takes it. -/
theorem exists_sendOne (s : ChannelSink) (hclean : s.fd.Clean) (hseq : s.sender.seq ≠ UINT64_MAX)
    (ev : SecurityEvent) : ∃ record fd, fd.Clean ∧ s.sendOne taggedGcm ev =
      (.ok record, { s with fd := fd, sender := s.sender.next, sent := s.sent + 1 }) := by
  obtain ⟨ct, tag, henc⟩ : ∃ ct tag, taggedGcm.encrypt s.sender.key
      (makeNonce s.sender.iv_base s.sender.seq) (recordHeader ev.toBytes.length) ev.toBytes =
        some (ct, tag) := ⟨_, _, rfl⟩
  have hseal := seal_eq_ok.mpr ⟨hseq, by rw [SecurityEvent.length_toBytes]; decide, ct, tag, henc,
    rfl, rfl⟩
  obtain ⟨hok, hclean'⟩ :=
    (writeAll_wrote s.fd (recordHeader ev.toBytes.length ++ (ct ++ tag))).ok hclean
  refine ⟨recordHeader ev.toBytes.length ++ (ct ++ tag), _, hclean', ?_⟩
  have hsent : (sendRecord (recordHeader ev.toBytes.length ++ (ct ++ tag))).call s.fd =
      (.ok (), ((writeAll (recordHeader ev.toBytes.length ++ (ct ++ tag))).call s.fd).2) :=
    Prod.ext hok rfl
  unfold ChannelSink.sendOne
  rw [hseal]
  dsimp only
  rw [hsent]

/-- A queue of one event is handed two: the second is dropped, the sender thread reports it, and
the destructor joins. -/
theorem exists_lossy {fd : Outgoing} (hclean : fd.Clean) {sender : RecordSender}
    (hseq : sender.seq = 0) : ∃ S,
      System.Offered taggedGcm fd sender 1 [firstEvent, oneEvent] S ∧ S.failed = false ∧
        S.pc = .exited := by
  let pushed := ((System.start fd sender 1).handled firstEvent).handled oneEvent
  have hpushed : System.Offered taggedGcm fd sender 1 [firstEvent, oneEvent] pushed :=
    (System.Offered.start.handle firstEvent rfl).handle oneEvent rfl
  have hwait : pushed.sink.q ≠ [] := List.cons_ne_nil firstEvent []
  have htaken := hpushed.other (.take pushed rfl (Or.inr hwait)) ⟨rfl, rfl⟩
  have hseq₀ : pushed.taken.sink.sender.seq = 0 := hseq
  obtain ⟨record, fd₁, hclean₁, hsend⟩ :=
    exists_sendOne pushed.taken.sink hclean (by rw [hseq₀]; decide) firstEvent
  have hevent := htaken.other (.event rfl hsend) ⟨rfl, rfl⟩
  have hstop := hevent.other (.destroy _) ⟨rfl, rfl⟩
  have hseq₁ : pushed.taken.sink.sender.next.seq = 1 := by
    rw [RecordSender.next, hseq₀]
    rfl
  -- the sink once the first event is sent and the destructor waits
  let stopped : ChannelSink :=
    { pushed.taken.sink with
      fd := fd₁
      sender := pushed.taken.sink.sender.next
      sent := 1
      stop := true }
  obtain ⟨record', fd₂, -, hsend'⟩ :=
    exists_sendOne stopped hclean₁ (by rw [hseq₁]; decide) (stopped.makeDropNotice 1 0 1 1)
  have hnotice := hstop.other (.notice 1 0 rfl hsend') ⟨rfl, rfl⟩
  have hexit := hnotice.other (.take _ rfl (Or.inl rfl)) ⟨rfl, rfl⟩
  exact ⟨_, hexit, rfl, rfl⟩

theorem losses_logged_lossy : ∃ (connD : Conn) (d : Analysis (constClient {})),
    ((eventsOf (openedOn paddedStandIn taggedGcm analyzerId (coinsOf 4) connD)).filter
      (!isNoticeEvent ·)).length + (losses d.printed.out).sum = 2 := by
  obtain ⟨client, ch, sh, sa, ca, hseq, hagent⟩ :=
    losses_logged paddedStandIn taggedGcm agentId analyzerId (coinsOf 3) (coinsOf 4)
      paddedStandIn_correct taggedGcm_correct (standIn_isKeyPair 1) (standIn_isKeyPair 2) rfl rfl
      rfl rfl
  obtain ⟨conn', -, hclean, -, hlosses⟩ := hagent (agentConn (sh ++ sa)) (agentConn_unbroken _) rfl
    [] ((bytes_connOf _).trans (List.append_nil _).symm)
  obtain ⟨S, hoffered, hf, hpc⟩ := exists_lossy hclean hseq
  have hrun : lossySource.run.1 = [firstEvent, oneEvent] := by decide +kernel
  obtain ⟨d', classified, out, -, hopened, -, hout, hsum⟩ :=
    hlosses lossySource 1 S trivial (by rw [hrun]; decide) (by rw [hrun]; decide) one_pos
      (hrun ▸ hoffered) hf hpc (connOf _) (connOf_unbroken _) (bytes_connOf _) (constClient {})
      (fun _ => 0) (Analysis.start ()) rfl
  refine ⟨connOf S.sink.fd.wire, d', ?_⟩
  rw [hopened, hout]
  exact hsum.trans (congrArg List.length hrun)

end PqcEdr.Analyzer
