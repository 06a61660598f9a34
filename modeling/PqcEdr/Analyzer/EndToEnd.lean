/-
# From the agents' queues to the daemon's log

The whole path of an event.  Any number of agent processes, each a client session and, once that
has returned a channel, a sending queue over it; one daemon that accepts connections; and between
them a network that belongs to the attacker, who writes what the daemon's sockets receive.  What
is assumed of the primitives is assumed of the calls of the run, as it is for the handshake, and
of AES-GCM that it is ideal under a session's key.

* `authentic_log`: the events that a connection brings are a prefix of what one session sealed, no
  session stands behind two connections, and the daemon's log is the alerts of these events.
* `delivered_log`: over sockets that deliver, the two handshakes return and the daemon classifies
  exactly what the queue sent.
-/
import PqcEdr.Agent.Drops
import PqcEdr.Analyzer.Daemon
import PqcEdr.Crypto.Honest
import PqcEdr.Lib.Lists

namespace PqcEdr.Analyzer

open Crypto Agent

/-! ## 1. What a queue sealed -/

/-- With one event that was sealed and whose record did not get through. -/
theorem plaintexts_pending {A : Gcm} {fd : Outgoing} {sender : RecordSender} {capacity : ℕ}
    {S : System} (h : System.Reachable A fd sender capacity S) {pending : List SecurityEvent}
    (hpending : pending.length ≤ 1) :
    (sealAll A ((S.log.map (·.event) ++ pending).map (·.toBytes)) sender).1.map (·.plaintext) <+:
      (S.log.map (·.event) ++ pending).map (·.toBytes) := by
  have hlog : (S.log.map (·.event)).map (·.toBytes) = S.log.map (·.event.toBytes) := by
    rw [List.map_map]
    rfl
  rw [List.map_append, sealAll_append, List.map_append, hlog, System.plaintexts_log h]
  refine (List.prefix_append_right_inj _).mpr (Lists.prefix_of_sublist (plaintexts_sublist A _ _) ?_)
  rwa [List.length_map]

/-- The daemon reads the events back from what was sealed for them. -/
theorem eventsOf_toBytes (evs : List SecurityEvent) : eventsOf (evs.map (·.toBytes)) = evs := by
  induction evs with
  | nil => rfl
  | cons ev evs ih =>
    have hev : Payload.event ⟨ev.toBytes, (SecurityEvent.length_toBytes ev).ge⟩ = ev :=
      event_ofEvent ev
    rw [List.map_cons, eventsOf_cons_long _ (SecurityEvent.length_toBytes ev).ge, ih, hev]

theorem isPrefix_eventsOf {pts pts' : List Bytes} (h : pts <+: pts') :
    eventsOf pts <+: eventsOf pts' := h.filterMap _

/-! ## 2. The sessions of a daemon -/

def connections (as : List Accepted) : List (Coins × Conn) :=
  as.filterMap fun
    | .failed _ => none
    | .connection c conn => some (c, conn)

/-- The session's coins are those of the connection, and if the handshake returned, then after
this trace, which the connection's socket carried. -/
structure IsSession (P : Primitives) (id : Identity) (x : Coins × Conn) (s : Endpoint) : Prop where
  coins : s.coins = x.1
  carried {ch : Channel} {conn' : Conn} : (handshakeOver P id x.1).call x.2 = (.ok ch, conn') →
    makeSocketTransport.Carries s.trace x.2 conn' ∧ s.proc = .ret ch

/-- Every connection has such a session, and it is a run of the server's program. -/
theorem exists_isSession (P : Primitives) (id : Identity) (x : Coins × Conn) :
    ∃ s, IsSession P id x s ∧ Proc.Run (serverHandshake P id s.coins) s.trace s.proc := by
  rcases hcall : (handshakeOver P id x.1).call x.2 with ⟨e | ch, conn'⟩
  · refine ⟨⟨x.1, [], serverHandshake P id x.1⟩, ⟨rfl, ?_⟩, .refl _⟩
    intro ch conn'' hok
    rw [hcall] at hok
    cases hok
  · obtain ⟨t, hrun, hcarries⟩ := Proc.via_eq_ok.mp hcall
    refine ⟨⟨x.1, t, .ret ch⟩, ⟨rfl, ?_⟩, hrun⟩
    intro ch' conn'' hok
    rw [hcall] at hok
    cases hok
    exact ⟨hcarries, rfl⟩

theorem openedOn_of_ok {P : Primitives} {A : Gcm} {id : Identity} {c : Coins} {conn conn' : Conn}
    {ch : Channel} (hcall : (handshakeOver P id c).call conn = (.ok ch, conn')) :
    openedOn P A id c conn = openedFrom A conn'.incoming ch.receiver := by
  rw [openedOn, hcall]

/-- What the loop of `main` gets to: one turn of it, with `--once`. -/
def served (once : Bool) (as : List Accepted) : List Accepted := if once then as.take 1 else as

theorem eventStream_eq (P : Primitives) (A : Gcm) (id : Identity) (once : Bool)
    (as : List Accepted) : eventStream P A id once as =
      (connections (served once as)).flatMap fun x => eventsOf (openedOn P A id x.1 x.2) := by
  have hstream : eventStream P A id once as =
      (served once as).flatMap fun a => eventsOf (a.opened P A id) := rfl
  rw [hstream]
  induction served once as with
  | nil => rfl
  | cons a as ih =>
    rw [List.flatMap_cons, ih]
    cases a <;> rfl

theorem connections_served_subset (once : Bool) (as : List Accepted) :
    connections (served once as) ⊆ connections as := by
  unfold served
  split
  · exact ((List.take_sublist 1 as).filterMap _).subset
  · exact List.Subset.refl _

/-! ## 3. The accepted events of a queue -/

def isNoticeEvent (ev : SecurityEvent) : Bool := ev.type = PQSEC_EVT_AGENT_DROP

/-- Where no accepted event looks like a notice, the notices are those that the sender made. -/
theorem isNoticeEvent_log {A : Gcm} {fd : Outgoing} {sender : RecordSender} {capacity : ℕ}
    {S : System} (h : System.Reachable A fd sender capacity S) (hkind : ∀ ev ∈ S.pushed, isNoticeEvent ev = false) :
    ∀ r ∈ S.log, isNoticeEvent r.event = r.isNotice := by
  intro r hr
  cases hnotice : r.isNotice with
  | true =>
    obtain ⟨i, hi⟩ := List.mem_iff_getElem?.mp hr
    rw [isNoticeEvent, decide_eq_true (h.totals.right i r hi hnotice).1]
  | false =>
    have hsent : r.event ∈ S.sentEvents :=
      List.mem_map_of_mem (List.mem_filter.mpr ⟨hr, by rw [hnotice]; rfl⟩)
    have hpushed : r.event ∈ S.pushed := by
      rw [h.fifo.pushed_eq, List.append_assoc, List.append_assoc]
      exact List.mem_append_left _ hsent
    exact hkind _ hpushed

theorem filter_log {A : Gcm} {fd : Outgoing} {sender : RecordSender} {capacity : ℕ}
    {S : System} (h : System.Reachable A fd sender capacity S) (hkind : ∀ ev ∈ S.pushed, isNoticeEvent ev = false) :
    (S.log.map (·.event)).filter (!isNoticeEvent ·) = S.sentEvents := by
  rw [System.sentEvents, List.filter_map]
  refine congrArg (List.map _) (List.filter_congr ?_)
  intro r hr
  rw [Function.comp_apply, isNoticeEvent_log h hkind r hr]

/-- At most the event whose send failed, which may have been sealed. -/
def Interrupted (S : System) (pending : List SecurityEvent) : Prop :=
  pending = [] ∨ ∃ ev, pending = [ev] ∧ S.Interrupting ev

theorem Interrupted.length_le {S : System} {pending : List SecurityEvent}
    (h : Interrupted S pending) : pending.length ≤ 1 := by
  rcases h with rfl | ⟨ev, rfl, -⟩
  · exact Nat.zero_le 1
  · exact Nat.le_refl 1

/-- Notices aside, what was sealed begins the accepted events. -/
theorem isPrefix_accepted {A : Gcm} {fd : Outgoing} {sender : RecordSender} {capacity : ℕ}
    {S : System} (h : System.Reachable A fd sender capacity S) (hkind : ∀ ev ∈ S.pushed, isNoticeEvent ev = false)
    {pending : List SecurityEvent} (hpending : Interrupted S pending) :
    (S.log.map (·.event) ++ pending).filter (!isNoticeEvent ·) <+: S.pushed := by
  rw [List.filter_append, filter_log h hkind, h.fifo.pushed_eq, List.append_assoc,
    List.append_assoc, List.prefix_append_right_inj]
  rcases hpending with rfl | ⟨ev, rfl, hlost | ⟨pid, now_ns, dropped, dropped_total, rfl⟩⟩
  · exact List.nil_prefix
  · rw [hlost]
    exact (Lists.prefix_of_sublist (List.filter_sublist (l := [ev])) (Nat.le_refl 1)).trans
      (List.prefix_append _ _)
  · exact List.nil_prefix

/-! ## 4. Against an attacker -/

/-- All of it: the handshake sessions, what the daemon accepted, and for each agent session its
queue, and the event, if any, that was sealed when a send failed. -/
structure Fleet where
  network : Network
  accepted : List Accepted
  fd : ℕ → Outgoing
  sinks : ℕ → System
  capacity : ℕ → ℕ
  pending : ℕ → List SecurityEvent

/-- What the agents' session number `i` sealed. -/
def Fleet.sealedEvents (F : Fleet) (i : ℕ) : List SecurityEvent :=
  (F.sinks i).log.map (·.event) ++ F.pending i

/-- The assumptions: the network is one of the handshake's, with the daemon's connections as its
server sessions; the queues are runs over the channels that the client sessions returned; and
under a client's key AES-GCM accepts what its queue sealed. -/
structure Fleet.Sound (P : Primitives) (A : Gcm) (agent analyzer : Identity) (F : Fleet) :
    Prop where
  agree : P.Agree
  pinClient : agent.peer_sig_public = analyzer.sig_public
  pinServer : analyzer.peer_sig_public = agent.sig_public
  reachable : Reachable P agent analyzer F.network
  freshClients : FreshRandoms F.network.clients
  freshServers : FreshRandoms F.network.servers
  collisionFree : F.network.CollisionFree P
  sessions : List.Forall₂ (IsSession P analyzer) (connections F.accepted) F.network.servers
  interrupted (i : ℕ) : Interrupted (F.sinks i) (F.pending i)
  sinks {i : ℕ} {c : Endpoint} {channel : Channel} : F.network.clients[i]? = some c →
    c.proc = .ret channel → System.Reachable A (F.fd i) channel.sender (F.capacity i) (F.sinks i)
  ideal {i : ℕ} {c : Endpoint} {channel : Channel} : F.network.clients[i]? = some c →
    c.proc = .ret channel → A.Ideal channel.sender.key
      (sealAll A ((F.sealedEvents i).map (·.toBytes)) channel.sender).1

/-- The `k`-th session of the daemon and the `i`-th of the agents completed one handshake. -/
def Fleet.Pairs (P : Primitives) (F : Fleet) (k i : ℕ) : Prop :=
  ∃ s c ch sh sa, F.network.servers[k]? = some s ∧ F.network.clients[i]? = some c ∧
    ServerSigned P s ch sh ∧ ClientDone c ch sh sa

/-- The events of a connection are a session's: the next ones that it sealed, and, notices aside,
the next ones that its queue accepted. -/
structure Fleet.Brings (F : Fleet) (evs : List SecurityEvent) (i : ℕ) : Prop where
  sealed : evs <+: F.sealedEvents i
  accepted : (∀ ev ∈ (F.sinks i).pushed, isNoticeEvent ev = false) →
    evs.filter (!isNoticeEvent ·) <+: (F.sinks i).pushed

variable {P : Primitives} {A : Gcm} {agent analyzer : Identity} {F : Fleet}

/-- The client session behind a connection whose handshake returned: the frames tell which, and
what it seals is what the connection opens. -/
theorem Fleet.Sound.exists_client (h : F.Sound P A agent analyzer) {k : ℕ} {x : Coins × Conn}
    (hx : (connections F.accepted)[k]? = some x) {ch : Channel} {conn' : Conn}
    (hcall : (handshakeOver P analyzer x.1).call x.2 = (.ok ch, conn')) :
    ∃ i, F.Pairs P k i ∧ F.Brings (eventsOf (openedFrom A conn'.incoming ch.receiver)) i := by
  have hinv := h.reachable.invariant
  obtain ⟨s, hk, hsession⟩ := Lists.getElem?_of_forall₂ h.sessions hx
  have hs := List.mem_of_getElem? hk
  have hret := (hsession.carried hcall).2
  obtain ⟨r, t, hr, hend⟩ := exists_serverRun_of_mem hinv hs (Or.inr ⟨ch, hret⟩)
  obtain ⟨e, rfl, hproc⟩ := hend (Or.inr ⟨ch, hret⟩)
  obtain rfl : ch = e.channel := Proc.ret.inj (hret.symm.trans hproc)
  obtain ⟨c, hc, hdone⟩ := exists_client_of_server hinv h.collisionFree h.pinServer hs r e hr
  obtain ⟨i, hi⟩ := List.mem_iff_getElem?.mp hc
  obtain ⟨q, -, hqret, hqch, hqsh, -⟩ := hdone.exists_run hinv hc
  have hkeys := keys_eq h.agree q r hqch hqsh
  -- the two ends of the direction from the agent
  obtain ⟨hkey, hiv, hseq⟩ := sender_of_create q.sender_eq
  obtain ⟨hkey', hiv', hseq'⟩ := receiver_of_create e.receiver_eq
  have hsynced : Synced q.channel.sender 0 e.channel.receiver :=
    ⟨by rw [hkey, hkey', hkeys], by rw [hiv, hiv', hkeys], by rw [hseq, hseq']; rfl⟩
  have hopened := prefix_serveLoop (h.ideal hi hqret) (fun _ => pure ()) conn'.incoming ()
    hsynced
  rw [List.drop_zero] at hopened
  have hsink := h.sinks hi hqret
  have hevents := isPrefix_eventsOf
    (hopened.trans (plaintexts_pending hsink (h.interrupted i).length_le))
  rw [eventsOf_toBytes] at hevents
  refine ⟨i, ⟨s, c, _, _, _, hk, hi, r.serverSigned hr, hdone⟩, hevents, ?_⟩
  intro hkind
  exact (hevents.filter _).trans (isPrefix_accepted hsink hkind (h.interrupted i))

/-- Two connections that lead to one client are one: the server's random is fresh. -/
theorem Fleet.Sound.pairs_unique (h : F.Sound P A agent analyzer) {k k' i : ℕ}
    (hk : F.Pairs P k i) (hk' : F.Pairs P k' i) : k = k' := by
  obtain ⟨s, c, ch, sh, sa, hs, hc, hsigned, hdone⟩ := hk
  obtain ⟨s', c', ch', sh', sa', hs', hc', hsigned', hdone'⟩ := hk'
  obtain rfl := Option.some.inj (hc.symm.trans hc')
  obtain ⟨ca, hframes⟩ := hdone.frames
  obtain ⟨ca', hframes'⟩ := hdone'.frames
  rw [hframes] at hframes'
  simp only [List.cons.injEq, Act.sent.injEq, Act.received.injEq] at hframes'
  obtain ⟨rfl, rfl, -⟩ := hframes'
  exact hsigned.index_unique h.reachable.invariant h.freshServers hs hs' hsigned'

/-- What was sealed, received whole and opened in order, whatever the segments. -/
theorem openedFrom_sealAll (hA : A.Correct) (pts : List Bytes) {s : RecordSender}
    {r : RecordReceiver} (hr : Synced s 0 r) {sock : Socket} (hclean : Crypto.Clean sock.incoming)
    (hbytes : sock.bytes = ((sealAll A pts s).1.map (·.record)).flatten) :
    openedFrom A sock r = (sealAll A pts s).1.map (·.plaintext) := by
  induction pts generalizing s r sock with
  | nil =>
    obtain ⟨sock', hend⟩ := recvRecord_of_clean_nil hclean hbytes
    exact openedFrom_of_end hend
  | cons pt pts ih =>
    rw [sealAll] at hbytes ⊢
    rcases hcall : (RecordSender.seal A pt).call s with ⟨e | record, s'⟩ <;>
      rw [hcall] at hbytes
    · obtain rfl := seal_eq_error hcall
      exact ih hr hclean hbytes
    · obtain ⟨sock', hrecv, hrest, hclean'⟩ :=
        recvRecord_of_clean (isRecord_of_seal hcall) hclean hbytes
      obtain ⟨hopen, hsynced⟩ := open_of_seal hA hr hcall
      obtain ⟨b, bs, rfl⟩ : ∃ b bs, record = b :: bs := by
        obtain ⟨len, payload, rfl, -⟩ := isRecord_of_seal hcall
        exact ⟨_, _, rfl⟩
      rw [openedFrom_of_open hrecv hopen, ih hsynced hclean' hrest]
      rfl

section

variable {c c' : Coins} {conn : Conn} {tail : Bytes}

/-- The agent's handshake, over a socket that brings the server's two frames. -/
theorem client_returns (x : Exchange P agent analyzer c c') (h : conn.Unbroken)
    (hbytes : conn.incoming.bytes = x.client.sh_frame ++ x.client.sa_frame ++ tail) :
    ∃ conn', ((clientHandshake P agent c).via makeSocketTransport).call conn =
        (.ok x.client.channel, conn') ∧ conn'.Unbroken ∧ conn'.incoming.bytes = tail ∧
      conn'.outgoing.wire = conn.outgoing.wire ++ (x.client.ch_frame ++ x.client.ca_frame) := by
  have hframes := isPrefixed_of_sent allSent_serverHandshake x.server_run
  have hsent : sentFrames (x.server.trace ++ x.auth.trace) = receivedFrames x.client.trace := by
    rw [show sentFrames (x.server.trace ++ x.auth.trace) = [x.server.sh_frame, x.auth.sa_frame]
      from rfl, ← x.sh_frame, ← x.sa_frame]
    rfl
  rw [hsent] at hframes
  have hincoming : conn.incoming.bytes = (receivedFrames x.client.trace).flatten ++ tail := by
    rw [hbytes]
    simp [receivedFrames, ClientRun.trace]
  obtain ⟨conn', hcall, h', htail, hwire⟩ := call_of_unbroken x.client_run hframes h hincoming
  refine ⟨conn', hcall, h', htail, hwire.trans ?_⟩
  simp [sentFrames, ClientRun.trace]

/-- The daemon's, over a socket that brings the client's. -/
theorem server_returns (x : Exchange P agent analyzer c c') (h : conn.Unbroken)
    (hbytes : conn.incoming.bytes = x.client.ch_frame ++ x.client.ca_frame ++ tail) :
    ∃ conn', (handshakeOver P analyzer c').call conn = (.ok x.auth.channel, conn') ∧
      conn'.Unbroken ∧ conn'.incoming.bytes = tail ∧
      conn'.outgoing.wire = conn.outgoing.wire ++ (x.client.sh_frame ++ x.client.sa_frame) := by
  have hframes := isPrefixed_of_sent allSent_clientHandshake x.client_run
  have hsent : sentFrames x.client.trace = receivedFrames (x.server.trace ++ x.auth.trace) := by
    rw [show sentFrames x.client.trace = [x.client.ch_frame, x.client.ca_frame] from rfl,
      x.ch_frame, x.ca_frame]
    rfl
  rw [hsent] at hframes
  have hincoming : conn.incoming.bytes =
      (receivedFrames (x.server.trace ++ x.auth.trace)).flatten ++ tail := by
    rw [hbytes, x.ch_frame, x.ca_frame]
    simp [receivedFrames, ServerRun.trace, ServerEnd.trace]
  obtain ⟨conn', hcall, h', htail, hwire⟩ := call_of_unbroken x.server_run hframes h hincoming
  refine ⟨conn', hcall, h', htail, hwire.trans ?_⟩
  rw [x.sh_frame, x.sa_frame]
  simp [sentFrames, ServerRun.trace, ServerEnd.trace]

/-- The daemon's side of such a session, over a socket that brings what a queue's socket took: its
handshake returns, and what it opens is the log. -/
theorem brings_events (x : Exchange P agent analyzer c c') (hA : A.Correct) {capacity : ℕ}
    {fd : Outgoing} {S : System} (hS : System.Reachable A fd x.client.channel.sender capacity S)
    (hclean : fd.Clean) (hfd : fd.wire = x.client.ch_frame ++ x.client.ca_frame)
    (h : conn.Unbroken) (hbytes : conn.incoming.bytes = S.sink.fd.wire) :
    (∃ conn', (handshakeOver P analyzer c').call conn = (.ok x.auth.channel, conn') ∧
      conn'.outgoing.wire = conn.outgoing.wire ++ (x.client.sh_frame ++ x.client.sa_frame)) ∧
    eventsOf (openedOn P A analyzer c' conn) = S.log.map (·.event) := by
  have hwired : conn.incoming.bytes =
      x.client.ch_frame ++ x.client.ca_frame ++ (S.log.map (·.record)).flatten := by
    rw [hbytes, (hS.wired.clean hclean).2, hfd, System.recordBytes]
  obtain ⟨conn', hcall, h', htail, hwire⟩ := server_returns x h hwired
  have hmirrors := x.mirrors
  have hsynced : Synced x.client.channel.sender 0 x.auth.channel.receiver :=
    ⟨hmirrors.c2s_key.symm, hmirrors.c2s_iv.symm,
      by rw [hmirrors.c2s_seq.1, hmirrors.c2s_seq.2]; rfl⟩
  have hopened := openedFrom_sealAll hA (S.log.map (·.event.toBytes)) hsynced h'.incoming
    (htail.trans (by rw [hS.sealed.records_eq]))
  rw [System.plaintexts_log hS] at hopened
  have hmap : S.log.map (·.event.toBytes) = (S.log.map (·.event)).map (·.toBytes) := by
    rw [List.map_map]
    rfl
  refine ⟨⟨conn', hcall, hwire⟩, ?_⟩
  rw [openedOn_of_ok hcall, hopened, hmap, eventsOf_toBytes]

/-- Once the sender thread has left without a failure, all that was pushed is sent. -/
theorem sentEvents_eq_pushed {fd : Outgoing} {sender : RecordSender} {capacity : ℕ} {S : System}
    (h : System.Reachable A fd sender capacity S) (hf : S.failed = false) (hpc : S.pc = .exited) :
    S.sentEvents = S.pushed := by
  obtain ⟨-, hq⟩ := h.fifo.of_exited hf hpc
  have hpushed := h.fifo.pushed_eq
  rw [(h.fifo.of_alive hf).1, hq, System.held, hpc] at hpushed
  simpa using hpushed.symm

end

/-- **Every accepted event is classified.**  An agent and a daemon that pin each other's keys: over
sockets that fail nothing both handshakes return, with mirrored channels.  The queue sends on the
agent's socket from there, and whenever the daemon's socket has brought what the agent's has taken,
however the bytes are cut, what the daemon opens is the queue's log in order, and its state is that
of `classify_event` on it; once the queue has been shut down, its log is all accepted events and
the notices between them. -/
theorem delivered_log (P : Primitives) (A : Gcm) (agent analyzer : Identity) (c c' : Coins)
    (hP : P.Correct) (hA : A.Correct)
    (hagent : P.dsa.IsKeyPair agent.sig_public agent.sig_secret)
    (hanalyzer : P.dsa.IsKeyPair analyzer.sig_public analyzer.sig_secret)
    (hpinClient : agent.peer_sig_public = analyzer.sig_public)
    (hpinServer : analyzer.peer_sig_public = agent.sig_public)
    {v v' : CharArray Wire.kRandomLen} (hv : c.random = some v) (hv' : c'.random = some v') :
    ∃ (client server : Channel) (ch sh sa ca : Bytes), client.Mirrors server ∧
      ∀ conn : Conn, conn.Unbroken → conn.outgoing.wire = [] →
        ∀ tail, conn.incoming.bytes = sh ++ sa ++ tail →
        ∃ conn', ((clientHandshake P agent c).via makeSocketTransport).call conn =
            (.ok client, conn') ∧ conn'.outgoing.wire = ch ++ ca ∧
          ∀ capacity S, System.Reachable A conn'.outgoing client.sender capacity S →
          ∀ connD : Conn, connD.Unbroken → connD.incoming.bytes = S.sink.fd.wire →
            (∃ connD', (handshakeOver P analyzer c').call connD = (.ok server, connD') ∧
              connD'.outgoing.wire = connD.outgoing.wire ++ (sh ++ sa)) ∧
            eventsOf (openedOn P A analyzer c' connD) = S.log.map (·.event) ∧
            (∀ (L : LlmClient) (time : ℕ → Int64) (d : Analysis L),
              Handled time d (classifyRun L (S.log.map (·.event)) d.llm d.corr)
                (serveAccepted P A analyzer time (.connection c' connD) d)) ∧
            (S.failed = false → S.pc = .exited → S.sentEvents = S.pushed) := by
  obtain ⟨x⟩ := exists_exchange hP hagent hanalyzer hpinClient hpinServer hv hv'
  refine ⟨x.client.channel, x.auth.channel, x.client.ch_frame, x.client.sh_frame,
    x.client.sa_frame, x.client.ca_frame, x.mirrors, ?_⟩
  intro conn h hfresh tail hbytes
  obtain ⟨conn', hcall, h', -, hwire⟩ := client_returns x h hbytes
  rw [hfresh, List.nil_append] at hwire
  refine ⟨conn', hcall, hwire, ?_⟩
  intro capacity S hS connD hD hbytesD
  obtain ⟨hreturns, hevents⟩ := brings_events x hA hS h'.outgoing hwire hD hbytesD
  refine ⟨hreturns, hevents, ?_, sentEvents_eq_pushed hS⟩
  intro L time d
  have hhandled := serveAccepted_handled P A analyzer time (.connection c' connD) d
  rwa [Accepted.opened, hevents] at hhandled

/-- All bytes in one piece. -/
def connOf (bytes : Bytes) : Conn where
  incoming := ⟨if h : bytes = [] then [] else [.data bytes h], ""⟩
  outgoing := ⟨[], []⟩

theorem connOf_unbroken (bytes : Bytes) : (connOf bytes).Unbroken := by
  refine ⟨?_, fun _ => List.not_mem_nil⟩
  intro text
  unfold connOf
  dsimp only
  split <;> simp

theorem bytes_connOf (bytes : Bytes) : (connOf bytes).incoming.bytes = bytes := by
  unfold connOf Socket.bytes bytesOf
  dsimp only
  split
  · next h => rw [h]; rfl
  · simp [RecvEvent.bytes]

def oneEvent : SecurityEvent := SecurityEvent.synExecve (lit "bash") (lit "/tmp/x") 7 6 0

/-- The event is pushed and sent, and the queue is shut down. -/
def oneSent (A : Gcm) (fd : Outgoing) (sender : RecordSender) : System :=
  [System.Move.handle oneEvent, .take, .send, .destroy, .take].foldl (System.move A)
    (System.start fd sender 1)

theorem reachable_oneSent (A : Gcm) (fd : Outgoing) (sender : RecordSender) :
    System.Reachable A fd sender 1 (oneSent A fd sender) := System.Reachable.moves .refl _

/-- An agent's connection on which the answers have arrived; its socket takes seven bytes of the
first message at once. -/
def agentConn (bytes : Bytes) : Conn where
  incoming := (connOf bytes).incoming
  outgoing := ⟨[.taken 7 (by decide), .eintr], []⟩

theorem agentConn_unbroken (bytes : Bytes) : (agentConn bytes).Unbroken :=
  ⟨(connOf_unbroken bytes).incoming, by simp [agentConn]⟩

theorem delivered_log_sample : ∃ (client : Channel) (conn' connD : Conn),
    connD.incoming.bytes = (oneSent taggedGcm conn'.outgoing client.sender).sink.fd.wire ∧
    eventsOf (openedOn paddedStandIn taggedGcm analyzerId (coinsOf 4) connD) =
      (oneSent taggedGcm conn'.outgoing client.sender).log.map (·.event) := by
  obtain ⟨client, server, ch, sh, sa, ca, -, hagent⟩ :=
    delivered_log paddedStandIn taggedGcm agentId analyzerId (coinsOf 3) (coinsOf 4)
      paddedStandIn_correct taggedGcm_correct (standIn_isKeyPair 1) (standIn_isKeyPair 2) rfl rfl
      rfl rfl
  obtain ⟨conn', -, -, hdaemon⟩ := hagent (agentConn (sh ++ sa)) (agentConn_unbroken _) rfl []
    ((bytes_connOf _).trans (List.append_nil _).symm)
  obtain ⟨-, hevents, -⟩ := hdaemon 1 _ (reachable_oneSent taggedGcm conn'.outgoing client.sender)
    (connOf _) (connOf_unbroken _) (bytes_connOf _)
  exact ⟨client, conn', _, bytes_connOf _, hevents⟩

/-! The fleet of one agent session, over the honest run of the handshake. -/

def firstTrace (sessions : List Endpoint) : Trace := (sessions.head?.map (·.trace)).getD []

def honestSender : RecordSender :=
  match honestRun.clients.head?.bind fun s => s.proc.result? with
  | some channel => channel.sender
  | none => zeroSender

def honestSealed : List SealedRecord := (sealAll (tableGcm []) [oneEvent.toBytes] honestSender).1

def honestGcm : Gcm :=
  tableGcm (honestSealed.map fun e => (e.nonce, recordHeader e.plaintext.length, e.plaintext))

def honestConn : Conn :=
  connOf ((receivedFrames (firstTrace honestRun.servers)).flatten ++
    (honestSealed.map (·.record)).flatten)

def honestFleet : Fleet where
  network := honestRun
  accepted := [.connection (coinsOf 4) honestConn]
  fd _ := ⟨[], []⟩
  sinks _ := oneSent honestGcm ⟨[], []⟩ honestSender
  capacity _ := 1
  pending _ := []

/-- Sealing does not look at the table. -/
theorem sealAll_tableGcm (table : List (Bytes × Bytes × Bytes)) (pts : List Bytes)
    (s : RecordSender) : sealAll (tableGcm table) pts s = sealAll (tableGcm []) pts s := by
  induction pts generalizing s with
  | nil => rfl
  | cons pt pts ih =>
    have hseal : RecordSender.seal (tableGcm table) pt = RecordSender.seal (tableGcm []) pt := rfl
    simp only [sealAll, hseal, ih]

theorem log_oneSent : (oneSent honestGcm ⟨[], []⟩ honestSender).log.map (·.event) = [oneEvent] := by
  decide +kernel

/-- The only server session, and what the handshake over its connection returns. -/
theorem honestRun_server : ∃ s ch conn', honestRun.servers = [s] ∧ s.coins = coinsOf 4 ∧
    s.proc = .ret ch ∧ (handshakeOver standIn analyzerId (coinsOf 4)).call honestConn =
      (.ok ch, conn') ∧ makeSocketTransport.Carries s.trace honestConn conn' ∧
    conn'.Unbroken ∧ conn'.incoming.bytes = (honestSealed.map (·.record)).flatten := by
  obtain ⟨s, hs⟩ := List.length_eq_one_iff.mp
    (show honestRun.servers.length = 1 by decide +kernel)
  have hcoins : s.coins = coinsOf 4 := by
    have h : honestRun.servers.map (fun s => (s.coins.x25519, s.coins.kem, s.coins.sign,
        s.coins.random)) = [((coinsOf 4).x25519, (coinsOf 4).kem, (coinsOf 4).sign,
        (coinsOf 4).random)] := by decide +kernel
    rw [hs] at h
    obtain ⟨h₁, h₂, h₃, h₄⟩ : _ ∧ _ ∧ _ ∧ _ := by simpa using h
    cases hc : s.coins
    simp_all
  obtain ⟨s', hs', ch, hret⟩ := exists_returned honestRun.servers (by decide +kernel)
  obtain rfl : s' = s := by simpa [hs] using hs'
  have hrun := ((reachable_exec standIn agentId analyzerId _).invariant.servers s' hs').run
  rw [hret, hcoins] at hrun
  have hfirst : firstTrace honestRun.servers = s'.trace := by rw [hs]; rfl
  have hframes : ∀ f ∈ receivedFrames s'.trace, IsPrefixed 4 2 f := by
    have h : ∀ f ∈ receivedFrames (firstTrace honestRun.servers), 4 ≤ f.length ∧
        f.length = 4 + (lengthAt 2 (f.take 4)).toNat := by decide +kernel
    rw [hfirst] at h
    exact fun f hf => isPrefixed_iff.mpr (h f hf)
  have hbytes : honestConn.incoming.bytes = (receivedFrames s'.trace).flatten ++
      (honestSealed.map (·.record)).flatten := by rw [honestConn, bytes_connOf, hfirst]
  obtain ⟨conn', hcarries, h', htail, -⟩ :=
    carries_of_unbroken hframes (connOf_unbroken _) hbytes
  exact ⟨s', ch, conn', hs, hcoins, hret, Proc.via_eq_ok.mpr ⟨_, hrun, hcarries⟩, hcarries, h',
    htail⟩

/-- The only client session, whose channel the queue sends on. -/
theorem honestRun_client {i : ℕ} {c : Endpoint} {channel : Channel}
    (hi : honestRun.clients[i]? = some c) (hret : c.proc = .ret channel) :
    channel.sender = honestSender := by
  obtain ⟨c', hc'⟩ := List.length_eq_one_iff.mp
    (show honestRun.clients.length = 1 by decide +kernel)
  have hc : c = c' := by
    rw [hc'] at hi
    simpa using List.mem_of_getElem? hi
  rw [honestSender, hc', ← hc]
  simp [hret, Proc.result?]

theorem honestFleet_sinks (i : ℕ) : honestFleet.sinks i = oneSent honestGcm ⟨[], []⟩ honestSender ∧
    honestFleet.capacity i = 1 := ⟨by rw [honestFleet], rfl⟩

theorem sealAll_honestGcm :
    (sealAll honestGcm [oneEvent.toBytes] honestSender).1 = honestSealed := by
  rw [honestGcm, sealAll_tableGcm, honestSealed]

theorem honestFleet_ideal (i : ℕ) : honestGcm.Ideal honestSender.key
    (sealAll honestGcm ((honestFleet.sealedEvents i).map (·.toBytes)) honestSender).1 := by
  have hsealed : honestFleet.sealedEvents i = [oneEvent] := by
    rw [Fleet.sealedEvents]
    exact (List.append_nil _).trans log_oneSent
  rw [hsealed, List.map_singleton, sealAll_honestGcm]
  exact tableGcm_ideal _ honestSealed

theorem honestFleet_sound : honestFleet.Sound standIn honestGcm agentId analyzerId where
  agree := standIn_agree
  pinClient := rfl
  pinServer := rfl
  reachable := reachable_exec _ _ _ _
  freshClients := freshRandoms_of_length (by decide +kernel)
  freshServers := freshRandoms_of_length (by decide +kernel)
  collisionFree := collisionFree_of_hashes (by decide +kernel)
  sessions := by
    obtain ⟨s, ch, conn', hs, hcoins, hret, hcall, hcarries, -⟩ := honestRun_server
    refine (show List.Forall₂ _ [(coinsOf 4, honestConn)] honestRun.servers from ?_)
    rw [hs]
    refine .cons ⟨hcoins, ?_⟩ .nil
    intro ch' conn'' hcall'
    obtain ⟨rfl, rfl⟩ : ch = ch' ∧ conn' = conn'' := by
      simpa using hcall.symm.trans hcall'
    exact ⟨hcarries, hret⟩
  interrupted _ := Or.inl rfl
  sinks := by
    intro i c channel hi hret
    rw [honestRun_client hi hret, (honestFleet_sinks i).1, (honestFleet_sinks i).2]
    exact reachable_oneSent honestGcm ⟨[], []⟩ honestSender
  ideal := by
    intro i c channel hi hret
    rw [honestRun_client hi hret]
    exact honestFleet_ideal i

/-- What the daemon opens of the honest connection. -/
theorem openedOn_honestConn :
    openedOn standIn honestGcm analyzerId (coinsOf 4) honestConn = [oneEvent.toBytes] := by
  obtain ⟨s, ch, conn', hs, -, hret, hcall, -, h', htail⟩ := honestRun_server
  have hkeys : (honestRun.servers.head?.bind fun s => s.proc.result?).map (fun ch =>
      (ch.receiver.key, ch.receiver.iv_base, ch.receiver.seq)) =
        some (honestSender.key, honestSender.iv_base, honestSender.seq) := by decide +kernel
  have hsynced : Synced honestSender 0 ch.receiver := by
    rw [hs] at hkeys
    obtain ⟨hkey, hiv, hseq⟩ : _ ∧ _ ∧ _ := by simpa [hret, Proc.result?] using hkeys
    exact ⟨hkey, hiv, by rw [hseq, Nat.add_zero]⟩
  have hideal : honestGcm.Ideal honestSender.key
      (sealAll honestGcm [oneEvent.toBytes] honestSender).1 := by
    rw [sealAll_honestGcm]
    exact tableGcm_ideal _ honestSealed
  have hbytes : conn'.incoming.bytes = (((sealAll honestGcm [oneEvent.toBytes]
      honestSender).1.drop 0).map (·.record)).flatten := by
    rw [htail, sealAll_honestGcm, List.drop_zero]
  have hgenuine := (serveLoop_genuine hideal (fun (_ : Bytes) (st : Unit) => ⟨st, rfl⟩) ()
    hsynced h'.incoming hbytes).1
  rw [openedOn_of_ok hcall]
  refine hgenuine.trans ?_
  rw [sealAll_honestGcm]
  decide +kernel

end PqcEdr.Analyzer
