/-
# Mutual authentication

Any number of client sessions under the agent's key and of server sessions under the analyzer's
key, on a network that belongs to the attacker: every frame that a session receives is of the
attacker's choice, and so is the order of turns.  What is assumed of the primitives is an
assumption about the calls of the run: a verification accepts what the key's holder has signed
before, no two hashed transcripts collide, no two sessions of a role draw the same random.

A transcript determines its frames, because each frame carries its length.  So a signature names
the session that made it, and with it everything the keys are derived from.
-/
import Mathlib.Logic.Relation
import PqcEdr.Crypto.Handshake

namespace PqcEdr.Crypto

open Proc Wire

/-! ## 1. The network -/

/-- A handshake session. -/
abbrev Endpoint := Session Coins Bytes Note Exn Channel

structure Network where
  clients : List Endpoint
  servers : List Endpoint

/-- Every signature accepted under this key is for a message that its holder has signed. -/
def AcceptsSigned (key : Bytes) (holders : List Endpoint) (t : Trace) : Prop :=
  ∀ m, .noted (.verify key m true) ∈ t → Session.Noted holders (.sign m)

variable (L : Primitives) (agent analyzer : Identity)

/-- A session starts, or takes a turn in which no signature is forged. -/
inductive Step : Network → Network → Prop
  | startClient (N : Network) (c : Coins) :
      Step N { N with clients := N.clients ++ [.start (clientHandshake L agent) c] }
  | startServer (N : Network) (c : Coins) :
      Step N { N with servers := N.servers ++ [.start (serverHandshake L analyzer) c] }
  | client {N : Network} {i : ℕ} {s : Endpoint} {t : Trace} {p : Party}
      (hi : N.clients[i]? = some s) (hturn : Turn s.proc t p)
      (hunforged : AcceptsSigned analyzer.sig_public N.servers t) :
      Step N { N with clients := N.clients.set i (s.advance t p) }
  | server {N : Network} {i : ℕ} {s : Endpoint} {t : Trace} {p : Party}
      (hi : N.servers[i]? = some s) (hturn : Turn s.proc t p)
      (hunforged : AcceptsSigned agent.sig_public N.clients t) :
      Step N { N with servers := N.servers.set i (s.advance t p) }

def Reachable : Network → Prop := Relation.ReflTransGen (Step L agent analyzer) ⟨[], []⟩

/-- No two sessions of a role drew the same random. -/
def FreshRandoms (sessions : List Endpoint) : Prop :=
  sessions.Pairwise fun s s' => ∀ b, s.coins.random = some b → s'.coins.random ≠ some b

def Network.Hashed (N : Network) (acc : Bytes) : Prop :=
  Session.Noted N.clients (.digest acc) ∨ Session.Noted N.servers (.digest acc)

/-- No two transcripts that were hashed collide. -/
def Network.CollisionFree (N : Network) : Prop :=
  ∀ acc acc' h, N.Hashed acc → N.Hashed acc' → L.kdf.sha256 acc = .ok h →
    L.kdf.sha256 acc' = .ok h → acc = acc'

/-! ## 2. What every run keeps -/

/-- Sessions run their role's program, and what they accepted has been signed. -/
structure Invariant (N : Network) : Prop where
  clients : ∀ s ∈ N.clients, s.Follows (clientHandshake L agent)
  servers : ∀ s ∈ N.servers, s.Follows (serverHandshake L analyzer)
  clientsAccept : ∀ s ∈ N.clients, AcceptsSigned analyzer.sig_public N.servers s.trace
  serversAccept : ∀ s ∈ N.servers, AcceptsSigned agent.sig_public N.clients s.trace

variable {L agent analyzer} {N N' : Network}

theorem AcceptsSigned.mono {key : Bytes} {holders holders' : List Endpoint} {t : Trace}
    (h : AcceptsSigned key holders t)
    (hsub : ∀ m, Session.Noted holders (.sign m) → Session.Noted holders' (.sign m)) :
    AcceptsSigned key holders' t := by
  intro m hm
  exact hsub m (h m hm)

theorem AcceptsSigned.append {key : Bytes} {holders : List Endpoint} {t u : Trace}
    (h : AcceptsSigned key holders t) (h' : AcceptsSigned key holders u) :
    AcceptsSigned key holders (t ++ u) := by
  intro m hm
  rcases List.mem_append.mp hm with hm | hm
  · exact h m hm
  · exact h' m hm

theorem acceptsSigned_nil (key : Bytes) (holders : List Endpoint) :
    AcceptsSigned key holders [] := by
  intro m hm
  cases hm

theorem Step.invariant (h : Step L agent analyzer N N') (hinv : Invariant L agent analyzer N) :
    Invariant L agent analyzer N' := by
  cases h with
  | startClient c =>
    exact ⟨Session.forall_start hinv.clients (Session.follows_start _ c), hinv.servers,
      Session.forall_start hinv.clientsAccept (acceptsSigned_nil _ _),
      fun s hs => (hinv.serversAccept s hs).mono fun _ hm => hm.start _⟩
  | startServer c =>
    exact ⟨hinv.clients, Session.forall_start hinv.servers (Session.follows_start _ c),
      fun s hs => (hinv.clientsAccept s hs).mono fun _ hm => hm.start _,
      Session.forall_start hinv.serversAccept (acceptsSigned_nil _ _)⟩
  | client hi hturn hunforged =>
    have hs := List.mem_of_getElem? hi
    exact ⟨Session.forall_set hinv.clients ((hinv.clients _ hs).advance hturn), hinv.servers,
      Session.forall_set hinv.clientsAccept ((hinv.clientsAccept _ hs).append hunforged),
      fun s hs => (hinv.serversAccept s hs).mono fun _ hm => hm.advance hi _ _⟩
  | server hi hturn hunforged =>
    have hs := List.mem_of_getElem? hi
    exact ⟨hinv.clients, Session.forall_set hinv.servers ((hinv.servers _ hs).advance hturn),
      fun s hs => (hinv.clientsAccept s hs).mono fun _ hm => hm.advance hi _ _,
      Session.forall_set hinv.serversAccept ((hinv.serversAccept _ hs).append hunforged)⟩

theorem Reachable.invariant (h : Reachable L agent analyzer N) :
    Invariant L agent analyzer N := by
  induction h with
  | refl => exact ⟨by simp, by simp, by simp, by simp⟩
  | tail _ hstep ih => exact hstep.invariant ih

/-! ## 3. A session by its trace -/

theorem exists_clientRun_of_mem (hinv : Invariant L agent analyzer N) {s : Endpoint}
    (hs : s ∈ N.clients) (hpassed : Passed Note.IsSign s.trace s.proc) :
    ∃ r : ClientRun L agent s.coins, s.trace = r.trace ∧ s.proc = .ret r.channel :=
  exists_clientRun ⟨(hinv.clients s hs).run, hpassed⟩ (hinv.clients s hs).settled

theorem exists_serverRun_of_mem (hinv : Invariant L agent analyzer N) {s : Endpoint}
    (hs : s ∈ N.servers) (hpassed : Passed Note.IsSign s.trace s.proc) :
    ∃ (r : ServerRun L analyzer s.coins) (t : Trace), s.trace = r.trace ++ t ∧
      (Passed Note.IsSecret t s.proc →
        ∃ e : ServerEnd L analyzer s.coins r, t = e.trace ∧ s.proc = .ret e.channel) :=
  exists_serverRun ⟨(hinv.servers s hs).run, hpassed⟩

/-- A server session derives the keys of its run and signs its transcript, and nothing else. -/
theorem ServerRun.secret_of_mem {s : Endpoint} {id : Identity} {r : ServerRun L id s.coins}
    {t : Trace} (hend : Passed Note.IsSecret t s.proc →
      ∃ e : ServerEnd L id s.coins r, t = e.trace ∧ s.proc = .ret e.channel)
    {e : Note} (he : e.IsSecret) (hmem : .noted e ∈ r.trace ++ t) :
    e = .derived r.keys ∨ e = .sign r.th := by
  rcases List.mem_append.mp hmem with hrun | hrest
  · simp only [ServerRun.trace, List.mem_cons, reduceCtorEq, Act.noted.injEq, false_or,
      List.not_mem_nil, or_false] at hrun
    rcases hrun with rfl | hrun
    · cases he
    · exact hrun
  · obtain ⟨x, rfl, -⟩ := hend (Or.inl ⟨e, he, hrest⟩)
    simp only [ServerEnd.trace, List.mem_cons, reduceCtorEq, Act.noted.injEq, false_or,
      List.not_mem_nil, or_false] at hrest
    rcases hrest with rfl | rfl <;> cases he

theorem ClientRun.secret_of_mem {id : Identity} {c : Coins} {r : ClientRun L id c} {e : Note}
    (he : e.IsSecret) (hmem : .noted e ∈ r.trace) : e = .derived r.keys ∨ e = .sign r.th2 := by
  simp only [ClientRun.trace, List.mem_cons, reduceCtorEq, Act.noted.injEq, false_or,
    List.not_mem_nil, or_false] at hmem
  rcases hmem with rfl | hkeys | rfl | rfl | hsign
  · cases he
  · exact Or.inl hkeys
  · cases he
  · cases he
  · exact Or.inr hsign

/-! ## 4. Frames, randoms and keys -/

/-- What the network saw of a session. -/
def framesOf (t : Trace) : Trace := t.filter Act.isFrame

theorem framesOf_clientRun {id : Identity} {c : Coins} (r : ClientRun L id c) :
    framesOf r.trace =
      [.sent r.ch_frame, .received r.sh_frame, .received r.sa_frame, .sent r.ca_frame] := rfl

theorem framesOf_serverRun {id : Identity} {c : Coins} (r : ServerRun L id c) (t : Trace) :
    framesOf (r.trace ++ t) = .received r.ch_frame :: .sent r.sh_frame :: framesOf t := rfl

theorem ClientRun.isFrame {id : Identity} {c : Coins} (r : ClientRun L id c) :
    IsFrame r.ch_frame ∧ IsFrame r.sh_frame ∧ IsFrame r.sa_frame :=
  ⟨isFrame_of_serializeHello r.ch_frame_eq,
    isFrame_of_serializeHello (parseServerHello_eq_ok.mp r.sh_eq).2,
    ⟨_, _, (parseServerAuth_eq_ok.mp r.sa_eq).2⟩⟩

theorem ServerRun.isFrame {id : Identity} {c : Coins} (r : ServerRun L id c) :
    IsFrame r.ch_frame ∧ IsFrame r.sh_frame :=
  ⟨isFrame_of_serializeHello (parseClientHello_eq_ok.mp r.ch_eq).2,
    isFrame_of_serializeHello r.sh_frame_eq⟩

theorem randomBytes_eq_ok {o : Option (CharArray kRandomLen)} {b : Bytes} :
    randomBytes o = .ok b ↔ ∃ v, o = some v ∧ v.toList = b := by
  cases o <;> simp [randomBytes]

/-- Two sessions of a role that sent the same random are one session. -/
theorem eq_of_fresh {sessions : List Endpoint} (hfresh : FreshRandoms sessions) {i j : ℕ}
    {s s' : Endpoint} (hi : sessions[i]? = some s) (hj : sessions[j]? = some s') {b : Bytes}
    (hb : randomBytes s.coins.random = .ok b) (hb' : randomBytes s'.coins.random = .ok b) :
    i = j := by
  obtain ⟨v, hv, rfl⟩ := randomBytes_eq_ok.mp hb
  obtain ⟨v', hv', heq⟩ := randomBytes_eq_ok.mp hb'
  have hrandom : s'.coins.random = some v := by
    rw [hv', Vector.toList_inj.mp heq]
  obtain ⟨hilt, rfl⟩ := List.getElem?_eq_some_iff.mp hi
  obtain ⟨hjlt, rfl⟩ := List.getElem?_eq_some_iff.mp hj
  rcases Nat.lt_trichotomy i j with hlt | rfl | hlt
  · exact absurd hrandom (List.pairwise_iff_getElem.mp hfresh i j hilt hjlt hlt v hv)
  · rfl
  · exact absurd hv (List.pairwise_iff_getElem.mp hfresh j i hjlt hilt hlt v hrandom)

/-- A client and a server that exchanged the same hellos derived the same keys. -/
theorem keys_eq (hagree : L.Agree) {id id' : Identity} {c c' : Coins} (r : ClientRun L id c)
    (r' : ServerRun L id' c') (hch : r.ch_frame = r'.ch_frame) (hsh : r.sh_frame = r'.sh_frame) :
    r.keys = r'.keys := by
  -- each side's parsed hello is the hello that the other side built
  have hhello := (parseClientHello_eq_ok.mp r'.ch_eq).2
  rw [← hch] at hhello
  obtain ⟨hcr, hcpub, hpk⟩ := serializeHello_inj r.ch_frame_eq hhello
  have hanswer := (parseServerHello_eq_ok.mp r.sh_eq).2
  rw [hsh] at hanswer
  obtain ⟨hsr, hspub, hct⟩ := serializeHello_inj hanswer r'.sh_frame_eq
  simp only at hcr hcpub hpk hsr hspub hct
  have hclassical : r.ss_classical = r'.ss_classical := by
    refine hagree.computeShared_eq r.x_client_eq r'.x_server_eq r.x25519_pub_eq
      r'.x25519_pub_eq ?_ ?_
    · rw [← hspub]
      exact r.ss_classical_eq
    · rw [hcpub]
      exact r'.ss_classical_eq
  have hpq : r.ss_pq = r'.enc.2 := by
    have henc := r'.enc_eq
    rw [← hpk] at henc
    have hdec := r.ss_pq_eq
    rw [hct] at hdec
    exact hagree.decaps_eq r.kem_kp_eq henc hdec
  have hth : r.th = r'.th := by
    have h := r.th_eq
    rw [hch, hsh, r'.th_eq] at h
    exact (Except.ok.inj h).symm
  have hkeys := r.keys_eq
  rw [hclassical, hpq, hcr, hsr, hth, r'.keys_eq] at hkeys
  exact (Except.ok.inj hkeys).symm

/-! ## 5. Agreement -/

/-- The client sent this ClientHello, received these two frames, and has sent its ClientAuth: it
has returned, or has only to return. -/
structure ClientDone (s : Endpoint) (ch sh sa : Bytes) : Prop where
  frames : ∃ ca, framesOf s.trace = [.sent ch, .received sh, .received sa, .sent ca]
  returned : ∃ channel, s.proc = .ret channel

/-- The server received this ClientHello, sent this ServerHello and signed their transcript. -/
structure ServerSigned (L : Primitives) (s : Endpoint) (ch sh : Bytes) : Prop where
  frames : ∃ rest, framesOf s.trace = .received ch :: .sent sh :: rest
  signed : ∃ th, L.kdf.sha256 (ch ++ sh) = .ok th ∧ .noted (.sign th) ∈ s.trace

/-- The session derived these keys and no others. -/
def Derives (s : Endpoint) (keys : SessionKeys) : Prop :=
  ∀ k, .noted (.derived k) ∈ s.trace ↔ k = keys

/-- The channel that a client makes of its keys. -/
def Channel.IsClient (channel : Channel) (keys : SessionKeys) : Prop :=
  RecordSender.create keys.c2s_key keys.c2s_iv = .ok channel.sender ∧
    RecordReceiver.create keys.s2c_key keys.s2c_iv = .ok channel.receiver

/-- The channel that a server makes of its keys. -/
def Channel.IsServer (channel : Channel) (keys : SessionKeys) : Prop :=
  RecordSender.create keys.s2c_key keys.s2c_iv = .ok channel.sender ∧
    RecordReceiver.create keys.c2s_key keys.c2s_iv = .ok channel.receiver

theorem ClientRun.derives {s : Endpoint} {id : Identity} (r : ClientRun L id s.coins)
    (hr : s.trace = r.trace) : Derives s r.keys := by
  intro k
  rw [hr]
  constructor
  · intro hmem
    rcases ClientRun.secret_of_mem (e := .derived k) trivial hmem with heq | heq
    · exact Note.derived.inj heq
    · cases heq
  · rintro rfl
    simp [ClientRun.trace]

theorem ServerRun.derives {s : Endpoint} {id : Identity} (r : ServerRun L id s.coins) {t : Trace}
    (hr : s.trace = r.trace ++ t) (hend : Passed Note.IsSecret t s.proc →
      ∃ e : ServerEnd L id s.coins r, t = e.trace ∧ s.proc = .ret e.channel) :
    Derives s r.keys := by
  intro k
  rw [hr]
  constructor
  · intro hmem
    rcases r.secret_of_mem hend (e := .derived k) trivial hmem with heq | heq
    · exact Note.derived.inj heq
    · cases heq
  · rintro rfl
    simp [ServerRun.trace]

theorem ServerRun.serverSigned {s : Endpoint} {id : Identity} (r : ServerRun L id s.coins)
    {t : Trace} (hr : s.trace = r.trace ++ t) : ServerSigned L s r.ch_frame r.sh_frame :=
  ⟨⟨framesOf t, by rw [hr, framesOf_serverRun]⟩, r.th, r.th_eq, by rw [hr]; simp [ServerRun.trace]⟩

/-- A server session that signed for these hellos is a run on them. -/
theorem ServerSigned.exists_run (hinv : Invariant L agent analyzer N) {s : Endpoint}
    (hs : s ∈ N.servers) {ch sh : Bytes} (h : ServerSigned L s ch sh) :
    ∃ (r : ServerRun L analyzer s.coins), r.ch_frame = ch ∧ r.sh_frame = sh ∧
      Derives s r.keys := by
  obtain ⟨⟨rest, hframes⟩, th, -, hsign⟩ := h
  obtain ⟨r, t, hr, hend⟩ := exists_serverRun_of_mem hinv hs
    (Or.inl ⟨.sign th, trivial, hsign⟩)
  rw [hr, framesOf_serverRun] at hframes
  simp only [List.cons.injEq, Act.received.injEq, Act.sent.injEq] at hframes
  exact ⟨r, hframes.1, hframes.2.1, r.derives hr hend⟩

/-- A finished client session is a run on its frames. -/
theorem ClientDone.exists_run (hinv : Invariant L agent analyzer N) {s : Endpoint}
    (hs : s ∈ N.clients) {ch sh sa : Bytes} (h : ClientDone s ch sh sa) :
    ∃ (r : ClientRun L agent s.coins), s.trace = r.trace ∧ s.proc = .ret r.channel ∧
      r.ch_frame = ch ∧ r.sh_frame = sh ∧ r.sa_frame = sa := by
  obtain ⟨⟨ca, hframes⟩, hret⟩ := h
  obtain ⟨r, hr, hproc⟩ := exists_clientRun_of_mem hinv hs (Or.inr hret)
  rw [hr, framesOf_clientRun] at hframes
  simp only [List.cons.injEq, Act.received.injEq, Act.sent.injEq] at hframes
  exact ⟨r, hr, hproc, hframes.1, hframes.2.1, hframes.2.2.1⟩

/-- The server session behind an accepted ServerAuth. -/
theorem exists_server_of_client (hinv : Invariant L agent analyzer N) (hcoll : N.CollisionFree L)
    (hpin : agent.peer_sig_public = analyzer.sig_public) {c : Endpoint} (hc : c ∈ N.clients)
    (r : ClientRun L agent c.coins) (hr : c.trace = r.trace) :
    ∃ s ∈ N.servers, ServerSigned L s r.ch_frame r.sh_frame := by
  have hverify : .noted (.verify analyzer.sig_public r.th true) ∈ c.trace := by
    rw [hr, ← hpin]
    simp [ClientRun.trace]
  obtain ⟨s, hs, hsign⟩ := hinv.clientsAccept c hc r.th hverify
  obtain ⟨r', t, hr', hend⟩ := exists_serverRun_of_mem hinv hs
    (Or.inl ⟨.sign r.th, trivial, hsign⟩)
  have hth : r.th = r'.th := by
    rw [hr'] at hsign
    rcases r'.secret_of_mem hend (e := .sign r.th) trivial hsign with heq | heq
    · cases heq
    · exact Note.sign.inj heq
  have hhashed : N.Hashed (r.ch_frame ++ r.sh_frame) :=
    Or.inl ⟨c, hc, by rw [hr]; simp [ClientRun.trace]⟩
  have hhashed' : N.Hashed (r'.ch_frame ++ r'.sh_frame) :=
    Or.inr ⟨s, hs, by rw [hr']; simp [ServerRun.trace]⟩
  have hacc := hcoll _ _ r.th hhashed hhashed' r.th_eq (hth ▸ r'.th_eq)
  obtain ⟨hch, hsh⟩ := r.isFrame.1.append_inj r'.isFrame.1 hacc
  rw [hch, hsh]
  exact ⟨s, hs, r'.serverSigned hr'⟩

/-- The client session behind an accepted ClientAuth. -/
theorem exists_client_of_server (hinv : Invariant L agent analyzer N) (hcoll : N.CollisionFree L)
    (hpin : analyzer.peer_sig_public = agent.sig_public) {s : Endpoint} (hs : s ∈ N.servers)
    (r : ServerRun L analyzer s.coins) (e : ServerEnd L analyzer s.coins r)
    (hr : s.trace = r.trace ++ e.trace) :
    ∃ c ∈ N.clients, ClientDone c r.ch_frame r.sh_frame e.sa_frame := by
  have hverify : .noted (.verify agent.sig_public e.th2 true) ∈ s.trace := by
    rw [hr, ← hpin]
    simp [ServerEnd.trace]
  obtain ⟨c, hc, hsign⟩ := hinv.serversAccept s hs e.th2 hverify
  obtain ⟨r', hr', hret⟩ := exists_clientRun_of_mem hinv hc
    (Or.inl ⟨.sign e.th2, trivial, hsign⟩)
  have hth2 : e.th2 = r'.th2 := by
    rw [hr'] at hsign
    rcases ClientRun.secret_of_mem (e := .sign e.th2) trivial hsign with heq | heq
    · cases heq
    · exact Note.sign.inj heq
  have hhashed : N.Hashed (r.ch_frame ++ r.sh_frame ++ e.sa_frame) :=
    Or.inr ⟨s, hs, by rw [hr]; simp [ServerEnd.trace]⟩
  have hhashed' : N.Hashed (r'.ch_frame ++ r'.sh_frame ++ r'.sa_frame) :=
    Or.inl ⟨c, hc, by rw [hr']; simp [ClientRun.trace]⟩
  have hacc := hcoll _ _ e.th2 hhashed hhashed' e.th2_eq (hth2 ▸ r'.th2_eq)
  rw [List.append_assoc, List.append_assoc] at hacc
  obtain ⟨hch, hacc⟩ := r.isFrame.1.append_inj r'.isFrame.1 hacc
  obtain ⟨hsh, hsa⟩ := r.isFrame.2.append_inj r'.isFrame.2.1 hacc
  rw [hch, hsh, hsa]
  exact ⟨c, hc, ⟨r'.ca_frame, by rw [hr', framesOf_clientRun]⟩, _, hret⟩

/-- Only one server session sends a ServerHello: its random is fresh. -/
theorem ServerSigned.index_unique (hinv : Invariant L agent analyzer N)
    (hfresh : FreshRandoms N.servers) {i j : ℕ} {s s' : Endpoint} (hi : N.servers[i]? = some s)
    (hj : N.servers[j]? = some s') {ch sh : Bytes} (h : ServerSigned L s ch sh)
    (h' : ServerSigned L s' ch sh) : i = j := by
  obtain ⟨q, -, hqsh, -⟩ := h.exists_run hinv (List.mem_of_getElem? hi)
  obtain ⟨q', -, hqsh', -⟩ := h'.exists_run hinv (List.mem_of_getElem? hj)
  have hframe := q'.sh_frame_eq
  rw [hqsh', ← hqsh] at hframe
  have hrandom : q.server_random = q'.server_random :=
    (serializeHello_inj q.sh_frame_eq hframe).1
  refine eq_of_fresh hfresh hi hj q.server_random_eq ?_
  rw [hrandom]
  exact q'.server_random_eq

/-- Only one client session sends a ClientHello. -/
theorem ClientDone.index_unique (hinv : Invariant L agent analyzer N)
    (hfresh : FreshRandoms N.clients) {i j : ℕ} {s s' : Endpoint} (hi : N.clients[i]? = some s)
    (hj : N.clients[j]? = some s') {ch sh sa : Bytes} (h : ClientDone s ch sh sa)
    (h' : ClientDone s' ch sh sa) : i = j := by
  obtain ⟨q, -, -, hqch, -, -⟩ := h.exists_run hinv (List.mem_of_getElem? hi)
  obtain ⟨q', -, -, hqch', -, -⟩ := h'.exists_run hinv (List.mem_of_getElem? hj)
  have hframe := q'.ch_frame_eq
  rw [hqch', ← hqch] at hframe
  have hrandom : q.client_random = q'.client_random :=
    (serializeHello_inj q.ch_frame_eq hframe).1
  refine eq_of_fresh hfresh hi hj q.client_random_eq ?_
  rw [hrandom]
  exact q'.client_random_eq

inductive Action
  | startClient (c : Coins)
  | startServer (c : Coins)
  | client (i : ℕ) (f : Bytes)
  | server (i : ℕ) (f : Bytes)

def acceptsSigned (key : Bytes) (holders : List Endpoint) (t : Trace) : Bool :=
  t.all fun
    | .noted (.verify k m true) =>
      k != key || holders.any fun s => s.trace.contains (.noted (.sign m))
    | _ => true

theorem acceptsSigned_of_eq_true {key : Bytes} {holders : List Endpoint} {t : Trace}
    (h : acceptsSigned key holders t = true) : AcceptsSigned key holders t := by
  intro m hm
  have hcheck := List.all_eq_true.mp h _ hm
  simp only [bne_self_eq_false, Bool.false_or, List.any_eq_true, List.contains_iff_mem] at hcheck
  exact hcheck

/-- One action of the attacker; a turn in which a signature is forged is not taken. -/
def Network.act (L : Primitives) (agent analyzer : Identity) (N : Network) : Action → Network
  | .startClient c => { N with clients := N.clients ++ [.start (clientHandshake L agent) c] }
  | .startServer c => { N with servers := N.servers ++ [.start (serverHandshake L analyzer) c] }
  | .client i f =>
    match N.clients[i]? with
    | none => N
    | some s =>
      if acceptsSigned analyzer.sig_public N.servers (s.proc.turn f).1 then
        { N with clients := N.clients.set i (s.advance (s.proc.turn f).1 (s.proc.turn f).2) }
      else N
  | .server i f =>
    match N.servers[i]? with
    | none => N
    | some s =>
      if acceptsSigned agent.sig_public N.clients (s.proc.turn f).1 then
        { N with servers := N.servers.set i (s.advance (s.proc.turn f).1 (s.proc.turn f).2) }
      else N

/-- An attacker chooses each action by what it sees of the network. -/
def exec (L : Primitives) (agent analyzer : Identity) (attacker : List (Network → Action)) :
    Network :=
  attacker.foldl (fun N choose => N.act L agent analyzer (choose N)) ⟨[], []⟩

theorem Reachable.act (h : Reachable L agent analyzer N) (a : Action) :
    Reachable L agent analyzer (N.act L agent analyzer a) := by
  cases a with
  | startClient c => exact h.tail (.startClient N c)
  | startServer c => exact h.tail (.startServer N c)
  | client i f =>
    simp only [Network.act]
    split
    · exact h
    · rename_i s hi
      split
      · rename_i hcheck
        exact h.tail (.client hi (turn_turn f s.proc) (acceptsSigned_of_eq_true hcheck))
      · exact h
  | server i f =>
    simp only [Network.act]
    split
    · exact h
    · rename_i s hi
      split
      · rename_i hcheck
        exact h.tail (.server hi (turn_turn f s.proc) (acceptsSigned_of_eq_true hcheck))
      · exact h

theorem reachable_exec (L : Primitives) (agent analyzer : Identity)
    (attacker : List (Network → Action)) :
    Reachable L agent analyzer (exec L agent analyzer attacker) := by
  rw [exec]
  have hstart : Reachable L agent analyzer ⟨[], []⟩ := .refl
  generalize (⟨[], []⟩ : Network) = N at hstart
  induction attacker generalizing N with
  | nil => exact hstart
  | cons choose attacker ih => exact ih _ (hstart.act (choose N))

/-- Every transcript that was hashed. -/
def Network.hashes (N : Network) : List Bytes :=
  (N.clients ++ N.servers).flatMap fun s => s.trace.filterMap fun
    | .noted (.digest acc) => some acc
    | _ => none

theorem Network.Hashed.mem_hashes {acc : Bytes} (h : N.Hashed acc) : acc ∈ N.hashes := by
  obtain ⟨s, hs, hacc⟩ : ∃ s ∈ N.clients ++ N.servers, .noted (.digest acc) ∈ s.trace := by
    rcases h with ⟨s, hs, hacc⟩ | ⟨s, hs, hacc⟩
    · exact ⟨s, List.mem_append_left _ hs, hacc⟩
    · exact ⟨s, List.mem_append_right _ hs, hacc⟩
  exact List.mem_flatMap.mpr ⟨s, hs, List.mem_filterMap.mpr ⟨_, hacc, rfl⟩⟩

theorem collisionFree_of_hashes (h : ∀ acc ∈ N.hashes, ∀ acc' ∈ N.hashes,
    L.kdf.digest acc = L.kdf.digest acc' → acc = acc') : N.CollisionFree L := by
  intro acc acc' th hacc hacc' hth hth'
  rw [Kdf.sha256_eq_ok] at hth hth'
  exact h acc hacc.mem_hashes acc' hacc'.mem_hashes (hth.trans hth'.symm)

theorem freshRandoms_of_length {sessions : List Endpoint} (h : sessions.length = 1) :
    FreshRandoms sessions := by
  obtain ⟨s, rfl⟩ := List.length_eq_one_iff.mp h
  exact List.pairwise_singleton _ _

/-! One client and one server, and a network that delivers. -/

def agentId : Identity := ⟨[1], [1], [2]⟩
def analyzerId : Identity := ⟨[2], [2], [1]⟩

def coinsOf (b : UInt8) : Coins := ⟨[b], [b], [b], some (Vector.replicate kRandomLen b)⟩

/-- The frame that the first of these sessions has just sent. -/
def lastSent (sessions : List Endpoint) : Bytes :=
  match sessions.head?.bind fun s => s.trace.getLast? with
  | some (.sent f) => f
  | _ => []

def honestRun : Network :=
  exec standIn agentId analyzerId
    [fun _ => .startClient (coinsOf 3), fun _ => .startServer (coinsOf 4),
      fun _ => .client 0 [], fun N => .server 0 (lastSent N.clients),
      fun _ => .server 0 [], fun N => .client 0 (lastSent N.servers),
      fun _ => .server 0 [], fun N => .client 0 (lastSent N.servers),
      fun _ => .client 0 [], fun N => .server 0 (lastSent N.clients), fun _ => .server 0 []]

theorem exists_returned (sessions : List Endpoint)
    (h : (sessions.any fun s => s.proc.result?.isSome) = true) :
    ∃ s ∈ sessions, ∃ channel, s.proc = .ret channel := by
  obtain ⟨s, hs, hsome⟩ := List.any_eq_true.mp h
  obtain ⟨channel, hchannel⟩ := Option.isSome_iff_exists.mp hsome
  exact ⟨s, hs, channel, eq_ret_of_result? hchannel⟩

end PqcEdr.Crypto
