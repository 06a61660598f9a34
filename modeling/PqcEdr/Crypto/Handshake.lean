/-
# The handshake

`handshake.cpp`: the two roles as programs over a transport, line by line.  Beside its frames, a
program notes what it hashes, which keys it derives, what it signs and what it verified, so that
an assumption about the primitives can speak of the calls that were made.

A client that has signed, or returned, has a `ClientRun`: every value of its run, with the equation
that the source computes it by.  A server has a `ServerRun` from its own signature on.
-/
import PqcEdr.Crypto.Primitives
import PqcEdr.Crypto.Record
import PqcEdr.Crypto.Wire
import PqcEdr.Lib.Process

namespace PqcEdr.Crypto

open Proc Wire

/-! ## 1. `handshake.h` -/

structure Identity where
  sig_public : Bytes
  sig_secret : Bytes
  peer_sig_public : Bytes

structure Channel where
  sender : RecordSender
  receiver : RecordReceiver

/-- What a session draws: the coins of its key generation or encapsulation and of its signature,
and the answer of `RAND_bytes`. -/
structure Coins where
  x25519 : Bytes
  kem : Bytes
  sign : Bytes
  random : Option (CharArray kRandomLen)

/-- A call that a session made. -/
inductive Note
  | digest (acc : Bytes)
  | derived (keys : SessionKeys)
  | sign (message : Bytes)
  | verify (public_key message : Bytes) (accepted : Bool)
  deriving DecidableEq, Repr

abbrev Party := Proc Bytes Note Exn Channel

/-! ## 2. `handshake.cpp` -/

def randomBytes : Option (CharArray kRandomLen) → Result Bytes
  | none => throw (.HandshakeError "난수 생성 실패")
  | some b => pure b.toList

variable (L : Primitives)

def transcript (acc : Bytes) : Proc Bytes Note Exn Bytes := do
  noteThat (.digest acc)
  lift (L.kdf.sha256 acc)

def derive (ss_classical ss_pq client_random server_random transcript_hash : Bytes) :
    Proc Bytes Note Exn SessionKeys := do
  let keys ← lift (deriveSessionKeys L.kdf ss_classical ss_pq client_random server_random
    transcript_hash)
  noteThat (.derived keys)
  return keys

def sign (coins message secret_key : Bytes) : Proc Bytes Note Exn Bytes := do
  let signature ← lift (L.dsa.sign coins message secret_key)
  noteThat (.sign message)
  return signature

def verify (message signature public_key : Bytes) : Proc Bytes Note Exn Bool := do
  let accepted := L.dsa.verify message signature public_key
  noteThat (.verify public_key message accepted)
  return accepted

def clientHandshake (id : Identity) (c : Coins) : Party := do
  let x_client ← lift (L.x25519.create c.x25519)
  -- 1. ClientHello
  let kem_kp ← lift (L.kem.keypair c.kem)
  let client_random ← lift (randomBytes c.random)
  let x25519_pub ← lift (L.x25519.publicKey x_client)
  let ch_frame ← lift (ClientHello.serialize ⟨client_random, x25519_pub, kem_kp.public_key⟩)
  sendFrame ch_frame
  -- 2. ServerHello and the hybrid key agreement
  let sh_frame ← recvFrame
  let sh ← lift (parseServerHello sh_frame)
  let ss_classical ← lift (L.x25519.computeShared x_client sh.x25519_pub)
  let ss_pq ← lift (L.kem.decaps sh.mlkem_ct kem_kp.secret_key)
  let acc := ch_frame ++ sh_frame
  let th ← transcript L acc
  let keys ← derive L ss_classical ss_pq client_random sh.server_random th
  -- 3. ServerAuth
  let sa_frame ← recvFrame
  let sa ← lift (parseServerAuth sa_frame)
  let accepted ← verify L th sa.signature id.peer_sig_public
  if accepted then do
    -- 4. ClientAuth
    let acc := acc ++ sa_frame
    let th2 ← transcript L acc
    let client_sig ← sign L c.sign th2 id.sig_secret
    let ca_frame ← lift (ClientAuth.serialize ⟨client_sig⟩)
    sendFrame ca_frame
    let sender ← lift (RecordSender.create keys.c2s_key keys.c2s_iv)
    let receiver ← lift (RecordReceiver.create keys.s2c_key keys.s2c_iv)
    return ⟨sender, receiver⟩
  else throw (.HandshakeError "서버 서명 검증 실패 (인증 실패)")

def serverHandshake (id : Identity) (c : Coins) : Party := do
  let x_server ← lift (L.x25519.create c.x25519)
  -- 1. ClientHello
  let ch_frame ← recvFrame
  let ch ← lift (parseClientHello ch_frame)
  -- 2. ServerHello and the hybrid key agreement
  let enc ← lift (L.kem.encaps c.kem ch.mlkem_pub)
  let server_random ← lift (randomBytes c.random)
  let x25519_pub ← lift (L.x25519.publicKey x_server)
  let sh_frame ← lift (ServerHello.serialize ⟨server_random, x25519_pub, enc.1⟩)
  sendFrame sh_frame
  let ss_classical ← lift (L.x25519.computeShared x_server ch.x25519_pub)
  let ss_pq := enc.2
  let acc := ch_frame ++ sh_frame
  let th ← transcript L acc
  let keys ← derive L ss_classical ss_pq ch.client_random server_random th
  -- 3. ServerAuth
  let server_sig ← sign L c.sign th id.sig_secret
  let sa_frame ← lift (ServerAuth.serialize ⟨server_sig⟩)
  sendFrame sa_frame
  -- 4. ClientAuth
  let ca_frame ← recvFrame
  let ca ← lift (parseClientAuth ca_frame)
  let acc := acc ++ sa_frame
  let th2 ← transcript L acc
  let accepted ← verify L th2 ca.signature id.peer_sig_public
  if accepted then do
    let sender ← lift (RecordSender.create keys.s2c_key keys.s2c_iv)
    let receiver ← lift (RecordReceiver.create keys.c2s_key keys.c2s_iv)
    return ⟨sender, receiver⟩
  else throw (.HandshakeError "클라이언트 서명 검증 실패 (인증 실패)")

/-! ## 3. What a session went through -/

abbrev Trace := List (Act Bytes Note)

def Note.IsSign : Note → Prop
  | .sign _ => True
  | _ => False

/-- The calls that work with secrets. -/
def Note.IsSecret : Note → Prop
  | .sign _ => True
  | .derived _ => True
  | _ => False

/-- A complete client session. -/
structure ClientRun (id : Identity) (c : Coins) where
  x_client : Bytes
  kem_kp : KeyPair
  client_random : Bytes
  x25519_pub : Bytes
  ch_frame : Bytes
  sh_frame : Bytes
  sh : ServerHello
  ss_classical : Bytes
  ss_pq : Bytes
  th : Bytes
  keys : SessionKeys
  sa_frame : Bytes
  sa : ServerAuth
  th2 : Bytes
  ca_frame : Bytes
  channel : Channel
  x_client_eq : L.x25519.create c.x25519 = .ok x_client
  kem_kp_eq : L.kem.keypair c.kem = .ok kem_kp
  client_random_eq : randomBytes c.random = .ok client_random
  x25519_pub_eq : L.x25519.publicKey x_client = .ok x25519_pub
  ch_frame_eq : ClientHello.serialize ⟨client_random, x25519_pub, kem_kp.public_key⟩ = .ok ch_frame
  sh_eq : parseServerHello sh_frame = .ok sh
  ss_classical_eq : L.x25519.computeShared x_client sh.x25519_pub = .ok ss_classical
  ss_pq_eq : L.kem.decaps sh.mlkem_ct kem_kp.secret_key = .ok ss_pq
  th_eq : L.kdf.sha256 (ch_frame ++ sh_frame) = .ok th
  keys_eq : deriveSessionKeys L.kdf ss_classical ss_pq client_random sh.server_random th = .ok keys
  sa_eq : parseServerAuth sa_frame = .ok sa
  th2_eq : L.kdf.sha256 (ch_frame ++ sh_frame ++ sa_frame) = .ok th2
  sender_eq : RecordSender.create keys.c2s_key keys.c2s_iv = .ok channel.sender
  receiver_eq : RecordReceiver.create keys.s2c_key keys.s2c_iv = .ok channel.receiver

/-- A server session up to its signature. -/
structure ServerRun (id : Identity) (c : Coins) where
  x_server : Bytes
  ch_frame : Bytes
  ch : ClientHello
  enc : Bytes × Bytes
  server_random : Bytes
  x25519_pub : Bytes
  sh_frame : Bytes
  ss_classical : Bytes
  th : Bytes
  keys : SessionKeys
  x_server_eq : L.x25519.create c.x25519 = .ok x_server
  ch_eq : parseClientHello ch_frame = .ok ch
  enc_eq : L.kem.encaps c.kem ch.mlkem_pub = .ok enc
  server_random_eq : randomBytes c.random = .ok server_random
  x25519_pub_eq : L.x25519.publicKey x_server = .ok x25519_pub
  sh_frame_eq : ServerHello.serialize ⟨server_random, x25519_pub, enc.1⟩ = .ok sh_frame
  ss_classical_eq : L.x25519.computeShared x_server ch.x25519_pub = .ok ss_classical
  th_eq : L.kdf.sha256 (ch_frame ++ sh_frame) = .ok th
  keys_eq : deriveSessionKeys L.kdf ss_classical enc.2 ch.client_random server_random th = .ok keys

/-- The rest of a server session that returned. -/
structure ServerEnd (id : Identity) (c : Coins) (r : ServerRun L id c) where
  sa_frame : Bytes
  sa : ServerAuth
  ca_frame : Bytes
  th2 : Bytes
  channel : Channel
  sa_frame_eq : sa.serialize = .ok sa_frame
  th2_eq : L.kdf.sha256 (r.ch_frame ++ r.sh_frame ++ sa_frame) = .ok th2
  sender_eq : RecordSender.create r.keys.s2c_key r.keys.s2c_iv = .ok channel.sender
  receiver_eq : RecordReceiver.create r.keys.c2s_key r.keys.c2s_iv = .ok channel.receiver

variable {L} {id : Identity} {c : Coins}

def ClientRun.trace (r : ClientRun L id c) : Trace :=
  [.sent r.ch_frame, .received r.sh_frame, .noted (.digest (r.ch_frame ++ r.sh_frame)),
    .noted (.derived r.keys), .received r.sa_frame,
    .noted (.verify id.peer_sig_public r.th true),
    .noted (.digest (r.ch_frame ++ r.sh_frame ++ r.sa_frame)), .noted (.sign r.th2),
    .sent r.ca_frame]

def ServerRun.trace (r : ServerRun L id c) : Trace :=
  [.received r.ch_frame, .sent r.sh_frame, .noted (.digest (r.ch_frame ++ r.sh_frame)),
    .noted (.derived r.keys), .noted (.sign r.th)]

def ServerEnd.trace {r : ServerRun L id c} (e : ServerEnd L id c r) : Trace :=
  [.sent e.sa_frame, .received e.ca_frame,
    .noted (.digest (r.ch_frame ++ r.sh_frame ++ e.sa_frame)),
    .noted (.verify id.peer_sig_public e.th2 true)]

/-- The constructors of the record layer accept derived keys. -/
theorem exists_create {key iv : Bytes} (hkey : key.length = 32) (hiv : iv.length = 12) :
    (∃ s, RecordSender.create key iv = .ok s) ∧ ∃ r, RecordReceiver.create key iv = .ok r := by
  have hok : ¬ (key.length ≠ kAesKeyLen ∨ iv.length ≠ kIvLen) := by
    rw [kAesKeyLen, kIvLen]
    omega
  exact ⟨⟨_, dif_neg hok⟩, ⟨_, dif_neg hok⟩⟩

section

variable {P : Note → Prop} {t : Trace} {q : Party}

theorem passing_transcript {acc : Bytes} {k : Bytes → Party} (hP : ¬ P (.digest acc))
    (h : Passing P (transcript L acc >>= k) t q) :
    ∃ t' th, t = .noted (.digest acc) :: t' ∧ L.kdf.sha256 acc = .ok th ∧
      Passing P (k th) t' q := by
  rw [transcript, bind_assoc] at h
  obtain ⟨t', ht, h⟩ := h.note_of_not hP
  obtain ⟨th, hth, h⟩ := h.lift
  exact ⟨t', th, ht, hth, h⟩

theorem passing_derive {ssc ssp cr sr th : Bytes} {k : SessionKeys → Party}
    (hP : ∀ keys, ¬ P (.derived keys)) (h : Passing P (derive L ssc ssp cr sr th >>= k) t q) :
    ∃ t' keys, t = .noted (.derived keys) :: t' ∧
      deriveSessionKeys L.kdf ssc ssp cr sr th = .ok keys ∧ Passing P (k keys) t' q := by
  rw [derive, bind_assoc] at h
  obtain ⟨keys, hkeys, h⟩ := h.lift
  rw [bind_assoc] at h
  obtain ⟨t', ht, h⟩ := h.note_of_not (hP keys)
  exact ⟨t', keys, ht, hkeys, h⟩

theorem passing_verify {m s pk : Bytes} {k : Bool → Party} (hP : ∀ b, ¬ P (.verify pk m b))
    (h : Passing P (verify L m s pk >>= k) t q) :
    ∃ t' accepted, t = .noted (.verify pk m accepted) :: t' ∧ Passing P (k accepted) t' q := by
  rw [verify, bind_assoc] at h
  obtain ⟨t', ht, h⟩ := h.note_of_not (hP _)
  exact ⟨t', _, ht, h⟩

/-- A signature is made, and it fits its frame; what comes after it may not have happened yet. -/
theorem passing_sign {coins m sk : Bytes} {k : Bytes → Party}
    (h : Passing P (sign L coins m sk >>= k) t q) :
    ∃ t' s, t = .noted (.sign m) :: t' ∧ s.length ≤ 0xffff ∧ Run (k s) t' q := by
  rw [sign, bind_assoc] at h
  obtain ⟨s, hs, h⟩ := h.lift
  rw [bind_assoc] at h
  obtain ⟨t', ht, h⟩ := h.note
  exact ⟨t', s, ht, L.dsa.length_le_of_sign hs, h⟩

theorem exists_frame {type : MsgType} {payload : Bytes} (h : payload.length ≤ 0xffff) :
    ∃ f, frame type payload = .ok f :=
  ⟨_, frame_eq_ok.mpr ⟨h, rfl⟩⟩

/-- A client that has signed, or returned, is done. -/
theorem exists_clientRun (h : Passing Note.IsSign (clientHandshake L id c) t q)
    (hsettled : Settled t q) :
    ∃ r : ClientRun L id c, t = r.trace ∧ q = .ret r.channel := by
  rw [clientHandshake] at h
  obtain ⟨x_client, x_client_eq, h⟩ := h.lift
  obtain ⟨kem_kp, kem_kp_eq, h⟩ := h.lift
  obtain ⟨client_random, client_random_eq, h⟩ := h.lift
  obtain ⟨x25519_pub, x25519_pub_eq, h⟩ := h.lift
  obtain ⟨ch_frame, ch_frame_eq, h⟩ := h.lift
  obtain ⟨t₁, ht₁, h⟩ := h.send
  obtain ⟨sh_frame, t₂, ht₂, h⟩ := h.recv
  obtain ⟨sh, sh_eq, h⟩ := h.lift
  obtain ⟨ss_classical, ss_classical_eq, h⟩ := h.lift
  obtain ⟨ss_pq, ss_pq_eq, h⟩ := h.lift
  obtain ⟨t₃, th, ht₃, th_eq, h⟩ := passing_transcript (fun hsign => hsign) h
  obtain ⟨t₄, keys, ht₄, keys_eq, h⟩ := passing_derive (fun _ hsign => hsign) h
  obtain ⟨sa_frame, t₅, ht₅, h⟩ := h.recv
  obtain ⟨sa, sa_eq, h⟩ := h.lift
  obtain ⟨t₆, accepted, ht₆, h⟩ := passing_verify (fun _ hsign => hsign) h
  obtain ⟨haccepted, h⟩ := h.guard
  obtain ⟨t₇, th2, ht₇, th2_eq, h⟩ := passing_transcript (fun hsign => hsign) h
  obtain ⟨t₈, client_sig, ht₈, hlen, hrun⟩ := passing_sign h
  obtain ⟨ca_frame, hca⟩ : ∃ f, ClientAuth.serialize ⟨client_sig⟩ = .ok f := exists_frame hlen
  obtain ⟨hkey₁, hkey₂, hiv₁, hiv₂⟩ := length_of_deriveSessionKeys keys_eq
  obtain ⟨sender, sender_eq⟩ := (exists_create hkey₁ hiv₁).1
  obtain ⟨receiver, receiver_eq⟩ := (exists_create hkey₂ hiv₂).2
  rw [hca, sender_eq, receiver_eq] at hrun
  subst haccepted ht₈ ht₇ ht₆ ht₅ ht₄ ht₃ ht₂ ht₁
  rcases Run.send_cases hrun with ⟨ht₉, hq⟩ | ⟨t₉, ht₉, hrest⟩
  · subst ht₉ hq
    -- the turn in which it signs also sends
    rcases hsettled with hover | hnil | ⟨a, hlast, ha⟩
    · cases hover
    · cases hnil
    · cases hlast
      cases ha
  · obtain ⟨ht₁₀, hq⟩ := Run.of_ret hrest
    subst ht₁₀ ht₉ hq
    exact ⟨⟨x_client, kem_kp, client_random, x25519_pub, ch_frame, sh_frame, sh, ss_classical,
      ss_pq, th, keys, sa_frame, sa, th2, ca_frame, ⟨sender, receiver⟩, x_client_eq, kem_kp_eq,
      client_random_eq, x25519_pub_eq, ch_frame_eq, sh_eq, ss_classical_eq, ss_pq_eq, th_eq,
      keys_eq, sa_eq, th2_eq, sender_eq, receiver_eq⟩, rfl, rfl⟩

/-- A server that has signed, or returned, has a run up to its signature.  If it returned, and only
then, there is more that could pass: its run to the end. -/
theorem exists_serverRun (h : Passing Note.IsSign (serverHandshake L id c) t q) :
    ∃ (r : ServerRun L id c) (t' : Trace), t = r.trace ++ t' ∧
      (Passed Note.IsSecret t' q →
        ∃ e : ServerEnd L id c r, t' = e.trace ∧ q = .ret e.channel) := by
  rw [serverHandshake] at h
  obtain ⟨x_server, x_server_eq, h⟩ := h.lift
  obtain ⟨ch_frame, t₁, ht₁, h⟩ := h.recv
  obtain ⟨ch, ch_eq, h⟩ := h.lift
  obtain ⟨enc, enc_eq, h⟩ := h.lift
  obtain ⟨server_random, server_random_eq, h⟩ := h.lift
  obtain ⟨x25519_pub, x25519_pub_eq, h⟩ := h.lift
  obtain ⟨sh_frame, sh_frame_eq, h⟩ := h.lift
  obtain ⟨t₂, ht₂, h⟩ := h.send
  obtain ⟨ss_classical, ss_classical_eq, h⟩ := h.lift
  obtain ⟨t₃, th, ht₃, th_eq, h⟩ := passing_transcript (fun hsign => hsign) h
  obtain ⟨t₄, keys, ht₄, keys_eq, h⟩ := passing_derive (fun _ hsign => hsign) h
  obtain ⟨t₅, server_sig, ht₅, -, hrun⟩ := passing_sign h
  refine ⟨⟨x_server, ch_frame, ch, enc, server_random, x25519_pub, sh_frame, ss_classical, th,
    keys, x_server_eq, ch_eq, enc_eq, server_random_eq, x25519_pub_eq, sh_frame_eq,
    ss_classical_eq, th_eq, keys_eq⟩, t₅, by subst ht₅ ht₄ ht₃ ht₂ ht₁; rfl, ?_⟩
  intro hpassed
  have h : Passing Note.IsSecret _ t₅ q := ⟨hrun, hpassed⟩
  obtain ⟨sa_frame, sa_frame_eq, h⟩ := h.lift
  obtain ⟨t₆, ht₆, h⟩ := h.send
  obtain ⟨ca_frame, t₇, ht₇, h⟩ := h.recv
  obtain ⟨ca, ca_eq, h⟩ := h.lift
  obtain ⟨t₈, th2, ht₈, th2_eq, h⟩ := passing_transcript (fun hsecret => hsecret) h
  obtain ⟨t₉, accepted, ht₉, h⟩ := passing_verify (fun _ hsecret => hsecret) h
  obtain ⟨haccepted, h⟩ := h.guard
  obtain ⟨sender, sender_eq, h⟩ := h.lift
  obtain ⟨receiver, receiver_eq, h⟩ := h.lift
  obtain ⟨ht₁₀, hret⟩ := Run.of_ret h.run
  refine ⟨⟨sa_frame, ⟨server_sig⟩, ca_frame, th2, ⟨sender, receiver⟩, sa_frame_eq, th2_eq,
    sender_eq, receiver_eq⟩, ?_, hret⟩
  subst ht₁₀ haccepted ht₉ ht₈ ht₇ ht₆
  rfl

end

end PqcEdr.Crypto
