/-
# The transport of a connection

`make_socket_transport` of `socket.cpp`: a handshake over one connected socket.  The kernel cuts
the bytes as it likes in both directions; where no call fails, the transport carries any trace
whose received frames are what arrives (`carries_of_unbroken`), and so a program run over the
socket returns what its run returns (`call_of_unbroken`).
-/
import PqcEdr.Crypto.Framing
import PqcEdr.Crypto.Handshake
import PqcEdr.Lib.Transport

namespace PqcEdr.Crypto

open Proc BigEndian

/-! ## 1. `make_socket_transport` -/

/-- A connected socket, both ways. -/
structure Conn where
  incoming : Socket
  outgoing : Outgoing

/-- `errno` after calls of `send` that were answered so. -/
def errnoAfter (errno : String) : List SendEvent → String
  | [] => errno
  | .taken _ _ :: answers => errnoAfter errno answers
  | .eintr :: answers => errnoAfter "Interrupted system call" answers
  | .fail text :: answers => errnoAfter text answers

def Conn.sendFrame (frame : Bytes) : Method Exn Conn Unit :=
  ExceptT.mk fun conn =>
    let (result, outgoing) := (Outgoing.sendFrame frame).call conn.outgoing
    let answered := conn.outgoing.answers.take
      (conn.outgoing.answers.length - outgoing.answers.length)
    (result,
      { incoming := { conn.incoming with errno := errnoAfter conn.incoming.errno answered }
        outgoing := outgoing })

def Conn.recvFrame : Method Exn Conn Bytes :=
  ExceptT.mk fun conn =>
    let (result, incoming) := Socket.recvFrame.call conn.incoming
    (result, { conn with incoming := incoming })

def makeSocketTransport : Transport Bytes Exn Conn := ⟨Conn.sendFrame, Conn.recvFrame⟩

/-! ## 2. Sockets on which nothing fails -/

/-- No call of `recv` or `send` fails. -/
structure Conn.Unbroken (conn : Conn) : Prop where
  incoming : ∀ text, .fail text ∉ conn.incoming.incoming
  outgoing : ∀ text, .fail text ∉ conn.outgoing.answers

def receivedFrames (t : Trace) : List Bytes :=
  t.filterMap fun
    | .received f => some f
    | _ => none

def sentFrames (t : Trace) : List Bytes :=
  t.filterMap fun
    | .sent f => some f
    | _ => none

theorem isPrefixed_iff {n i : ℕ} {message : Bytes} : IsPrefixed n i message ↔
    n ≤ message.length ∧ message.length = n + (lengthAt i (message.take n)).toNat := by
  constructor
  · rintro ⟨header, payload, rfl, rfl, hlen⟩
    rw [List.take_left, List.length_append, hlen]
    exact ⟨Nat.le_add_right _ _, rfl⟩
  · rintro ⟨hle, hlen⟩
    refine ⟨message.take n, message.drop n, (List.take_append_drop n message).symm,
      List.length_take_of_le hle, ?_⟩
    rw [List.length_drop]
    omega

theorem isPrefixed_of_isFrame {f : Bytes} (h : Wire.IsFrame f) : IsPrefixed 4 2 f := by
  obtain ⟨t, payload, hf⟩ := h
  obtain ⟨hlen, rfl⟩ := Wire.frame_eq_ok.mp hf
  refine ⟨t.code :: Wire.kVersion :: put16 (UInt16.ofNat payload.length), payload, rfl, rfl, ?_⟩
  have hget : lengthAt 2 (t.code :: Wire.kVersion :: put16 (UInt16.ofNat payload.length)) =
      UInt16.ofNat payload.length := get16_put16 _
  rw [hget, Wire.length_ofNat hlen]

theorem call_recvFrame (conn : Conn) : Conn.recvFrame.call conn =
    ((Socket.recvFrame.call conn.incoming).1,
      { conn with incoming := (Socket.recvFrame.call conn.incoming).2 }) := rfl

theorem recvFrame_of_unbroken {conn : Conn} (h : conn.Unbroken) {f tail : Bytes}
    (hf : IsPrefixed 4 2 f) (hbytes : conn.incoming.bytes = f ++ tail) :
    ∃ conn', Conn.recvFrame.call conn = (.ok f, conn') ∧ conn'.Unbroken ∧
      conn'.incoming.bytes = tail ∧ conn'.outgoing = conn.outgoing := by
  obtain ⟨s', hcall, htail, hclean⟩ : ∃ s', Socket.recvFrame.call conn.incoming = (.ok f, s') ∧
      s'.bytes = tail ∧ Clean s'.incoming := by
    rw [Socket.recvFrame_eq_recvPrefixed]
    exact recvPrefixed_of_clean hf h.incoming hbytes
  refine ⟨{ conn with incoming := s' }, ?_, ⟨hclean, h.outgoing⟩, htail, rfl⟩
  rw [call_recvFrame, hcall]

theorem sendFrame_of_unbroken {conn : Conn} (h : conn.Unbroken) (f : Bytes) :
    ∃ conn', (Conn.sendFrame f).call conn = (.ok (), conn') ∧ conn'.Unbroken ∧
      conn'.incoming.bytes = conn.incoming.bytes ∧
      conn'.outgoing.wire = conn.outgoing.wire ++ f := by
  have hwrote := writeAll_wrote conn.outgoing f
  obtain ⟨hok, hclean⟩ := hwrote.ok h.outgoing
  refine ⟨((Conn.sendFrame f).call conn).2, Prod.ext hok rfl, ⟨h.incoming, hclean⟩, rfl, ?_⟩
  exact hwrote.whole hok

/-- The transport carries a trace whose received frames arrive, and writes its sent ones. -/
theorem carries_of_unbroken {t : Trace} (hframes : ∀ f ∈ receivedFrames t, IsPrefixed 4 2 f)
    {conn : Conn} (h : conn.Unbroken) {tail : Bytes}
    (hbytes : conn.incoming.bytes = (receivedFrames t).flatten ++ tail) :
    ∃ conn', makeSocketTransport.Carries t conn conn' ∧ conn'.Unbroken ∧
      conn'.incoming.bytes = tail ∧
      conn'.outgoing.wire = conn.outgoing.wire ++ (sentFrames t).flatten := by
  induction t generalizing conn with
  | nil => exact ⟨conn, .nil _, h, hbytes, (List.append_nil _).symm⟩
  | cons a t ih =>
    cases a with
    | sent f =>
      obtain ⟨conn₁, hcall, h₁, hsame, hwire⟩ := sendFrame_of_unbroken h f
      obtain ⟨conn', hcarries, h', htail, hwire'⟩ := ih hframes h₁ (hsame.trans hbytes)
      refine ⟨conn', .sent hcall hcarries, h', htail, ?_⟩
      rw [hwire', hwire, List.append_assoc]
      rfl
    | received f =>
      have hfirst : receivedFrames (.received f :: t) = f :: receivedFrames t := rfl
      rw [hfirst] at hframes hbytes
      rw [List.flatten_cons, List.append_assoc] at hbytes
      obtain ⟨conn₁, hcall, h₁, hrest, hsame⟩ :=
        recvFrame_of_unbroken h (hframes f List.mem_cons_self) hbytes
      obtain ⟨conn', hcarries, h', htail, hwire'⟩ :=
        ih (fun g hg => hframes g (List.mem_cons_of_mem _ hg)) h₁ hrest
      refine ⟨conn', .received hcall hcarries, h', htail, ?_⟩
      rw [hwire', hsame]
      rfl
    | noted e =>
      obtain ⟨conn', hcarries, h', htail, hwire'⟩ := ih hframes h hbytes
      exact ⟨conn', .noted hcarries, h', htail, hwire'⟩

/-- A run of a program over a socket that delivers its frames. -/
theorem call_of_unbroken {p : Party} {t : Trace} {ch : Channel} (hrun : Run p t (.ret ch))
    (hframes : ∀ f ∈ receivedFrames t, IsPrefixed 4 2 f) {conn : Conn} (h : conn.Unbroken)
    {tail : Bytes} (hbytes : conn.incoming.bytes = (receivedFrames t).flatten ++ tail) :
    ∃ conn', (p.via makeSocketTransport).call conn = (.ok ch, conn') ∧ conn'.Unbroken ∧
      conn'.incoming.bytes = tail ∧
      conn'.outgoing.wire = conn.outgoing.wire ++ (sentFrames t).flatten := by
  obtain ⟨conn', hcarries, h', htail, hwire⟩ := carries_of_unbroken hframes h hbytes
  exact ⟨conn', via_eq_ok.mpr ⟨t, hrun, hcarries⟩, h', htail, hwire⟩

/-! ## 3. What the two roles send -/

variable {L : Primitives} {id : Identity} {c : Coins}

theorem allSent_transcript (acc : Bytes) : AllSent Wire.IsFrame (transcript L acc) := by
  unfold transcript
  exact allSent_bind trivial fun _ => by cases L.kdf.sha256 acc <;> trivial

theorem allSent_derive (ssc ssp cr sr th : Bytes) :
    AllSent Wire.IsFrame (derive L ssc ssp cr sr th) := by
  unfold derive
  exact allSent_lift fun _ _ => allSent_bind trivial fun _ => trivial

theorem allSent_sign (coins m sk : Bytes) : AllSent Wire.IsFrame (sign L coins m sk) := by
  unfold sign
  exact allSent_lift fun _ _ => allSent_bind trivial fun _ => trivial

/-- Whatever it receives, a client sends frames. -/
theorem allSent_clientHandshake : AllSent Wire.IsFrame (clientHandshake L id c) := by
  unfold clientHandshake
  refine allSent_lift fun x_client _ => allSent_lift fun kem_kp _ => ?_
  refine allSent_lift fun client_random _ => allSent_lift fun x25519_pub _ => ?_
  refine allSent_lift fun ch_frame hch => ?_
  refine allSent_bind ⟨Wire.isFrame_of_serializeHello hch, trivial⟩ fun _ => ?_
  refine allSent_bind (fun _ => trivial) fun sh_frame => allSent_lift fun sh _ => ?_
  refine allSent_lift fun ss_classical _ => allSent_lift fun ss_pq _ => ?_
  refine allSent_bind (allSent_transcript _) fun th => ?_
  refine allSent_bind (allSent_derive _ _ _ _ _) fun keys => ?_
  refine allSent_bind (fun _ => trivial) fun sa_frame => allSent_lift fun sa _ => ?_
  refine allSent_bind trivial fun accepted => allSent_ite ?_
  refine allSent_bind (allSent_transcript _) fun th2 => ?_
  refine allSent_bind (allSent_sign _ _ _) fun client_sig => ?_
  refine allSent_lift fun ca_frame hca => allSent_bind ⟨⟨_, _, hca⟩, trivial⟩ fun _ => ?_
  exact allSent_lift fun _ _ => allSent_lift fun _ _ => trivial

/-- Whatever it receives, a server sends frames. -/
theorem allSent_serverHandshake : AllSent Wire.IsFrame (serverHandshake L id c) := by
  unfold serverHandshake
  refine allSent_lift fun x_server _ => allSent_bind (fun _ => trivial) fun ch_frame => ?_
  refine allSent_lift fun ch _ => allSent_lift fun enc _ => allSent_lift fun server_random _ => ?_
  refine allSent_lift fun x25519_pub _ => allSent_lift fun sh_frame hsh => ?_
  refine allSent_bind ⟨Wire.isFrame_of_serializeHello hsh, trivial⟩ fun _ => ?_
  refine allSent_lift fun ss_classical _ => allSent_bind (allSent_transcript _) fun th => ?_
  refine allSent_bind (allSent_derive _ _ _ _ _) fun keys => ?_
  refine allSent_bind (allSent_sign _ _ _) fun server_sig => allSent_lift fun sa_frame hsa => ?_
  refine allSent_bind ⟨⟨_, _, hsa⟩, trivial⟩ fun _ => ?_
  refine allSent_bind (fun _ => trivial) fun ca_frame => allSent_lift fun ca _ => ?_
  refine allSent_bind (allSent_transcript _) fun th2 => ?_
  refine allSent_bind trivial fun accepted => allSent_ite ?_
  exact allSent_lift fun _ _ => allSent_lift fun _ _ => trivial

/-- The frames that one side sent are messages that the other side's socket delimits. -/
theorem isPrefixed_of_sent {p : Party} (hp : AllSent Wire.IsFrame p) {t : Trace} {q : Party}
    (hrun : Run p t q) : ∀ f ∈ sentFrames t, IsPrefixed 4 2 f := by
  intro f hf
  obtain ⟨a, ha, hfa⟩ := List.mem_filterMap.mp hf
  cases a with
  | sent g =>
    obtain rfl := Option.some.inj hfa
    exact isPrefixed_of_isFrame (hp.of_run hrun g ha)
  | received g => cases hfa
  | noted e => cases hfa

end PqcEdr.Crypto
