/-
# Messages on a stream socket

`socket.cpp`, both sides: handshake frames and then records, written with `write_all` and read with
`read_all`.  The kernel takes and gives bytes in pieces of its own choice, and the two headers
differ.  What the receiver's calls return does not depend on the pieces:

* `sendSession_wire`: what is written is the messages, one behind the other.
* `recvFirst_of_clean`: as many messages as arrived whole are returned, and no byte behind them.
* `socket_framing`: both, and what the next call does when the stream ends.
-/
import PqcEdr.Crypto.Stream
import PqcEdr.Crypto.Wire

namespace PqcEdr.Crypto

open BigEndian

/-! ## 1. `send` -/

/-- An answer of the kernel to `send`: it takes up to so many bytes, is interrupted, or fails. -/
inductive SendEvent
  | taken (count : ℕ) (pos : 0 < count)
  | eintr
  | fail (errno : String)

/-- The sending side of a connection.  After the last of the answers, a call takes all it is
given. -/
structure Outgoing where
  answers : List SendEvent
  wire : Bytes

/-- The loop of `write_all`, with the bytes not sent yet. -/
def writeLoop : List SendEvent → Bytes → Bytes → Result Unit × Outgoing
  | [], p, wire => (.ok (), ⟨[], wire ++ p⟩)
  | answer :: answers, p, wire =>
    if p.length > 0 then
      match answer with
      | .eintr => writeLoop answers p wire
      | .fail text => (.error (socketError "send" text), ⟨answers, wire⟩)
      | .taken count _ => writeLoop answers (p.drop count) (wire ++ p.take count)
    else (.ok (), ⟨answer :: answers, wire⟩)

def writeAll (p : Bytes) : Method Exn Outgoing Unit :=
  ExceptT.mk fun o => writeLoop o.answers p o.wire

def Outgoing.sendFrame (frame : Bytes) : Method Exn Outgoing Unit := writeAll frame

def sendRecord (record : Bytes) : Method Exn Outgoing Unit := writeAll record

/-- A call for each message, up to the one that throws. -/
def sendEach (send : Bytes → Method Exn Outgoing Unit) : List Bytes → Method Exn Outgoing Unit
  | [] => return ()
  | message :: messages => do
    send message
    sendEach send messages

def sendSession (frames records : List Bytes) : Method Exn Outgoing Unit := do
  sendEach Outgoing.sendFrame frames
  sendEach sendRecord records

/-! ## 2. `recv_frame` -/

def Socket.recvFrame : Method Exn Socket Bytes := do
  match ← readAll Wire.kHeaderLen with
  | none => throw (.SocketError "socket: 핸드셰이크 도중 연결 종료")
  | some header =>
    let len := get16 (header.getD 2 0) (header.getD 3 0)
    if len > 0 then
      match ← readAll len.toNat with
      | none => throw (.SocketError "socket: payload 수신 중 연결 종료")
      | some payload => return header ++ payload
    else return header

theorem Socket.recvFrame_eq_recvPrefixed :
    Socket.recvFrame = recvPrefixed 4 2 (throw (.SocketError "socket: 핸드셰이크 도중 연결 종료"))
      "socket: payload 수신 중 연결 종료" := rfl

/-- The `i`-th call of a receiver that expects `n` frames and then records. -/
def recvAt (n i : ℕ) : Method Exn Socket Bytes := if i < n then Socket.recvFrame else recvRecord

/-- The first `k` calls. -/
def recvFirst (n : ℕ) : ℕ → Method Exn Socket (List Bytes)
  | 0 => return []
  | k + 1 => do
    let messages ← recvFirst n k
    let message ← recvAt n k
    return messages ++ [message]

/-! ## 3. What is written -/

/-- No `send` fails. -/
def Outgoing.Clean (o : Outgoing) : Prop := ∀ text, .fail text ∉ o.answers

/-- `p` has gone out after the state `o`, or as much of it as the kernel took before it failed. -/
structure Wrote (o : Outgoing) (p : Bytes) (r : Result Unit × Outgoing) : Prop where
  part : ∃ w, w <+: p ∧ r.2.wire = o.wire ++ w
  whole : r.1 = .ok () → r.2.wire = o.wire ++ p
  ok : o.Clean → r.1 = .ok () ∧ r.2.Clean

theorem writeLoop_wrote (answers : List SendEvent) (p wire : Bytes) :
    Wrote ⟨answers, wire⟩ p (writeLoop answers p wire) := by
  induction answers generalizing p wire with
  | nil => exact ⟨⟨p, List.prefix_rfl, rfl⟩, fun _ => rfl, fun h => ⟨rfl, h⟩⟩
  | cons answer answers ih =>
    by_cases hp : p.length > 0
    · have htail : Outgoing.Clean ⟨answer :: answers, wire⟩ → ∀ wire',
          Outgoing.Clean ⟨answers, wire'⟩ := fun h _ text hmem =>
        h text (List.mem_cons_of_mem _ hmem)
      cases answer with
      | eintr =>
        obtain ⟨hpart, hwhole, hok⟩ := ih p wire
        rw [writeLoop, if_pos hp]
        exact ⟨hpart, hwhole, fun h => hok (htail h _)⟩
      | fail text =>
        rw [writeLoop, if_pos hp]
        refine ⟨⟨[], List.nil_prefix, (List.append_nil wire).symm⟩, ?_, ?_⟩
        · intro h
          cases h
        · intro h
          exact absurd List.mem_cons_self (h text)
      | taken count hpos =>
        obtain ⟨⟨w, hw, hpart⟩, hwhole, hok⟩ := ih (p.drop count) (wire ++ p.take count)
        have hsplit : p.take count ++ p.drop count = p := List.take_append_drop count p
        rw [writeLoop, if_pos hp]
        refine ⟨⟨p.take count ++ w, ?_, ?_⟩, ?_, fun h => hok (htail h _)⟩
        · have hle := (List.prefix_append_right_inj (p.take count)).mpr hw
          rwa [hsplit] at hle
        · rw [hpart, List.append_assoc]
        · intro h
          rw [hwhole h, List.append_assoc, hsplit]
    · obtain rfl : p = [] := List.eq_nil_of_length_eq_zero (by omega)
      have hdone : writeLoop (answer :: answers) [] wire = (.ok (), ⟨answer :: answers, wire⟩) := by
        cases answer <;> rw [writeLoop, if_neg hp]
      rw [hdone]
      exact ⟨⟨[], List.prefix_rfl, (List.append_nil wire).symm⟩,
        fun _ => (List.append_nil wire).symm, fun h => ⟨rfl, h⟩⟩

theorem writeAll_wrote (o : Outgoing) (p : Bytes) : Wrote o p ((writeAll p).call o) :=
  writeLoop_wrote o.answers p o.wire

/-- A call of `write_all` that throws has not written the last byte. -/
theorem writeLoop_eq_error {answers : List SendEvent} {p wire : Bytes} {e : Exn} {o : Outgoing}
    (h : writeLoop answers p wire = (.error e, o)) : ∃ w, w <+: p ∧ w ≠ p ∧ o.wire = wire ++ w := by
  induction answers generalizing p wire with
  | nil =>
    rw [writeLoop] at h
    cases h
  | cons answer answers ih =>
    by_cases hp : p.length > 0
    · cases answer with
      | eintr =>
        rw [writeLoop, if_pos hp] at h
        exact ih h
      | fail text =>
        rw [writeLoop, if_pos hp] at h
        cases h
        exact ⟨[], List.nil_prefix, (List.ne_nil_of_length_pos hp).symm, (List.append_nil _).symm⟩
      | taken count hpos =>
        rw [writeLoop, if_pos hp] at h
        obtain ⟨w, hw, hne, hwire⟩ := ih h
        have hsplit : p.take count ++ p.drop count = p := List.take_append_drop count p
        refine ⟨p.take count ++ w, ?_, ?_, by rw [hwire, List.append_assoc]⟩
        · have hle := (List.prefix_append_right_inj (p.take count)).mpr hw
          rwa [hsplit] at hle
        · intro heq
          exact hne (List.append_cancel_left (heq.trans hsplit.symm))
    · cases answer <;>
        · rw [writeLoop, if_neg hp] at h
          cases h

/-- One message after another. -/
theorem Wrote.bind {m m' : Method Exn Outgoing Unit} {p p' : Bytes} {o : Outgoing}
    (h : Wrote o p (m.call o)) (h' : ∀ o', Wrote o' p' (m'.call o')) :
    Wrote o (p ++ p') (Method.call (m >>= fun _ => m') o) := by
  obtain ⟨⟨w, hw, hpart⟩, hwhole, hok⟩ := h
  rw [Method.call_bind]
  rcases hcall : m.call o with ⟨e | u, o'⟩ <;> rw [hcall] at hpart hwhole hok
  · refine ⟨⟨w, hw.trans (List.prefix_append _ _), hpart⟩, ?_, ?_⟩
    · intro hcontra
      cases hcontra
    · intro hclean
      cases (hok hclean).1
  · obtain ⟨⟨w', hw', hpart'⟩, hwhole', hok'⟩ := h' o'
    have hfirst : o'.wire = o.wire ++ p := hwhole rfl
    refine ⟨⟨p ++ w', (List.prefix_append_right_inj p).mpr hw', ?_⟩, ?_, ?_⟩
    · rw [hpart', hfirst, List.append_assoc]
    · intro hret
      rw [hwhole' hret, hfirst, List.append_assoc]
    · intro hclean
      exact hok' (hok hclean).2

theorem sendEach_wrote {send : Bytes → Method Exn Outgoing Unit}
    (hsend : ∀ p o, Wrote o p ((send p).call o)) (messages : List Bytes) (o : Outgoing) :
    Wrote o messages.flatten ((sendEach send messages).call o) := by
  induction messages generalizing o with
  | nil =>
    exact ⟨⟨[], List.prefix_rfl, (List.append_nil _).symm⟩, fun _ => (List.append_nil _).symm,
      fun h => ⟨rfl, h⟩⟩
  | cons message messages ih => exact (hsend message o).bind ih

/-- The messages are on the wire, one behind the other. -/
theorem sendSession_wire (frames records : List Bytes) (o : Outgoing) :
    Wrote o (frames ++ records).flatten ((sendSession frames records).call o) := by
  have hwrite : ∀ p o, Wrote o p ((writeAll p).call o) := fun p o => writeAll_wrote o p
  rw [List.flatten_append]
  exact (sendEach_wrote hwrite frames o).bind fun o' => sendEach_wrote hwrite records o'

/-! ## 4. What is read -/

/-- The call receives the message, and throws on a stream that ends inside of it. -/
structure Receives (m : Method Exn Socket Bytes) (message : Bytes) : Prop where
  nonempty : message ≠ []
  whole {s : Socket} {tail : Bytes} : Clean s.incoming → s.bytes = message ++ tail →
    ∃ s', m.call s = (.ok message, s') ∧ s'.bytes = tail ∧ Clean s'.incoming
  cut {s : Socket} : Clean s.incoming → s.bytes <+: message → s.bytes ≠ message → s.bytes ≠ [] →
    ∃ what s', m.call s = (.error (.SocketError what), s')

theorem recvPrefixed_receives {n i : ℕ} {atEnd : Method Exn Socket Bytes} {cut : String}
    {message : Bytes} (hn : 0 < n) (h : IsPrefixed n i message) :
    Receives (recvPrefixed n i atEnd cut) message := by
  refine ⟨?_, recvPrefixed_of_clean h, recvPrefixed_of_cut h⟩
  obtain ⟨header, payload, rfl, rfl, -⟩ := h
  exact List.append_ne_nil_of_left_ne_nil (List.ne_nil_of_length_pos hn) _

theorem isPrefixed_of_openFrame {f : Bytes} {t : Wire.MsgType} {r : Wire.Reader}
    (h : Wire.openFrame f t = .ok r) : IsPrefixed 4 2 f := by
  obtain ⟨hlen, hf⟩ := Wire.frame_eq_ok.mp (Wire.openFrame_eq_ok.mp h).2
  refine ⟨t.code :: Wire.kVersion :: put16 (UInt16.ofNat r.rest.length), r.rest, hf, rfl, ?_⟩
  have hget : lengthAt 2 (t.code :: Wire.kVersion :: put16 (UInt16.ofNat r.rest.length)) =
      UInt16.ofNat r.rest.length := get16_put16 _
  rw [hget, UInt16.toNat_ofNat_of_lt']
  rw [UInt16.size]
  omega

theorem isRecord_of_seal {A : Gcm} {pt record : Bytes} {s s' : RecordSender}
    (h : (RecordSender.seal A pt).call s = (.ok record, s')) : IsRecord record := by
  obtain ⟨-, hlen, ct, tag, henc, rfl, -⟩ := seal_eq_ok.mp h
  obtain ⟨hct, htag⟩ := A.length_encrypt henc
  exact isRecord_of_lengths hlen hct htag

/-- The frames come first, then the records. -/
theorem recvAt_receives {frames records : List Bytes} (hframes : ∀ f ∈ frames, IsPrefixed 4 2 f)
    (hrecords : ∀ record ∈ records, IsRecord record) {k : ℕ} {message : Bytes}
    (h : (frames ++ records)[k]? = some message) :
    Receives (recvAt frames.length k) message := by
  rw [recvAt]
  by_cases hk : k < frames.length
  · rw [List.getElem?_append_left hk] at h
    rw [if_pos hk, Socket.recvFrame_eq_recvPrefixed]
    exact recvPrefixed_receives (by decide) (hframes _ (List.mem_of_getElem? h))
  · rw [List.getElem?_append_right (Nat.not_lt.mp hk)] at h
    rw [if_neg hk, recvRecord_eq_recvPrefixed]
    exact recvPrefixed_receives (by decide) (hrecords _ (List.mem_of_getElem? h)).isPrefixed

/-- The next call, on a stream that has ended. -/
theorem recvAt_of_end (n k : ℕ) {s : Socket} (hclean : Clean s.incoming) (hbytes : s.bytes = []) :
    if n ≤ k then ∃ s', (recvAt n k).call s = (.ok [], s')
    else ∃ what s', (recvAt n k).call s = (.error (.SocketError what), s') := by
  rw [recvAt]
  by_cases hk : n ≤ k
  · rw [if_pos hk, if_neg (Nat.not_lt.mpr hk)]
    exact recvRecord_of_clean_nil hclean hbytes
  · rw [if_neg hk, if_pos (Nat.not_le.mp hk), Socket.recvFrame_eq_recvPrefixed]
    obtain ⟨s', hcall⟩ := recvPrefixed_of_end (Nat.succ_pos 3) hclean hbytes
    exact ⟨_, s', hcall⟩

theorem take_succ_flatten {messages : List Bytes} {k : ℕ} {message : Bytes}
    (h : messages[k]? = some message) :
    (messages.take (k + 1)).flatten = (messages.take k).flatten ++ message := by
  rw [List.take_add_one, h]
  simp

/-- As many messages as the stream begins with are returned, and what follows them is left. -/
theorem recvFirst_of_clean {n : ℕ} {messages : List Bytes}
    (hcalls : ∀ k message, messages[k]? = some message → Receives (recvAt n k) message)
    {s : Socket} (hclean : Clean s.incoming) {k : ℕ} (hk : k ≤ messages.length)
    (hpre : (messages.take k).flatten <+: s.bytes) :
    ∃ s', (recvFirst n k).call s = (.ok (messages.take k), s') ∧
      s.bytes = (messages.take k).flatten ++ s'.bytes ∧ Clean s'.incoming := by
  induction k with
  | zero => exact ⟨s, rfl, rfl, hclean⟩
  | succ k ih =>
    obtain ⟨message, hmessage⟩ : ∃ message, messages[k]? = some message :=
      ⟨_, List.getElem?_eq_getElem hk⟩
    rw [take_succ_flatten hmessage] at hpre ⊢
    obtain ⟨s₁, hcall, hbytes, hclean₁⟩ := ih (Nat.le_of_succ_le hk)
      ((List.prefix_append _ _).trans hpre)
    obtain ⟨tail, htail⟩ := hpre
    rw [hbytes, List.append_assoc, List.append_cancel_left_eq] at htail
    obtain ⟨s₂, hcall₂, rfl, hclean₂⟩ :=
      (hcalls k message hmessage).whole hclean₁ htail.symm
    refine ⟨s₂, ?_, ?_, hclean₂⟩
    · rw [recvFirst, Method.call_bind, hcall]
      simp only [Method.call_bind, hcall₂, Method.call_pure]
      rw [List.take_add_one, hmessage]
      rfl
    · rw [hbytes, ← htail, List.append_assoc]

/-! ## 5. Where the stream ends -/

/-- The call after the first `k` finds the end of the stream: `recv_record` returns the empty value
if no byte was left, and any other call throws. -/
def EndsAt (n k : ℕ) (s : Socket) : Prop :=
  if n ≤ k ∧ s.bytes = [] then ∃ s', (recvAt n k).call s = (.ok [], s')
  else ∃ what s', (recvAt n k).call s = (.error (.SocketError what), s')

theorem endsAt_of_end (n k : ℕ) {s : Socket} (hclean : Clean s.incoming) (hbytes : s.bytes = []) :
    EndsAt n k s := by
  have hend := recvAt_of_end n k hclean hbytes
  rw [EndsAt]
  simpa only [hbytes, and_true] using hend

/-- No whole message is left: the stream ends here. -/
theorem endsAt_of_cut {n : ℕ} {messages : List Bytes}
    (hcalls : ∀ k message, messages[k]? = some message → Receives (recvAt n k) message)
    {k : ℕ} {s : Socket} (hclean : Clean s.incoming)
    (hpre : s.bytes <+: (messages.drop k).flatten)
    (hshort : ∀ message, messages[k]? = some message → ¬ message <+: s.bytes) : EndsAt n k s := by
  by_cases hnil : s.bytes = []
  · exact endsAt_of_end n k hclean hnil
  · rcases hmessage : messages[k]? with _ | message
    · rw [List.drop_eq_nil_of_le (List.getElem?_eq_none_iff.mp hmessage)] at hpre
      exact absurd (List.prefix_nil.mp hpre) hnil
    · obtain ⟨hk, rfl⟩ := List.getElem?_eq_some_iff.mp hmessage
      rw [List.drop_eq_getElem_cons hk, List.flatten_cons] at hpre
      have hcut : s.bytes <+: messages[k] :=
        (List.prefix_or_prefix_of_prefix hpre (List.prefix_append _ _)).resolve_right
          (hshort _ hmessage)
      have hne : s.bytes ≠ messages[k] := by
        intro heq
        exact hshort _ hmessage (heq ▸ List.prefix_rfl)
      rw [EndsAt, if_neg fun h => hnil h.2]
      exact (hcalls k _ hmessage).cut hclean hcut hne hnil

/-- The loop ends with nothing read only at the end of the stream, failures or not. -/
theorem readLoop_eq_none {n : ℕ} {incoming : List RecvEvent} {got : Bytes} {errno : String}
    {s' : Socket} (h : readLoop n got errno incoming = (.ok none, s')) :
    got = [] ∧ bytesOf incoming = [] := by
  induction incoming generalizing got errno with
  | nil =>
    rw [readLoop] at h
    by_cases hgot : got = []
    · exact ⟨hgot, rfl⟩
    · by_cases hlt : got.length < n <;> simp [hlt, hgot] at h
  | cons event rest ih =>
    rcases Nat.lt_or_ge got.length n with hlt | hfull
    · cases event with
      | eintr =>
        rw [readLoop, if_pos hlt] at h
        exact ih h
      | fail text =>
        rw [readLoop, if_pos hlt] at h
        cases h
      | data chunk hne =>
        rcases readLoop_data hlt hne errno rest with ⟨_, heq⟩ | ⟨_, heq⟩
        · rw [heq] at h
          cases h
        · rw [heq] at h
          have hnil := (ih h).1
          exact absurd (List.append_eq_nil_iff.mp hnil).2 hne
    · rw [readLoop_full hfull] at h
      cases h

/-- On any stream, failures included, the empty value means that no byte was left. -/
theorem bytes_of_recvRecord_nil {s s' : Socket} (h : recvRecord.call s = (.ok [], s')) :
    s.bytes = [] := by
  rw [recvRecord_eq_recvPrefixed] at h
  rcases hread : (readAll 2).call s with ⟨_ | _ | header, s₁⟩
  · rw [recvPrefixed, Method.call_bind, hread] at h
    cases h
  · exact (readLoop_eq_none hread).2
  · have hlen := (readAll_eq_some hread).1
    have hne : header ≠ [] := List.ne_nil_of_length_pos (by omega)
    rw [recvPrefixed_of_header hread] at h
    by_cases hpos : lengthAt 0 header > 0
    · rw [if_pos hpos] at h
      rcases hread₂ : (readAll (lengthAt 0 header).toNat).call s₁ with ⟨_ | _ | payload, s₂⟩ <;>
        rw [hread₂] at h
      · cases h
      · cases h
      · obtain ⟨hnil, -⟩ := Prod.mk.inj h
        exact absurd (List.append_eq_nil_iff.mp (Except.ok.inj hnil)).1 hne
    · rw [if_neg hpos] at h
      exact absurd (Except.ok.inj (Prod.mk.inj h).1) hne

/-! ## 6. The session -/

/-- **Framing does not depend on segmentation.**  Frames that `open_frame` accepts and records that
`seal` made are written one behind the other, however much each `send` takes; of whatever part of
these bytes arrives, however `recv` cuts it, the calls return the messages that are there whole,
in order, leaving the bytes behind them, and the next call returns the empty value between records
at the end of the stream and throws in any other case. -/
theorem socket_framing (frames records : List Bytes)
    (hframes : ∀ f ∈ frames, ∃ t r, Wire.openFrame f t = .ok r)
    (hrecords : ∀ record ∈ records, ∃ A pt sender sender',
      (RecordSender.seal A pt).call sender = (.ok record, sender')) (answers : List SendEvent) :
    Wrote ⟨answers, []⟩ (frames ++ records).flatten
        ((sendSession frames records).call ⟨answers, []⟩) ∧
      (∀ s : Socket, Clean s.incoming →
        s.bytes <+: ((sendSession frames records).call ⟨answers, []⟩).2.wire →
        ∀ k ≤ (frames ++ records).length, ((frames ++ records).take k).flatten <+: s.bytes →
          ∃ s', (recvFirst frames.length k).call s = (.ok ((frames ++ records).take k), s') ∧
            s.bytes = ((frames ++ records).take k).flatten ++ s'.bytes ∧
            ((∀ message, (frames ++ records)[k]? = some message → ¬ message <+: s'.bytes) →
              EndsAt frames.length k s')) ∧
      ∀ s s' : Socket, recvRecord.call s = (.ok [], s') → s.bytes = [] := by
  have hwrote := sendSession_wire frames records ⟨answers, []⟩
  have hcalls : ∀ k message, (frames ++ records)[k]? = some message →
      Receives (recvAt frames.length k) message := by
    intro k message
    refine recvAt_receives ?_ ?_
    · intro f hf
      obtain ⟨t, r, hopen⟩ := hframes f hf
      exact isPrefixed_of_openFrame hopen
    · intro record hrecord
      obtain ⟨A, pt, sender, sender', hseal⟩ := hrecords record hrecord
      exact isRecord_of_seal hseal
  refine ⟨hwrote, ?_, fun s s' => bytes_of_recvRecord_nil⟩
  intro s hclean harrived k hk hpre
  obtain ⟨s', hcall, hbytes, hclean'⟩ := recvFirst_of_clean hcalls hclean hk hpre
  refine ⟨s', hcall, hbytes, endsAt_of_cut hcalls hclean' ?_⟩
  obtain ⟨w, hw, hwire⟩ := hwrote.part
  rw [hwire, List.nil_append, hbytes] at harrived
  have hall := harrived.trans hw
  rw [← List.take_append_drop k (frames ++ records), List.flatten_append] at hall
  rw [List.take_append_drop] at hall
  exact (List.prefix_append_right_inj _).mp hall

/-- A signature of one byte, and a record with no plaintext: the frame comes in three pieces, and
the stream ends inside the record's header. -/
def cutSocket : Socket where
  incoming := [.data [3, 1] (by decide), .eintr, .data [0] (by decide), .data [1, 7, 0] (by decide)]
  errno := ""

theorem socket_framing_cut :
    ∃ s', (recvFirst 1 1).call cutSocket = (.ok [[3, 1, 0, 1, 7]], s') ∧ s'.bytes = [0] ∧
      ∃ what s'', recvRecord.call s' = (.error (.SocketError what), s'') := by
  obtain ⟨s', hcall, hbytes, hends⟩ :=
    (socket_framing [[3, 1, 0, 1, 7]] [0 :: 16 :: List.replicate 16 0]
      (by
        rw [List.forall_mem_singleton]
        exact ⟨.ServerAuth, ⟨_, 4, by decide⟩, rfl⟩)
      (by
        rw [List.forall_mem_singleton]
        exact ⟨tableGcm [], [], zeroSender, zeroSender.next, rfl⟩) []).2.1 cutSocket
      (by simp [Clean, cutSocket])
      (by exact ⟨16 :: List.replicate 16 0, rfl⟩) 1 (by decide) (by exact ⟨[0], rfl⟩)
  have hsplit : ([3, 1, 0, 1, 7] ++ [0] : Bytes) = [3, 1, 0, 1, 7] ++ s'.bytes := hbytes
  have hone : s'.bytes = [0] := (List.append_cancel_left hsplit).symm
  refine ⟨s', hcall, hone, ?_⟩
  have hcut := hends (by rw [hone]; rintro message ⟨⟩; decide)
  rwa [EndsAt, if_neg (by rw [hone]; decide)] at hcut

end PqcEdr.Crypto
