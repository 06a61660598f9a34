/-
# The handshake's wire format

`wire.cpp`: `[u8 msg_type][u8 version][u16 payload_len][payload]`, and the four messages.  Each
reader operation has one lemma, in terms of the bytes not yet read; from them, a parser accepts
exactly the frames that its serializer builds.
-/
import PqcEdr.Crypto.Exn
import PqcEdr.Lib.BigEndian

namespace PqcEdr.Crypto.Wire

open BigEndian

/-! ## 1. `wire.h` -/

inductive MsgType
  | ClientHello
  | ServerHello
  | ServerAuth
  | ClientAuth
  deriving DecidableEq, Repr

/-- The byte a type is sent as. -/
def MsgType.code : MsgType → UInt8
  | .ClientHello => 1
  | .ServerHello => 2
  | .ServerAuth => 3
  | .ClientAuth => 4

def kVersion : UInt8 := 1
def kRandomLen : ℕ := 32
def kX25519Len : ℕ := 32
def kHeaderLen : ℕ := 4

structure ClientHello where
  client_random : Bytes
  x25519_pub : Bytes
  mlkem_pub : Bytes
  deriving DecidableEq, Repr

structure ServerHello where
  server_random : Bytes
  x25519_pub : Bytes
  mlkem_ct : Bytes
  deriving DecidableEq, Repr

structure ServerAuth where
  signature : Bytes
  deriving DecidableEq, Repr

structure ClientAuth where
  signature : Bytes
  deriving DecidableEq, Repr

/-! ## 2. `Reader` -/

/-- A position inside a buffer. -/
structure Reader where
  buf : Bytes
  pos : ℕ
  pos_le : pos ≤ buf.length

namespace Reader

/-- The bytes not read yet. -/
def rest (r : Reader) : Bytes := r.buf.drop r.pos

def need (r : Reader) (n : ℕ) : Result (PLift (r.pos + n ≤ r.buf.length)) :=
  if h : r.pos + n > r.buf.length then throw (.WireError "프레임이 잘림 (경계 초과)")
  else pure ⟨Nat.not_lt.mp h⟩

def u8 (r : Reader) : Result (UInt8 × Reader) := do
  let ⟨h⟩ ← r.need 1
  pure (r.buf[r.pos], ⟨r.buf, r.pos + 1, h⟩)

def u16 (r : Reader) : Result (UInt16 × Reader) := do
  let ⟨h⟩ ← r.need 2
  pure (get16 r.buf[r.pos] r.buf[r.pos + 1], ⟨r.buf, r.pos + 2, h⟩)

def bytes (r : Reader) (n : ℕ) : Result (Bytes × Reader) := do
  let ⟨h⟩ ← r.need n
  pure ((r.buf.drop r.pos).take n, ⟨r.buf, r.pos + n, h⟩)

def remaining (r : Reader) : ℕ := r.buf.length - r.pos

theorem length_rest (r : Reader) : r.rest.length = r.remaining := List.length_drop

theorem ext_rest {r s : Reader} (hbuf : r.buf = s.buf) (hrest : r.rest = s.rest) : r = s := by
  obtain ⟨buf, pos, hpos⟩ := r
  obtain ⟨buf', pos', hpos'⟩ := s
  obtain rfl : buf = buf' := hbuf
  have hlen := congrArg List.length hrest
  simp only [rest, List.length_drop] at hlen
  obtain rfl : pos = pos' := by omega
  rfl

/-- A read goes on when the bytes are there, and then it may index them. -/
theorem need_bind_eq_ok {β : Type} {r : Reader} {n : ℕ}
    {f : PLift (r.pos + n ≤ r.buf.length) → Result β} {b : β} :
    (r.need n >>= f) = .ok b ↔ ∃ h : r.pos + n ≤ r.buf.length, f ⟨h⟩ = .ok b := by
  rw [need]
  by_cases hshort : r.pos + n > r.buf.length
  · rw [dif_pos hshort]
    constructor
    · intro h
      cases h
    · rintro ⟨h, -⟩
      exact absurd h (Nat.not_le.mpr hshort)
  · rw [dif_neg hshort]
    constructor
    · intro h
      exact ⟨Nat.not_lt.mp hshort, h⟩
    · rintro ⟨_, h⟩
      exact h

/-- `n` bytes come out when the rest starts with `n` bytes. -/
theorem bytes_eq_ok {r r' : Reader} {n : ℕ} {out : Bytes} :
    r.bytes n = .ok (out, r') ↔
      r'.buf = r.buf ∧ out.length = n ∧ r.rest = out ++ r'.rest := by
  rw [bytes, need_bind_eq_ok]
  have hle := r.pos_le
  constructor
  · rintro ⟨h, heq⟩
    obtain ⟨rfl, rfl⟩ := Prod.mk.inj (Except.ok.inj heq)
    refine ⟨rfl, ?_, ?_⟩
    · rw [List.length_take, List.length_drop]
      omega
    · rw [rest, rest, ← List.drop_drop, List.take_append_drop]
  · rintro ⟨hbuf, hlen, hrest⟩
    have htotal := congrArg List.length hrest
    rw [List.length_append, length_rest, hlen] at htotal
    have h : r.pos + n ≤ r.buf.length := by
      rw [remaining] at htotal
      omega
    refine ⟨h, congrArg Except.ok (Prod.ext ?_ (ext_rest hbuf.symm ?_))⟩
    · have htake : r.rest.take n = out := by rw [hrest, ← hlen, List.take_left]
      exact htake
    · rw [rest, ← List.drop_drop, ← rest, hrest, ← hlen, List.drop_left]

theorem u8_eq_ok {r r' : Reader} {b : UInt8} :
    r.u8 = .ok (b, r') ↔ r'.buf = r.buf ∧ r.rest = b :: r'.rest := by
  rw [u8, need_bind_eq_ok]
  constructor
  · rintro ⟨h, heq⟩
    obtain ⟨rfl, rfl⟩ := Prod.mk.inj (Except.ok.inj heq)
    exact ⟨rfl, List.drop_eq_getElem_cons h⟩
  · rintro ⟨hbuf, hrest⟩
    have hpos : r.pos < r.buf.length := by
      have := congrArg List.length hrest
      rw [length_rest, remaining, List.length_cons] at this
      omega
    rw [rest, List.drop_eq_getElem_cons hpos, List.cons.injEq] at hrest
    exact ⟨hpos, congrArg Except.ok (Prod.ext hrest.1 (ext_rest hbuf.symm hrest.2))⟩

theorem u16_eq_ok {r r' : Reader} {v : UInt16} :
    r.u16 = .ok (v, r') ↔ r'.buf = r.buf ∧ r.rest = put16 v ++ r'.rest := by
  rw [u16, need_bind_eq_ok]
  constructor
  · rintro ⟨h, heq⟩
    obtain ⟨rfl, rfl⟩ := Prod.mk.inj (Except.ok.inj heq)
    refine ⟨rfl, ?_⟩
    rw [put16_get16, rest, List.drop_eq_getElem_cons (by omega), List.drop_eq_getElem_cons h]
    rfl
  · rintro ⟨hbuf, hrest⟩
    have hpos : r.pos + 2 ≤ r.buf.length := by
      have := congrArg List.length hrest
      rw [length_rest, remaining, List.length_append, length_put16] at this
      omega
    rw [rest, List.drop_eq_getElem_cons (by omega),
      List.drop_eq_getElem_cons (by omega : r.pos + 1 < r.buf.length)] at hrest
    obtain ⟨hhi, htail⟩ := List.cons.inj hrest
    obtain ⟨hlo, htail⟩ := List.cons.inj htail
    refine ⟨hpos, congrArg Except.ok (Prod.ext ?_ (ext_rest hbuf.symm htail))⟩
    rw [hhi, hlo, get16_put16]

end Reader

/-! ## 3. Frames -/

/-- Write the common header and append the payload. -/
def frame (type : MsgType) (payload : Bytes) : Result Bytes :=
  if payload.length > 0xffff then throw (.WireError "payload 가 u16 길이 한도 초과")
  else pure ([type.code] ++ [kVersion] ++ put16 (UInt16.ofNat payload.length) ++ payload)

/-- Check the header and return a reader at the payload. -/
def openFrame (f : Bytes) (expected : MsgType) : Result Reader := do
  let r : Reader := ⟨f, 0, Nat.zero_le _⟩
  let (type, r) ← r.u8
  let (version, r) ← r.u8
  let (len, r) ← r.u16
  if type ≠ expected.code then throw (.WireError "예상과 다른 메시지 타입")
  else if version ≠ kVersion then throw (.WireError "지원하지 않는 프로토콜 버전")
  else if r.remaining ≠ len.toNat then throw (.WireError "payload_len 과 실제 길이 불일치")
  else pure r

theorem frame_eq_ok {t : MsgType} {payload f : Bytes} :
    frame t payload = .ok f ↔ payload.length ≤ 0xffff ∧
      f = t.code :: kVersion :: (put16 (UInt16.ofNat payload.length) ++ payload) := by
  rw [frame, guard_eq_ok, Nat.not_lt, pure_eq_ok]
  exact and_congr_right fun _ => eq_comm

/-- A frame is opened exactly when it is the frame of what the reader is left with. -/
theorem openFrame_eq_ok {t : MsgType} {f : Bytes} {r : Reader} :
    openFrame f t = .ok r ↔ r.buf = f ∧ frame t r.rest = .ok f := by
  simp only [openFrame, bind_eq_ok, Prod.exists, Reader.u8_eq_ok, Reader.u16_eq_ok, guard_eq_ok,
    pure_eq_ok, frame_eq_ok, not_not]
  constructor
  · rintro ⟨type, r₁, ⟨hbuf₁, hrest₁⟩, version, r₂, ⟨hbuf₂, hrest₂⟩, len, r₃, ⟨hbuf₃, hrest₃⟩,
      rfl, rfl, hlen, rfl⟩
    have hlt := len.toNat_lt
    rw [← Reader.length_rest] at hlen
    refine ⟨by rw [hbuf₃, hbuf₂, hbuf₁], by omega, ?_⟩
    rw [hlen, UInt16.ofNat_toNat, ← hrest₃, ← hrest₂, ← hrest₁]
    rfl
  · rintro ⟨rfl, hlen, hf⟩
    have hpos := r.pos_le
    have htotal : r.buf.length = r.rest.length + 4 := by
      rw [hf]
      simp only [List.length_cons, List.length_append, length_put16]
      omega
    rw [Reader.length_rest, Reader.remaining] at htotal
    have hlt : r.rest.length < UInt16.size := by
      rw [UInt16.size]
      omega
    have hat : ∀ k (h : k ≤ r.buf.length), Reader.rest ⟨r.buf, k, h⟩ =
        (t.code :: kVersion :: (put16 (UInt16.ofNat r.rest.length) ++ r.rest)).drop k := by
      intro k h
      rw [← hf]
      rfl
    refine ⟨t.code, ⟨r.buf, 1, by omega⟩, ⟨rfl, ?_⟩, kVersion, ⟨r.buf, 2, by omega⟩, ⟨rfl, ?_⟩,
      UInt16.ofNat r.rest.length, r, ⟨rfl, ?_⟩, rfl, rfl, ?_, rfl⟩
    · exact (hat 0 (by omega)).trans (by rw [hat 1]; rfl)
    · rw [hat 1, hat 2]
      rfl
    · rw [hat 2]
      rfl
    · rw [← Reader.length_rest, UInt16.toNat_ofNat_of_lt' hlt]

/-! ## 4. Messages -/

/-- The two hellos: a random, an X25519 key, and whatever is left. -/
def serializeHello (type : MsgType) (lenError : String) (random x25519_pub rest : Bytes) :
    Result Bytes :=
  if random.length ≠ kRandomLen ∨ x25519_pub.length ≠ kX25519Len then throw (.WireError lenError)
  else frame type (random ++ x25519_pub ++ rest)

def parseHello {M : Type} (mk : Bytes → Bytes → Bytes → M) (type : MsgType) (missing : String)
    (f : Bytes) : Result M := do
  let r ← openFrame f type
  let (random, r) ← r.bytes kRandomLen
  let (x25519_pub, r) ← r.bytes kX25519Len
  let (rest, _) ← r.bytes r.remaining
  if rest = [] then throw (.WireError missing)
  else pure (mk random x25519_pub rest)

/-- The two auths: the payload is the signature. -/
def parseAuth {M : Type} (mk : Bytes → M) (type : MsgType) (missing : String) (f : Bytes) :
    Result M := do
  let r ← openFrame f type
  let (signature, _) ← r.bytes r.remaining
  if signature = [] then throw (.WireError missing)
  else pure (mk signature)

def ClientHello.serialize (m : ClientHello) : Result Bytes :=
  serializeHello .ClientHello "ClientHello 고정 필드 길이 오류" m.client_random m.x25519_pub
    m.mlkem_pub

def ServerHello.serialize (m : ServerHello) : Result Bytes :=
  serializeHello .ServerHello "ServerHello 고정 필드 길이 오류" m.server_random m.x25519_pub
    m.mlkem_ct

def ServerAuth.serialize (m : ServerAuth) : Result Bytes := frame .ServerAuth m.signature

def ClientAuth.serialize (m : ClientAuth) : Result Bytes := frame .ClientAuth m.signature

def parseClientHello : Bytes → Result ClientHello :=
  parseHello ClientHello.mk .ClientHello "ClientHello: ML-KEM 공개키 없음"

def parseServerHello : Bytes → Result ServerHello :=
  parseHello ServerHello.mk .ServerHello "ServerHello: ML-KEM ciphertext 없음"

def parseServerAuth : Bytes → Result ServerAuth :=
  parseAuth ServerAuth.mk .ServerAuth "ServerAuth: 서명 없음"

def parseClientAuth : Bytes → Result ClientAuth :=
  parseAuth ClientAuth.mk .ClientAuth "ClientAuth: 서명 없음"

/-- Reading all that remains cannot fail. -/
theorem bytes_remaining_eq_ok {r r' : Reader} {out : Bytes} :
    r.bytes r.remaining = .ok (out, r') ↔ r'.buf = r.buf ∧ out = r.rest ∧ r'.rest = [] := by
  rw [Reader.bytes_eq_ok, ← Reader.length_rest]
  constructor
  · rintro ⟨hbuf, hlen, hrest⟩
    have hnil : r'.rest = [] := by
      have := congrArg List.length hrest
      rw [List.length_append, hlen] at this
      exact List.eq_nil_of_length_eq_zero (by omega)
    rw [hnil, List.append_nil] at hrest
    exact ⟨hbuf, hrest.symm, hnil⟩
  · rintro ⟨hbuf, rfl, hnil⟩
    exact ⟨hbuf, rfl, by rw [hnil, List.append_nil]⟩

/-- Every position of a buffer has a reader. -/
theorem exists_reader_rest {r : Reader} {out tail : Bytes} (h : r.rest = out ++ tail) :
    ∃ r' : Reader, r'.buf = r.buf ∧ r'.rest = tail := by
  have hlen := congrArg List.length h
  rw [Reader.length_rest, Reader.remaining, List.length_append] at hlen
  have hle := r.pos_le
  refine ⟨⟨r.buf, r.pos + out.length, by omega⟩, rfl, ?_⟩
  rw [Reader.rest, ← List.drop_drop, ← Reader.rest, h, List.drop_left]

theorem exists_openFrame {t : MsgType} {f payload : Bytes} (h : frame t payload = .ok f) :
    ∃ r, openFrame f t = .ok r ∧ r.rest = payload := by
  obtain ⟨-, hf⟩ := frame_eq_ok.mp h
  have hlen := congrArg List.length hf
  simp only [List.length_cons, List.length_append, length_put16] at hlen
  have hrest : Reader.rest ⟨f, 4, by omega⟩ = payload := by
    subst hf
    rfl
  exact ⟨⟨f, 4, by omega⟩, openFrame_eq_ok.mpr ⟨rfl, hrest.symm ▸ h⟩, hrest⟩

theorem serializeHello_eq_ok {t : MsgType} {e : String} {a b c f : Bytes} :
    serializeHello t e a b c = .ok f ↔
      (a.length = kRandomLen ∧ b.length = kX25519Len) ∧ frame t (a ++ b ++ c) = .ok f := by
  rw [serializeHello, guard_eq_ok, not_or, not_not, not_not]

/-- A hello is accepted exactly when it is the serialization of the message it is parsed to and
its last field is not empty. -/
theorem parseHello_eq_ok {M : Type} {mk : Bytes → Bytes → Bytes → M} {t : MsgType}
    {e e' : String} {f : Bytes} {m : M} :
    parseHello mk t e f = .ok m ↔
      ∃ a b c, m = mk a b c ∧ c ≠ [] ∧ serializeHello t e' a b c = .ok f := by
  simp only [parseHello, bind_eq_ok, Prod.exists, bytes_remaining_eq_ok]
  simp only [Reader.bytes_eq_ok, guard_eq_ok, pure_eq_ok, serializeHello_eq_ok]
  constructor
  · rintro ⟨r, hr, a, r₁, ⟨-, ha, hrest⟩, b, r₂, ⟨-, hb, hrest₁⟩, c, r₃, ⟨-, rfl, -⟩, hc, rfl⟩
    refine ⟨a, b, _, rfl, hc, ⟨ha, hb⟩, ?_⟩
    rw [List.append_assoc, ← hrest₁, ← hrest]
    exact (openFrame_eq_ok.mp hr).2
  · rintro ⟨a, b, c, rfl, hc, ⟨ha, hb⟩, hf⟩
    obtain ⟨r, hr, hrest⟩ := exists_openFrame hf
    rw [List.append_assoc] at hrest
    obtain ⟨r₁, hbuf₁, hrest₁⟩ := exists_reader_rest hrest
    obtain ⟨r₂, hbuf₂, hrest₂⟩ := exists_reader_rest hrest₁
    obtain ⟨r₃, hbuf₃, hrest₃⟩ := exists_reader_rest (hrest₂.trans (List.append_nil c).symm)
    exact ⟨r, hr, a, r₁, ⟨hbuf₁, ha, hrest.trans (by rw [hrest₁])⟩, b, r₂,
      ⟨hbuf₂, hb, hrest₁.trans (by rw [hrest₂])⟩, c, r₃, ⟨hbuf₃, hrest₂.symm, hrest₃⟩, hc, rfl⟩

theorem parseAuth_eq_ok {M : Type} {mk : Bytes → M} {t : MsgType} {e : String} {f : Bytes}
    {m : M} :
    parseAuth mk t e f = .ok m ↔ ∃ s, m = mk s ∧ s ≠ [] ∧ frame t s = .ok f := by
  simp only [parseAuth, bind_eq_ok, Prod.exists, bytes_remaining_eq_ok, guard_eq_ok, pure_eq_ok]
  constructor
  · rintro ⟨r, hr, s, r₁, ⟨-, rfl, -⟩, hs, rfl⟩
    exact ⟨_, rfl, hs, (openFrame_eq_ok.mp hr).2⟩
  · rintro ⟨s, rfl, hs, hf⟩
    obtain ⟨r, hr, hrest⟩ := exists_openFrame hf
    obtain ⟨r₁, hbuf₁, hrest₁⟩ := exists_reader_rest (hrest.trans (List.append_nil s).symm)
    exact ⟨r, hr, s, r₁, ⟨hbuf₁, hrest.symm, hrest₁⟩, hs, rfl⟩

theorem parseClientHello_eq_ok {f : Bytes} {m : ClientHello} :
    parseClientHello f = .ok m ↔ m.mlkem_pub ≠ [] ∧ m.serialize = .ok f := by
  rw [parseClientHello, parseHello_eq_ok]
  constructor
  · rintro ⟨a, b, c, rfl, h⟩
    exact h
  · intro h
    exact ⟨_, _, _, rfl, h⟩

theorem parseServerHello_eq_ok {f : Bytes} {m : ServerHello} :
    parseServerHello f = .ok m ↔ m.mlkem_ct ≠ [] ∧ m.serialize = .ok f := by
  rw [parseServerHello, parseHello_eq_ok]
  constructor
  · rintro ⟨a, b, c, rfl, h⟩
    exact h
  · intro h
    exact ⟨_, _, _, rfl, h⟩

theorem parseServerAuth_eq_ok {f : Bytes} {m : ServerAuth} :
    parseServerAuth f = .ok m ↔ m.signature ≠ [] ∧ m.serialize = .ok f := by
  rw [parseServerAuth, parseAuth_eq_ok]
  constructor
  · rintro ⟨s, rfl, h⟩
    exact h
  · intro h
    exact ⟨_, rfl, h⟩

theorem parseClientAuth_eq_ok {f : Bytes} {m : ClientAuth} :
    parseClientAuth f = .ok m ↔ m.signature ≠ [] ∧ m.serialize = .ok f := by
  rw [parseClientAuth, parseAuth_eq_ok]
  constructor
  · rintro ⟨s, rfl, h⟩
    exact h
  · intro h
    exact ⟨_, rfl, h⟩

/-! ## 5. A frame knows where it ends -/

/-- Some serializer built this. -/
def IsFrame (f : Bytes) : Prop := ∃ t payload, frame t payload = .ok f

theorem isFrame_of_serializeHello {t : MsgType} {e : String} {a b c f : Bytes}
    (h : serializeHello t e a b c = .ok f) : IsFrame f :=
  ⟨t, _, (serializeHello_eq_ok.mp h).2⟩

theorem length_ofNat {n : ℕ} (h : n ≤ 0xffff) : (UInt16.ofNat n).toNat = n :=
  UInt16.toNat_ofNat_of_lt' (by rw [UInt16.size]; omega)

/-- Two concatenations that start with a frame each split the same way. -/
theorem IsFrame.append_inj {f g x y : Bytes} (hf : IsFrame f) (hg : IsFrame g)
    (h : f ++ x = g ++ y) : f = g ∧ x = y := by
  obtain ⟨t, p, hp⟩ := hf
  obtain ⟨u, q, hq⟩ := hg
  obtain ⟨hplen, rfl⟩ := frame_eq_ok.mp hp
  obtain ⟨hqlen, rfl⟩ := frame_eq_ok.mp hq
  simp only [List.cons_append, List.cons.injEq, List.append_assoc, true_and] at h
  obtain ⟨htype, h⟩ := h
  obtain ⟨hlen, h⟩ := List.append_inj h rfl
  have hpq : p.length = q.length := by
    rw [← length_ofNat hplen, ← length_ofNat hqlen, put16_inj hlen]
  obtain ⟨rfl, rfl⟩ := List.append_inj h hpq
  exact ⟨by rw [htype], rfl⟩

/-- A hello frame determines its three fields. -/
theorem serializeHello_inj {t : MsgType} {e : String} {a b c a' b' c' f : Bytes}
    (h : serializeHello t e a b c = .ok f) (h' : serializeHello t e a' b' c' = .ok f) :
    a = a' ∧ b = b' ∧ c = c' := by
  obtain ⟨⟨ha, hb⟩, hf⟩ := serializeHello_eq_ok.mp h
  obtain ⟨⟨ha', hb'⟩, hf'⟩ := serializeHello_eq_ok.mp h'
  obtain ⟨hlen, rfl⟩ := frame_eq_ok.mp hf
  obtain ⟨hlen', heq⟩ := frame_eq_ok.mp hf'
  have hpayload : a ++ b ++ c = a' ++ b' ++ c' := by
    simp only [List.cons.injEq, true_and] at heq
    exact (List.append_inj heq rfl).2
  obtain ⟨hab, hc⟩ := List.append_inj hpayload (by simp [ha, hb, ha', hb'])
  obtain ⟨haa, hbb⟩ := List.append_inj hab (ha.trans ha'.symm)
  exact ⟨haa, hbb, hc⟩

end PqcEdr.Crypto.Wire
