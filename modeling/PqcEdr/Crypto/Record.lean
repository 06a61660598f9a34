/-
# The record layer

`record.cpp`: one direction's sender and receiver, each with a key, an IV base and its own record
counter.  A method runs on its object's state and may throw with the state as it is at that point,
so that the place of `++seq_` in the source decides what a failed call leaves behind.

AES-256-GCM is OpenSSL's, a parameter here with the lengths it documents.  That no cipher context
can be made is one of its failures, and has their text.
-/
import PqcEdr.Crypto.Exn
import PqcEdr.Lib.BigEndian
import PqcEdr.Lib.Method

namespace PqcEdr.Crypto

open BigEndian

def kGcmTagLen : ℕ := 16
def kIvLen : ℕ := 12
def kAesKeyLen : ℕ := 32

def UINT64_MAX : UInt64 := 0xffffffffffffffff

/-! ## 1. AES-256-GCM -/

/-- `EVP_aes_256_gcm`: one encryption gives a ciphertext and a tag, or fails; one decryption
gives a plaintext, or fails. -/
structure Gcm where
  encrypt : (key nonce aad pt : Bytes) → Option (Bytes × Bytes)
  decrypt : (key nonce aad ct tag : Bytes) → Option Bytes
  length_encrypt {key nonce aad pt ct tag : Bytes} :
    encrypt key nonce aad pt = some (ct, tag) → ct.length = pt.length ∧ tag.length = kGcmTagLen
  length_decrypt {key nonce aad ct tag pt : Bytes} :
    decrypt key nonce aad ct tag = some pt → pt.length = ct.length

def recordError (what : String) : Exn := .RecordError ("record: " ++ what)

/-- Encrypt, and append the tag. -/
def aesGcmSeal (A : Gcm) (key nonce aad pt : Bytes) : Result Bytes :=
  match A.encrypt key nonce aad pt with
  | none => throw (recordError "AES-256-GCM 암호화 실패")
  | some (ct, tag) => pure (ct ++ tag)

def aesGcmOpen (A : Gcm) (key nonce aad ct tag : Bytes) : Result Bytes :=
  orThrow (recordError "GCM 태그 검증 실패 (변조/키불일치/순서오류)") (A.decrypt key nonce aad ct tag)

theorem aesGcmSeal_eq_ok {A : Gcm} {key nonce aad pt out : Bytes} :
    aesGcmSeal A key nonce aad pt = .ok out ↔
      ∃ ct tag, A.encrypt key nonce aad pt = some (ct, tag) ∧ out = ct ++ tag := by
  rw [aesGcmSeal]
  cases A.encrypt key nonce aad pt with
  | none => simp
  | some out => simp [Prod.ext_iff, pure, Except.pure, eq_comm]

/-! ## 2. `make_nonce` -/

/-- nonce = iv_base XOR (0^4 ‖ seq_be64), as the loop computes it. -/
def makeNonce (iv_base : Bytes) (seq : UInt64) : Bytes :=
  (List.range 8).foldl (fun nonce i =>
    let seq_byte := (seq >>> (8 * (7 - UInt64.ofNat i))).toUInt8
    nonce.modify (kIvLen - 8 + i) (· ^^^ seq_byte)) iv_base

/-! ## 3. `RecordSender` and `RecordReceiver` -/

structure RecordSender where
  key : Bytes
  iv_base : Bytes
  seq : UInt64
  length_key : key.length = kAesKeyLen
  length_iv : iv_base.length = kIvLen

structure RecordReceiver where
  key : Bytes
  iv_base : Bytes
  seq : UInt64
  length_key : key.length = kAesKeyLen
  length_iv : iv_base.length = kIvLen

/-- The constructor. -/
def RecordSender.create (key iv_base : Bytes) : Result RecordSender :=
  if h : key.length ≠ kAesKeyLen ∨ iv_base.length ≠ kIvLen then
    throw (recordError "송신기 키/IV 길이 오류")
  else pure ⟨key, iv_base, 0, by tauto, by tauto⟩

/-- The constructor. -/
def RecordReceiver.create (key iv_base : Bytes) : Result RecordReceiver :=
  if h : key.length ≠ kAesKeyLen ∨ iv_base.length ≠ kIvLen then
    throw (recordError "수신기 키/IV 길이 오류")
  else pure ⟨key, iv_base, 0, by tauto, by tauto⟩

/-- `++seq_`. -/
def RecordSender.next (s : RecordSender) : RecordSender := { s with seq := s.seq + 1 }

/-- `++seq_`. -/
def RecordReceiver.next (r : RecordReceiver) : RecordReceiver := { r with seq := r.seq + 1 }

/-- A counter that is not exhausted does not wrap. -/
theorem toNat_seq_add_one {seq : UInt64} (h : seq ≠ UINT64_MAX) :
    (seq + 1).toNat = seq.toNat + 1 := by
  have hlt := seq.toNat_lt
  have hmax : UINT64_MAX.toNat = 2 ^ 64 - 1 := rfl
  have hne : seq.toNat ≠ UINT64_MAX.toNat := by
    intro heq
    exact h (UInt64.toNat_inj.mp heq)
  rw [UInt64.toNat_add, UInt64.toNat_one, Nat.mod_eq_of_lt (by omega)]

def RecordSender.seal (A : Gcm) (plaintext : Bytes) : Method Exn RecordSender Bytes := do
  let s ← get
  if s.seq = UINT64_MAX then throw (recordError "시퀀스 소진 (nonce 재사용 방지)")
  else if plaintext.length > 0xffff - kGcmTagLen then
    throw (recordError "plaintext 가 레코드 한도 초과")
  else
    let payload_len := UInt16.ofNat (plaintext.length + kGcmTagLen)
    let header := put16 payload_len
    let nonce := makeNonce s.iv_base s.seq
    let ct_tag ← aesGcmSeal A s.key nonce header plaintext
    modify RecordSender.next
    return header ++ ct_tag

def RecordReceiver.open (A : Gcm) (record : Bytes) : Method Exn RecordReceiver Bytes := do
  let r ← get
  let payload_len := get16 (record.getD 0 0) (record.getD 1 0)
  if r.seq = UINT64_MAX then throw (recordError "시퀀스 소진")
  else if record.length < 2 + kGcmTagLen then throw (recordError "레코드가 너무 짧음")
  else if record.length ≠ 2 + payload_len.toNat then throw (recordError "레코드 길이 헤더 불일치")
  else if payload_len.toNat < kGcmTagLen then throw (recordError "payload 가 태그보다 짧음")
  else
    let header := [record.getD 0 0, record.getD 1 0]
    let ct_len := payload_len.toNat - kGcmTagLen
    let ct := (record.drop 2).take ct_len
    let tag := (record.drop (2 + ct_len)).take kGcmTagLen
    let nonce := makeNonce r.iv_base r.seq
    let pt ← aesGcmOpen A r.key nonce header ct tag
    modify RecordReceiver.next
    return pt

/-! ## 4. What a call does -/

/-- The length header of a record that carries `n` bytes. -/
def recordHeader (n : ℕ) : Bytes := put16 (UInt16.ofNat (n + kGcmTagLen))

@[simp] theorem length_recordHeader (n : ℕ) : (recordHeader n).length = 2 := rfl

/-- `seal` returns in this case only. -/
theorem seal_eq_ok {A : Gcm} {pt record : Bytes} {s s' : RecordSender} :
    (RecordSender.seal A pt).call s = (.ok record, s') ↔
      s.seq ≠ UINT64_MAX ∧ pt.length ≤ 0xffff - kGcmTagLen ∧
        ∃ ct tag, A.encrypt s.key (makeNonce s.iv_base s.seq) (recordHeader pt.length) pt =
            some (ct, tag) ∧
          record = recordHeader pt.length ++ (ct ++ tag) ∧ s' = s.next := by
  simp only [RecordSender.seal, Method.call_get_bind, Method.call_guard_eq_ok,
    Method.call_lift_bind_eq_ok, Method.call_modify_bind, Method.call_pure, aesGcmSeal_eq_ok,
    Prod.mk.injEq, Except.ok.injEq, Nat.not_lt, recordHeader]
  constructor
  · rintro ⟨hseq, hlen, out, ⟨ct, tag, henc, rfl⟩, rfl, rfl⟩
    exact ⟨hseq, hlen, ct, tag, henc, rfl, rfl⟩
  · rintro ⟨hseq, hlen, ct, tag, henc, rfl, rfl⟩
    exact ⟨hseq, hlen, _, ⟨ct, tag, henc, rfl⟩, rfl, rfl⟩

/-- A call of `seal` that throws leaves the counter. -/
theorem seal_eq_error {A : Gcm} {pt : Bytes} {e : Exn} {s s' : RecordSender}
    (h : (RecordSender.seal A pt).call s = (.error e, s')) : s' = s := by
  simp only [RecordSender.seal, Method.call_get_bind, Method.call_guard_eq_error,
    Method.call_lift_bind_eq_error, Method.call_modify_bind, Method.call_pure, Prod.mk.injEq,
    reduceCtorEq, false_and, and_false, exists_false, or_false] at h
  rcases h with ⟨-, -, rfl⟩ | ⟨-, ⟨-, -, rfl⟩ | ⟨-, -, rfl⟩⟩ <;> rfl

/-- A record as a header, a ciphertext and a tag. -/
theorem record_split {record : Bytes} {payload_len : UInt16}
    (hpayload : payload_len = get16 (record.getD 0 0) (record.getD 1 0))
    (htotal : record.length = 2 + payload_len.toNat) (htag : kGcmTagLen ≤ payload_len.toNat) :
    ∃ ct tag : Bytes, ct.length + kGcmTagLen = payload_len.toNat ∧ tag.length = kGcmTagLen ∧
      [record.getD 0 0, record.getD 1 0] = recordHeader ct.length ∧
      (record.drop 2).take (payload_len.toNat - kGcmTagLen) = ct ∧
      (record.drop (2 + (payload_len.toNat - kGcmTagLen))).take kGcmTagLen = tag ∧
      record = recordHeader ct.length ++ (ct ++ tag) := by
  set body := record.drop 2 with hbody
  have hbodylen : body.length = payload_len.toNat := by
    rw [hbody, List.length_drop]
    omega
  have hct : (body.take (payload_len.toNat - kGcmTagLen)).length =
      payload_len.toNat - kGcmTagLen := by
    rw [List.length_take]
    omega
  have htagLen : (body.drop (payload_len.toNat - kGcmTagLen)).length = kGcmTagLen := by
    rw [List.length_drop]
    omega
  have hheader : [record.getD 0 0, record.getD 1 0] =
      recordHeader (body.take (payload_len.toNat - kGcmTagLen)).length := by
    rw [recordHeader, hct, Nat.sub_add_cancel htag, UInt16.ofNat_toNat, hpayload, put16_get16]
  refine ⟨_, body.drop (payload_len.toNat - kGcmTagLen), ?_, htagLen, hheader, rfl, ?_, ?_⟩
  · rw [hct]
    omega
  · rw [← List.drop_drop, ← hbody, List.take_of_length_le (by omega)]
  · rw [← hheader, List.take_append_drop]
    obtain ⟨b₀, b₁, tail, rfl⟩ : ∃ b₀ b₁ tail, record = b₀ :: b₁ :: tail := by
      rcases record with _ | ⟨b₀, _ | ⟨b₁, tail⟩⟩
      · simp at htotal
        omega
      · simp at htotal
        omega
      · exact ⟨b₀, b₁, tail, rfl⟩
    rfl

/-- `open` returns in this case only: the record is the header of its body, and the body
decrypts under the nonce of the receiver's counter. -/
theorem open_eq_ok {A : Gcm} {record pt : Bytes} {r r' : RecordReceiver} :
    (RecordReceiver.open A record).call r = (.ok pt, r') ↔
      r.seq ≠ UINT64_MAX ∧ ∃ ct tag : Bytes, ct.length ≤ 0xffff - kGcmTagLen ∧
        tag.length = kGcmTagLen ∧ record = recordHeader ct.length ++ (ct ++ tag) ∧
        A.decrypt r.key (makeNonce r.iv_base r.seq) (recordHeader ct.length) ct tag = some pt ∧
        r' = r.next := by
  simp only [RecordReceiver.open, Method.call_get_bind, Method.call_guard_eq_ok,
    Method.call_lift_bind_eq_ok, Method.call_modify_bind, Method.call_pure, aesGcmOpen,
    orThrow_eq_ok, Prod.mk.injEq, Except.ok.injEq, Nat.not_lt, not_not]
  constructor
  · rintro ⟨hseq, -, htotal, htag, pt, hdec, rfl, rfl⟩
    have hlt := (get16 (record.getD 0 0) (record.getD 1 0)).toNat_lt
    obtain ⟨ct, tag, hct, htagLen, hheader, hct', htag', hrecord⟩ := record_split rfl htotal htag
    rw [hheader, hct', htag'] at hdec
    exact ⟨hseq, ct, tag, by rw [kGcmTagLen] at hct ⊢; omega, htagLen, hrecord, hdec, rfl⟩
  · rintro ⟨hseq, ct, tag, hct, htag, rfl, hdec, rfl⟩
    have hpayload : (UInt16.ofNat (ct.length + kGcmTagLen)).toNat = ct.length + kGcmTagLen := by
      refine UInt16.toNat_ofNat_of_lt' ?_
      rw [UInt16.size, kGcmTagLen] at *
      omega
    have hget : get16 ((recordHeader ct.length ++ (ct ++ tag)).getD 0 0)
        ((recordHeader ct.length ++ (ct ++ tag)).getD 1 0) =
        UInt16.ofNat (ct.length + kGcmTagLen) := get16_put16 _
    have hct' : ((recordHeader ct.length ++ (ct ++ tag)).drop 2).take ct.length = ct :=
      List.take_left
    have htag' : ((recordHeader ct.length ++ (ct ++ tag)).drop (2 + ct.length)).take kGcmTagLen =
        tag := by
      rw [← List.drop_drop, show List.drop 2 (recordHeader ct.length ++ (ct ++ tag)) = ct ++ tag
        from rfl, List.drop_left, ← htag, List.take_length]
    rw [hget, hpayload, Nat.add_sub_cancel, hct', htag']
    refine ⟨hseq, ?_, ?_, by omega, pt, hdec, rfl, rfl⟩
    · simp only [List.length_append, length_recordHeader, htag]
      omega
    · simp only [List.length_append, length_recordHeader, htag]

/-- A call of `open` that throws leaves the counter. -/
theorem open_eq_error {A : Gcm} {record : Bytes} {e : Exn} {r r' : RecordReceiver}
    (h : (RecordReceiver.open A record).call r = (.error e, r')) : r' = r := by
  simp only [RecordReceiver.open, Method.call_get_bind, Method.call_guard_eq_error,
    Method.call_lift_bind_eq_error, Method.call_modify_bind, Method.call_pure, Prod.mk.injEq,
    reduceCtorEq, false_and, and_false, exists_false, or_false] at h
  rcases h with ⟨-, -, rfl⟩ | ⟨-, ⟨-, -, rfl⟩ | ⟨-, ⟨-, -, rfl⟩ | ⟨-, ⟨-, -, rfl⟩ | ⟨-, -, rfl⟩⟩⟩⟩
  all_goals rfl

/-! ## 5. A stand-in -/

/-- The tag of `tableGcm`: the nonce, made 16 bytes long. -/
def tableTag (nonce : Bytes) : Bytes := (nonce ++ List.replicate 16 0).take 16

/-- A cipher with the real lengths: it leaves the plaintext as it is, and decrypts what its table
of nonces, headers and plaintexts holds. -/
def tableGcm (table : List (Bytes × Bytes × Bytes)) : Gcm where
  encrypt _ nonce _ pt := some (pt, tableTag nonce)
  decrypt _ nonce aad ct tag :=
    if (nonce, aad, ct) ∈ table ∧ tag = tableTag nonce then some ct else none
  length_encrypt h := by
    obtain ⟨rfl, rfl⟩ := Prod.mk.inj (Option.some.inj h)
    exact ⟨rfl, by simp [tableTag, kGcmTagLen]⟩
  length_decrypt h := by
    split at h
    · rw [Option.some.inj h]
    · cases h

end PqcEdr.Crypto
