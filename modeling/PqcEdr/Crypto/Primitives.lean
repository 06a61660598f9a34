/-
# Key exchange and signatures

`pqc_kem.cpp`, `pqc_sig.cpp` and `x25519.cpp`: thin wrappers with length checks over liboqs and
OpenSSL.  The libraries are parameters: functions of their inputs and of the coins they draw,
that may fail.

Two things are coarser than in the source.  The constructors of `MlKem` and `MlDsa` throw where
liboqs lacks the algorithm; here there is an algorithm.  And where a wrapper makes several calls of
OpenSSL in a row (the contexts of key generation, reading a raw public key, the two calls of
`EVP_PKEY_derive`) they are one step, which fails when one of them does, with the text of the last.
-/
import PqcEdr.Crypto.Session

namespace PqcEdr.Crypto

structure KeyPair where
  public_key : Bytes
  secret_key : Bytes
  deriving DecidableEq, Repr

/-! ## 1. `MlKem` -/

/-- `OQS_KEM` of ML-KEM-768. -/
structure MlKem where
  length_public_key : ℕ
  length_secret_key : ℕ
  length_ciphertext : ℕ
  OQS_KEM_keypair : (coins : Bytes) → Option KeyPair
  OQS_KEM_encaps : (coins public_key : Bytes) → Option (Bytes × Bytes)
  OQS_KEM_decaps : (ciphertext secret_key : Bytes) → Option Bytes

namespace MlKem

variable (kem : MlKem)

def keypair (coins : Bytes) : Result KeyPair :=
  orThrow (.runtime_error "OQS_KEM_keypair 실패") (kem.OQS_KEM_keypair coins)

/-- The ciphertext and the shared secret. -/
def encaps (coins peer_public_key : Bytes) : Result (Bytes × Bytes) :=
  if peer_public_key.length ≠ kem.length_public_key then
    throw (.runtime_error "ML-KEM encaps: 공개키 길이 불일치")
  else orThrow (.runtime_error "OQS_KEM_encaps 실패") (kem.OQS_KEM_encaps coins peer_public_key)

def decaps (ciphertext secret_key : Bytes) : Result Bytes :=
  if ciphertext.length ≠ kem.length_ciphertext then
    throw (.runtime_error "ML-KEM decaps: ciphertext 길이 불일치")
  else if secret_key.length ≠ kem.length_secret_key then
    throw (.runtime_error "ML-KEM decaps: 개인키 길이 불일치")
  else orThrow (.runtime_error "OQS_KEM_decaps 실패") (kem.OQS_KEM_decaps ciphertext secret_key)

variable {kem}

theorem keypair_eq_ok {coins : Bytes} {kp : KeyPair} :
    kem.keypair coins = .ok kp ↔ kem.OQS_KEM_keypair coins = some kp :=
  orThrow_eq_ok

theorem encaps_eq_ok {coins pk : Bytes} {out : Bytes × Bytes} :
    kem.encaps coins pk = .ok out ↔
      pk.length = kem.length_public_key ∧ kem.OQS_KEM_encaps coins pk = some out := by
  rw [encaps, guard_eq_ok, orThrow_eq_ok, not_not]

theorem decaps_eq_ok {ct sk ss : Bytes} :
    kem.decaps ct sk = .ok ss ↔ ct.length = kem.length_ciphertext ∧
      sk.length = kem.length_secret_key ∧ kem.OQS_KEM_decaps ct sk = some ss := by
  rw [decaps, guard_eq_ok, guard_eq_ok, orThrow_eq_ok, not_not, not_not]

end MlKem

/-! ## 2. `MlDsa` -/

/-- `OQS_SIG` of ML-DSA-65: no signature is longer than `length_signature`, which fits a frame. -/
structure MlDsa where
  length_public_key : ℕ
  length_secret_key : ℕ
  length_signature : ℕ
  OQS_SIG_sign : (coins message secret_key : Bytes) → Option Bytes
  OQS_SIG_verify : (message signature public_key : Bytes) → Bool
  length_sign {coins message secret_key signature : Bytes} :
    OQS_SIG_sign coins message secret_key = some signature → signature.length ≤ length_signature
  length_signature_le : length_signature ≤ 0xffff

namespace MlDsa

variable (dsa : MlDsa)

def sign (coins message secret_key : Bytes) : Result Bytes :=
  if secret_key.length ≠ dsa.length_secret_key then
    throw (.runtime_error "ML-DSA sign: 개인키 길이 불일치")
  else orThrow (.runtime_error "OQS_SIG_sign 실패") (dsa.OQS_SIG_sign coins message secret_key)

def verify (message signature public_key : Bytes) : Bool :=
  if public_key.length ≠ dsa.length_public_key then false
  else dsa.OQS_SIG_verify message signature public_key

variable {dsa}

theorem sign_eq_ok {coins message secret_key signature : Bytes} :
    dsa.sign coins message secret_key = .ok signature ↔
      secret_key.length = dsa.length_secret_key ∧
        dsa.OQS_SIG_sign coins message secret_key = some signature := by
  rw [sign, guard_eq_ok, orThrow_eq_ok, not_not]

theorem length_le_of_sign {coins message secret_key signature : Bytes}
    (h : dsa.sign coins message secret_key = .ok signature) : signature.length ≤ 0xffff :=
  (dsa.length_sign (sign_eq_ok.mp h).2).trans dsa.length_signature_le

end MlDsa

/-! ## 3. `X25519` -/

/-- `EVP_PKEY_X25519`: key generation, the raw public key, and the shared secret of a private key
and a peer's raw public key. -/
structure X25519 where
  EVP_PKEY_keygen : (coins : Bytes) → Option Bytes
  EVP_PKEY_get_raw_public_key : (pkey : Bytes) → Option Bytes
  EVP_PKEY_derive : (pkey peer : Bytes) → Option Bytes

namespace X25519

variable (x : X25519)

def kKeyLen : ℕ := 32

/-- The constructor. -/
def create (coins : Bytes) : Result Bytes :=
  orThrow (.runtime_error "x25519: X25519 keygen 실패") (x.EVP_PKEY_keygen coins)

def publicKey (pkey : Bytes) : Result Bytes := do
  let pub ← orThrow (.runtime_error "x25519: raw 공개키 추출 실패")
    (x.EVP_PKEY_get_raw_public_key pkey)
  if pub.length ≠ kKeyLen then throw (.runtime_error "x25519: raw 공개키 추출 실패")
  else pure pub

def computeShared (pkey peer_public : Bytes) : Result Bytes :=
  if peer_public.length ≠ kKeyLen then throw (.runtime_error "x25519: 상대 공개키 길이 오류")
  else orThrow (.runtime_error "x25519: ECDH derive 실패") (x.EVP_PKEY_derive pkey peer_public)

variable {x}

theorem create_eq_ok {coins pkey : Bytes} :
    x.create coins = .ok pkey ↔ x.EVP_PKEY_keygen coins = some pkey :=
  orThrow_eq_ok

theorem computeShared_eq_ok {pkey peer ss : Bytes} :
    x.computeShared pkey peer = .ok ss ↔
      peer.length = kKeyLen ∧ x.EVP_PKEY_derive pkey peer = some ss := by
  rw [computeShared, guard_eq_ok, orThrow_eq_ok, not_not]

end X25519

/-! ## 4. What the two ends get -/

/-- The libraries that a handshake calls. -/
structure Primitives where
  kdf : Kdf
  kem : MlKem
  dsa : MlDsa
  x25519 : X25519

/-- Decapsulation undoes encapsulation, and the two sides of a Diffie-Hellman exchange meet. -/
structure Primitives.Agree (L : Primitives) : Prop where
  kem {a b ct ss : Bytes} {kp : KeyPair} : L.kem.OQS_KEM_keypair a = some kp →
    L.kem.OQS_KEM_encaps b kp.public_key = some (ct, ss) →
    L.kem.OQS_KEM_decaps ct kp.secret_key = some ss
  x25519 {a b ka kb pa pb : Bytes} : L.x25519.EVP_PKEY_keygen a = some ka →
    L.x25519.EVP_PKEY_keygen b = some kb →
    L.x25519.EVP_PKEY_get_raw_public_key ka = some pa →
    L.x25519.EVP_PKEY_get_raw_public_key kb = some pb →
    L.x25519.EVP_PKEY_derive ka pb = L.x25519.EVP_PKEY_derive kb pa

variable {L : Primitives}

theorem Primitives.Agree.decaps_eq (h : L.Agree) {a b ct ss ss' : Bytes} {kp : KeyPair}
    (hkp : L.kem.keypair a = .ok kp) (henc : L.kem.encaps b kp.public_key = .ok (ct, ss))
    (hdec : L.kem.decaps ct kp.secret_key = .ok ss') : ss' = ss := by
  rw [MlKem.keypair_eq_ok] at hkp
  rw [MlKem.encaps_eq_ok] at henc
  rw [MlKem.decaps_eq_ok] at hdec
  exact Option.some.inj (hdec.2.2.symm.trans (h.kem hkp henc.2))

theorem publicKey_eq_ok {x : X25519} {pkey pub : Bytes} :
    x.publicKey pkey = .ok pub ↔
      x.EVP_PKEY_get_raw_public_key pkey = some pub ∧ pub.length = X25519.kKeyLen := by
  simp only [X25519.publicKey, bind_eq_ok, orThrow_eq_ok, guard_eq_ok, pure_eq_ok, not_not]
  constructor
  · rintro ⟨pub, hpub, hlen, rfl⟩
    exact ⟨hpub, hlen⟩
  · rintro ⟨hpub, hlen⟩
    exact ⟨pub, hpub, hlen, rfl⟩

theorem Primitives.Agree.computeShared_eq (h : L.Agree) {a b ka kb pa pb ss ss' : Bytes}
    (ha : L.x25519.create a = .ok ka) (hb : L.x25519.create b = .ok kb)
    (hpa : L.x25519.publicKey ka = .ok pa) (hpb : L.x25519.publicKey kb = .ok pb)
    (hss : L.x25519.computeShared ka pb = .ok ss)
    (hss' : L.x25519.computeShared kb pa = .ok ss') : ss = ss' := by
  rw [X25519.create_eq_ok] at ha hb
  rw [X25519.computeShared_eq_ok] at hss hss'
  have hmeet := h.x25519 ha hb (publicKey_eq_ok.mp hpa).1 (publicKey_eq_ok.mp hpb).1
  exact Option.some.inj (hss.2.symm.trans (hmeet.trans hss'.2))

/-! ## 5. A stand-in -/

/-- Primitives that agree: keys are coins, a shared secret is the public key with the ciphertext
or the XOR of the two keys, and a signature is its message. -/
def standIn : Primitives where
  kdf := standInKdf
  kem := {
    length_public_key := 1
    length_secret_key := 1
    length_ciphertext := 1
    OQS_KEM_keypair := fun a => some ⟨a, a⟩
    OQS_KEM_encaps := fun b pk => some (b, pk ++ b)
    OQS_KEM_decaps := fun ct sk => some (sk ++ ct) }
  dsa := {
    length_public_key := 1
    length_secret_key := 1
    length_signature := 32
    OQS_SIG_sign := fun _ m _ => some (padTo 32 m)
    OQS_SIG_verify := fun m s _ => s == padTo 32 m
    length_sign := by
      intro _ _ _ _ h
      rw [← Option.some.inj h, length_padTo]
    length_signature_le := by decide }
  x25519 := {
    EVP_PKEY_keygen := fun a => some (padTo 32 a)
    EVP_PKEY_get_raw_public_key := fun k => some k
    EVP_PKEY_derive := fun k p => some (List.zipWith (· ^^^ ·) k p) }

theorem standIn_agree : standIn.Agree where
  kem := by
    rintro a b ct ss ⟨pk, sk⟩ hkp henc
    cases hkp
    cases henc
    rfl
  x25519 := by
    rintro a b ka kb pa pb - - ha hb
    cases ha
    cases hb
    exact congrArg some (List.zipWith_comm_of_comm UInt8.xor_comm)

end PqcEdr.Crypto
