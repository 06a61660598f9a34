/-
# The key schedule

`session.cpp` over `kdf.cpp`: HKDF on the two shared secrets, one output for each label.  SHA-256
and HKDF are OpenSSL's, so they are a parameter here: functions that may fail, with the output
lengths that OpenSSL documents.  Fetching the algorithm and making its context are part of the call.
-/
import PqcEdr.Crypto.Exn
import Mathlib.Data.Set.Operations

namespace PqcEdr.Crypto

/-! ## 1. `kdf.cpp` -/

/-- `EVP_Digest(EVP_sha256())` and `EVP_KDF_derive` of HKDF-SHA256 in its two modes. -/
structure Kdf where
  digest : (data : Bytes) → Option Bytes
  extract : (salt ikm : Bytes) → Option Bytes
  expand : (prk info : Bytes) → (out_len : ℕ) → Option Bytes
  length_digest {data out : Bytes} : digest data = some out → out.length = 32
  length_extract {salt ikm out : Bytes} : extract salt ikm = some out → out.length = 32
  length_expand {prk info out : Bytes} {n : ℕ} : expand prk info n = some out → out.length = n

namespace Kdf

variable (K : Kdf)

def sha256 (data : Bytes) : Result Bytes :=
  orThrow (.runtime_error "kdf: EVP_Digest(SHA256) 실패") (K.digest data)

def hkdfExtract (salt ikm : Bytes) : Result Bytes :=
  orThrow (.runtime_error "kdf: EVP_KDF_derive 실패") (K.extract salt ikm)

def hkdfExpand (prk info : Bytes) (out_len : ℕ) : Result Bytes :=
  orThrow (.runtime_error "kdf: EVP_KDF_derive 실패") (K.expand prk info out_len)

variable {K}

theorem sha256_eq_ok {data out : Bytes} : K.sha256 data = .ok out ↔ K.digest data = some out :=
  orThrow_eq_ok

end Kdf

/-! ## 2. `session.cpp` -/

structure SessionKeys where
  c2s_key : Bytes
  s2c_key : Bytes
  c2s_iv : Bytes
  s2c_iv : Bytes
  deriving DecidableEq, Repr

/-- The label's bytes and the transcript hash: an HKDF info. -/
def labelInfo (label : String) (transcript_hash : Bytes) : Bytes := lit label ++ transcript_hash

def deriveSessionKeys (K : Kdf) (ss_classical ss_pq client_random server_random
    transcript_hash : Bytes) : Result SessionKeys := do
  let ikm := ss_classical ++ ss_pq
  let salt := client_random ++ server_random
  let prk ← K.hkdfExtract salt ikm
  let c2s_key ← K.hkdfExpand prk (labelInfo "pqsec c2s key" transcript_hash) 32
  let s2c_key ← K.hkdfExpand prk (labelInfo "pqsec s2c key" transcript_hash) 32
  let c2s_iv ← K.hkdfExpand prk (labelInfo "pqsec c2s iv" transcript_hash) 12
  let s2c_iv ← K.hkdfExpand prk (labelInfo "pqsec s2c iv" transcript_hash) 12
  pure { c2s_key, s2c_key, c2s_iv, s2c_iv }

/-- The four outputs are expansions of one pseudorandom key. -/
theorem deriveSessionKeys_eq_ok {K : Kdf} {ssc ssp cr sr th : Bytes} {keys : SessionKeys} :
    deriveSessionKeys K ssc ssp cr sr th = .ok keys ↔
      ∃ prk, K.extract (cr ++ sr) (ssc ++ ssp) = some prk ∧
        K.expand prk (labelInfo "pqsec c2s key" th) 32 = some keys.c2s_key ∧
        K.expand prk (labelInfo "pqsec s2c key" th) 32 = some keys.s2c_key ∧
        K.expand prk (labelInfo "pqsec c2s iv" th) 12 = some keys.c2s_iv ∧
        K.expand prk (labelInfo "pqsec s2c iv" th) 12 = some keys.s2c_iv := by
  simp only [deriveSessionKeys, Kdf.hkdfExtract, Kdf.hkdfExpand, bind_eq_ok, orThrow_eq_ok,
    pure_eq_ok]
  constructor
  · rintro ⟨prk, hprk, a, ha, b, hb, c, hc, d, hd, rfl⟩
    exact ⟨prk, hprk, ha, hb, hc, hd⟩
  · rintro ⟨prk, hprk, ha, hb, hc, hd⟩
    exact ⟨prk, hprk, _, ha, _, hb, _, hc, _, hd, rfl⟩

/-- The lengths that the record layer asks for. -/
theorem length_of_deriveSessionKeys {K : Kdf} {ssc ssp cr sr th : Bytes} {keys : SessionKeys}
    (h : deriveSessionKeys K ssc ssp cr sr th = .ok keys) :
    keys.c2s_key.length = 32 ∧ keys.s2c_key.length = 32 ∧ keys.c2s_iv.length = 12 ∧
      keys.s2c_iv.length = 12 := by
  obtain ⟨prk, -, ha, hb, hc, hd⟩ := deriveSessionKeys_eq_ok.mp h
  exact ⟨K.length_expand ha, K.length_expand hb, K.length_expand hc, K.length_expand hd⟩

/-! ## 3. Label separation -/

/-- Two labels give two infos, whatever is hashed. -/
theorem labelInfo_ne {l l' : String} {th : Bytes} (h : lit l ≠ lit l') :
    labelInfo l th ≠ labelInfo l' th := by
  intro heq
  exact h (List.append_cancel_right heq)

/-- HKDF-Expand is injective on the two infos that a session's keys are expanded from. -/
def Kdf.SeparatesKeys (K : Kdf) (transcript_hash : Bytes) : Prop :=
  ∀ prk, Set.InjOn (fun info => K.expand prk info 32)
    {labelInfo "pqsec c2s key" transcript_hash, labelInfo "pqsec s2c key" transcript_hash}

/-- The two directions of a session have different keys. -/
theorem c2s_key_ne_s2c_key {K : Kdf} {ssc ssp cr sr th : Bytes} {keys : SessionKeys}
    (hsep : K.SeparatesKeys th) (h : deriveSessionKeys K ssc ssp cr sr th = .ok keys) :
    keys.c2s_key ≠ keys.s2c_key := by
  obtain ⟨prk, -, hc2s, hs2c, -, -⟩ := deriveSessionKeys_eq_ok.mp h
  intro heq
  have hinfo := hsep prk (Or.inl rfl) (Or.inr rfl)
    (show K.expand prk _ 32 = K.expand prk _ 32 by rw [hc2s, hs2c, heq])
  exact labelInfo_ne (by decide) hinfo

/-! ## 4. A stand-in -/

/-- Cut or padded to `n` bytes. -/
def padTo (n : ℕ) (data : Bytes) : Bytes := (data ++ List.replicate n 0).take n

@[simp] theorem length_padTo (n : ℕ) (data : Bytes) : (padTo n data).length = n := by
  simp [padTo]

/-- Functions with the real output lengths that keep labels apart. -/
def standInKdf : Kdf where
  digest data := some (padTo 32 data.reverse)
  extract salt ikm := some (padTo 32 (ikm ++ salt))
  expand _ info n := some (padTo n info)
  length_digest h := by rw [← Option.some.inj h, length_padTo]
  length_extract h := by rw [← Option.some.inj h, length_padTo]
  length_expand h := by rw [← Option.some.inj h, length_padTo]

theorem standInKdf_separatesKeys (th : Bytes) : standInKdf.SeparatesKeys th := by
  intro prk x hx y hy h
  -- the seventh byte of a label is the `c` or the `s`
  have hc2s : (padTo 32 (labelInfo "pqsec c2s key" th))[6]? = some 0x63 := rfl
  have hs2c : (padTo 32 (labelInfo "pqsec s2c key" th))[6]? = some 0x73 := rfl
  have hseventh : (padTo 32 x)[6]? = (padTo 32 y)[6]? := by rw [Option.some.inj h]
  rcases hx with rfl | rfl <;> rcases hy with rfl | rfl
  · rfl
  · rw [hc2s, hs2c] at hseventh
    exact absurd hseventh (by decide)
  · rw [hc2s, hs2c] at hseventh
    exact absurd hseventh (by decide)
  · rfl

end PqcEdr.Crypto
