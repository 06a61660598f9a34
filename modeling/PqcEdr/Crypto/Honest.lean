/-
# Honest handshakes

The two roles against each other, over a transport that delivers each frame once, unchanged and in
order, each side pinning the other's key.  The primitives do what they are for: what is assumed of
them is in the structures of section 1.

* `exists_exchange`: on any coins the two programs have runs that send each other what they receive.
* `Exchange.carried`: the two traces fit together, whatever the transport can hold.
* `honest_handshake`: every schedule ends with both sides returned and their keys mirrored, and
  what one side seals the other opens.
-/
import PqcEdr.Crypto.Network
import PqcEdr.Crypto.Stream
import PqcEdr.Lib.Dialogue

namespace PqcEdr.Crypto

open Proc Wire

/-! ## 1. Primitives that work -/

/-- SHA-256 and HKDF give an output, HKDF-Expand one of up to 255 blocks. -/
structure Kdf.Correct (K : Kdf) : Prop where
  digest (data : Bytes) : (K.digest data).isSome
  extract (salt : Bytes) {ikm : Bytes} : ikm ≠ [] → (K.extract salt ikm).isSome
  expand {prk : Bytes} (info : Bytes) {n : ℕ} :
    prk.length = 32 → n ≤ 255 * 32 → (K.expand prk info n).isSome

/-- Key generation and encapsulation give fields of the documented lengths, and decapsulation gives
back the shared secret.  A hello has room for either field; with ML-KEM-768 they have 1184 and 1088
bytes. -/
structure MlKem.Correct (kem : MlKem) : Prop where
  keypair (coins : Bytes) : ∃ kp, kem.OQS_KEM_keypair coins = some kp ∧
    kp.public_key.length = kem.length_public_key ∧ kp.secret_key.length = kem.length_secret_key
  encaps {coins : Bytes} {kp : KeyPair} (coins' : Bytes) :
    kem.OQS_KEM_keypair coins = some kp →
      ∃ ct ss, kem.OQS_KEM_encaps coins' kp.public_key = some (ct, ss) ∧
        ct.length = kem.length_ciphertext ∧ kem.OQS_KEM_decaps ct kp.secret_key = some ss
  public_key_fits : 0 < kem.length_public_key ∧ 64 + kem.length_public_key ≤ 0xffff
  ciphertext_fits : 0 < kem.length_ciphertext ∧ 64 + kem.length_ciphertext ≤ 0xffff

/-- An ML-DSA key pair: what is signed under the secret key is accepted under the public key, and
no signature is empty. -/
structure MlDsa.IsKeyPair (dsa : MlDsa) (public_key secret_key : Bytes) : Prop where
  length_public_key : public_key.length = dsa.length_public_key
  length_secret_key : secret_key.length = dsa.length_secret_key
  sign (coins message : Bytes) :
    ∃ signature, dsa.OQS_SIG_sign coins message secret_key = some signature ∧ signature ≠ [] ∧
      dsa.OQS_SIG_verify message signature public_key = true

/-- Key generation works, a raw public key has 32 bytes, and two sides derive one secret. -/
structure X25519.Correct (x : X25519) : Prop where
  keygen (coins : Bytes) : ∃ pkey pub, x.EVP_PKEY_keygen coins = some pkey ∧
    x.EVP_PKEY_get_raw_public_key pkey = some pub ∧ pub.length = X25519.kKeyLen
  derive {a b ka kb pa pb : Bytes} : x.EVP_PKEY_keygen a = some ka →
    x.EVP_PKEY_keygen b = some kb → x.EVP_PKEY_get_raw_public_key ka = some pa →
    x.EVP_PKEY_get_raw_public_key kb = some pb →
      ∃ ss, x.EVP_PKEY_derive ka pb = some ss ∧ x.EVP_PKEY_derive kb pa = some ss ∧ ss ≠ []

structure Primitives.Correct (L : Primitives) : Prop where
  kdf : L.kdf.Correct
  kem : L.kem.Correct
  x25519 : L.x25519.Correct

/-- Encryption gives an output, and decryption gives back what was encrypted. -/
structure Gcm.Correct (A : Gcm) : Prop where
  encrypt (key nonce aad pt : Bytes) : (A.encrypt key nonce aad pt).isSome
  decrypt {key nonce aad pt ct tag : Bytes} :
    A.encrypt key nonce aad pt = some (ct, tag) → A.decrypt key nonce aad ct tag = some pt

/-! ## 2. Calls that return -/

theorem Kdf.Correct.exists_sha256 {K : Kdf} (h : K.Correct) (data : Bytes) :
    ∃ th, K.sha256 data = .ok th := by
  obtain ⟨th, hth⟩ := Option.isSome_iff_exists.mp (h.digest data)
  exact ⟨th, Kdf.sha256_eq_ok.mpr hth⟩

theorem Kdf.Correct.exists_keys {K : Kdf} (h : K.Correct) {ssc : Bytes} (hssc : ssc ≠ [])
    (ssp cr sr th : Bytes) : ∃ keys, deriveSessionKeys K ssc ssp cr sr th = .ok keys := by
  have hikm : ssc ++ ssp ≠ [] := fun hnil => hssc (List.append_eq_nil_iff.mp hnil).1
  obtain ⟨prk, hprk⟩ := Option.isSome_iff_exists.mp (h.extract (cr ++ sr) hikm)
  have hexpand : ∀ info n, n ≤ 32 → ∃ out, K.expand prk info n = some out := by
    intro info n hn
    exact Option.isSome_iff_exists.mp (h.expand info (K.length_extract hprk) (by omega))
  obtain ⟨c2s_key, h₁⟩ := hexpand (labelInfo "pqsec c2s key" th) 32 (by omega)
  obtain ⟨s2c_key, h₂⟩ := hexpand (labelInfo "pqsec s2c key" th) 32 (by omega)
  obtain ⟨c2s_iv, h₃⟩ := hexpand (labelInfo "pqsec c2s iv" th) 12 (by omega)
  obtain ⟨s2c_iv, h₄⟩ := hexpand (labelInfo "pqsec s2c iv" th) 12 (by omega)
  exact ⟨⟨c2s_key, s2c_key, c2s_iv, s2c_iv⟩,
    deriveSessionKeys_eq_ok.mpr ⟨prk, hprk, h₁, h₂, h₃, h₄⟩⟩

theorem MlKem.Correct.exists_keypair {kem : MlKem} (h : kem.Correct) (coins : Bytes) :
    ∃ kp, kem.keypair coins = .ok kp ∧ kp.public_key ≠ [] ∧
      64 + kp.public_key.length ≤ 0xffff := by
  obtain ⟨kp, hkp, hpk, -⟩ := h.keypair coins
  obtain ⟨hpos, hfits⟩ := h.public_key_fits
  exact ⟨kp, MlKem.keypair_eq_ok.mpr hkp, List.ne_nil_of_length_pos (by omega), by omega⟩

/-- Encapsulation to a key pair, and its decapsulation. -/
theorem MlKem.Correct.exists_encaps {kem : MlKem} (h : kem.Correct) {coins : Bytes} {kp : KeyPair}
    (hkp : kem.keypair coins = .ok kp) (coins' : Bytes) :
    ∃ ct ss, kem.encaps coins' kp.public_key = .ok (ct, ss) ∧
      kem.decaps ct kp.secret_key = .ok ss ∧ ct ≠ [] ∧ 64 + ct.length ≤ 0xffff := by
  rw [MlKem.keypair_eq_ok] at hkp
  obtain ⟨kp', hkp', hpk, hsk⟩ := h.keypair coins
  obtain rfl := Option.some.inj (hkp.symm.trans hkp')
  obtain ⟨ct, ss, henc, hct, hdec⟩ := h.encaps coins' hkp
  obtain ⟨hpos, hfits⟩ := h.ciphertext_fits
  exact ⟨ct, ss, MlKem.encaps_eq_ok.mpr ⟨hpk, henc⟩, MlKem.decaps_eq_ok.mpr ⟨hct, hsk, hdec⟩,
    List.ne_nil_of_length_pos (by omega), by omega⟩

theorem X25519.Correct.exists_create {x : X25519} (h : x.Correct) (coins : Bytes) :
    ∃ pkey pub, x.create coins = .ok pkey ∧ x.publicKey pkey = .ok pub := by
  obtain ⟨pkey, pub, hkeygen, hpub, hlen⟩ := h.keygen coins
  exact ⟨pkey, pub, X25519.create_eq_ok.mpr hkeygen, publicKey_eq_ok.mpr ⟨hpub, hlen⟩⟩

/-- The two sides of an exchange compute one secret. -/
theorem X25519.Correct.exists_shared {x : X25519} (h : x.Correct) {a b ka kb pa pb : Bytes}
    (ha : x.create a = .ok ka) (hb : x.create b = .ok kb) (hpa : x.publicKey ka = .ok pa)
    (hpb : x.publicKey kb = .ok pb) :
    ∃ ss, x.computeShared ka pb = .ok ss ∧ x.computeShared kb pa = .ok ss ∧ ss ≠ [] := by
  rw [X25519.create_eq_ok] at ha hb
  rw [publicKey_eq_ok] at hpa hpb
  obtain ⟨ss, hab, hba, hne⟩ := h.derive ha hb hpa.1 hpb.1
  exact ⟨ss, X25519.computeShared_eq_ok.mpr ⟨hpb.2, hab⟩,
    X25519.computeShared_eq_ok.mpr ⟨hpa.2, hba⟩, hne⟩

/-- A signature that its verifier accepts and that its frame can carry. -/
theorem MlDsa.IsKeyPair.exists_sign {dsa : MlDsa} {pk sk : Bytes} (h : dsa.IsKeyPair pk sk)
    (coins message : Bytes) :
    ∃ signature, dsa.sign coins message sk = .ok signature ∧ signature ≠ [] ∧
      dsa.verify message signature pk = true := by
  obtain ⟨signature, hsign, hne, hverify⟩ := h.sign coins message
  refine ⟨signature, MlDsa.sign_eq_ok.mpr ⟨h.length_secret_key, hsign⟩, hne, ?_⟩
  rw [MlDsa.verify, if_neg (not_not.mpr h.length_public_key)]
  exact hverify

/-- A hello has its frame. -/
theorem exists_hello {type : MsgType} {lenError : String} {random pub rest : Bytes}
    (hrandom : random.length = kRandomLen) (hpub : pub.length = kX25519Len)
    (hrest : 64 + rest.length ≤ 0xffff) :
    ∃ f, serializeHello type lenError random pub rest = .ok f := by
  have hfits : (random ++ pub ++ rest).length ≤ 0xffff := by
    rw [List.length_append, List.length_append, hrandom, hpub]
    exact hrest
  obtain ⟨f, hf⟩ : ∃ f, frame type (random ++ pub ++ rest) = .ok f := exists_frame hfits
  exact ⟨f, serializeHello_eq_ok.mpr ⟨⟨hrandom, hpub⟩, hf⟩⟩

/-! ## 3. The programs, forward -/

section

variable {L : Primitives} {id : Identity} {c : Coins} {t : Trace} {q : Party}

theorem run_transcript {acc th : Bytes} {k : Bytes → Party} (hth : L.kdf.sha256 acc = .ok th)
    (h : Run (k th) t q) : Run (transcript L acc >>= k) (.noted (.digest acc) :: t) q := by
  rw [transcript, bind_assoc]
  exact .noting (.lift hth h)

theorem run_derive {ssc ssp cr sr th : Bytes} {keys : SessionKeys} {k : SessionKeys → Party}
    (hkeys : deriveSessionKeys L.kdf ssc ssp cr sr th = .ok keys) (h : Run (k keys) t q) :
    Run (derive L ssc ssp cr sr th >>= k) (.noted (.derived keys) :: t) q := by
  rw [derive, bind_assoc]
  refine .lift hkeys ?_
  rw [bind_assoc]
  exact .noting h

theorem run_sign {coins m sk signature : Bytes} {k : Bytes → Party}
    (hsign : L.dsa.sign coins m sk = .ok signature) (h : Run (k signature) t q) :
    Run (sign L coins m sk >>= k) (.noted (.sign m) :: t) q := by
  rw [sign, bind_assoc]
  refine .lift hsign ?_
  rw [bind_assoc]
  exact .noting h

theorem run_verify {m signature pk : Bytes} {k : Bool → Party}
    (hverify : L.dsa.verify m signature pk = true) (h : Run (k true) t q) :
    Run (verify L m signature pk >>= k) (.noted (.verify pk m true) :: t) q := by
  rw [verify, bind_assoc, hverify]
  exact .noting h

/-- The values of a client session are those of a run, if the server's signature is accepted. -/
theorem ClientRun.run (r : ClientRun L id c) {ca : ClientAuth}
    (hverify : L.dsa.verify r.th r.sa.signature id.peer_sig_public = true)
    (hsign : L.dsa.sign c.sign r.th2 id.sig_secret = .ok ca.signature)
    (hca : ca.serialize = .ok r.ca_frame) :
    Run (clientHandshake L id c) r.trace (.ret r.channel) := by
  unfold clientHandshake ClientRun.trace
  refine .lift r.x_client_eq (.lift r.kem_kp_eq (.lift r.client_random_eq ?_))
  refine .lift r.x25519_pub_eq (.lift r.ch_frame_eq (.sending ?_))
  refine .receiving (.lift r.sh_eq (.lift r.ss_classical_eq (.lift r.ss_pq_eq ?_)))
  refine run_transcript r.th_eq (run_derive r.keys_eq ?_)
  refine .receiving (.lift r.sa_eq (run_verify hverify ?_))
  refine run_transcript r.th2_eq (run_sign hsign (.lift hca (.sending ?_)))
  exact .lift r.sender_eq (.lift r.receiver_eq (.refl _))

/-- The same of a server session, if the client's signature is accepted. -/
theorem ServerEnd.run {r : ServerRun L id c} (e : ServerEnd L id c r) {ca : ClientAuth}
    (hsign : L.dsa.sign c.sign r.th id.sig_secret = .ok e.sa.signature)
    (hca : parseClientAuth e.ca_frame = .ok ca)
    (hverify : L.dsa.verify e.th2 ca.signature id.peer_sig_public = true) :
    Run (serverHandshake L id c) (r.trace ++ e.trace) (.ret e.channel) := by
  unfold serverHandshake ServerRun.trace ServerEnd.trace
  refine .lift r.x_server_eq (.receiving (.lift r.ch_eq (.lift r.enc_eq ?_)))
  refine .lift r.server_random_eq (.lift r.x25519_pub_eq (.lift r.sh_frame_eq (.sending ?_)))
  refine .lift r.ss_classical_eq (run_transcript r.th_eq (run_derive r.keys_eq ?_))
  refine run_sign hsign (.lift e.sa_frame_eq (.sending (.receiving (.lift hca ?_))))
  refine run_transcript e.th2_eq (run_verify hverify ?_)
  exact .lift e.sender_eq (.lift e.receiver_eq (.refl _))

end

/-! ## 4. An exchange -/

/-- A client and a server that received what the other sent, and returned. -/
structure Exchange (L : Primitives) (agent analyzer : Identity) (c c' : Coins) where
  client : ClientRun L agent c
  server : ServerRun L analyzer c'
  auth : ServerEnd L analyzer c' server
  ch_frame : client.ch_frame = server.ch_frame
  sh_frame : client.sh_frame = server.sh_frame
  sa_frame : client.sa_frame = auth.sa_frame
  ca_frame : client.ca_frame = auth.ca_frame
  keys : client.keys = server.keys
  client_run : Run (clientHandshake L agent c) client.trace (.ret client.channel)
  server_run : Run (serverHandshake L analyzer c') (server.trace ++ auth.trace)
    (.ret auth.channel)

section

variable {L : Primitives} {agent analyzer : Identity} {c c' : Coins}

theorem exists_exchange (hL : L.Correct)
    (hagent : L.dsa.IsKeyPair agent.sig_public agent.sig_secret)
    (hanalyzer : L.dsa.IsKeyPair analyzer.sig_public analyzer.sig_secret)
    (hpinClient : agent.peer_sig_public = analyzer.sig_public)
    (hpinServer : analyzer.peer_sig_public = agent.sig_public)
    {v v' : CharArray kRandomLen} (hv : c.random = some v) (hv' : c'.random = some v') :
    Nonempty (Exchange L agent analyzer c c') := by
  -- ClientHello
  obtain ⟨x_client, x25519_pub, hx, hpub⟩ := hL.x25519.exists_create c.x25519
  obtain ⟨kp, hkp, hpkne, hpkfits⟩ := hL.kem.exists_keypair c.kem
  obtain ⟨ch_frame, hch⟩ : ∃ f, ClientHello.serialize ⟨v.toList, x25519_pub, kp.public_key⟩ =
      .ok f := exists_hello v.length_toList (publicKey_eq_ok.mp hpub).2 hpkfits
  -- ServerHello
  obtain ⟨x_server, x25519_pub', hx', hpub'⟩ := hL.x25519.exists_create c'.x25519
  obtain ⟨ct, ss_pq, henc, hdec, hctne, hctfits⟩ := hL.kem.exists_encaps hkp c'.kem
  obtain ⟨sh_frame, hsh⟩ : ∃ f, ServerHello.serialize ⟨v'.toList, x25519_pub', ct⟩ = .ok f :=
    exists_hello v'.length_toList (publicKey_eq_ok.mp hpub').2 hctfits
  obtain ⟨ss, hss, hss', hssne⟩ := hL.x25519.exists_shared hx hx' hpub hpub'
  obtain ⟨th, hth⟩ := hL.kdf.exists_sha256 (ch_frame ++ sh_frame)
  obtain ⟨keys, hkeys⟩ := hL.kdf.exists_keys hssne ss_pq v.toList v'.toList th
  -- ServerAuth
  obtain ⟨server_sig, hsign, hsigne, hverify⟩ := hanalyzer.exists_sign c'.sign th
  obtain ⟨sa_frame, hsa⟩ : ∃ f, ServerAuth.serialize ⟨server_sig⟩ = .ok f :=
    exists_frame (L.dsa.length_le_of_sign hsign)
  -- ClientAuth
  obtain ⟨th2, hth2⟩ := hL.kdf.exists_sha256 (ch_frame ++ sh_frame ++ sa_frame)
  obtain ⟨client_sig, hsign', hsigne', hverify'⟩ := hagent.exists_sign c.sign th2
  obtain ⟨ca_frame, hca⟩ : ∃ f, ClientAuth.serialize ⟨client_sig⟩ = .ok f :=
    exists_frame (L.dsa.length_le_of_sign hsign')
  -- the channels
  obtain ⟨hc2s, hs2c, hc2siv, hs2civ⟩ := length_of_deriveSessionKeys hkeys
  obtain ⟨⟨c2sSender, h₁⟩, ⟨c2sReceiver, h₂⟩⟩ := exists_create hc2s hc2siv
  obtain ⟨⟨s2cSender, h₃⟩, ⟨s2cReceiver, h₄⟩⟩ := exists_create hs2c hs2civ
  have hrandom : randomBytes c.random = .ok v.toList := randomBytes_eq_ok.mpr ⟨v, hv, rfl⟩
  have hrandom' : randomBytes c'.random = .ok v'.toList := randomBytes_eq_ok.mpr ⟨v', hv', rfl⟩
  refine ⟨⟨
    ⟨x_client, kp, v.toList, x25519_pub, ch_frame, sh_frame, ⟨v'.toList, x25519_pub', ct⟩, ss,
      ss_pq, th, keys, sa_frame, ⟨server_sig⟩, th2, ca_frame, ⟨c2sSender, s2cReceiver⟩, hx, hkp,
      hrandom, hpub, hch, parseServerHello_eq_ok.mpr ⟨hctne, hsh⟩, hss, hdec, hth, hkeys,
      parseServerAuth_eq_ok.mpr ⟨hsigne, hsa⟩, hth2, h₁, h₄⟩,
    ⟨x_server, ch_frame, ⟨v.toList, x25519_pub, kp.public_key⟩, (ct, ss_pq), v'.toList,
      x25519_pub', sh_frame, ss, th, keys, hx', parseClientHello_eq_ok.mpr ⟨hpkne, hch⟩, henc,
      hrandom', hpub', hsh, hss', hth, hkeys⟩,
    ⟨sa_frame, ⟨server_sig⟩, ca_frame, th2, ⟨s2cSender, c2sReceiver⟩, hsa, hth2, h₃, h₂⟩,
    rfl, rfl, rfl, rfl, rfl, ?_, ?_⟩⟩
  · rw [← hpinClient] at hverify
    exact ClientRun.run _ hverify hsign' hca
  · rw [← hpinServer] at hverify'
    exact ServerEnd.run _ hsign (parseClientAuth_eq_ok.mpr ⟨hsigne', hca⟩) hverify'

variable {capacity : ℕ∞}

/-- The order of the four messages, over any transport that holds a frame. -/
theorem Exchange.carried (x : Exchange L agent analyzer c c') (hcap : 0 < capacity) :
    Dialogue.Carried capacity x.client.trace (x.server.trace ++ x.auth.trace) [] [] := by
  unfold ClientRun.trace ServerRun.trace ServerEnd.trace
  rw [x.ch_frame, x.sh_frame, x.sa_frame, x.ca_frame]
  -- ClientHello
  refine .left (.sent hcap) (.right .received ?_)
  -- ServerHello
  refine .right (.sent hcap) (.left .received ?_)
  refine .left .noted (.left .noted (.right .noted (.right .noted (.right .noted ?_))))
  -- ServerAuth
  refine .right (.sent hcap) (.left .received ?_)
  refine .left .noted (.left .noted (.left .noted ?_))
  -- ClientAuth
  refine .left (.sent hcap) (.right .received ?_)
  exact .right .noted (.right .noted .done)

theorem Exchange.settles (x : Exchange L agent analyzer c c') (hcap : 0 < capacity) :
    Dialogue.Settles capacity
      (.start (clientHandshake L agent c) (serverHandshake L analyzer c'))
      ⟨⟨x.client.trace, .ret x.client.channel, []⟩,
        ⟨x.server.trace ++ x.auth.trace, .ret x.auth.channel, []⟩⟩ :=
  Dialogue.settles_of_carried (x.carried hcap) x.client_run x.server_run trivial trivial

end

/-! ## 5. Mirrored channels -/

/-- Each end sends under the key and the IV base that the other receives under, and nothing has
been counted yet. -/
structure Channel.Mirrors (client server : Channel) : Prop where
  c2s_key : client.sender.key = server.receiver.key
  c2s_iv : client.sender.iv_base = server.receiver.iv_base
  s2c_key : client.receiver.key = server.sender.key
  s2c_iv : client.receiver.iv_base = server.sender.iv_base
  c2s_seq : client.sender.seq = 0 ∧ server.receiver.seq = 0
  s2c_seq : client.receiver.seq = 0 ∧ server.sender.seq = 0

theorem sender_of_create {key iv : Bytes} {s : RecordSender}
    (h : RecordSender.create key iv = .ok s) : s.key = key ∧ s.iv_base = iv ∧ s.seq = 0 := by
  unfold RecordSender.create at h
  split at h
  · cases h
  · cases h
    exact ⟨rfl, rfl, rfl⟩

theorem receiver_of_create {key iv : Bytes} {r : RecordReceiver}
    (h : RecordReceiver.create key iv = .ok r) : r.key = key ∧ r.iv_base = iv ∧ r.seq = 0 := by
  unfold RecordReceiver.create at h
  split at h
  · cases h
  · cases h
    exact ⟨rfl, rfl, rfl⟩

theorem Exchange.mirrors {L : Primitives} {agent analyzer : Identity} {c c' : Coins}
    (x : Exchange L agent analyzer c c') : x.client.channel.Mirrors x.auth.channel := by
  obtain ⟨hkey₁, hiv₁, hseq₁⟩ := sender_of_create x.client.sender_eq
  obtain ⟨hkey₂, hiv₂, hseq₂⟩ := receiver_of_create x.client.receiver_eq
  obtain ⟨hkey₃, hiv₃, hseq₃⟩ := sender_of_create x.auth.sender_eq
  obtain ⟨hkey₄, hiv₄, hseq₄⟩ := receiver_of_create x.auth.receiver_eq
  rw [x.keys] at hkey₁ hiv₁ hkey₂ hiv₂
  exact ⟨hkey₁.trans hkey₄.symm, hiv₁.trans hiv₄.symm, hkey₂.trans hkey₃.symm,
    hiv₂.trans hiv₃.symm, ⟨hseq₁, hseq₄⟩, ⟨hseq₂, hseq₃⟩⟩

/-! ## 6. Records in order -/

section

variable {A : Gcm} {s s' : RecordSender} {r : RecordReceiver}

/-- What was just sealed is opened, and the two are level again. -/
theorem open_of_seal (hA : A.Correct) (hr : Synced s 0 r) {pt record : Bytes}
    (h : (RecordSender.seal A pt).call s = (.ok record, s')) :
    (RecordReceiver.open A record).call r = (.ok pt, r.next) ∧ Synced s' 0 r.next := by
  obtain ⟨hseq, hlen, ct, tag, henc, rfl, rfl⟩ := seal_eq_ok.mp h
  have hcount : r.seq = s.seq := UInt64.toNat_inj.mp hr.seq
  obtain ⟨hct, htag⟩ := A.length_encrypt henc
  constructor
  · refine open_eq_ok.mpr ⟨hcount ▸ hseq, ct, tag, by omega, htag, by rw [hct], ?_, rfl⟩
    rw [hr.key, hr.iv_base, hcount, hct]
    exact hA.decrypt henc
  · refine ⟨hr.key, hr.iv_base, ?_⟩
    rw [RecordReceiver.next, RecordSender.next, hcount, Nat.add_zero]

/-- Whatever was sealed, its first `n` records are opened to its first `n` plaintexts. -/
theorem openAll_sealAll (hA : A.Correct) (pts : List Bytes) (hr : Synced s 0 r) (n : ℕ) :
    (openAll A (((sealAll A pts s).1.take n).map (·.record)) r).1 =
      ((sealAll A pts s).1.take n).map (·.plaintext) := by
  induction pts generalizing s r n with
  | nil =>
    rw [sealAll, List.take_nil]
    rfl
  | cons pt pts ih =>
    rw [sealAll]
    rcases hcall : (RecordSender.seal A pt).call s with ⟨e | record, s'⟩
    · obtain rfl := seal_eq_error hcall
      exact ih hr n
    · cases n with
      | zero => rfl
      | succ n =>
        obtain ⟨hopen, hsynced⟩ := open_of_seal hA hr hcall
        simp only [List.take_succ_cons, List.map_cons]
        rw [openAll, hopen]
        exact congrArg (pt :: ·) (ih hsynced n)

/-- One direction of a channel: of the records that were sealed, those that have arrived in order
are opened to their plaintexts, and every plaintext within the limits is sealed. -/
structure Delivers (A : Gcm) (s : RecordSender) (r : RecordReceiver) : Prop where
  opened (pts : List Bytes) (n : ℕ) :
    (openAll A (((sealAll A pts s).1.take n).map (·.record)) r).1 =
      ((sealAll A pts s).1.take n).map (·.plaintext)
  accepted (pts : List Bytes) : (∀ pt ∈ pts, pt.length ≤ 65519) → pts.length < 2 ^ 64 →
    (sealAll A pts s).1.map (·.plaintext) = pts

theorem delivers (hA : A.Correct) (hkey : s.key = r.key) (hiv : s.iv_base = r.iv_base)
    (hseq : s.seq = 0 ∧ r.seq = 0) : Delivers A s r := by
  have hr : Synced s 0 r := ⟨hkey.symm, hiv.symm, by rw [hseq.1, hseq.2, Nat.add_zero]⟩
  refine ⟨fun pts n => openAll_sealAll hA pts hr n, ?_⟩
  intro pts hlen hcount
  refine sealAll_plaintexts hA.encrypt hlen ?_
  rw [hseq.1, show UINT64_MAX.toNat = 2 ^ 64 - 1 from rfl, UInt64.toNat_zero]
  omega

end

/-! ## 7. The handshake as a whole -/

/-- A client and a server that pin each other's keys, on any coins and over any transport that
delivers: in every schedule both return after the four messages, with mirrored channels, and what
either seals the other opens. -/
theorem honest_handshake (L : Primitives) (A : Gcm) (agent analyzer : Identity) (c c' : Coins)
    (capacity : ℕ∞) (hL : L.Correct) (hA : A.Correct)
    (hagent : L.dsa.IsKeyPair agent.sig_public agent.sig_secret)
    (hanalyzer : L.dsa.IsKeyPair analyzer.sig_public analyzer.sig_secret)
    (hpinClient : agent.peer_sig_public = analyzer.sig_public)
    (hpinServer : analyzer.peer_sig_public = agent.sig_public)
    {v v' : CharArray kRandomLen} (hv : c.random = some v) (hv' : c'.random = some v')
    (hcap : 0 < capacity) :
    ∃ (client server : Channel) (t u : Trace) (ch sh sa ca : Bytes),
      Dialogue.Settles capacity
          (.start (clientHandshake L agent c) (serverHandshake L analyzer c'))
          ⟨⟨t, .ret client, []⟩, ⟨u, .ret server, []⟩⟩ ∧
        framesOf t = [.sent ch, .received sh, .received sa, .sent ca] ∧
        framesOf u = [.received ch, .sent sh, .sent sa, .received ca] ∧
        client.Mirrors server ∧ Delivers A client.sender server.receiver ∧
        Delivers A server.sender client.receiver := by
  obtain ⟨x⟩ := exists_exchange hL hagent hanalyzer hpinClient hpinServer hv hv'
  have hmirrors := x.mirrors
  refine ⟨_, _, _, _, x.client.ch_frame, x.client.sh_frame, x.client.sa_frame, x.client.ca_frame,
    x.settles hcap, framesOf_clientRun x.client, ?_, hmirrors, ?_, ?_⟩
  · rw [x.ch_frame, x.sh_frame, x.sa_frame, x.ca_frame, framesOf_serverRun]
    rfl
  · exact delivers hA hmirrors.c2s_key hmirrors.c2s_iv hmirrors.c2s_seq
  · exact delivers hA hmirrors.s2c_key.symm hmirrors.s2c_iv.symm hmirrors.s2c_seq.symm

/-! Stand-ins that work on all coins, and a transport that holds one frame. -/

def paddedStandIn : Primitives where
  kdf := standInKdf
  kem := {
    length_public_key := 1
    length_secret_key := 1
    length_ciphertext := 1
    OQS_KEM_keypair := fun a => some ⟨padTo 1 a, padTo 1 a⟩
    OQS_KEM_encaps := fun b pk => some (padTo 1 b, pk ++ padTo 1 b)
    OQS_KEM_decaps := fun ct sk => some (sk ++ ct) }
  dsa := standIn.dsa
  x25519 := standIn.x25519

theorem paddedStandIn_correct : paddedStandIn.Correct where
  kdf := ⟨fun _ => rfl, fun _ {_} _ => rfl, fun {_} _ {_} _ _ => rfl⟩
  kem := {
    keypair := fun a => ⟨_, rfl, length_padTo 1 a, length_padTo 1 a⟩
    encaps := by
      rintro a kp b hkp
      cases hkp
      exact ⟨_, _, rfl, length_padTo 1 b, rfl⟩
    public_key_fits := by decide
    ciphertext_fits := by decide }
  x25519 := {
    keygen := fun a => ⟨_, _, rfl, rfl, length_padTo 32 a⟩
    derive := by
      rintro a b ka kb pa pb ha hb hpa hpb
      cases ha
      cases hb
      cases hpa
      cases hpb
      refine ⟨_, rfl, congrArg some (List.zipWith_comm_of_comm UInt8.xor_comm), ?_⟩
      exact List.ne_nil_of_length_pos (by simp [List.length_zipWith]) }

theorem standIn_isKeyPair (k : UInt8) : paddedStandIn.dsa.IsKeyPair [k] [k] where
  length_public_key := rfl
  length_secret_key := rfl
  sign := by
    intro _ m
    exact ⟨padTo 32 m, rfl, List.ne_nil_of_length_pos (by simp), by simp [paddedStandIn, standIn]⟩

/-- The table cipher without its table: only the tag is checked. -/
def taggedGcm : Gcm where
  encrypt := (tableGcm []).encrypt
  decrypt _ nonce _ ct tag := if tag = tableTag nonce then some ct else none
  length_encrypt := (tableGcm []).length_encrypt
  length_decrypt h := by
    split at h
    · rw [Option.some.inj h]
    · cases h

theorem taggedGcm_correct : taggedGcm.Correct where
  encrypt _ _ _ _ := rfl
  decrypt h := by
    obtain ⟨rfl, rfl⟩ := Prod.mk.inj (Option.some.inj h)
    exact if_pos rfl

theorem honest_handshake_sample :
    ∃ client server : Channel, client.Mirrors server ∧ ∃ t u : Trace,
      Dialogue.Settles 1
        (.start (clientHandshake paddedStandIn agentId (coinsOf 3))
          (serverHandshake paddedStandIn analyzerId (coinsOf 4)))
        ⟨⟨t, .ret client, []⟩, ⟨u, .ret server, []⟩⟩ := by
  obtain ⟨client, server, t, u, -, -, -, -, hsettles, -, -, hmirrors, -⟩ :=
    honest_handshake paddedStandIn taggedGcm agentId analyzerId (coinsOf 3) (coinsOf 4) 1
      paddedStandIn_correct taggedGcm_correct (standIn_isKeyPair 1) (standIn_isKeyPair 2) rfl rfl
      rfl rfl one_pos
  exact ⟨client, server, hmirrors, t, u, hsettles⟩

end PqcEdr.Crypto
