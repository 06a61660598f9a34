/-
# Nonces

GCM is lost when a key meets a nonce twice.  The loop of `make_nonce` is the XOR that its comment
states, so it is injective in the counter; `seal` counts every record it returns and stops before
the counter wraps; and the two directions of a session have different keys.
-/
import PqcEdr.Crypto.Record
import PqcEdr.Crypto.Session
import Mathlib.Data.List.Nodup

namespace PqcEdr.Crypto

open BigEndian

/-! ## 1. `make_nonce` is an XOR -/

/-- Modifying consecutive positions one by one touches each of them once. -/
theorem getElem?_foldl_modify {α : Type} (g : ℕ → α → α) (k : ℕ) (l : List α) (n j : ℕ) :
    ((List.range n).foldl (fun l i => l.modify (k + i) (g i)) l)[j]? =
      l[j]?.map fun a => if k ≤ j ∧ j < k + n then g (j - k) a else a := by
  induction n with
  | zero =>
    have hid : (fun a => if k ≤ j ∧ j < k + 0 then g (j - k) a else a) = id := by
      funext a
      exact if_neg (by omega)
    rw [hid, Option.map_id]
    rfl
  | succ n ih =>
    rw [List.range_succ, List.foldl_append, List.foldl_cons, List.foldl_nil,
      List.getElem?_modify, ih]
    cases l[j]? with
    | none => rfl
    | some a =>
      simp only [Option.map_some, Option.map_eq_map, Option.some.injEq]
      by_cases heq : k + n = j
      · subst heq
        rw [if_pos rfl, if_neg (by omega), if_pos (by omega), Nat.add_sub_cancel_left]
      · rw [if_neg heq]
        congr 1
        exact propext (by omega)

theorem seq_byte_eq {seq : UInt64} {i : ℕ} (hi : i < 8) :
    (seq >>> (8 * (7 - UInt64.ofNat i))).toUInt8 = UInt8.ofNat (seq.toNat / 256 ^ (7 - i)) := by
  have hshift : ∀ i < 8, (8 * (7 - UInt64.ofNat i)).toNat % 64 = 8 * (7 - i) := by decide
  refine UInt8.toNat_inj.mp ?_
  rw [UInt64.toNat_toUInt8, UInt64.toNat_shiftRight, hshift i hi, UInt8.toNat_ofNat',
    Nat.shiftRight_eq_div_pow, Nat.pow_mul]

/-- nonce = iv_base XOR (0^4 ‖ seq_be64). -/
theorem makeNonce_eq {iv : Bytes} (hiv : iv.length = kIvLen) (seq : UInt64) :
    makeNonce iv seq = List.zipWith (· ^^^ ·) iv (List.replicate 4 0 ++ toBe 8 seq.toNat) := by
  rw [kIvLen] at hiv
  refine List.ext_getElem? ?_
  intro j
  have hloop := getElem?_foldl_modify
    (fun i b => b ^^^ (seq >>> (8 * (7 - UInt64.ofNat i))).toUInt8) (kIvLen - 8) iv 8 j
  refine hloop.trans ?_
  rw [List.getElem?_zipWith, kIvLen]
  rcases Nat.lt_or_ge j 4 with hj | hj
  · rw [List.getElem?_append_left (by simpa using hj), List.getElem?_replicate_of_lt hj,
      List.getElem?_eq_getElem (by omega)]
    simp only [Option.map_some, if_neg (by omega : ¬ (12 - 8 ≤ j ∧ j < 12 - 8 + 8)),
      UInt8.xor_zero]
  · rw [List.getElem?_append_right (by simpa using hj), List.length_replicate]
    rcases Nat.lt_or_ge j 12 with hj' | hj'
    · rw [getElem?_toBe (by omega : j - 4 < 8), List.getElem?_eq_getElem (by omega)]
      simp only [Option.map_some, if_pos (by omega : 12 - 8 ≤ j ∧ j < 12 - 8 + 8),
        Nat.reduceSub, seq_byte_eq (by omega : j - 4 < 8)]
    · rw [List.getElem?_eq_none (by omega : iv.length ≤ j)]
      rfl

/-- For any base, two counters give two nonces. -/
theorem makeNonce_inj {iv : Bytes} (hiv : iv.length = kIvLen) {i j : UInt64}
    (h : makeNonce iv i = makeNonce iv j) : i = j := by
  rw [makeNonce_eq hiv, makeNonce_eq hiv] at h
  have hlen : ∀ k : UInt64, (List.replicate 4 0 ++ toBe 8 k.toNat).length = iv.length := by
    intro k
    rw [List.length_append, List.length_replicate, length_toBe, hiv]
    rfl
  have hpad := zipWith_xor_inj (hlen i) (hlen j) h
  exact UInt64.toNat_inj.mp
    (toBe_inj i.toNat_lt j.toNat_lt (List.append_cancel_left hpad))

/-! ## 2. Every run of `seal` calls -/

/-- One record that `seal` returned, with the key and the counter it was sealed under. -/
structure SealedRecord where
  key : Bytes
  nonce : Bytes
  seq : UInt64
  plaintext : Bytes
  record : Bytes

/-- What must not repeat. -/
def SealedRecord.pair (e : SealedRecord) : Bytes × Bytes := (e.key, e.nonce)

/-- Call `seal` on each plaintext in turn; the calls that throw are caught by the caller. -/
def sealAll (A : Gcm) : List Bytes → RecordSender → List SealedRecord × RecordSender
  | [], s => ([], s)
  | pt :: pts, s =>
    match (RecordSender.seal A pt).call s with
    | (.error _, s') => sealAll A pts s'
    | (.ok record, s') =>
      (⟨s.key, makeNonce s.iv_base s.seq, s.seq, pt, record⟩ :: (sealAll A pts s').1,
        (sealAll A pts s').2)

theorem sealAll_append (A : Gcm) (pts pts' : List Bytes) (s : RecordSender) :
    sealAll A (pts ++ pts') s =
      ((sealAll A pts s).1 ++ (sealAll A pts' (sealAll A pts s).2).1,
        (sealAll A pts' (sealAll A pts s).2).2) := by
  induction pts generalizing s with
  | nil => rfl
  | cons pt pts ih =>
    rw [List.cons_append, sealAll, sealAll]
    rcases (RecordSender.seal A pt).call s with ⟨e | record, s'⟩
    · exact ih s'
    · simp only [ih s', List.cons_append]

/-- What was sealed is some of what was to be sealed, in order. -/
theorem plaintexts_sublist (A : Gcm) (pts : List Bytes) (s : RecordSender) :
    ((sealAll A pts s).1.map (·.plaintext)).Sublist pts := by
  induction pts generalizing s with
  | nil => exact .slnil
  | cons pt pts ih =>
    rw [sealAll]
    rcases (RecordSender.seal A pt).call s with ⟨e | record, s'⟩
    · exact (ih s').cons pt
    · exact (ih s').cons_cons pt

/-- The record is the GCM encryption of its plaintext under its key and nonce, which is the nonce
of its counter. -/
def SealedRecord.Genuine (A : Gcm) (s : RecordSender) (e : SealedRecord) : Prop :=
  e.key = s.key ∧ e.nonce = makeNonce s.iv_base e.seq ∧ e.seq ≠ UINT64_MAX ∧
    e.plaintext.length ≤ 0xffff - kGcmTagLen ∧
    ∃ ct tag, A.encrypt e.key e.nonce (recordHeader e.plaintext.length) e.plaintext =
        some (ct, tag) ∧
      e.record = recordHeader e.plaintext.length ++ (ct ++ tag)

/-- The records of a run are genuine, and their counters are consecutive. -/
theorem sealAll_spec (A : Gcm) (pts : List Bytes) (s : RecordSender) :
    (∀ e ∈ (sealAll A pts s).1, e.Genuine A s) ∧
      (sealAll A pts s).1.map (·.seq.toNat) =
        List.range' s.seq.toNat (sealAll A pts s).1.length := by
  induction pts generalizing s with
  | nil => simp [sealAll]
  | cons pt pts ih =>
    rw [sealAll]
    rcases h : (RecordSender.seal A pt).call s with ⟨e | record, s'⟩
    · obtain rfl := seal_eq_error h
      exact ih s'
    · obtain ⟨hseq, hlen, ct, tag, henc, hrecord, rfl⟩ := seal_eq_ok.mp h
      obtain ⟨hgenuine, hseqs⟩ := ih s.next
      refine ⟨?_, ?_⟩
      · intro e he
        rcases List.mem_cons.mp he with rfl | he
        · exact ⟨rfl, rfl, hseq, hlen, ct, tag, henc, hrecord⟩
        · exact hgenuine e he
      · rw [List.map_cons, hseqs, RecordSender.next, toNat_seq_add_one hseq, List.length_cons,
          List.range'_succ]

/-- The counter runs out before the number of records wraps. -/
theorem length_sealAll_lt (A : Gcm) (pts : List Bytes) (s : RecordSender) :
    (sealAll A pts s).1.length < 2 ^ 64 := by
  obtain ⟨hgenuine, hseqs⟩ := sealAll_spec A pts s
  refine Nat.lt_of_not_le ?_
  intro hlong
  -- the record at this position was sealed under the last counter
  have hlast : (UINT64_MAX).toNat ∈ (sealAll A pts s).1.map (·.seq.toNat) := by
    have hlt := s.seq.toNat_lt
    rw [hseqs, List.mem_range'_1]
    exact ⟨Nat.le_sub_one_of_lt hlt, by rw [show UINT64_MAX.toNat = 2 ^ 64 - 1 from rfl]; omega⟩
  obtain ⟨e, he, hseq⟩ := List.mem_map.mp hlast
  exact (hgenuine e he).2.2.1 (UInt64.toNat_inj.mp hseq)

theorem nodup_seqs (A : Gcm) (pts : List Bytes) (s : RecordSender) :
    ((sealAll A pts s).1.map (·.seq.toNat)).Nodup := by
  rw [(sealAll_spec A pts s).2]
  exact List.nodup_range'

/-- The nonces of a run are pairwise distinct. -/
theorem nodup_nonces (A : Gcm) (pts : List Bytes) (s : RecordSender) :
    ((sealAll A pts s).1.map (·.nonce)).Nodup := by
  have hseqs := nodup_seqs A pts s
  refine List.Nodup.map_on ?_ hseqs.of_map
  intro e he e' he' hnonce
  obtain ⟨-, hn, -⟩ := (sealAll_spec A pts s).1 e he
  obtain ⟨-, hn', -⟩ := (sealAll_spec A pts s).1 e' he'
  have hseq : e.seq = e'.seq := makeNonce_inj s.length_iv (hn.symm.trans (hnonce.trans hn'))
  exact List.inj_on_of_nodup_map hseqs he he' (congrArg UInt64.toNat hseq)

theorem nodup_pairs (A : Gcm) (pts : List Bytes) (s : RecordSender) :
    ((sealAll A pts s).1.map SealedRecord.pair).Nodup := by
  refine List.Nodup.of_map Prod.snd ?_
  rw [List.map_map]
  exact nodup_nonces A pts s

/-- Senders with different keys share no pair. -/
theorem nodup_pairs_append {A : Gcm} {s t : RecordSender} (hkey : s.key ≠ t.key)
    (pts pts' : List Bytes) :
    (((sealAll A pts s).1 ++ (sealAll A pts' t).1).map SealedRecord.pair).Nodup := by
  rw [List.map_append]
  refine (nodup_pairs A pts s).append (nodup_pairs A pts' t) ?_
  intro p hp hp'
  obtain ⟨e, he, rfl⟩ := List.mem_map.mp hp
  obtain ⟨e', he', hpair⟩ := List.mem_map.mp hp'
  have hk := ((sealAll_spec A pts s).1 e he).1
  have hk' := ((sealAll_spec A pts' t).1 e' he').1
  exact hkey (hk.symm.trans ((Prod.mk.inj hpair).1.symm.trans hk'))

/-! ## 3. Exhaustion -/

theorem seal_exhausted {A : Gcm} {s : RecordSender} (h : s.seq = UINT64_MAX) (pt : Bytes) :
    ∃ e, (RecordSender.seal A pt).call s = (.error e, s) := by
  rcases hcall : (RecordSender.seal A pt).call s with ⟨e | record, s'⟩
  · obtain rfl := seal_eq_error hcall
    exact ⟨e, rfl⟩
  · exact absurd h (seal_eq_ok.mp hcall).1

theorem sealAll_exhausted {A : Gcm} {s : RecordSender} (h : s.seq = UINT64_MAX)
    (pts : List Bytes) : sealAll A pts s = ([], s) := by
  induction pts with
  | nil => rfl
  | cons pt pts ih =>
    obtain ⟨e, hcall⟩ := seal_exhausted h pt
    rw [sealAll, hcall]
    exact ih

/-- No (key, nonce) pair is used for two records of a session: not within a direction, up to the
exhaustion of its counter, and not across the two directions. -/
theorem no_nonce_reuse (A : Gcm) (K : Kdf) (transcript_hash : Bytes)
    (hsep : K.SeparatesKeys transcript_hash) :
    (∀ (s : RecordSender) (pts : List Bytes),
      ((sealAll A pts s).1.map (·.nonce)).Nodup ∧ ∀ e ∈ (sealAll A pts s).1, e.Genuine A s) ∧
    (∀ (s s' : RecordSender) (pt : Bytes) (e : Exn),
      (RecordSender.seal A pt).call s = (.error e, s') → s'.seq = s.seq) ∧
    (∀ s : RecordSender, s.seq = UINT64_MAX →
      (∀ pt, ∃ e, (RecordSender.seal A pt).call s = (.error e, s)) ∧
        ∀ pts, sealAll A pts s = ([], s)) ∧
    (∀ (ss_classical ss_pq client_random server_random : Bytes) (keys : SessionKeys),
      deriveSessionKeys K ss_classical ss_pq client_random server_random transcript_hash =
          .ok keys →
        keys.c2s_key ≠ keys.s2c_key ∧
          ∀ c2s s2c : RecordSender, c2s.key = keys.c2s_key → s2c.key = keys.s2c_key →
            ∀ pts pts', (((sealAll A pts c2s).1 ++ (sealAll A pts' s2c).1).map
              SealedRecord.pair).Nodup) := by
  refine ⟨?_, ?_, ?_, ?_⟩
  · intro s pts
    exact ⟨nodup_nonces A pts s, (sealAll_spec A pts s).1⟩
  · intro s s' pt e h
    rw [seal_eq_error h]
  · intro s hs
    exact ⟨seal_exhausted hs, sealAll_exhausted hs⟩
  · intro ssc ssp cr sr keys hkeys
    have hne := c2s_key_ne_s2c_key hsep hkeys
    refine ⟨hne, ?_⟩
    intro c2s s2c hc2s hs2c pts pts'
    exact nodup_pairs_append (by rw [hc2s, hs2c]; exact hne) pts pts'

/-- A sender at the start of its counter. -/
def zeroSender : RecordSender := ⟨List.replicate 32 0, List.replicate 12 0, 0, rfl, rfl⟩

theorem no_nonce_reuse_two_records :
    ((sealAll (tableGcm []) [lit "a", List.replicate 65520 0, lit "b"] zeroSender).1.map
        (·.nonce)).Nodup ∧
      ∃ keys, deriveSessionKeys standInKdf (lit "x") (lit "k") (lit "c") (lit "s")
        (List.replicate 32 7) = .ok keys ∧ keys.c2s_key ≠ keys.s2c_key := by
  obtain ⟨hrun, -, -, hkeys⟩ := no_nonce_reuse (tableGcm []) standInKdf (List.replicate 32 7)
    (standInKdf_separatesKeys _)
  exact ⟨(hrun zeroSender _).1, _, rfl,
    (hkeys (lit "x") (lit "k") (lit "c") (lit "s") _ rfl).1⟩

end PqcEdr.Crypto
