/-
# Record streams

What the analyzer opens of what an agent sealed, when the bytes in between are the attacker's.
The receiver's counter is a position in the sender's history: from position `k`, the only record
that opens is the `k`-th, and opening it moves to `k + 1`.  Everything below follows from that one
step: for any list of records, and for the loop of `serve_connection` over any stream of bytes.
-/
import PqcEdr.Crypto.Nonce
import PqcEdr.Crypto.Socket

namespace PqcEdr.Crypto

/-! ## 1. The loop of `serve_connection` -/

/-- What the loop did: the plaintexts that `open` returned, how the loop ended, and the receiver. -/
structure Served where
  opened : List Bytes
  outcome : Result Unit
  receiver : RecordReceiver

def Served.opening (pt : Bytes) (rest : Served) : Served :=
  { rest with opened := pt :: rest.opened }

/-- Receive a record, open it, and hand an event that is long enough to `processEvent`, which has
state of its own and may throw. -/
def serveLoop {σ : Type} (A : Gcm) (processEvent : Bytes → Method Exn σ Unit) (sock : Socket)
    (r : RecordReceiver) (st : σ) : Served :=
  match _h : recvRecord.call sock with
  | (.error e, _) => ⟨[], .error e, r⟩
  | (.ok [], _) => ⟨[], .ok (), r⟩
  | (.ok (b :: bs), sock') =>
    match (RecordReceiver.open A (b :: bs)).call r with
    | (.error e, r') => ⟨[], .error e, r'⟩
    | (.ok pt, r') =>
      if pt.length < SecurityEvent.sizeOf then (serveLoop A processEvent sock' r' st).opening pt
      else
        match (processEvent pt).call st with
        | (.error e, _) => ⟨[pt], .error e, r'⟩
        | (.ok (), st') => (serveLoop A processEvent sock' r' st').opening pt
termination_by sock.bytes.length
decreasing_by all_goals exact recvRecord_lt _h

/-- Open each record in turn, going on after the ones that throw. -/
def openAll (A : Gcm) : List Bytes → RecordReceiver → List Bytes × RecordReceiver
  | [], r => ([], r)
  | record :: records, r =>
    match (RecordReceiver.open A record).call r with
    | (.error _, r') => openAll A records r'
    | (.ok pt, r') => (pt :: (openAll A records r').1, (openAll A records r').2)

/-! ## 2. Ideal encryption -/

/-- Under this key, decryption succeeds exactly on what the sender's calls encrypted, with the
same nonce and header, and returns that plaintext. -/
def Gcm.Ideal (A : Gcm) (key : Bytes) (log : List SealedRecord) : Prop :=
  ∀ nonce aad ct tag pt, A.decrypt key nonce aad ct tag = some pt ↔
    ∃ e ∈ log, e.nonce = nonce ∧ recordHeader e.plaintext.length = aad ∧ e.plaintext = pt ∧
      A.encrypt key nonce aad pt = some (ct, tag)

/-- The receiver has the sender's key and base, and has counted `k` records more than the sender
had when it started. -/
structure Synced (s : RecordSender) (k : ℕ) (r : RecordReceiver) : Prop where
  key : r.key = s.key
  iv_base : r.iv_base = s.iv_base
  seq : r.seq.toNat = s.seq.toNat + k

/-! ## 3. One step -/

section

variable {A : Gcm} {s : RecordSender} {pts : List Bytes}

/-- The record at position `k` carries the `k`-th counter. -/
theorem seq_of_getElem? {k : ℕ} {e : SealedRecord} (h : (sealAll A pts s).1[k]? = some e) :
    e.seq.toNat = s.seq.toNat + k := by
  have hseqs := congrArg (·[k]?) (sealAll_spec A pts s).2
  simp only [List.getElem?_map, h, Option.map_some] at hseqs
  obtain ⟨hk, -⟩ := List.getElem?_eq_some_iff.mp h
  rw [List.getElem?_range' hk, Option.some.injEq, Nat.one_mul] at hseqs
  exact hseqs

theorem nextReceiver_synced {r : RecordReceiver} {k : ℕ} (hr : Synced s k r)
    (hseq : r.seq ≠ UINT64_MAX) : Synced s (k + 1) r.next := by
  refine ⟨hr.key, hr.iv_base, ?_⟩
  rw [RecordReceiver.next, toNat_seq_add_one hseq, hr.seq, Nat.add_assoc]

/-- From position `k`, exactly the sender's `k`-th record opens, to its plaintext. -/
theorem open_iff_next (hideal : A.Ideal s.key (sealAll A pts s).1) {r r' : RecordReceiver} {k : ℕ}
    (hr : Synced s k r) {record pt : Bytes} :
    (RecordReceiver.open A record).call r = (.ok pt, r') ↔
      ∃ e, (sealAll A pts s).1[k]? = some e ∧ record = e.record ∧ pt = e.plaintext ∧
        r' = r.next := by
  rw [open_eq_ok, hr.key, hr.iv_base]
  constructor
  · rintro ⟨hseq, ct, tag, hct, htag, rfl, hdec, rfl⟩
    obtain ⟨e, he, hnonce, haad, rfl, henc⟩ := (hideal _ _ _ _ _).mp hdec
    obtain ⟨hkey, hn, -, -, ct', tag', henc', hrecord⟩ := (sealAll_spec A pts s).1 e he
    -- the nonce says which record it is
    have hcounter : e.seq = r.seq := makeNonce_inj s.length_iv (hn.symm.trans hnonce)
    obtain ⟨i, hi⟩ := List.mem_iff_getElem?.mp he
    have hik : i = k := by
      have := seq_of_getElem? hi
      rw [hcounter, hr.seq] at this
      omega
    subst hik
    rw [hkey, hnonce, haad, henc, Option.some.injEq, Prod.mk.injEq] at henc'
    obtain ⟨rfl, rfl⟩ := henc'
    exact ⟨e, hi, by rw [hrecord, haad], rfl, rfl⟩
  · rintro ⟨e, hk, rfl, rfl, rfl⟩
    have he := List.mem_of_getElem? hk
    obtain ⟨hkey, hn, hmax, hlen, ct, tag, henc, hrecord⟩ := (sealAll_spec A pts s).1 e he
    have hcounter : e.seq = r.seq :=
      UInt64.toNat_inj.mp ((seq_of_getElem? hk).trans hr.seq.symm)
    obtain ⟨hct, htag⟩ := A.length_encrypt henc
    rw [hkey] at henc
    refine ⟨hcounter ▸ hmax, ct, tag, by omega, htag, by rw [hct, hrecord], ?_, rfl⟩
    rw [hct, ← hcounter, ← hn]
    exact (hideal _ _ _ _ _).mpr ⟨e, he, rfl, rfl, rfl, henc⟩

/-- A call of `open` moves to the next position or stays. -/
theorem open_synced (hideal : A.Ideal s.key (sealAll A pts s).1) {r r' : RecordReceiver} {k : ℕ}
    (hr : Synced s k r) {record pt : Bytes}
    (h : (RecordReceiver.open A record).call r = (.ok pt, r')) : Synced s (k + 1) r' := by
  obtain ⟨e, -, -, -, rfl⟩ := (open_iff_next hideal hr).mp h
  exact nextReceiver_synced hr (open_eq_ok.mp h).1

theorem map_drop_eq_cons {k : ℕ} {e : SealedRecord} (h : (sealAll A pts s).1[k]? = some e)
    (f : SealedRecord → Bytes) : ((sealAll A pts s).1.drop k).map f =
      f e :: ((sealAll A pts s).1.drop (k + 1)).map f := by
  obtain ⟨hk, rfl⟩ := List.getElem?_eq_some_iff.mp h
  rw [List.drop_eq_getElem_cons hk, List.map_cons]

/-! ## 4. Every run -/

/-- Whatever records are fed to it, the receiver returns the next plaintexts in order and stays
at the position behind them. -/
theorem prefix_openAll (hideal : A.Ideal s.key (sealAll A pts s).1) (records : List Bytes)
    {r : RecordReceiver} {k : ℕ} (hr : Synced s k r) :
    (openAll A records r).1 <+: ((sealAll A pts s).1.drop k).map (·.plaintext) ∧
      Synced s (k + (openAll A records r).1.length) (openAll A records r).2 := by
  induction records generalizing r k with
  | nil => exact ⟨List.nil_prefix, hr⟩
  | cons record records ih =>
    rw [openAll]
    rcases hcall : (RecordReceiver.open A record).call r with ⟨e | pt, r'⟩
    · obtain rfl := open_eq_error hcall
      exact ih hr
    · obtain ⟨e, hk, -, rfl, -⟩ := (open_iff_next hideal hr).mp hcall
      obtain ⟨hpre, hsynced⟩ := ih (open_synced hideal hr hcall)
      rw [map_drop_eq_cons hk]
      refine ⟨(List.prefix_cons_inj _).mpr hpre, ?_⟩
      rw [List.length_cons, Nat.add_comm _ 1, ← Nat.add_assoc]
      exact hsynced

/-- The same for the loop of `serve_connection`, on any stream of bytes. -/
theorem prefix_serveLoop {σ : Type} (hideal : A.Ideal s.key (sealAll A pts s).1)
    (processEvent : Bytes → Method Exn σ Unit) (sock : Socket) {r : RecordReceiver} (st : σ)
    {k : ℕ} (hr : Synced s k r) :
    (serveLoop A processEvent sock r st).opened <+:
      ((sealAll A pts s).1.drop k).map (·.plaintext) := by
  fun_induction serveLoop A processEvent sock r st generalizing k with
  | case1 => exact List.nil_prefix
  | case2 => exact List.nil_prefix
  | case3 => exact List.nil_prefix
  | case4 sock r st b bs sock' _ pt r' hcall _ ih =>
    obtain ⟨e, hk, -, rfl, -⟩ := (open_iff_next hideal hr).mp hcall
    rw [map_drop_eq_cons hk]
    exact (List.prefix_cons_inj _).mpr (ih (open_synced hideal hr hcall))
  | case5 sock r st b bs sock' _ pt r' hcall =>
    obtain ⟨e, hk, -, rfl, -⟩ := (open_iff_next hideal hr).mp hcall
    rw [map_drop_eq_cons hk]
    exact (List.prefix_cons_inj _).mpr List.nil_prefix
  | case6 sock r st b bs sock' _ pt r' hcall _ st' _ ih =>
    obtain ⟨e, hk, -, rfl, -⟩ := (open_iff_next hideal hr).mp hcall
    rw [map_drop_eq_cons hk]
    exact (List.prefix_cons_inj _).mpr (ih (open_synced hideal hr hcall))

/-- The genuine records, in order, are all opened. -/
theorem openAll_genuine (hideal : A.Ideal s.key (sealAll A pts s).1) {r : RecordReceiver} {k : ℕ}
    (hr : Synced s k r) :
    (openAll A (((sealAll A pts s).1.drop k).map (·.record)) r).1 =
      ((sealAll A pts s).1.drop k).map (·.plaintext) := by
  induction hn : (sealAll A pts s).1.length - k generalizing k r with
  | zero =>
    rw [List.drop_eq_nil_of_le (by omega)]
    rfl
  | succ n ih =>
    obtain ⟨e, hk⟩ : ∃ e, (sealAll A pts s).1[k]? = some e :=
      ⟨_, List.getElem?_eq_getElem (by omega)⟩
    have hcall := (open_iff_next hideal hr).mpr ⟨e, hk, rfl, rfl, rfl⟩
    have hrest := ih (open_synced hideal hr hcall) (by omega)
    rw [map_drop_eq_cons hk, map_drop_eq_cons hk, openAll, hcall]
    exact congrArg (e.plaintext :: ·) hrest

theorem isRecord_of_lengths {n : ℕ} (hn : n ≤ 0xffff - kGcmTagLen) {ct tag : Bytes}
    (hct : ct.length = n) (htag : tag.length = kGcmTagLen) :
    IsRecord (recordHeader n ++ (ct ++ tag)) := by
  refine ⟨UInt16.ofNat (n + kGcmTagLen), ct ++ tag, rfl, ?_⟩
  rw [List.length_append, hct, htag, UInt16.toNat_ofNat_of_lt']
  rw [UInt16.size]
  rw [kGcmTagLen] at hn ⊢
  omega

theorem isRecord_of_genuine {e : SealedRecord} (h : e.Genuine A s) : IsRecord e.record := by
  obtain ⟨-, -, -, hlen, ct, tag, henc, hrecord⟩ := h
  obtain ⟨hct, htag⟩ := A.length_encrypt henc
  rw [hrecord]
  exact isRecord_of_lengths hlen hct htag

theorem serveLoop_of_end {σ : Type} {processEvent : Bytes → Method Exn σ Unit}
    {sock sock' : Socket} (r : RecordReceiver) (st : σ)
    (h : recvRecord.call sock = (.ok [], sock')) :
    serveLoop A processEvent sock r st = ⟨[], .ok (), r⟩ := by
  rw [serveLoop]
  split
  · simp_all
  · rfl
  · simp_all

/-- One turn of the loop that goes on. -/
theorem serveLoop_of_open {σ : Type} {processEvent : Bytes → Method Exn σ Unit}
    (hprocess : ∀ pt st, ∃ st', (processEvent pt).call st = (.ok (), st'))
    {sock sock' : Socket} {r r' : RecordReceiver} (st : σ) {b : UInt8} {bs pt : Bytes}
    (hrecv : recvRecord.call sock = (.ok (b :: bs), sock'))
    (hopen : (RecordReceiver.open A (b :: bs)).call r = (.ok pt, r')) :
    ∃ st', serveLoop A processEvent sock r st =
      (serveLoop A processEvent sock' r' st').opening pt := by
  obtain ⟨st', hst'⟩ := hprocess pt st
  rw [serveLoop]
  split
  · rename_i h
    rw [hrecv] at h
    cases h
  · rename_i h
    rw [hrecv] at h
    cases h
  · rename_i h
    rw [hrecv] at h
    cases h
    simp only [hopen]
    by_cases hshort : pt.length < SecurityEvent.sizeOf
    · exact ⟨st, by rw [if_pos hshort]⟩
    · exact ⟨st', by rw [if_neg hshort, hst']⟩

/-- The genuine records as one stream of bytes, however it is cut, are received and opened by the
loop, which ends with the stream. -/
theorem serveLoop_genuine {σ : Type} (hideal : A.Ideal s.key (sealAll A pts s).1)
    {processEvent : Bytes → Method Exn σ Unit}
    (hprocess : ∀ pt st, ∃ st', (processEvent pt).call st = (.ok (), st'))
    {sock : Socket} {r : RecordReceiver} (st : σ) {k : ℕ} (hr : Synced s k r)
    (hclean : Clean sock.incoming)
    (hbytes : sock.bytes = (((sealAll A pts s).1.drop k).map (·.record)).flatten) :
    (serveLoop A processEvent sock r st).opened =
        ((sealAll A pts s).1.drop k).map (·.plaintext) ∧
      (serveLoop A processEvent sock r st).outcome = .ok () := by
  induction hn : (sealAll A pts s).1.length - k generalizing k r sock st with
  | zero =>
    rw [List.drop_eq_nil_of_le (by omega)] at hbytes ⊢
    obtain ⟨sock', hrecv⟩ := recvRecord_of_clean_nil hclean hbytes
    rw [serveLoop_of_end r st hrecv]
    exact ⟨rfl, rfl⟩
  | succ n ih =>
    obtain ⟨e, hk⟩ : ∃ e, (sealAll A pts s).1[k]? = some e :=
      ⟨_, List.getElem?_eq_getElem (by omega)⟩
    have hcall := (open_iff_next hideal hr).mpr ⟨e, hk, rfl, rfl, rfl⟩
    have hrecord := isRecord_of_genuine ((sealAll_spec A pts s).1 e (List.mem_of_getElem? hk))
    rw [map_drop_eq_cons hk, List.flatten_cons] at hbytes
    obtain ⟨sock', hrecv, hbytes', hclean'⟩ := recvRecord_of_clean hrecord hclean hbytes
    obtain ⟨b, bs, hcons⟩ : ∃ b bs, e.record = b :: bs := by
      obtain ⟨len, payload, hput, -⟩ := hrecord
      exact ⟨_, _, hput⟩
    rw [hcons] at hcall hrecv
    obtain ⟨st', hturn⟩ := serveLoop_of_open hprocess st hrecv hcall
    obtain ⟨hopened, houtcome⟩ :=
      ih st' (open_synced hideal hr hcall) hclean' hbytes' (by omega)
    rw [hturn, map_drop_eq_cons hk, ← hopened]
    exact ⟨rfl, houtcome⟩

/-- Without failures of the cipher, every plaintext within the limits is sealed. -/
theorem sealAll_plaintexts (hcipher : ∀ key nonce aad pt, (A.encrypt key nonce aad pt).isSome)
    (hlen : ∀ pt ∈ pts, pt.length ≤ 0xffff - kGcmTagLen)
    (hroom : s.seq.toNat + pts.length ≤ UINT64_MAX.toNat) :
    (sealAll A pts s).1.map (·.plaintext) = pts := by
  induction pts generalizing s with
  | nil => rfl
  | cons pt pts ih =>
    rw [List.length_cons] at hroom
    have hseq : s.seq ≠ UINT64_MAX := by
      intro h
      rw [h] at hroom
      omega
    obtain ⟨⟨ct, tag⟩, henc⟩ := Option.isSome_iff_exists.mp
      (hcipher s.key (makeNonce s.iv_base s.seq) (recordHeader pt.length) pt)
    have hcall := seal_eq_ok.mpr ⟨hseq, hlen pt List.mem_cons_self, ct, tag, henc, rfl, rfl⟩
    have hrest := ih (s := s.next) (fun pt' h => hlen pt' (List.mem_cons_of_mem _ h))
      (by rw [RecordSender.next, toNat_seq_add_one hseq]; omega)
    rw [sealAll, hcall]
    exact congrArg (pt :: ·) hrest

end

/-! ## 5. The channel as a whole -/

/-- What is opened of a sender's records is a prefix of what it sealed: for any records and for
any stream of bytes.  A failed `open` costs nothing, and the genuine records all open. -/
theorem record_stream_integrity (A : Gcm) (s : RecordSender) (r : RecordReceiver)
    (pts : List Bytes) (hkey : r.key = s.key) (hiv : r.iv_base = s.iv_base) (hseq : r.seq = s.seq)
    (hideal : A.Ideal s.key (sealAll A pts s).1) :
    (∀ records, (openAll A records r).1 <+: (sealAll A pts s).1.map (·.plaintext)) ∧
    (∀ (σ : Type) (processEvent : Bytes → Method Exn σ Unit) (sock : Socket) (st : σ),
      (serveLoop A processEvent sock r st).opened <+:
        (sealAll A pts s).1.map (·.plaintext)) ∧
    (∀ records record e r', (RecordReceiver.open A record).call (openAll A records r).2 =
        (.error e, r') → r'.seq = (openAll A records r).2.seq) ∧
    (∀ records e, (sealAll A pts s).1[(openAll A records r).1.length]? = some e →
      (RecordReceiver.open A e.record).call (openAll A records r).2 =
        (.ok e.plaintext, (openAll A records r).2.next)) ∧
    (openAll A ((sealAll A pts s).1.map (·.record)) r).1 =
      (sealAll A pts s).1.map (·.plaintext) ∧
    (∀ (σ : Type) (processEvent : Bytes → Method Exn σ Unit) (sock : Socket) (st : σ),
      (∀ pt st, ∃ st', (processEvent pt).call st = (.ok (), st')) → Clean sock.incoming →
      sock.bytes = ((sealAll A pts s).1.map (·.record)).flatten →
        (serveLoop A processEvent sock r st).opened = (sealAll A pts s).1.map (·.plaintext) ∧
          (serveLoop A processEvent sock r st).outcome = .ok ()) ∧
    ((∀ key nonce aad pt, (A.encrypt key nonce aad pt).isSome) →
      (∀ pt ∈ pts, pt.length ≤ 65519) → s.seq.toNat + pts.length ≤ UINT64_MAX.toNat →
        (sealAll A pts s).1.map (·.plaintext) = pts) := by
  have hsynced : Synced s 0 r := ⟨hkey, hiv, by rw [hseq, Nat.add_zero]⟩
  refine ⟨?_, ?_, ?_, ?_, ?_, ?_, ?_⟩
  · intro records
    exact (prefix_openAll hideal records hsynced).1
  · intro σ processEvent sock st
    exact prefix_serveLoop hideal processEvent sock st hsynced
  · intro records record e r' h
    rw [open_eq_error h]
  · intro records e he
    have hafter := (prefix_openAll hideal records hsynced).2
    rw [Nat.zero_add] at hafter
    exact (open_iff_next hideal hafter).mpr ⟨e, he, rfl, rfl, rfl⟩
  · exact openAll_genuine hideal hsynced
  · intro σ processEvent sock st hprocess hclean hbytes
    exact serveLoop_genuine hideal hprocess st hsynced hclean hbytes
  · exact sealAll_plaintexts

/-! Two records of the table cipher, of which the second is empty. -/

def twoSealed : List SealedRecord := (sealAll (tableGcm []) [lit "a", []] zeroSender).1

def twoGcm : Gcm :=
  tableGcm (twoSealed.map fun e => (e.nonce, recordHeader e.plaintext.length, e.plaintext))

def zeroReceiver : RecordReceiver where
  key := zeroSender.key
  iv_base := zeroSender.iv_base
  seq := 0
  length_key := zeroSender.length_key
  length_iv := zeroSender.length_iv

/-- The table cipher is ideal for the records in its table. -/
theorem tableGcm_ideal (key : Bytes) (log : List SealedRecord) :
    (tableGcm (log.map fun e => (e.nonce, recordHeader e.plaintext.length, e.plaintext))).Ideal
      key log := by
  intro nonce aad ct tag pt
  simp only [tableGcm, Option.ite_none_right_eq_some, List.mem_map, Prod.mk.injEq,
    Option.some.injEq]
  constructor
  · rintro ⟨⟨⟨e, he, hn, haad, hct⟩, htag⟩, rfl⟩
    exact ⟨e, he, hn, haad, hct, rfl, htag.symm⟩
  · rintro ⟨e, he, hn, haad, hpt, rfl, rfl⟩
    exact ⟨⟨⟨e, he, hn, haad, hpt⟩, rfl⟩, rfl⟩

theorem record_stream_integrity_replayed :
    (openAll twoGcm ((twoSealed ++ twoSealed.reverse).map (·.record)) zeroReceiver).1 <+:
      [lit "a", []] :=
  (record_stream_integrity twoGcm zeroSender zeroReceiver [lit "a", []] rfl rfl rfl
    (tableGcm_ideal _ twoSealed)).1 _

end PqcEdr.Crypto
