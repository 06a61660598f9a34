/-
# Records on a stream socket

`socket.cpp`, the receiving side.  What the kernel does is the list of its answers to successive
`recv` calls: a chunk of any positive length, an interrupted call, a failure; after the last
one, the end of the stream.  A call that asks for less than a chunk leaves the rest of it.
-/
import PqcEdr.Crypto.Exn
import PqcEdr.Lib.BigEndian
import PqcEdr.Lib.Method

namespace PqcEdr.Crypto

open BigEndian

/-! ## 1. `recv` -/

/-- An answer of the kernel; a failure comes with `strerror(errno)`. -/
inductive RecvEvent
  | data (chunk : Bytes) (nonempty : chunk ≠ [])
  | eintr
  | fail (errno : String)

/-- The receiving side of a connection, and the thread's `errno` as text. -/
structure Socket where
  incoming : List RecvEvent
  errno : String

def RecvEvent.bytes : RecvEvent → Bytes
  | .data chunk _ => chunk
  | .eintr => []
  | .fail _ => []

def bytesOf (incoming : List RecvEvent) : Bytes := incoming.flatMap RecvEvent.bytes

/-- The bytes on their way. -/
def Socket.bytes (s : Socket) : Bytes := bytesOf s.incoming

def socketError (what errno : String) : Exn :=
  .SocketError ("socket: " ++ what ++ " (" ++ errno ++ ")")

/-! ## 2. `read_all` and `recv_record` -/

/-- The loop of `read_all`, with `got` read so far; `none` is the clean end before the first byte. -/
def readLoop (n : ℕ) : Bytes → String → List RecvEvent → Result (Option Bytes) × Socket
  | got, errno, [] =>
    if got.length < n then
      if got = [] then (.ok none, ⟨[], errno⟩)
      else (.error (socketError "메시지 중간에 연결 끊김" errno), ⟨[], errno⟩)
    else (.ok (some got), ⟨[], errno⟩)
  | got, errno, event :: rest =>
    if got.length < n then
      match event with
      | .eintr => readLoop n got "Interrupted system call" rest
      | .fail text => (.error (socketError "recv" text), ⟨rest, text⟩)
      | .data chunk _ =>
        if h : n - got.length < chunk.length then
          (.ok (some (got ++ chunk.take (n - got.length))),
            ⟨.data (chunk.drop (n - got.length))
              (List.ne_nil_of_length_pos (by rw [List.length_drop]; omega)) :: rest, errno⟩)
        else readLoop n (got ++ chunk) errno rest
    else (.ok (some got), ⟨event :: rest, errno⟩)

/-- Read exactly `n` bytes. -/
def readAll (n : ℕ) : Method Exn Socket (Option Bytes) :=
  ExceptT.mk fun s => readLoop n [] s.errno s.incoming

def recvRecord : Method Exn Socket Bytes := do
  match ← readAll 2 with
  | none => return []
  | some header =>
    let len := get16 (header.getD 0 0) (header.getD 1 0)
    if len > 0 then
      match ← readAll len.toNat with
      | none => throw (.SocketError "socket: 레코드 수신 중 연결 종료")
      | some payload => return header ++ payload
    else return header

/-! ## 3. What was read -/

theorem bytesOf_cons (event : RecvEvent) (rest : List RecvEvent) :
    bytesOf (event :: rest) = event.bytes ++ bytesOf rest := rfl

/-- The loop ends when the buffer is full. -/
theorem readLoop_full {n : ℕ} {got : Bytes} (h : n ≤ got.length) (errno : String)
    (incoming : List RecvEvent) :
    readLoop n got errno incoming = (.ok (some got), ⟨incoming, errno⟩) := by
  cases incoming with
  | nil => rw [readLoop, if_neg (Nat.not_lt.mpr h)]
  | cons event rest => cases event <;> rw [readLoop, if_neg (Nat.not_lt.mpr h)]

/-- One more chunk. -/
theorem readLoop_data {n : ℕ} {got chunk : Bytes} (h : got.length < n) (hne : chunk ≠ [])
    (errno : String) (rest : List RecvEvent) :
    (∃ hmore : chunk.drop (n - got.length) ≠ [],
      readLoop n got errno (.data chunk hne :: rest) =
        (.ok (some (got ++ chunk.take (n - got.length))),
          ⟨.data (chunk.drop (n - got.length)) hmore :: rest, errno⟩)) ∨
    chunk.length ≤ n - got.length ∧
      readLoop n got errno (.data chunk hne :: rest) = readLoop n (got ++ chunk) errno rest := by
  rw [readLoop, if_pos h]
  by_cases hmore : n - got.length < chunk.length
  · rw [dif_pos hmore]
    exact Or.inl ⟨List.ne_nil_of_length_pos (by rw [List.length_drop]; omega), rfl⟩
  · rw [dif_neg hmore]
    exact Or.inr ⟨Nat.not_lt.mp hmore, rfl⟩

/-- What is read is taken off the front of the stream. -/
theorem readLoop_eq_some {n : ℕ} {incoming : List RecvEvent} {got out : Bytes} {errno : String}
    {s' : Socket} (hgot : got.length ≤ n)
    (h : readLoop n got errno incoming = (.ok (some out), s')) :
    out.length = n ∧ ∃ new, out = got ++ new ∧ bytesOf incoming = new ++ s'.bytes := by
  induction incoming generalizing got errno with
  | nil =>
    rw [readLoop] at h
    split at h
    · split at h <;> simp at h
    · simp only [Prod.mk.injEq, Except.ok.injEq, Option.some.injEq] at h
      obtain ⟨rfl, rfl⟩ := h
      exact ⟨by omega, [], by simp, rfl⟩
  | cons event rest ih =>
    rcases Nat.lt_or_ge got.length n with hlt | hfull
    · cases event with
      | eintr =>
        rw [readLoop, if_pos hlt] at h
        exact ih hgot h
      | fail text =>
        rw [readLoop, if_pos hlt] at h
        simp at h
      | data chunk hne =>
        rw [bytesOf_cons]
        rcases readLoop_data hlt hne errno rest with ⟨hmore, heq⟩ | ⟨hlen, heq⟩
        · rw [heq] at h
          simp only [Prod.mk.injEq, Except.ok.injEq, Option.some.injEq] at h
          obtain ⟨rfl, rfl⟩ := h
          have hpos := List.length_pos_of_ne_nil hmore
          rw [List.length_drop] at hpos
          refine ⟨?_, _, rfl, ?_⟩
          · rw [List.length_append, List.length_take]
            omega
          · rw [Socket.bytes, bytesOf_cons, ← List.append_assoc]
            exact congrArg (· ++ _) (List.take_append_drop _ chunk).symm
        · rw [heq] at h
          obtain ⟨hlen', new, rfl, hbytes⟩ := ih (by rw [List.length_append]; omega) h
          refine ⟨hlen', chunk ++ new, List.append_assoc _ _ _, ?_⟩
          rw [List.append_assoc, ← hbytes]
          rfl
    · rw [readLoop_full hfull] at h
      simp only [Prod.mk.injEq, Except.ok.injEq, Option.some.injEq] at h
      obtain ⟨rfl, rfl⟩ := h
      exact ⟨by omega, [], by simp, rfl⟩

theorem readAll_eq_some {n : ℕ} {out : Bytes} {s s' : Socket}
    (h : (readAll n).call s = (.ok (some out), s')) :
    out.length = n ∧ s.bytes = out ++ s'.bytes := by
  have hgot : ([] : Bytes).length ≤ n := Nat.zero_le n
  obtain ⟨hlen, new, rfl, hbytes⟩ := readLoop_eq_some hgot h
  exact ⟨hlen, hbytes⟩

/-- A length header and as many bytes. -/
def IsRecord (record : Bytes) : Prop :=
  ∃ (len : UInt16) (payload : Bytes), record = put16 len ++ payload ∧ payload.length = len.toNat

theorem put16_getD {header : Bytes} (h : header.length = 2) :
    put16 (get16 (header.getD 0 0) (header.getD 1 0)) = header := by
  match header, h with
  | [hi, lo], _ => exact put16_get16 hi lo

/-- What `recv_record` returns is a record off the front of the stream, or nothing. -/
theorem recvRecord_eq_ok {record : Bytes} {s s' : Socket}
    (h : recvRecord.call s = (.ok record, s')) (hne : record ≠ []) :
    IsRecord record ∧ s.bytes = record ++ s'.bytes := by
  rw [recvRecord, Method.call_bind] at h
  rcases hread : (readAll 2).call s with ⟨_ | _ | header, s₁⟩ <;> rw [hread] at h
  · simp at h
  · simp only [Method.call_pure, Prod.mk.injEq, Except.ok.injEq] at h
    exact absurd h.1.symm hne
  obtain ⟨hlen, hbytes⟩ := readAll_eq_some hread
  have hheader := put16_getD hlen
  simp only [Method.call_ite, Method.call_bind, Method.call_pure] at h
  generalize get16 (header.getD 0 0) (header.getD 1 0) = len at h hheader
  split at h
  · rcases hpayload : (readAll len.toNat).call s₁ with ⟨_ | _ | payload, s₂⟩ <;>
      rw [hpayload] at h
    · simp at h
    · simp at h
    · simp only [Method.call_pure, Prod.mk.injEq, Except.ok.injEq] at h
      obtain ⟨rfl, rfl⟩ := h
      obtain ⟨hlen', hbytes'⟩ := readAll_eq_some hpayload
      refine ⟨⟨len, payload, by rw [hheader], hlen'⟩, ?_⟩
      rw [hbytes, hbytes', List.append_assoc]
  · rename_i hzero
    simp only [Prod.mk.injEq, Except.ok.injEq] at h
    obtain ⟨rfl, rfl⟩ := h
    have hlen0 : len.toNat = 0 := by
      have := UInt16.lt_iff_toNat_lt.not.mp hzero
      simpa using this
    exact ⟨⟨len, [], by rw [hheader, List.append_nil], hlen0.symm⟩, hbytes⟩

/-- Every record takes bytes off the stream. -/
theorem recvRecord_lt {b : UInt8} {bs : Bytes} {s s' : Socket}
    (h : recvRecord.call s = (.ok (b :: bs), s')) : s'.bytes.length < s.bytes.length := by
  obtain ⟨-, hbytes⟩ := recvRecord_eq_ok h (List.cons_ne_nil b bs)
  rw [hbytes, List.length_append, List.length_cons]
  omega

/-! ## 4. A stream without failures -/

/-- Interrupted calls aside, every `recv` gives data. -/
def Clean (incoming : List RecvEvent) : Prop := ∀ text, .fail text ∉ incoming

theorem Clean.tail {event : RecvEvent} {rest : List RecvEvent} (h : Clean (event :: rest)) :
    Clean rest := by
  intro text hmem
  exact h text (List.mem_cons_of_mem _ hmem)

/-- However the bytes are cut into chunks, the ones asked for are read. -/
theorem readLoop_of_clean {n : ℕ} {incoming : List RecvEvent} {got new tail : Bytes}
    {errno : String} (hclean : Clean incoming) (hlen : got.length + new.length = n)
    (hbytes : bytesOf incoming = new ++ tail) :
    ∃ s', readLoop n got errno incoming = (.ok (some (got ++ new)), s') ∧
      s'.bytes = tail ∧ Clean s'.incoming := by
  induction incoming generalizing got new errno with
  | nil =>
    obtain ⟨rfl, rfl⟩ := List.append_eq_nil_iff.mp hbytes.symm
    rw [List.append_nil]
    exact ⟨_, readLoop_full (by simp at hlen; omega) _ _, rfl, hclean⟩
  | cons event rest ih =>
    rcases Nat.lt_or_ge got.length n with hlt | hfull
    · cases event with
      | eintr =>
        rw [readLoop, if_pos hlt]
        exact ih hclean.tail hlen hbytes
      | fail text => exact absurd List.mem_cons_self (hclean text)
      | data chunk hne =>
        rw [bytesOf_cons, RecvEvent.bytes] at hbytes
        have hn : n - got.length = new.length := by omega
        rcases readLoop_data hlt hne errno rest with ⟨hmore, heq⟩ | ⟨hle, heq⟩
        · -- the chunk holds the whole of `new` and more
          have hpos := List.length_pos_of_ne_nil hmore
          rw [List.length_drop, hn] at hpos
          have hnew : chunk.take (n - got.length) = new := by
            have htake := congrArg (List.take new.length) hbytes
            rwa [List.take_left, List.take_append_of_le_length (by omega), ← hn] at htake
          have htail : chunk.drop (n - got.length) ++ bytesOf rest = tail := by
            have hdrop := congrArg (List.drop new.length) hbytes
            rwa [List.drop_left, List.drop_append_of_le_length (by omega), ← hn] at hdrop
          refine ⟨⟨.data _ hmore :: rest, errno⟩, by rw [heq, hnew], htail, ?_⟩
          intro text hmem
          rcases List.mem_cons.mp hmem with hhead | hmem
          · cases hhead
          · exact hclean.tail text hmem
        · -- the chunk is a first part of `new`
          obtain ⟨new', rfl⟩ : chunk <+: new :=
            List.prefix_of_prefix_length_le (hbytes ▸ List.prefix_append _ _)
              (List.prefix_append _ _) (by omega)
          rw [List.append_assoc, List.append_cancel_left_eq] at hbytes
          rw [List.length_append] at hlen
          rw [heq, ← List.append_assoc]
          exact ih hclean.tail (by rw [List.length_append]; omega) hbytes
    · obtain rfl : new = [] := List.eq_nil_of_length_eq_zero (by omega)
      rw [readLoop_full hfull, List.append_nil]
      exact ⟨_, rfl, hbytes, hclean⟩

theorem readLoop_of_clean_nil {n : ℕ} (hn : 0 < n) {incoming : List RecvEvent} {errno : String}
    (hclean : Clean incoming) (hbytes : bytesOf incoming = []) :
    ∃ s', readLoop n [] errno incoming = (.ok none, s') := by
  induction incoming generalizing errno with
  | nil => exact ⟨⟨[], errno⟩, by rw [readLoop, if_pos (by simpa using hn), if_pos rfl]⟩
  | cons event rest ih =>
    rw [bytesOf_cons, List.append_eq_nil_iff] at hbytes
    cases event with
    | eintr =>
      rw [readLoop, if_pos (by simpa using hn)]
      exact ih hclean.tail hbytes.2
    | fail text => exact absurd List.mem_cons_self (hclean text)
    | data chunk hne => exact absurd hbytes.1 hne

theorem readAll_of_clean {new tail : Bytes} {s : Socket} (hclean : Clean s.incoming)
    (hbytes : s.bytes = new ++ tail) :
    ∃ s', (readAll new.length).call s = (.ok (some new), s') ∧ s'.bytes = tail ∧
      Clean s'.incoming := by
  have hlen : ([] : Bytes).length + new.length = new.length := Nat.zero_add _
  exact readLoop_of_clean hclean hlen hbytes

/-- A stream that ends before the buffer is full, but not before its first byte. -/
theorem readLoop_of_short {n : ℕ} {incoming : List RecvEvent} {got : Bytes} {errno : String}
    (hclean : Clean incoming) (hlen : got.length + (bytesOf incoming).length < n)
    (hsome : got ++ bytesOf incoming ≠ []) :
    ∃ text s', readLoop n got errno incoming =
      (.error (socketError "메시지 중간에 연결 끊김" text), s') := by
  induction incoming generalizing got errno with
  | nil =>
    have hgot : got ≠ [] := by simpa [bytesOf] using hsome
    exact ⟨errno, ⟨[], errno⟩, by rw [readLoop, if_pos (by omega), if_neg hgot]⟩
  | cons event rest ih =>
    have hlt : got.length < n := by omega
    cases event with
    | eintr =>
      rw [readLoop, if_pos hlt]
      exact ih hclean.tail hlen hsome
    | fail text => exact absurd List.mem_cons_self (hclean text)
    | data chunk hne =>
      rw [bytesOf_cons, RecvEvent.bytes, List.length_append] at hlen
      rcases readLoop_data hlt hne errno rest with ⟨hmore, -⟩ | ⟨-, heq⟩
      · have hpos := List.length_pos_of_ne_nil hmore
        rw [List.length_drop] at hpos
        omega
      · rw [heq]
        exact ih hclean.tail (by rw [List.length_append]; omega) (by simp [hne])

theorem readAll_of_nil {n : ℕ} (hn : 0 < n) {s : Socket} (hclean : Clean s.incoming)
    (hbytes : s.bytes = []) : ∃ s', (readAll n).call s = (.ok none, s') :=
  readLoop_of_clean_nil hn hclean hbytes

theorem readAll_of_short {n : ℕ} {s : Socket} (hclean : Clean s.incoming)
    (hlen : s.bytes.length < n) (hne : s.bytes ≠ []) :
    ∃ text s', (readAll n).call s =
      (.error (socketError "메시지 중간에 연결 끊김" text), s') := by
  have hlt : ([] : Bytes).length + (bytesOf s.incoming).length < n := by
    rw [List.length_nil, Nat.zero_add]
    exact hlen
  exact readLoop_of_short hclean hlt hne

/-! ## 5. Messages with their length in a header -/

/-- The length that a header of a message announces, in its bytes `i` and `i + 1`. -/
def lengthAt (i : ℕ) (header : Bytes) : UInt16 := get16 (header.getD i 0) (header.getD (i + 1) 0)

/-- The shape of `recv_frame` and `recv_record`: a header of `n` bytes, and the payload that it
announces.  They differ in what they do at the end of the stream. -/
def recvPrefixed (n i : ℕ) (atEnd : Method Exn Socket Bytes) (cut : String) :
    Method Exn Socket Bytes := do
  match ← readAll n with
  | none => atEnd
  | some header =>
    let len := lengthAt i header
    if len > 0 then
      match ← readAll len.toNat with
      | none => throw (.SocketError cut)
      | some payload => return header ++ payload
    else return header

theorem recvRecord_eq_recvPrefixed :
    recvRecord = recvPrefixed 2 0 (return []) "socket: 레코드 수신 중 연결 종료" := rfl

/-- A header of `n` bytes and as many bytes as it announces. -/
def IsPrefixed (n i : ℕ) (message : Bytes) : Prop :=
  ∃ header payload, message = header ++ payload ∧ header.length = n ∧
    payload.length = (lengthAt i header).toNat

theorem IsRecord.isPrefixed {record : Bytes} (h : IsRecord record) : IsPrefixed 2 0 record := by
  obtain ⟨len, payload, rfl, hlen⟩ := h
  refine ⟨put16 len, payload, rfl, rfl, ?_⟩
  rw [hlen]
  exact congrArg UInt16.toNat (get16_put16 len).symm

theorem toNat_eq_zero_of_not_pos {len : UInt16} (h : ¬ len > 0) : len.toNat = 0 := by
  have hzero := UInt16.lt_iff_toNat_lt.not.mp h
  simpa using hzero

section

variable {n i : ℕ} {atEnd : Method Exn Socket Bytes} {cut : String} {s : Socket}

/-- What the call does once the header is there. -/
theorem recvPrefixed_of_header {header : Bytes} {s₁ : Socket}
    (hread : (readAll n).call s = (.ok (some header), s₁)) :
    (recvPrefixed n i atEnd cut).call s =
      if lengthAt i header > 0 then
        match (readAll (lengthAt i header).toNat).call s₁ with
        | (.ok none, s₂) => (.error (.SocketError cut), s₂)
        | (.ok (some payload), s₂) => (.ok (header ++ payload), s₂)
        | (.error e, s₂) => (.error e, s₂)
      else (.ok header, s₁) := by
  rw [recvPrefixed, Method.call_bind, hread]
  simp only [Method.call_ite, Method.call_bind, Method.call_pure]
  rcases (readAll (lengthAt i header).toNat).call s₁ with ⟨_ | _ | payload, s₂⟩ <;> rfl

/-- A message at the front of a stream is received whole, and no byte after it. -/
theorem recvPrefixed_of_clean {message tail : Bytes} (h : IsPrefixed n i message)
    (hclean : Clean s.incoming) (hbytes : s.bytes = message ++ tail) :
    ∃ s', (recvPrefixed n i atEnd cut).call s = (.ok message, s') ∧ s'.bytes = tail ∧
      Clean s'.incoming := by
  obtain ⟨header, payload, rfl, rfl, hlen⟩ := h
  obtain ⟨s₁, hread, hbytes₁, hclean₁⟩ :=
    readAll_of_clean hclean (hbytes.trans (List.append_assoc _ _ _))
  rw [recvPrefixed_of_header hread]
  by_cases hpos : lengthAt i header > 0
  · obtain ⟨s₂, hread₂, hbytes₂, hclean₂⟩ := readAll_of_clean hclean₁ hbytes₁
    rw [if_pos hpos, ← hlen, hread₂]
    exact ⟨s₂, rfl, hbytes₂, hclean₂⟩
  · obtain rfl : payload = [] :=
      List.eq_nil_of_length_eq_zero (hlen.trans (toNat_eq_zero_of_not_pos hpos))
    rw [if_neg hpos, List.append_nil]
    exact ⟨s₁, rfl, hbytes₁, hclean₁⟩

/-- At the end of the stream, the message's own case applies. -/
theorem recvPrefixed_of_end (hn : 0 < n) (hclean : Clean s.incoming) (hbytes : s.bytes = []) :
    ∃ s', (recvPrefixed n i atEnd cut).call s = atEnd.call s' := by
  obtain ⟨s', hread⟩ := readAll_of_nil hn hclean hbytes
  exact ⟨s', by rw [recvPrefixed, Method.call_bind, hread]⟩

/-- A stream that ends inside a message makes the call throw. -/
theorem recvPrefixed_of_cut {message : Bytes} (h : IsPrefixed n i message)
    (hclean : Clean s.incoming) (hcut : s.bytes <+: message) (hshort : s.bytes ≠ message)
    (hne : s.bytes ≠ []) :
    ∃ what s', (recvPrefixed n i atEnd cut).call s = (.error (.SocketError what), s') := by
  obtain ⟨header, payload, rfl, rfl, hlen⟩ := h
  rcases Nat.lt_or_ge s.bytes.length header.length with hlt | hge
  · -- the header is cut
    obtain ⟨text, s', hread⟩ := readAll_of_short hclean hlt hne
    exact ⟨_, s', by rw [recvPrefixed, Method.call_bind, hread]; rfl⟩
  · obtain ⟨got, hgot⟩ : header <+: s.bytes :=
      List.prefix_of_prefix_length_le (List.prefix_append _ _) hcut hge
    have hpre : got <+: payload := by
      rwa [← hgot, List.prefix_append_right_inj] at hcut
    have hlt : got.length < payload.length := by
      refine Nat.lt_of_le_of_ne hpre.length_le ?_
      intro heq
      exact hshort (by rw [← hgot, hpre.eq_of_length heq])
    obtain ⟨s₁, hread, hbytes₁, hclean₁⟩ := readAll_of_clean hclean hgot.symm
    have hpos : lengthAt i header > 0 := by
      refine Decidable.by_contra fun hzero => ?_
      rw [hlen, toNat_eq_zero_of_not_pos hzero] at hlt
      exact Nat.not_lt_zero _ hlt
    rw [recvPrefixed_of_header hread, if_pos hpos, ← hlen]
    by_cases hnil : got = []
    · -- the stream ends between header and payload
      obtain ⟨s', hread'⟩ :=
        readAll_of_nil (Nat.zero_lt_of_lt hlt) hclean₁ (hbytes₁.trans hnil)
      exact ⟨cut, s', by rw [hread']⟩
    · obtain ⟨text, s', hread'⟩ :=
        readAll_of_short hclean₁ (hbytes₁.symm ▸ hlt) (hbytes₁.symm ▸ hnil)
      exact ⟨_, s', by rw [hread']; rfl⟩

end

/-- A record at the front of a stream is received whole, and no byte after it. -/
theorem recvRecord_of_clean {record tail : Bytes} {s : Socket} (hrecord : IsRecord record)
    (hclean : Clean s.incoming) (hbytes : s.bytes = record ++ tail) :
    ∃ s', recvRecord.call s = (.ok record, s') ∧ s'.bytes = tail ∧ Clean s'.incoming := by
  rw [recvRecord_eq_recvPrefixed]
  exact recvPrefixed_of_clean hrecord.isPrefixed hclean hbytes

theorem recvRecord_of_clean_nil {s : Socket} (hclean : Clean s.incoming) (hbytes : s.bytes = []) :
    ∃ s', recvRecord.call s = (.ok [], s') := by
  obtain ⟨s', hcall⟩ := recvPrefixed_of_end Nat.two_pos hclean hbytes
  exact ⟨s', by rw [recvRecord_eq_recvPrefixed, hcall]; rfl⟩

end PqcEdr.Crypto
