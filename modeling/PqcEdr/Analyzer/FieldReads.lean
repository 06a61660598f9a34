/-
# Reading the fields of an event

`serve_connection` checks the length of a payload and nothing else, so a field of the event may
come without a NUL.  Here the strings of `classify_event` are read byte by byte out of their own
field: `printable`, `strnlen` and `strncmp` bring a bound along, `std::string(p)`, `strrchr` and
`%s` rely on the NUL.  What is read inside the fields is what the pipeline's model reads, and a
call stays inside exactly when each of the unbounded reads that it comes to finds its NUL.
-/
import PqcEdr.Analyzer.LogLines
import PqcEdr.Analyzer.Sweep
import PqcEdr.Lib.BoundedRead

namespace PqcEdr.Analyzer

open BoundedRead

/-! ## 1. The payload -/

/-- What `serve_connection` lets through: the length is all that is checked. -/
abbrev Payload := { pt : Bytes // SecurityEvent.sizeOf ≤ pt.length }

/-- Some bytes of a payload. -/
def Payload.slice (pt : Payload) (off len : ℕ) : Bytes := (pt.1.drop off).take len

/-- `reinterpret_cast<const security_event *>(pt.data())`. -/
def Payload.event (pt : Payload) : SecurityEvent where
  type := UInt32.ofNat (ofLe (pt.slice 0 4))
  pid := UInt32.ofNat (ofLe (pt.slice 4 4))
  ppid := UInt32.ofNat (ofLe (pt.slice 8 4))
  pad := UInt32.ofNat (ofLe (pt.slice 12 4))
  ts_ns := UInt64.ofNat (ofLe (pt.slice 16 8))
  comm := CharArray.ofBytes _ (pt.slice 24 16)
  anc := Vector.ofFn fun i =>
    { pid := UInt32.ofNat (ofLe (pt.slice (40 + 20 * i) 4))
      comm := CharArray.ofBytes _ (pt.slice (44 + 20 * i) 16) }
  u := CharArray.ofBytes _ (pt.slice 120 152)

/-- What the agent seals for an event. -/
def Payload.ofEvent (ev : SecurityEvent) : Payload :=
  ⟨ev.toBytes, (SecurityEvent.length_toBytes ev).ge⟩

/-- Reading on from an offset. -/
theorem slice_next {pt : Payload} {off len : ℕ} {a b : Bytes} (h : pt.1.drop off = a ++ b)
    (hlen : a.length = len) : pt.slice off len = a ∧ pt.1.drop (off + len) = b := by
  unfold Payload.slice
  rw [← List.drop_drop, h]
  exact ⟨List.take_left' hlen, List.drop_left' hlen⟩

theorem ofLe_uint32 (x : UInt32) : UInt32.ofNat (ofLe (toLe 4 x.toNat)) = x := by
  rw [ofLe_toLe x.toNat_lt, UInt32.ofNat_toNat]

theorem ofBytes_toList {n : ℕ} (a : CharArray n) : CharArray.ofBytes n a.toList = a :=
  Vector.toList_inj.mp (CharArray.toList_ofBytes a.length_toList)

/-- One generation in the bytes of all. -/
theorem ancestors_split (l : List Ancestor) {i : ℕ} (hi : i < l.length) :
    ∃ pre post, (l.map fun a => toLe 4 a.pid.toNat ++ a.comm.toList).flatten =
        pre ++ (toLe 4 l[i].pid.toNat ++ (l[i].comm.toList ++ post)) ∧ pre.length = 20 * i := by
  have hsplit : l = l.take i ++ l[i] :: l.drop (i + 1) := by
    rw [← List.drop_eq_getElem_cons hi, List.take_append_drop]
  refine ⟨((l.take i).map fun a => toLe 4 a.pid.toNat ++ a.comm.toList).flatten,
    ((l.drop (i + 1)).map fun a => toLe 4 a.pid.toNat ++ a.comm.toList).flatten, ?_, ?_⟩
  · conv_lhs => rw [hsplit]
    simp only [List.map_append, List.map_cons, List.flatten_append, List.flatten_cons,
      List.append_assoc]
  · rw [SecurityEvent.length_ancestors, List.length_take_of_le (Nat.le_of_lt hi)]

/-- The two fields of a generation. -/
theorem slice_ancestor {pt : Payload} {l : List Ancestor} {tail : Bytes}
    (h : pt.1.drop 40 = (l.map fun a => toLe 4 a.pid.toNat ++ a.comm.toList).flatten ++ tail)
    {i : ℕ} (hi : i < l.length) :
    pt.slice (40 + 20 * i) 4 = toLe 4 l[i].pid.toNat ∧
      pt.slice (44 + 20 * i) 16 = l[i].comm.toList := by
  obtain ⟨pre, post, hsplit, hpre⟩ := ancestors_split l hi
  rw [hsplit] at h
  simp only [List.append_assoc] at h
  obtain ⟨-, h₁⟩ := slice_next h hpre
  obtain ⟨hpid, h₂⟩ := slice_next h₁ (length_toLe 4 _)
  obtain ⟨hname, -⟩ := slice_next h₂ l[i].comm.length_toList
  have hoff : 40 + 20 * i + 4 = 44 + 20 * i := by omega
  exact ⟨hpid, hoff ▸ hname⟩

/-- The cast gives back the event that was sealed. -/
theorem event_ofEvent (ev : SecurityEvent) : (Payload.ofEvent ev).event = ev := by
  have hpt : (Payload.ofEvent ev).1.drop 0 = ev.toBytes := rfl
  unfold SecurityEvent.toBytes at hpt
  simp only [List.append_assoc] at hpt
  obtain ⟨htype, h₁⟩ := slice_next hpt (length_toLe 4 _)
  obtain ⟨hpid, h₂⟩ := slice_next h₁ (length_toLe 4 _)
  obtain ⟨hppid, h₃⟩ := slice_next h₂ (length_toLe 4 _)
  obtain ⟨hpad, h₄⟩ := slice_next h₃ (length_toLe 4 _)
  obtain ⟨hts, h₅⟩ := slice_next h₄ (length_toLe 8 _)
  obtain ⟨hcomm, h₆⟩ := slice_next h₅ ev.comm.length_toList
  have hanc : ∀ i : Fin 4,
      (Payload.ofEvent ev).slice (40 + 20 * i) 4 = toLe 4 ev.anc[i].pid.toNat ∧
        (Payload.ofEvent ev).slice (44 + 20 * i) 16 = ev.anc[i].comm.toList := by
    intro i
    have hi : i < ev.anc.toList.length := by rw [ev.anc.length_toList]; exact i.isLt
    exact slice_ancestor h₆ hi
  obtain ⟨-, h₇⟩ := slice_next h₆
    ((SecurityEvent.length_ancestors _).trans (congrArg _ ev.anc.length_toList))
  have hu : (Payload.ofEvent ev).slice 120 152 = ev.u.toList :=
    (slice_next (h₇.trans (List.append_nil _).symm) ev.u.length_toList).1
  have hgenerations : (Payload.ofEvent ev).event.anc = ev.anc := by
    refine Vector.ext fun i hi => ?_
    obtain ⟨hpid, hname⟩ := hanc ⟨i, hi⟩
    unfold Payload.event
    rw [Vector.getElem_ofFn, hpid, hname, ofLe_uint32, ofBytes_toList]
    rfl
  have hstamp : UInt64.ofNat (ofLe (toLe 8 ev.ts_ns.toNat)) = ev.ts_ns := by
    rw [ofLe_toLe ev.ts_ns.toNat_lt, UInt64.ofNat_toNat]
  obtain ⟨type, pid, ppid, pad, ts_ns, comm, anc, u⟩ := ev
  unfold Payload.event at hgenerations ⊢
  simp only [SecurityEvent.mk.injEq]
  refine ⟨?_, ?_, ?_, ?_, ?_, ?_, hgenerations, ?_⟩
  · exact (congrArg _ (congrArg _ htype)).trans (ofLe_uint32 type)
  · exact (congrArg _ (congrArg _ hpid)).trans (ofLe_uint32 pid)
  · exact (congrArg _ (congrArg _ hppid)).trans (ofLe_uint32 ppid)
  · exact (congrArg _ (congrArg _ hpad)).trans (ofLe_uint32 pad)
  · exact (congrArg _ (congrArg _ hts)).trans hstamp
  · exact (congrArg _ hcomm).trans (ofBytes_toList comm)
  · exact (congrArg _ hu).trans (ofBytes_toList u)

/-! ## 2. The fields -/

/-- The character arrays of an event. -/
inductive Field where
  | comm
  | ancestor (i : Fin PQSEC_ANCESTORS)
  | filename
  | path
  deriving DecidableEq, Repr

/-- A computation over the fields; the error is the field that a read has left. -/
abbrev Reads (α : Type) := Except Field α

section

variable (ev : SecurityEvent)

def Field.bytes : Field → Bytes
  | .comm => ev.comm.toList
  | .ancestor i => ev.anc[i].comm.toList
  | .filename => ev.u.toList.take PQSEC_FILENAME_LEN
  | .path => ev.u.toList.take PQSEC_FILENAME_LEN

/-- The field as an unbounded C string. -/
def readStr (f : Field) : Reads Bytes := scan 0 f (f.bytes ev)

/-- The field under a bound. -/
def readStrN (f : Field) (n : ℕ) : Reads Bytes := scanN 0 f n (f.bytes ev)

def readFirst (f : Field) : Reads UInt8 := first f (f.bytes ev)

def readPrefix (f : Field) (p : String) : Reads Bool := hasPrefix f (lit p) (f.bytes ev)

/-! ## 3. `prefilter.cpp` over the fields -/

/-- `basename_of`: `strrchr`, then the string behind the last slash or the whole one. -/
def basenameOfReads (f : Field) : Reads Bytes := do
  let path ← readStr ev f
  scan 0 f ((f.bytes ev).drop (path.length - (basenameOf path).length))

def printableReads (f : Field) (maxLen : ℕ) : Reads Bytes :=
  (·.map fun c => if isControl c then 63 else c) <$> readStrN ev f maxLen

def prefilterExecveReads : Reads PrefilterResult := do
  let bin ← basenameOfReads ev .filename
  let path ← readStr ev .filename
  pure
    (if inTempDir path then ⟨.Alert, .High, lit "임시 디렉토리에서 실행"⟩
    else if bin ∈ kMaliciousBins then ⟨.Alert, .High, lit "리버스셸/네트워크 툴 실행: " ++ bin⟩
    else if bin ∈ kBenignBins then ⟨.Drop, .Info, lit "화이트리스트 도구: " ++ bin⟩
    else ⟨.Escalate, .Info, lit "미분류 실행: " ++ bin⟩)

def prefilterFileReads : Reads PrefilterResult :=
  if ev.fileAccess &&& PQSEC_FA_SENSITIVE ≠ 0 then do
    let path0 ← readFirst ev .path
    if path0 ≠ 0 then do
      let what ← readStr ev .path
      pure ⟨.Alert, .High, lit "민감파일 접근: " ++ what⟩
    else pure ⟨.Alert, .High, lit "민감파일 접근: " ++ (lit "ino=" ++ decimal ev.fileIno.toNat)⟩
  else pure ⟨.Drop, .Info, lit "스테이징 쓰기 (코릴레이션 맥락)"⟩

def prefilterReads : Reads PrefilterResult :=
  if ev.type = PQSEC_EVT_EXECVE then prefilterExecveReads ev
  else if ev.type = PQSEC_EVT_TCP_CONNECT then pure (prefilterTcp ev)
  else if ev.type = PQSEC_EVT_FILE_OPEN then prefilterFileReads ev
  else pure ⟨.Escalate, .Info, lit "알 수 없는 이벤트 타입"⟩

/-- The loop of `process_tree`. -/
def ancestorTreeReads : List (Fin PQSEC_ANCESTORS) → Reads Bytes
  | [] => pure []
  | i :: is =>
    if isAbsent ev.anc[i] then pure []
    else do
      let ac ← readStrN ev (.ancestor i) PQSEC_COMM_LEN
      let tree ← ancestorTreeReads is
      pure (lit "<-" ++ nameOr ac ++ tree)

def processTreeReads : Reads Bytes := do
  let comm ← readStrN ev .comm PQSEC_COMM_LEN
  let tree ← ancestorTreeReads ev (List.finRange PQSEC_ANCESTORS)
  pure (nameOr comm ++ tree)

/-- The path of a FILE_OPEN, or its inode. -/
def pathTextReads : Reads Bytes := do
  let path0 ← readFirst ev .path
  if path0 ≠ 0 then printableReads ev .path PQSEC_FILENAME_LEN
  else pure (lit "ino=" ++ decimal ev.fileIno.toNat)

/-- The last two kinds of text hold no string. -/
def summaryTextReads : Reads Bytes := do
  let comm ← printableReads ev .comm PQSEC_COMM_LEN
  if ev.type = PQSEC_EVT_EXECVE then do
    let file ← printableReads ev .filename PQSEC_FILENAME_LEN
    pure (snprintf 256 [lit "execve comm=", comm, lit " file=", file])
  else if ev.type = PQSEC_EVT_TCP_CONNECT then
    pure (snprintf 256 [lit "connect comm=", comm, lit " dst=", inetNtop ev.tcpDaddr, lit ":",
      decimal ev.tcpDport.toNat])
  else if ev.type = PQSEC_EVT_FILE_OPEN then do
    let path ← pathTextReads ev
    let kind :=
      if ev.fileAccess &&& PQSEC_FA_SENSITIVE ≠ 0 then lit "read-sensitive" else lit "write"
    pure (snprintf 256 [lit "fileopen comm=", comm, lit " ", kind, lit " ", path])
  else pure (summaryText ev)

theorem ancestors_pos : 0 < PQSEC_ANCESTORS := by decide

def eventSummaryReads : Reads Bytes := do
  let out ← summaryTextReads ev
  if isAbsent (ev.anc.get ⟨0, ancestors_pos⟩) then pure out
  else do
    let tree ← processTreeReads ev
    pure (out ++ lit " tree=[" ++ tree ++ lit "]")

/-! ## 4. `correlator.cpp` over the fields -/

/-- `is_temp_path`. -/
def isTempPathReads (f : Field) : Reads Bool := do
  let tmp ← readPrefix ev f "/tmp/"
  if tmp then pure true
  else do
    let shm ← readPrefix ev f "/dev/shm/"
    if shm then pure true else readPrefix ev f "/var/tmp/"

variable (c : Correlator)

def observeFileReads : Reads (CorrelationHit × Correlator) :=
  if ev.fileAccess &&& PQSEC_FA_WRITE = 0 then pure ({}, c)
  else do
    let path0 ← readFirst ev .path
    if path0 = 0 then pure ({}, c)
    else do
      let temp ← isTempPathReads ev .path
      if temp = false then pure ({}, c)
      else do
        let comm ← readStrN ev .comm PQSEC_COMM_LEN
        let path ← readStr ev .path
        let staged := c.staged.put path ⟨ev.ts_ns, comm⟩
        let staged :=
          if staged.size > kMaxStaged then
            staged.eraseIf fun _ w => expired c.window_ns ev.ts_ns w.ts_ns
          else staged
        pure ({}, { c with staged := staged })

def observeExecveReads : Reads (CorrelationHit × Correlator) := do
  let downloads := c.liveDownloads ev
  let bin ← basenameOfReads ev .filename
  if bin ∈ kDownloaders then
    pure ({}, { c with
      downloads := Recency.pushCapped kMaxDownloads downloads ⟨ev.ts_ns, ancestorSet ev, bin⟩ })
  else do
    let c := { c with downloads := downloads }
    let temp ← isTempPathReads ev .filename
    if temp = false then pure ({}, c)
    else do
      let key ← readStr ev .filename
      match c.staged.find? key with
      | some w =>
        if !expired c.window_ns ev.ts_ns w.ts_ns then do
          let filename ← readStr ev .filename
          pure (⟨true, .Critical, "write-exec-chain", writeExecReason w filename ev.ts_ns⟩, c)
        else pure (Correlator.matchLineage ev.ts_ns (ancestorSet ev) downloads, c)
      | none => pure (Correlator.matchLineage ev.ts_ns (ancestorSet ev) downloads, c)

/-- The key's process name is read under a bound; nothing else of it is a string. -/
def observeConnectReads : Reads (Option (CorrelationHit × Correlator)) :=
  if isPrivateIpv4 ev.tcpDaddr then pure (c.observeConnect ev)
  else do
    let _comm ← readStrN ev .comm PQSEC_COMM_LEN
    pure (c.observeConnect ev)

def observeReads : Reads (Option (CorrelationHit × Correlator)) :=
  if ev.type = PQSEC_EVT_EXECVE then some <$> observeExecveReads ev c
  else if ev.type = PQSEC_EVT_TCP_CONNECT then observeConnectReads ev c
  else if ev.type = PQSEC_EVT_FILE_OPEN then some <$> observeFileReads ev c
  else pure (some ({}, c))

/-! ## 5. `pipeline.cpp` over the fields -/

/-- `make_alert`: the only string of the event that it takes is `ev.comm`. -/
def makeAlertReads (alert : Alert) : Reads Alert := do
  let comm ← readStr ev .comm
  pure { alert with comm := comm }

/-- Every branch that sets `alerted` does so with `make_alert`. -/
def alertReads {L : LlmClient} (r : Classified L) : Reads (Classified L) :=
  if r.outcome.alerted then do
    let alert ← makeAlertReads ev r.outcome.alert
    pure { r with outcome := { r.outcome with alert := alert } }
  else pure r

/-- `classify_event` once the rules and the correlator have looked. -/
def judgeReads (L : LlmClient) (summary : Bytes) (pr : PrefilterResult) (llm : L.State) :
    Option (CorrelationHit × Correlator) → Reads (Option (Classified L))
  | none => pure none
  | some (ch, corr) => some <$> alertReads ev (judge L ev summary pr ch llm corr)

def classifyEventReads (L : LlmClient) (llm : L.State) (corr : Correlator) :
    Reads (Option (Classified L)) := do
  let summary ← eventSummaryReads ev
  if ev.type = PQSEC_EVT_AGENT_DROP then do
    let alert ← makeAlertReads ev
      (makeAlert ev summary .Unknown .Medium "agent" (dropNoticeReason ev))
    pure (some
      { outcome := { layer := .AgentDrop, alerted := true, alert := alert }
        llm := llm
        corr := corr
        evidence := none
        asked := [] })
  else do
    let pr ← prefilterReads ev
    let observed ← observeReads ev corr
    judgeReads ev L summary pr llm observed

end

/-! ## 6. The bounded reads -/

/-- The field of a path or a filename holds its NUL. -/
def PathEnds (ev : SecurityEvent) : Prop := 0 ∈ ev.u.toList.take PQSEC_FILENAME_LEN

def CommEnds (ev : SecurityEvent) : Prop := 0 ∈ ev.comm.toList

section

variable {ev : SecurityEvent}

theorem length_bytes_comm : (Field.comm.bytes ev).length = PQSEC_COMM_LEN :=
  ev.comm.length_toList

theorem length_bytes_ancestor (i : Fin PQSEC_ANCESTORS) :
    ((Field.ancestor i).bytes ev).length = PQSEC_COMM_LEN := ev.anc[i].comm.length_toList

theorem length_bytes_path : (Field.path.bytes ev).length = PQSEC_FILENAME_LEN := by
  have hu : ev.u.toList.length = unionLen := ev.u.length_toList
  unfold Field.bytes
  rw [List.length_take, hu]
  rfl

theorem readStrN_eq {f : Field} {n : ℕ} (h : n ≤ (f.bytes ev).length) :
    readStrN ev f n = .ok (cString ((f.bytes ev).take n)) := scanN_eq h

theorem printableReads_eq {f : Field} {n : ℕ} (h : n ≤ (f.bytes ev).length) :
    printableReads ev f n = .ok (printable (f.bytes ev) n) := by
  unfold printableReads
  rw [readStrN_eq h]
  rfl

theorem readStrN_comm : readStrN ev .comm PQSEC_COMM_LEN = .ok ev.commStr := by
  rw [readStrN_eq length_bytes_comm.ge, List.take_of_length_le length_bytes_comm.le]
  rfl

/-- The first byte says whether there is a path; an empty one has its NUL there. -/
theorem readFirst_path (ev : SecurityEvent) :
    ∃ b, readFirst ev .path = .ok b ∧ (b ≠ 0 ↔ ev.filePath ≠ []) ∧ (b = 0 → PathEnds ev) := by
  have hu : ev.u.toList.length = unionLen := ev.u.length_toList
  obtain ⟨b, bs, hlist⟩ : ∃ b bs, ev.u.toList = b :: bs :=
    List.exists_cons_of_length_pos (by rw [hu]; decide)
  unfold readFirst Field.bytes SecurityEvent.filePath cString PathEnds
  rw [hlist]
  refine ⟨b, rfl, ?_, ?_⟩
  · by_cases hb : b = 0 <;> simp [hb]
  · rintro rfl
    exact List.mem_cons_self

theorem ancestorTreeReads_eq (is : List (Fin PQSEC_ANCESTORS)) :
    ancestorTreeReads ev is = .ok (ancestorTree (is.map fun i => ev.anc[i])) := by
  induction is with
  | nil => rfl
  | cons i is ih =>
    unfold ancestorTreeReads
    rw [List.map_cons]
    unfold ancestorTree
    split
    · rfl
    · rw [readStrN_eq (length_bytes_ancestor i).ge,
        List.take_of_length_le (length_bytes_ancestor i).le, ih]
      rfl

theorem processTreeReads_eq : processTreeReads ev = .ok (processTree ev) := by
  have hanc : ((List.finRange PQSEC_ANCESTORS).map fun i => ev.anc[i]) = ev.anc.toList := by
    refine List.ext_getElem (by simp) fun i hi hi' => ?_
    simp
  unfold processTreeReads
  rw [readStrN_comm, ancestorTreeReads_eq, hanc]
  rfl

theorem printable_bytes_path :
    printable (Field.path.bytes ev) PQSEC_FILENAME_LEN =
      printable ev.u.toList PQSEC_FILENAME_LEN := by
  unfold printable Field.bytes
  rw [List.take_take, Nat.min_self]

theorem pathTextReads_eq : pathTextReads ev = .ok
    (if ev.filePath ≠ [] then printable ev.u.toList PQSEC_FILENAME_LEN
      else lit "ino=" ++ decimal ev.fileIno.toNat) := by
  obtain ⟨b, hb, hpath, -⟩ := readFirst_path ev
  unfold pathTextReads
  rw [hb, printableReads_eq length_bytes_path.ge, printable_bytes_path]
  by_cases hb0 : b = 0
  · rw [if_neg fun h => hpath.mpr h hb0]
    simp [bind, Except.bind, hb0, pure, Except.pure]
  · rw [if_pos (hpath.mp hb0)]
    simp [bind, Except.bind, hb0]

theorem summaryTextReads_eq : summaryTextReads ev = .ok (summaryText ev) := by
  have hcomm : printableReads ev .comm PQSEC_COMM_LEN =
      .ok (printable ev.comm.toList PQSEC_COMM_LEN) := printableReads_eq length_bytes_comm.ge
  have hfile : printableReads ev .filename PQSEC_FILENAME_LEN =
      .ok (printable ev.u.toList PQSEC_FILENAME_LEN) :=
    (printableReads_eq (f := .filename) length_bytes_path.ge).trans
      (congrArg Except.ok printable_bytes_path)
  unfold summaryTextReads
  rw [hcomm, hfile, pathTextReads_eq]
  simp only [bind, Except.bind]
  split
  · next hexec => rw [summaryText, if_pos hexec]; rfl
  · next hexec =>
    split
    · next htcp => rw [summaryText, if_neg hexec, if_pos htcp]; rfl
    · next htcp =>
      split
      · next hopen => rw [summaryText, if_neg hexec, if_neg htcp, if_pos hopen]; rfl
      · rfl

theorem eventSummaryReads_eq : eventSummaryReads ev = .ok (eventSummary ev) := by
  have hfirst : ev.anc.get ⟨0, ancestors_pos⟩ = ev.anc[0] := rfl
  unfold eventSummaryReads eventSummary
  rw [summaryTextReads_eq, processTreeReads_eq, hfirst]
  simp only [bind, Except.bind]
  split <;> rfl

/-! ## 7. The unbounded reads -/

theorem cString_append_of_mem {s : Bytes} (h : 0 ∈ s) (t : Bytes) :
    cString (s ++ t) = cString s := by
  obtain ⟨a, b, rfl, ha⟩ := List.eq_append_cons_of_mem h
  rw [List.append_assoc, List.cons_append, cString_append_zero ha, cString_append_zero ha]

/-- With its NUL in the field, a path is the C string that an unbounded read finds. -/
theorem cString_path (h : PathEnds ev) :
    cString (ev.u.toList.take PQSEC_FILENAME_LEN) = cString ev.u.toList := by
  rw [← cString_append_of_mem h (ev.u.toList.drop PQSEC_FILENAME_LEN), List.take_append_drop]

theorem readStr_path : StaysIff (readStr ev .path) (PathEnds ev) ev.filePath := by
  have hscan : StaysIff (readStr ev .path) (PathEnds ev)
      (cString (ev.u.toList.take PQSEC_FILENAME_LEN)) := scan_staysIff
  exact ⟨fun h => (hscan.inside h).trans (congrArg Except.ok (cString_path h)), hscan.outside⟩

theorem readStr_filename :
    StaysIff (readStr ev .filename) (PathEnds ev) ev.execveFilename := by
  have hscan : StaysIff (readStr ev .filename) (PathEnds ev)
      (cString (ev.u.toList.take PQSEC_FILENAME_LEN)) := scan_staysIff
  exact ⟨fun h => (hscan.inside h).trans (congrArg Except.ok (cString_path h)), hscan.outside⟩

/-- The bytes behind the name's own are the rest of the record. -/
theorem commPtr_eq (h : CommEnds ev) : ev.commPtr = ev.commStr := by
  have hdrop : ev.toBytes.drop 24 = ev.comm.toList ++
      ((ev.anc.toList.map fun a => toLe 4 a.pid.toNat ++ a.comm.toList).flatten ++
        ev.u.toList) := by
    unfold SecurityEvent.toBytes
    rw [List.append_assoc, List.append_assoc]
    exact List.drop_left' (by simp)
  unfold SecurityEvent.commPtr SecurityEvent.commStr
  rw [hdrop, cString_append_of_mem h]

theorem readStr_comm : StaysIff (readStr ev .comm) (CommEnds ev) ev.commPtr := by
  have hscan : StaysIff (readStr ev .comm) (CommEnds ev) ev.commStr := scan_staysIff
  exact ⟨fun h => (hscan.inside h).trans (congrArg Except.ok (commPtr_eq h).symm), hscan.outside⟩

/-- `basename_of` scans to the NUL twice, the second time from behind the last slash. -/
theorem basenameOfReads_filename :
    StaysIff (basenameOfReads ev .filename) (PathEnds ev) (basenameOf ev.execveFilename) := by
  refine (readStr_filename.bind fun hends => ?_).congr (and_self_iff)
  obtain ⟨name, rest, hbytes, hname⟩ := List.eq_append_cons_of_mem hends
  have hstr : ev.execveFilename = name := by
    unfold SecurityEvent.execveFilename
    rw [← cString_path hends, hbytes, cString_append_zero hname]
  rw [hstr]
  have hsuffix : basenameOf name <:+ name := List.rtakeWhile_suffix _ _
  have hdrop : (Field.filename.bytes ev).drop (name.length - (basenameOf name).length) =
      basenameOf name ++ 0 :: rest := by
    unfold Field.bytes
    rw [hbytes, List.drop_append_of_le_length (Nat.sub_le _ _), ← List.suffix_iff_eq_drop.mp hsuffix]
  have hfree : 0 ∉ basenameOf name := fun h => hname (hsuffix.subset h)
  rw [hdrop]
  have hscan : StaysIff (scan 0 Field.filename (basenameOf name ++ 0 :: rest))
      (0 ∈ basenameOf name ++ 0 :: rest) (cString (basenameOf name ++ 0 :: rest)) := scan_staysIff
  rw [cString_append_zero hfree] at hscan
  exact hscan.congr (iff_of_true (by simp) hends)

/-- A comparison with a directory's name is over within the field. -/
theorem isTempPathReads_eq (f : Field) (hf : f.bytes ev = ev.u.toList.take PQSEC_FILENAME_LEN) :
    isTempPathReads ev f = .ok (isTempPath (cString ev.u.toList)) := by
  have hu : ev.u.toList.length = unionLen := ev.u.length_toList
  have hword : ∀ p : String, 0 ∉ lit p → (lit p).length ≤ PQSEC_FILENAME_LEN →
      readPrefix ev f p = .ok ((lit p).isPrefixOf (cString ev.u.toList)) := by
    intro p hp hlen
    unfold readPrefix
    rw [hf, hasPrefix_eq hp (by rw [List.length_take, hu]; exact hlen)
      (ev.u.toList.drop PQSEC_FILENAME_LEN), List.take_append_drop]
    rfl
  unfold isTempPathReads isTempPath
  rw [hword "/tmp/" (by decide) (by decide), hword "/dev/shm/" (by decide) (by decide),
    hword "/var/tmp/" (by decide) (by decide)]
  cases (lit "/tmp/").isPrefixOf (cString ev.u.toList)
  · cases (lit "/dev/shm/").isPrefixOf (cString ev.u.toList) <;> rfl
  · rfl

end

/-! ## 8. The observers -/

section

variable {ev : SecurityEvent} {c : Correlator}

theorem prefilterExecveReads_staysIff :
    StaysIff (prefilterExecveReads ev) (PathEnds ev) (prefilterExecve ev) := by
  unfold prefilterExecveReads
  refine (basenameOfReads_filename.bind fun _ => ?_).congr and_self_iff
  exact readStr_filename.last _

/-- Only the path of a sensitive access is quoted. -/
theorem prefilterFileReads_staysIff :
    StaysIff (prefilterFileReads ev) (ev.fileAccess &&& PQSEC_FA_SENSITIVE ≠ 0 → PathEnds ev)
      (prefilterFile ev) := by
  unfold prefilterFileReads prefilterFile
  by_cases hsens : ev.fileAccess &&& PQSEC_FA_SENSITIVE ≠ 0
  · obtain ⟨b, hb, hpath, hempty⟩ := readFirst_path ev
    rw [if_pos hsens, if_pos hsens]
    refine StaysIff.after hb ?_
    by_cases hb0 : b = 0
    · rw [if_neg (not_not.mpr hb0), if_neg fun h => hpath.mpr h hb0]
      exact (StaysIff.ok _).congr (iff_of_true trivial fun _ => hempty hb0)
    · rw [if_pos hb0, if_pos (hpath.mp hb0)]
      exact (readStr_path.last _).congr ⟨fun h _ => h, fun h => h hsens⟩
  · rw [if_neg hsens, if_neg hsens]
    exact (StaysIff.ok _).congr (iff_of_true trivial fun h => absurd h hsens)

/-- The path is the key of a staging write. -/
theorem observeFileReads_staysIff :
    StaysIff (observeFileReads ev c) (isStagingWrite ev = true → PathEnds ev)
      (c.observeFile ev) := by
  unfold observeFileReads Correlator.observeFile
  by_cases hwrite : ev.fileAccess &&& PQSEC_FA_WRITE = 0
  · have hno : isStagingWrite ev = false := by simp [isStagingWrite, hwrite]
    rw [if_pos hwrite, hno]
    exact (StaysIff.ok _).congr (iff_of_true trivial fun h => absurd h Bool.false_ne_true)
  · obtain ⟨b, hb, hpath, hempty⟩ := readFirst_path ev
    rw [if_neg hwrite]
    refine StaysIff.after hb ?_
    by_cases hb0 : b = 0
    · have hno : isStagingWrite ev = false := by
        have hnil : ev.filePath = [] := not_not.mp fun h => hpath.mpr h hb0
        simp [isStagingWrite, hnil]
      rw [if_pos hb0, hno]
      exact (StaysIff.ok _).congr (iff_of_true trivial fun h => absurd h Bool.false_ne_true)
    · rw [if_neg hb0]
      refine StaysIff.after (isTempPathReads_eq .path rfl) ?_
      have hstage : isStagingWrite ev = isTempPath (cString ev.u.toList) := by
        have hne := hpath.mp hb0
        simp only [isStagingWrite, hwrite, hne, ne_eq, not_false_eq_true, decide_true,
          Bool.true_and]
        rfl
      rw [← hstage]
      cases hstaging : isStagingWrite ev with
      | false =>
        exact (StaysIff.ok _).congr (iff_of_true trivial fun h => absurd h Bool.false_ne_true)
      | true =>
        refine StaysIff.after readStrN_comm ?_
        exact (readStr_path.last _).congr ⟨fun h _ => h, fun h => h rfl⟩

/-- The filename is read whichever way the call goes. -/
theorem observeExecveReads_staysIff :
    StaysIff (observeExecveReads ev c) (PathEnds ev) (c.observeExecve ev) := by
  unfold observeExecveReads
  refine (basenameOfReads_filename.bind fun hends => ?_).congr (and_iff_left trivial)
  have hread := readStr_filename.inside hends
  unfold Correlator.observeExecve
  by_cases hbin : basenameOf ev.execveFilename ∈ kDownloaders
  · have hdown : isDownloader ev = true := decide_eq_true hbin
    rw [if_pos hbin, hdown]
    exact StaysIff.ok _
  · have hdown : isDownloader ev = false := decide_eq_false hbin
    rw [if_neg hbin, hdown]
    refine StaysIff.after (isTempPathReads_eq .filename rfl) ?_
    have htemp : isTempPath (cString ev.u.toList) = isTempPath ev.execveFilename := rfl
    rw [htemp]
    cases isTempPath ev.execveFilename with
    | false => exact StaysIff.ok _
    | true =>
      refine StaysIff.after hread ?_
      dsimp only
      cases hfind : c.staged.find? ev.execveFilename with
      | none => exact StaysIff.ok _
      | some w =>
        dsimp only
        cases hlive : expired c.window_ns ev.ts_ns w.ts_ns with
        | true => exact StaysIff.ok _
        | false => exact StaysIff.after hread (StaysIff.ok _)

/-- A path of the event ends in its field wherever it is read without a bound: always for an
EXECVE, in the case `quoted` for a FILE_OPEN. -/
def PathEndsIf (ev : SecurityEvent) (quoted : Prop) : Prop :=
  (ev.type = PQSEC_EVT_EXECVE → PathEnds ev) ∧
    (ev.type = PQSEC_EVT_FILE_OPEN → quoted → PathEnds ev)

/-- Both layers switch over the type in the same way. -/
theorem staysIff_switch {α : Type} {exec tcp file other : Reads α} {a b d e : α} {quoted : Prop}
    (hexec : StaysIff exec (PathEnds ev) a) (htcp : StaysIff tcp True b)
    (hfile : StaysIff file (quoted → PathEnds ev) d) (hother : StaysIff other True e) :
    StaysIff
      (if ev.type = PQSEC_EVT_EXECVE then exec
        else if ev.type = PQSEC_EVT_TCP_CONNECT then tcp
        else if ev.type = PQSEC_EVT_FILE_OPEN then file else other)
      (PathEndsIf ev quoted)
      (if ev.type = PQSEC_EVT_EXECVE then a
        else if ev.type = PQSEC_EVT_TCP_CONNECT then b
        else if ev.type = PQSEC_EVT_FILE_OPEN then d else e) := by
  unfold PathEndsIf
  by_cases h₁ : ev.type = PQSEC_EVT_EXECVE
  · rw [if_pos h₁, if_pos h₁]
    refine hexec.congr ⟨fun h => ⟨fun _ => h, fun h₃ => ?_⟩, fun h => h.1 h₁⟩
    exact absurd (h₃.symm.trans h₁) (by decide)
  · rw [if_neg h₁, if_neg h₁]
    by_cases h₂ : ev.type = PQSEC_EVT_TCP_CONNECT
    · rw [if_pos h₂, if_pos h₂]
      refine htcp.congr (iff_of_true trivial ⟨fun h => absurd h h₁, fun h₃ => ?_⟩)
      exact absurd (h₃.symm.trans h₂) (by decide)
    · rw [if_neg h₂, if_neg h₂]
      by_cases h₃ : ev.type = PQSEC_EVT_FILE_OPEN
      · rw [if_pos h₃, if_pos h₃]
        exact hfile.congr ⟨fun h => ⟨fun h₁' => absurd h₁' h₁, fun _ => h⟩, fun h => h.2 h₃⟩
      · rw [if_neg h₃, if_neg h₃]
        exact hother.congr (iff_of_true trivial ⟨fun h => absurd h h₁, fun h => absurd h h₃⟩)

theorem prefilterReads_staysIff :
    StaysIff (prefilterReads ev) (PathEndsIf ev (ev.fileAccess &&& PQSEC_FA_SENSITIVE ≠ 0))
      (prefilter ev) :=
  staysIff_switch prefilterExecveReads_staysIff (StaysIff.ok _) prefilterFileReads_staysIff
    (StaysIff.ok _)

theorem observeReads_staysIff :
    StaysIff (observeReads ev c) (PathEndsIf ev (isStagingWrite ev = true)) (c.observe ev) := by
  have hconnect : StaysIff (observeConnectReads ev c) True (c.observeConnect ev) := by
    unfold observeConnectReads
    split
    · exact StaysIff.ok _
    · exact StaysIff.after readStrN_comm (StaysIff.ok _)
  exact staysIff_switch (observeExecveReads_staysIff.map some) hconnect
    (observeFileReads_staysIff.map some) (StaysIff.ok _)

end

/-! ## 9. The alerts -/

section

variable {L : LlmClient} {ev : SecurityEvent} {corr : Correlator} {llm : L.State}

theorem makeAlertReads_staysIff {alert : Alert} (h : alert.comm = ev.commPtr) :
    StaysIff (makeAlertReads ev alert) (CommEnds ev) alert := by
  have hread : StaysIff (makeAlertReads ev alert) (CommEnds ev) { alert with comm := ev.commPtr } :=
    readStr_comm.last _
  rwa [← h] at hread

theorem alertReads_staysIff {r : Classified L}
    (h : r.outcome.alerted = true → r.outcome.alert.comm = ev.commPtr) :
    StaysIff (alertReads ev r) (r.outcome.alerted = true → CommEnds ev) r := by
  unfold alertReads
  by_cases halert : r.outcome.alerted = true
  · rw [if_pos halert]
    exact ((makeAlertReads_staysIff (h halert)).last _).congr
      ⟨fun hc _ => hc, fun hc => hc halert⟩
  · rw [if_neg halert]
    exact (StaysIff.ok _).congr (iff_of_true trivial fun h => absurd h halert)

/-- Every alert carries the name of the process. -/
theorem comm_of_judge (summary : Bytes) (pr : PrefilterResult) (ch : CorrelationHit)
    (h : (judge L ev summary pr ch llm corr).outcome.alerted = true) :
    (judge L ev summary pr ch llm corr).outcome.alert.comm = ev.commPtr := by
  unfold judge at h ⊢
  split
  · next hhit =>
    unfold judgeHit
    split <;> rfl
  · next hmiss =>
    rw [if_neg hmiss] at h
    split at h
    · cases h
    · rfl
    · unfold judgeEscalated at h ⊢
      dsimp only at h ⊢
      split
      · next hnormal =>
        rw [if_pos hnormal] at h
        cases h
      · rfl

theorem judgeReads_staysIff (summary : Bytes) (pr : PrefilterResult)
    (observed : Option (CorrelationHit × Correlator)) :
    StaysIff (judgeReads ev L summary pr llm observed)
      ((∃ r, (observed.map fun found => judge L ev summary pr found.1 llm found.2) = some r ∧
        r.outcome.alerted = true) → CommEnds ev)
      (observed.map fun found => judge L ev summary pr found.1 llm found.2) := by
  rcases observed with _ | ⟨ch, corr⟩
  · exact (StaysIff.ok none).congr (iff_of_true trivial (by simp))
  · refine ((alertReads_staysIff (comm_of_judge summary pr ch)).map some).congr ?_
    simp

/-- A classification with an alert. -/
def AlertMade (L : LlmClient) (ev : SecurityEvent) (llm : L.State) (corr : Correlator) : Prop :=
  ∃ r, classifyEvent L ev llm corr = some r ∧ r.outcome.alerted = true

theorem classifyEventReads_staysIff :
    StaysIff (classifyEventReads ev L llm corr)
      ((ev.type ≠ PQSEC_EVT_AGENT_DROP →
          PathEndsIf ev (ev.fileAccess &&& PQSEC_FA_SENSITIVE ≠ 0) ∧
            PathEndsIf ev (isStagingWrite ev = true)) ∧
        (AlertMade L ev llm corr → CommEnds ev))
      (classifyEvent L ev llm corr) := by
  unfold classifyEventReads
  refine StaysIff.after eventSummaryReads_eq ?_
  by_cases hdrop : ev.type = PQSEC_EVT_AGENT_DROP
  · have hmade : AlertMade L ev llm corr := by
      unfold AlertMade classifyEvent
      rw [if_pos hdrop]
      exact ⟨_, rfl, rfl⟩
    unfold classifyEvent
    rw [if_pos hdrop, if_pos hdrop]
    refine ((makeAlertReads_staysIff ?_).last _).congr ?_
    · rfl
    · exact ⟨fun h => ⟨fun hne => absurd hdrop hne, fun _ => h⟩, fun h => h.2 hmade⟩
  · have hcall : classifyEvent L ev llm corr = (corr.observe ev).map fun found =>
        judge L ev (eventSummary ev) (prefilter ev) found.1 llm found.2 := by
      unfold classifyEvent
      rw [if_neg hdrop]
      cases corr.observe ev <;> rfl
    unfold AlertMade
    rw [if_neg hdrop, hcall]
    refine (prefilterReads_staysIff.bind fun _ => observeReads_staysIff.bind fun _ =>
      judgeReads_staysIff _ _ _).congr ?_
    exact ⟨fun h => ⟨fun _ => ⟨h.1, h.2.1⟩, h.2.2⟩, fun h => ⟨(h.1 hdrop).1, (h.1 hdrop).2, h.2⟩⟩

end

end PqcEdr.Analyzer
