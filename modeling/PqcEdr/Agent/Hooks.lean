/-
# All hooks of the collector

`agent/bpf/collector.bpf.c`: beside the file hook there is one at `execve` and one at
`tcp_v4_connect`.  Each of them fills a record in reserved memory, which holds what it held
before, so a field of the record is what the hook stored there or nothing that can be relied on.

* `execveFilename_handleExecve`, `tcp_handleTcpConnect`, `file_handleFileOpen`: what the analyzer
  reads out of a submitted record is what the hook was called with.
* `submits_terminated`: the texts that the analyzer will read have their NUL.
-/
import PqcEdr.Agent.Collector

namespace PqcEdr.Agent

/-! ## 1. `handle_execve` and `handle_tcp_connect` -/

def AF_INET : UInt8 := 2

/-- `bpf_probe_read_user_str`: the string and its NUL, cut to the field; where the address faults,
the kernel clears the field. -/
def readUserStr (field : ℕ) : Option Bytes → Bytes
  | some src => readStr field src
  | none => List.replicate field 0

def handleExecve (K : Kernel) (filename : Option Bytes) : List SecurityEvent :=
  match K.reserve with
  | none => []
  | some e =>
    let e := fillCommon K e PQSEC_EVT_EXECVE
    [{ e with u := e.u.store 0 (readUserStr PQSEC_FILENAME_LEN filename) }]

/-- `sockaddr_in`: both fields in network byte order. -/
structure SockaddrIn where
  sin_port : UInt16
  s_addr : UInt32

/-- `bpf_ntohs`, on a little-endian host. -/
def bpfNtohs (x : UInt16) : UInt16 := x <<< 8 ||| x >>> 8

def fillTcp (u : CharArray unionLen) (sin : SockaddrIn) : CharArray unionLen :=
  let u := u.store 6 [AF_INET]
  let u := u.store 7 [0]
  let u := u.store 0 (toLe 4 sin.s_addr.toNat)
  u.store 4 (toLe 2 (bpfNtohs sin.sin_port).toNat)

def handleTcpConnect (K : Kernel) (sin : SockaddrIn) : List SecurityEvent :=
  match K.reserve with
  | none => []
  | some e =>
    let e := fillCommon K e PQSEC_EVT_TCP_CONNECT
    [{ e with u := fillTcp e.u sin }]

/-- What a hook is called for. -/
inductive Occurrence
  | execve (filename : Option Bytes)
  | connect (sin : SockaddrIn)
  | open (file : OpenFile)

/-- The records that the collector submits for it. -/
def submits (K : Kernel) : Occurrence → List SecurityEvent
  | .execve filename => handleExecve K filename
  | .connect sin => handleTcpConnect K sin
  | .open file => handleFileOpen K file

/-! ## 2. Stores and C strings -/

theorem prefix_store {n : ℕ} (a : CharArray n) {bytes : Bytes} (h : bytes.length ≤ n) :
    bytes <+: (a.store 0 bytes).toList := by
  have hslice := @CharArray.slice_store n a 0 bytes (by omega)
  rw [List.drop_zero] at hslice
  exact List.prefix_iff_eq_take.mpr hslice.symm

theorem cString_of_isPrefix {s mem : Bytes} (h : s ++ [0] <+: mem) (hs : 0 ∉ s) :
    cString mem = s := by
  obtain ⟨t, rfl⟩ := h
  rw [List.append_assoc]
  exact cString_append_zero hs

/-- What a C string of a kernel's or user's memory becomes in a field. -/
theorem cString_store_readStr {u : CharArray unionLen} (src : Bytes) :
    cString (u.store 0 (readStr PQSEC_FILENAME_LEN src)).toList =
      (cString src).take (PQSEC_FILENAME_LEN - 1) := by
  have hlen := length_readStr PQSEC_FILENAME_LEN (by decide) src
  have hunion : PQSEC_FILENAME_LEN ≤ unionLen := by decide
  refine cString_of_isPrefix (prefix_store u (hlen.trans hunion)) ?_
  intro h
  exact not_mem_cString src (List.mem_of_mem_take h)

/-- A text that fits the field is there whole. -/
theorem take_cString_eq {path : Bytes} (hnul : 0 ∉ path) (hlen : path.length < PQSEC_FILENAME_LEN) :
    (cString path).take (PQSEC_FILENAME_LEN - 1) = path := by
  rw [cString_eq_self hnul, List.take_of_length_le (by omega)]

/-! ## 3. What a submitted record says -/

section

variable {K : Kernel} {ev : SecurityEvent}

/-- The part that every hook fills alike. -/
structure Common (K : Kernel) (ev : SecurityEvent) : Prop where
  pid : ev.pid = K.task.tgid
  ts_ns : ev.ts_ns = K.ktime
  comm : ev.comm = K.task.comm

theorem handleExecve_cases {filename : Option Bytes} (h : ev ∈ handleExecve K filename) :
    ∃ e, K.reserve = some e ∧ ev = { fillCommon K e PQSEC_EVT_EXECVE with
      u := e.u.store 0 (readUserStr PQSEC_FILENAME_LEN filename) } := by
  unfold handleExecve at h
  split at h
  · cases h
  · next e he => exact ⟨e, he, List.mem_singleton.mp h⟩

theorem handleTcpConnect_cases {sin : SockaddrIn} (h : ev ∈ handleTcpConnect K sin) :
    ∃ e, K.reserve = some e ∧
      ev = { fillCommon K e PQSEC_EVT_TCP_CONNECT with u := fillTcp e.u sin } := by
  unfold handleTcpConnect at h
  split at h
  · cases h
  · next e he => exact ⟨e, he, List.mem_singleton.mp h⟩

/-- The file hook fills the path from the scratch buffer exactly where the file is open for
writing, and then the buffer holds the path. -/
theorem handleFileOpen_fills {file : OpenFile} (h : ev ∈ handleFileOpen K file) :
    ∃ e access path, K.reserve = some e ∧
      ev = { fillCommon K e PQSEC_EVT_FILE_OPEN with u := fillFile e.u access file.key path } ∧
      (file.isWrite = false ∧ path = none ∨
        ∃ buf : PathBuf, file.isWrite = true ∧ path = some buf ∧ file.path ++ [0] <+: buf.toList ∧
          file.path.length < PQSEC_FILENAME_LEN) := by
  have hsubmit : ∀ access path, ev ∈ submitFile K file access path → ∃ e access',
      K.reserve = some e ∧
        ev = { fillCommon K e PQSEC_EVT_FILE_OPEN with u := fillFile e.u access' file.key path } := by
    intro access path hev
    unfold submitFile at hev
    dsimp only at hev
    split at hev
    · cases hev
    · next e he => exact ⟨e, _, he, List.mem_singleton.mp hev⟩
  unfold handleFileOpen at h
  dsimp only at h
  split at h
  · cases h
  · split at h
    · next hwrite =>
      split at h
      · cases h
      · next pb _ =>
        split at h
        · cases h
        · next hn =>
          split at h
          · cases h
          · obtain ⟨e, access, he, hev⟩ := hsubmit _ _ h
            have hfits : file.path.length < PQSEC_FILENAME_LEN := by
              by_contra hlong
              exact hn (K.bpf_d_path.too_long file.path pb (Nat.not_lt.mp hlong))
            exact ⟨e, access, _, he, hev, Or.inr ⟨_, hwrite, rfl,
              (K.bpf_d_path.fits file.path pb hfits).2, hfits⟩⟩
    · next hread =>
      obtain ⟨e, access, he, hev⟩ := hsubmit _ _ h
      exact ⟨e, access, none, he, hev, Or.inl ⟨Bool.eq_false_iff.mpr hread, rfl⟩⟩

theorem submits_common {o : Occurrence} (h : ev ∈ submits K o) : Common K ev := by
  cases o with
  | execve filename =>
    obtain ⟨e, -, rfl⟩ := handleExecve_cases h
    exact ⟨rfl, rfl, rfl⟩
  | connect sin =>
    obtain ⟨e, -, rfl⟩ := handleTcpConnect_cases h
    exact ⟨rfl, rfl, rfl⟩
  | «open» file =>
    obtain ⟨e, access, path, -, rfl, -⟩ := handleFileOpen_fills h
    exact ⟨rfl, rfl, rfl⟩

/-- An execution: the name that the caller passed, up to the field, or none where it faulted. -/
theorem execveFilename_handleExecve {filename : Option Bytes} (h : ev ∈ handleExecve K filename) :
    ev.type = PQSEC_EVT_EXECVE ∧
      ev.execveFilename = (cString (filename.getD [])).take (PQSEC_FILENAME_LEN - 1) := by
  obtain ⟨e, -, rfl⟩ := handleExecve_cases h
  refine ⟨rfl, ?_⟩
  cases filename with
  | some src => exact cString_store_readStr src
  | none =>
    have hlen : (readUserStr PQSEC_FILENAME_LEN none).length ≤ unionLen := by
      rw [readUserStr, List.length_replicate]
      decide
    obtain ⟨rest, hrest⟩ := prefix_store e.u hlen
    have hempty : cString (e.u.store 0 (readUserStr PQSEC_FILENAME_LEN none)).toList = [] := by
      rw [← hrest, readUserStr, show PQSEC_FILENAME_LEN = 127 + 1 from rfl, List.replicate_succ]
      rfl
    have hnone : (cString ((none : Option Bytes).getD [])).take (PQSEC_FILENAME_LEN - 1) = [] := rfl
    rw [hnone]
    exact hempty

/-- A connect: the address as it stands in memory, the port in the host's order. -/
theorem tcp_handleTcpConnect {sin : SockaddrIn} (h : ev ∈ handleTcpConnect K sin) :
    ev.type = PQSEC_EVT_TCP_CONNECT ∧ ev.tcpDaddr = sin.s_addr ∧
      ev.tcpDport = bpfNtohs sin.sin_port ∧ ev.tcpFamily = AF_INET := by
  obtain ⟨e, -, rfl⟩ := handleTcpConnect_cases h
  have haddr : (toLe 4 sin.s_addr.toNat).length = 4 := length_toLe _ _
  have hport : (toLe 2 (bpfNtohs sin.sin_port).toNat).length = 2 := length_toLe _ _
  have hunion : unionLen = 152 := rfl
  refine ⟨rfl, ?_, ?_, ?_⟩
  · have hslice : ((fillTcp e.u sin).toList.drop 0).take 4 = toLe 4 sin.s_addr.toNat := by
      rw [fillTcp, CharArray.slice_store_of_disjoint (by omega) (by omega)]
      have hstore := @CharArray.slice_store unionLen ((e.u.store 6 [AF_INET]).store 7 [0]) 0
        (toLe 4 sin.s_addr.toNat) (by omega)
      rwa [haddr] at hstore
    rw [SecurityEvent.tcpDaddr]
    rw [List.drop_zero] at hslice
    rw [hslice, ofLe_toLe sin.s_addr.toNat_lt, UInt32.ofNat_toNat]
  · have hslice : ((fillTcp e.u sin).toList.drop 4).take 2 =
        toLe 2 (bpfNtohs sin.sin_port).toNat := by
      have hstore := @CharArray.slice_store unionLen
        (((e.u.store 6 [AF_INET]).store 7 [0]).store 0 (toLe 4 sin.s_addr.toNat)) 4
        (toLe 2 (bpfNtohs sin.sin_port).toNat) (by omega)
      rwa [hport] at hstore
    rw [SecurityEvent.tcpDport, hslice, ofLe_toLe (bpfNtohs sin.sin_port).toNat_lt,
      UInt16.ofNat_toNat]
  · have hfamily : (fillTcp e.u sin).toList[6]? = some AF_INET := by
      rw [fillTcp, CharArray.getElem?_store (by omega), if_neg (by omega),
        CharArray.getElem?_store (by omega), if_neg (by omega),
        CharArray.getElem?_store (by simp [hunion]), if_neg (by simp),
        CharArray.getElem?_store (by simp [hunion]), if_pos (by simp)]
      rfl
    rw [SecurityEvent.tcpFamily, List.getD_eq_getElem?_getD, hfamily]
    rfl

/-- An open: the path where the file is open for writing, otherwise none. -/
theorem filePath_handleFileOpen {file : OpenFile} (h : ev ∈ handleFileOpen K file) :
    ev.type = PQSEC_EVT_FILE_OPEN ∧ ev.filePath = if file.isWrite then file.path else [] := by
  obtain ⟨e, access, path, -, rfl, hpath⟩ := handleFileOpen_fills h
  refine ⟨rfl, ?_⟩
  rcases hpath with ⟨hread, rfl⟩ | ⟨buf, hwrite, rfl, hbuf, hfits⟩
  · rw [hread]
    exact cString_of_isPrefix (s := []) (prefix_store _ (by decide)) List.not_mem_nil
  · rw [if_pos hwrite]
    refine (cString_store_readStr buf.toList).trans ?_
    rw [cString_of_isPrefix hbuf file.no_nul, List.take_of_length_le (by omega)]

end

/-! ## 4. The NULs -/

/-- The texts of the record end in their fields: the process name, and the path where the type
has one. -/
structure Terminated (ev : SecurityEvent) : Prop where
  comm : 0 ∈ ev.comm.toList
  path : ev.type = PQSEC_EVT_EXECVE ∨ ev.type = PQSEC_EVT_FILE_OPEN →
    0 ∈ ev.u.toList.take PQSEC_FILENAME_LEN

theorem zero_mem_readStr (field : ℕ) (src : Bytes) : 0 ∈ readStr field src :=
  List.mem_append_right _ (List.mem_singleton_self 0)

/-- A NUL that was stored in the field is in the field. -/
theorem zero_mem_store {u : CharArray unionLen} {bytes : Bytes}
    (hlen : bytes.length ≤ PQSEC_FILENAME_LEN) (h : 0 ∈ bytes) :
    0 ∈ (u.store 0 bytes).toList.take PQSEC_FILENAME_LEN := by
  have hunion : PQSEC_FILENAME_LEN ≤ unionLen := by decide
  obtain ⟨rest, hrest⟩ := prefix_store u (hlen.trans hunion)
  rw [← hrest, List.take_append, List.take_of_length_le hlen]
  exact List.mem_append_left _ h

/-- What the collector submits is terminated, if the kernel terminates the names of its tasks. -/
theorem submits_terminated {K : Kernel} {o : Occurrence} {ev : SecurityEvent}
    (hcomm : 0 ∈ K.task.comm.toList) (h : ev ∈ submits K o) : Terminated ev := by
  refine ⟨by rwa [(submits_common h).comm], fun htype => ?_⟩
  cases o with
  | execve filename =>
    obtain ⟨e, -, rfl⟩ := handleExecve_cases h
    cases filename with
    | some src =>
      exact zero_mem_store (length_readStr _ (by decide) src) (zero_mem_readStr _ src)
    | none => exact zero_mem_store (by simp [readUserStr]) (by simp [readUserStr])
  | connect sin =>
    rw [(tcp_handleTcpConnect h).1] at htype
    exact absurd htype (by decide)
  | «open» file =>
    obtain ⟨e, access, path, -, rfl, -⟩ := handleFileOpen_fills h
    cases path with
    | none =>
      have hnul : ([0] : Bytes).length ≤ PQSEC_FILENAME_LEN := by decide
      exact zero_mem_store hnul (List.mem_singleton_self 0)
    | some buf =>
      exact zero_mem_store (length_readStr _ (by decide) _) (zero_mem_readStr _ _)

end PqcEdr.Agent
