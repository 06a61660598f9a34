/-
# The in-kernel file filter

`agent/bpf/collector.bpf.c`: the hook on `security_file_open`.  It runs at every open of the host,
so it decides in the kernel what is worth an event: an open of a file in the sensitive set, by
inode, or an open for writing whose path is in a staging directory.

`bpf_d_path` is the kernel's, a parameter here with what its documentation says: it writes the
path and a NUL into the buffer, or fails when they do not fit.

* `isStaging_eq`: on a buffer that holds a path, `is_staging` is a test of three prefixes.
* `file_open_reported_iff`: the hook reports exactly what it is meant to report, unless it left
  early because the path of a file opened for writing is too long for the buffer.
-/
import PqcEdr.Event

namespace PqcEdr.Agent

/-! ## 1. The hook's surroundings -/

def FMODE_WRITE : UInt32 := 0x2
def FMODE_EXEC : UInt32 := 0x20

/-- `sens_key`. -/
structure SensKey where
  ino : UInt64
  dev : UInt32
  deriving DecidableEq

/-- The file being opened: its mode, its inode, and its absolute path as `d_path` prints it. -/
structure OpenFile where
  f_mode : UInt32
  i_ino : UInt64
  s_dev : UInt32
  path : Bytes
  absolute : path.head? = some 47
  no_nul : 0 ∉ path

/-- `path_buf`. -/
abbrev PathBuf := CharArray PQSEC_FILENAME_LEN

/-- `bpf_d_path`: a length or an error, and what it leaves in the buffer. -/
structure DPath where
  run : Bytes → PathBuf → ℤ × PathBuf
  too_long : ∀ path buf, PQSEC_FILENAME_LEN ≤ path.length → (run path buf).1 < 0
  fits : ∀ path buf, path.length < PQSEC_FILENAME_LEN →
    0 ≤ (run path buf).1 ∧ path ++ [0] <+: (run path buf).2.toList

/-- The current task: its identity, and the chain of `real_parent`s. -/
structure Task where
  tgid : UInt32
  comm : CharArray PQSEC_COMM_LEN
  parents : List Ancestor

/-- What the hook finds in the kernel: the lookup of the scratch buffer and the reservation in
the ring buffer may fail, and reserved memory holds what it held before. -/
structure Kernel where
  bpf_d_path : DPath
  sensitive_inodes : List SensKey
  scratch : Option PathBuf
  reserve : Option SecurityEvent
  task : Task
  ktime : UInt64

/-! ## 2. Filling an event -/

/-- `bpf_probe_read_kernel_str`: the string and its NUL, cut to the field; the rest stays. -/
def readStr (field : ℕ) (src : Bytes) : Bytes := (cString src).take (field - 1) ++ [0]

theorem length_readStr (field : ℕ) (h : 0 < field) (src : Bytes) :
    (readStr field src).length ≤ field := by
  rw [readStr, List.length_append, List.length_take, List.length_singleton]
  omega

/-- One generation of `fill_ancestry`: past the end of the chain the field keeps its bytes. -/
def fillAncestor (parents : List Ancestor) (i : ℕ) (old : Ancestor) : Ancestor :=
  match parents[i]? with
  | none => old
  | some t => ⟨t.pid, old.comm.store 0 (readStr PQSEC_COMM_LEN t.comm.toList)⟩

def fillCommon (K : Kernel) (e : SecurityEvent) (type : UInt32) : SecurityEvent :=
  { e with
    type := type
    pid := K.task.tgid
    ppid := (K.task.parents.head?.map Ancestor.pid).getD 0
    ts_ns := K.ktime
    pad := 0
    comm := K.task.comm
    anc := e.anc.mapIdx (fillAncestor K.task.parents) }

/-- The stores into `e->u.file`, in the order of the source. -/
def fillFile (u : CharArray unionLen) (access : UInt32) (k : SensKey) (path : Option PathBuf) :
    CharArray unionLen :=
  let u := u.store 128 (toLe 4 access.toNat)
  let u := u.store 132 (toLe 4 0)
  let u := u.store 148 (toLe 4 0)
  let u := u.store 136 (toLe 8 k.ino.toNat)
  let u := u.store 144 (toLe 4 k.dev.toNat)
  let u := u.store 0 [0]
  match path with
  | none => u
  | some path => u.store 0 (readStr PQSEC_FILENAME_LEN path.toList)

/-! ## 3. `is_staging` and `handle_file_open` -/

/-- `is_staging`, byte by byte. -/
def isStaging (p : Bytes) : Bool :=
  let at_ (i : ℕ) (c : Char) : Bool := p.getD i 0 = c.toUInt8
  if !at_ 0 '/' then false
  else if at_ 1 't' && at_ 2 'm' && at_ 3 'p' && at_ 4 '/' then true
  else if at_ 1 'v' && at_ 2 'a' && at_ 3 'r' && at_ 4 '/' &&
      at_ 5 't' && at_ 6 'm' && at_ 7 'p' && at_ 8 '/' then true
  else if at_ 1 'd' && at_ 2 'e' && at_ 3 'v' && at_ 4 '/' &&
      at_ 5 's' && at_ 6 'h' && at_ 7 'm' && at_ 8 '/' then true
  else false

def OpenFile.key (file : OpenFile) : SensKey := ⟨file.i_ino, file.s_dev⟩

/-- `bpf_map_lookup_elem(&sensitive_inodes, &k)` finds the pair. -/
def OpenFile.isSensitive (K : Kernel) (file : OpenFile) : Bool := file.key ∈ K.sensitive_inodes

def OpenFile.isWrite (file : OpenFile) : Bool := file.f_mode &&& FMODE_WRITE ≠ 0

/-- The end of the hook: reserve, fill, submit. -/
def submitFile (K : Kernel) (file : OpenFile) (access : UInt32) (path : Option PathBuf) :
    List SecurityEvent :=
  let access := if file.isSensitive K then access ||| PQSEC_FA_SENSITIVE else access
  let access := if file.f_mode &&& FMODE_EXEC ≠ 0 then access ||| PQSEC_FA_EXEC else access
  match K.reserve with
  | none => []
  | some e =>
    let e := fillCommon K e PQSEC_EVT_FILE_OPEN
    [{ e with u := fillFile e.u access file.key path }]

/-- `handle_file_open`: the events it submits. -/
def handleFileOpen (K : Kernel) (file : OpenFile) : List SecurityEvent :=
  let sens := file.isSensitive K
  if !sens && !file.isWrite then []
  else if file.isWrite then
    match K.scratch with
    | none => []
    | some pb =>
      let (n, buf) := K.bpf_d_path.run file.path pb
      if n < 0 then []
      else if !sens && !isStaging buf.toList then []
      else submitFile K file PQSEC_FA_WRITE (some buf)
  else submitFile K file 0 none

/-! ## 4. What the filter is for -/

/-- A path in one of the staging directories. -/
def InStagingDir (path : Bytes) : Prop :=
  lit "/tmp/" <+: path ∨ lit "/var/tmp/" <+: path ∨ lit "/dev/shm/" <+: path

instance instDecidableInStagingDir (path : Bytes) : Decidable (InStagingDir path) :=
  inferInstanceAs (Decidable (_ ∨ _ ∨ _))

/-- The opens to report. -/
def Wanted (K : Kernel) (file : OpenFile) : Prop :=
  file.isSensitive K = true ∨ file.isWrite = true ∧ InStagingDir file.path

/-- The hook submits one event exactly for the opens to report, and its flags tell why. -/
def ReportedRight (K : Kernel) (file : OpenFile) : Prop :=
  ((∃ e, handleFileOpen K file = [e] ∧ e.type = PQSEC_EVT_FILE_OPEN) ↔ Wanted K file) ∧
    (¬ Wanted K file → handleFileOpen K file = []) ∧
    ∀ e ∈ handleFileOpen K file,
      (e.fileAccess &&& PQSEC_FA_SENSITIVE ≠ 0 ↔ file.isSensitive K = true) ∧
      (e.fileAccess &&& PQSEC_FA_WRITE ≠ 0 ↔ file.isWrite = true)

/-! ## 5. `is_staging` -/

/-- The buffer holds these bytes from index `i` on. -/
def SpelledAt (buf : Bytes) : ℕ → Bytes → Prop
  | _, [] => True
  | i, c :: cs => buf.getD i 0 = c ∧ SpelledAt buf (i + 1) cs

/-- Behind a path comes a NUL, so comparing bytes never runs past its end. -/
theorem spelledAt_iff {path buf cs : Bytes} {i : ℕ} (hbuf : path ++ [0] <+: buf) (hcs : 0 ∉ cs)
    (hi : i ≤ path.length) : SpelledAt buf i cs ↔ cs <+: path.drop i := by
  obtain ⟨junk, rfl⟩ := hbuf
  induction cs generalizing i with
  | nil => simp [SpelledAt]
  | cons c cs ih =>
    rw [List.mem_cons, not_or] at hcs
    rcases Nat.lt_or_ge i path.length with hlt | hge
    · have hat : (path ++ [0] ++ junk).getD i 0 = path[i] := by
        simp [List.getElem?_append_left, hlt]
      rw [SpelledAt, hat, List.drop_eq_getElem_cons hlt, List.cons_prefix_cons, ih hcs.2 hlt]
      exact and_congr_left fun _ => eq_comm
    · obtain rfl : i = path.length := Nat.le_antisymm hi hge
      have hat : (path ++ [0] ++ junk).getD path.length 0 = 0 := by simp
      rw [SpelledAt, hat, List.drop_length]
      simp [hcs.1]

/-- Over a buffer that holds a path, the byte comparisons test three prefixes. -/
theorem isStaging_eq {path buf : Bytes} (hbuf : path ++ [0] <+: buf) :
    isStaging buf = true ↔ InStagingDir path := by
  have h : ∀ dir, 0 ∉ dir → (dir <+: path ↔ SpelledAt buf 0 dir) := by
    intro dir hdir
    exact (spelledAt_iff hbuf hdir (Nat.zero_le _)).symm
  have htmp : lit "/tmp/" = ['/', 't', 'm', 'p', '/'].map Char.toUInt8 := by decide
  have hvar : lit "/var/tmp/" =
      ['/', 'v', 'a', 'r', '/', 't', 'm', 'p', '/'].map Char.toUInt8 := by decide
  have hshm : lit "/dev/shm/" =
      ['/', 'd', 'e', 'v', '/', 's', 'h', 'm', '/'].map Char.toUInt8 := by decide
  rw [InStagingDir, htmp, hvar, hshm, h _ (by decide), h _ (by decide), h _ (by decide)]
  simp [isStaging, SpelledAt, and_assoc, and_or_left]

/-! ## 6. What is submitted -/

theorem fileAccess_fillFile (e : SecurityEvent) (access : UInt32) (k : SensKey)
    (path : Option PathBuf) :
    SecurityEvent.fileAccess { e with u := fillFile e.u access k path } = access := by
  have hread : ∀ u : CharArray unionLen, (u.toList.drop 128).take 4 = toLe 4 access.toNat →
      UInt32.ofNat (ofLe ((u.toList.drop PQSEC_FILENAME_LEN).take 4)) = access := by
    intro u hu
    rw [hu, ofLe_toLe access.toNat_lt, UInt32.ofNat_toNat]
  refine hread _ ?_
  -- the later stores leave the four bytes of `access`
  have hstores : ∀ u : CharArray unionLen,
      (((((((u.store 128 (toLe 4 access.toNat)).store 132 (toLe 4 0)).store 148 (toLe 4 0)).store
        136 (toLe 8 k.ino.toNat)).store 144 (toLe 4 k.dev.toNat)).store 0 [0]).toList.drop 128).take
          4 = toLe 4 access.toNat := by
    intro u
    rw [CharArray.slice_store_of_disjoint (by simp [unionLen]) (by simp),
      CharArray.slice_store_of_disjoint (by simp [unionLen]) (by simp),
      CharArray.slice_store_of_disjoint (by simp [unionLen]) (by simp),
      CharArray.slice_store_of_disjoint (by simp [unionLen]) (by simp),
      CharArray.slice_store_of_disjoint (by simp [unionLen]) (by simp)]
    have hslice : ((u.store 128 (toLe 4 access.toNat)).toList.drop 128).take
        (toLe 4 access.toNat).length = toLe 4 access.toNat :=
      CharArray.slice_store (by simp [unionLen])
    rwa [length_toLe] at hslice
  cases path with
  | none => exact hstores e.u
  | some path =>
    have hlen := length_readStr PQSEC_FILENAME_LEN (by decide) path.toList
    have hfield : PQSEC_FILENAME_LEN = 128 := rfl
    have hunion : unionLen = 152 := rfl
    simp only [fillFile]
    rw [CharArray.slice_store_of_disjoint (by omega) (by omega)]
    exact hstores e.u

/-- The access word of an event: the mode bits it was built from. -/
def accessBits (write sens exec : Bool) : UInt32 :=
  let access := if write then PQSEC_FA_WRITE else 0
  let access := if sens then access ||| PQSEC_FA_SENSITIVE else access
  if exec then access ||| PQSEC_FA_EXEC else access

theorem accessBits_flags (write sens exec : Bool) :
    (accessBits write sens exec &&& PQSEC_FA_SENSITIVE ≠ 0 ↔ sens = true) ∧
      (accessBits write sens exec &&& PQSEC_FA_WRITE ≠ 0 ↔ write = true) := by
  cases write <;> cases sens <;> cases exec <;> decide

/-- One event, with its flags. -/
theorem submitFile_eq {K : Kernel} (file : OpenFile) {e : SecurityEvent}
    (hreserve : K.reserve = some e) (write : Bool) {access : UInt32}
    (haccess : access = if write then PQSEC_FA_WRITE else 0) (path : Option PathBuf) :
    ∃ e', submitFile K file access path = [e'] ∧ e'.type = PQSEC_EVT_FILE_OPEN ∧
      e'.fileAccess = accessBits write (file.isSensitive K) (file.f_mode &&& FMODE_EXEC ≠ 0) := by
  simp only [submitFile, hreserve, ← haccess, accessBits, decide_eq_true_eq]
  exact ⟨_, rfl, rfl, fileAccess_fillFile _ _ _ _⟩

/-- What the hook submits when memory is there: nothing for the opens it leaves early on, one
event otherwise. -/
theorem handleFileOpen_cases {K : Kernel} (file : OpenFile) {pb : PathBuf} {e : SecurityEvent}
    (hscratch : K.scratch = some pb) (hreserve : K.reserve = some e) :
    (handleFileOpen K file = [] ∧
        (file.isWrite = true ∧ PQSEC_FILENAME_LEN ≤ file.path.length ∨ ¬ Wanted K file)) ∨
      (∃ e', handleFileOpen K file = [e'] ∧ e'.type = PQSEC_EVT_FILE_OPEN ∧
          e'.fileAccess =
            accessBits file.isWrite (file.isSensitive K) (file.f_mode &&& FMODE_EXEC ≠ 0)) ∧
        ¬ (file.isWrite = true ∧ PQSEC_FILENAME_LEN ≤ file.path.length) ∧ Wanted K file := by
  cases hwrite : file.isWrite with
  | false =>
    cases hsens : file.isSensitive K with
    | false =>
      refine Or.inl ⟨by simp [handleFileOpen, hwrite, hsens], Or.inr ?_⟩
      simp [Wanted, hwrite, hsens]
    | true =>
      have hsubmit := submitFile_eq file hreserve false rfl none
      rw [hsens] at hsubmit
      exact Or.inr ⟨by simpa [handleFileOpen, hwrite, hsens] using hsubmit, by simp, Or.inl hsens⟩
  | true =>
    have hrun : handleFileOpen K file =
        if (K.bpf_d_path.run file.path pb).1 < 0 then []
        else if !file.isSensitive K && !isStaging (K.bpf_d_path.run file.path pb).2.toList then []
        else submitFile K file PQSEC_FA_WRITE (some (K.bpf_d_path.run file.path pb).2) := by
      simp [handleFileOpen, hwrite, hscratch]
    rcases Nat.lt_or_ge file.path.length PQSEC_FILENAME_LEN with hfits | hlong
    · obtain ⟨hn, hbuf⟩ := K.bpf_d_path.fits file.path pb hfits
      rw [hrun, if_neg (Int.not_lt.mpr hn)]
      have hstaging := isStaging_eq hbuf
      by_cases hwanted : Wanted K file
      · have hsubmit := submitFile_eq file hreserve true rfl
          (some (K.bpf_d_path.run file.path pb).2)
        refine Or.inr ⟨?_, by omega, hwanted⟩
        rw [if_neg]
        · exact hsubmit
        · rcases hwanted with hsens | ⟨-, hdir⟩
          · simp [hsens]
          · simp [hstaging.mpr hdir]
      · refine Or.inl ⟨?_, Or.inr hwanted⟩
        rw [Wanted, not_or, not_and] at hwanted
        rw [if_pos]
        simp [hwanted.1, hstaging.not.mpr (hwanted.2 hwrite)]
    · rw [hrun, if_pos (K.bpf_d_path.too_long file.path pb hlong)]
      exact Or.inl ⟨rfl, Or.inl ⟨rfl, hlong⟩⟩

/-! ## 7. The theorem -/

/-- **When the filter reports right.**  With the scratch buffer and a reservation at hand, the
hook reports exactly the opens it is meant to, unless one of them is an open for writing of a
path that does not fit the buffer: there it has left before the sensitive match is reported, and
before the path can be compared. -/
theorem file_open_reported_iff (K : Kernel) (file : OpenFile) {pb : PathBuf} {e : SecurityEvent}
    (hscratch : K.scratch = some pb) (hreserve : K.reserve = some e) :
    ReportedRight K file ↔
      ¬ (file.isWrite = true ∧ PQSEC_FILENAME_LEN ≤ file.path.length ∧
        (file.isSensitive K = true ∨ InStagingDir file.path)) := by
  have hwanted : file.isWrite = true →
      (Wanted K file ↔ file.isSensitive K = true ∨ InStagingDir file.path) := by
    intro hwrite
    simp [Wanted, hwrite]
  rcases handleFileOpen_cases file hscratch hreserve with
    ⟨hrun, hwhy⟩ | ⟨⟨e', hrun, htype, hflags⟩, hlate, hw⟩
  · rw [ReportedRight, hrun]
    constructor
    · rintro ⟨hiff, -⟩ ⟨hwrite, -, hdir⟩
      obtain ⟨e', he', -⟩ := hiff.mpr ((hwanted hwrite).mpr hdir)
      simp at he'
    · intro hcond
      have hnot : ¬ Wanted K file := by
        rcases hwhy with ⟨hwrite, hlong⟩ | hnot
        · intro hw
          exact hcond ⟨hwrite, hlong, (hwanted hwrite).mp hw⟩
        · exact hnot
      exact ⟨by simp [hnot], fun _ => rfl, by simp⟩
  · rw [ReportedRight, hrun]
    constructor
    · rintro - ⟨hwrite, hlong, -⟩
      exact hlate ⟨hwrite, hlong⟩
    · intro _
      refine ⟨⟨fun _ => hw, fun _ => ⟨e', rfl, htype⟩⟩, fun h => absurd hw h, ?_⟩
      intro e'' he''
      obtain rfl := List.mem_singleton.mp he''
      rw [hflags]
      exact accessBits_flags _ _ _

/-- `bpf_d_path` where it fits, `-ENAMETOOLONG` where it does not. -/
def plainDPath : DPath where
  run path buf :=
    if path.length < PQSEC_FILENAME_LEN then (path.length + 1, CharArray.ofBytes _ path)
    else (-36, buf)
  too_long path buf h := by
    rw [if_neg (Nat.not_lt.mpr h)]
    exact (by decide : (-36 : ℤ) < 0)
  fits path buf h := by
    rw [if_pos h]
    obtain ⟨k, hk⟩ := Nat.exists_eq_add_of_lt h
    refine ⟨by simp only; omega, List.replicate k 0, ?_⟩
    have hlist : (CharArray.ofBytes PQSEC_FILENAME_LEN path).toList =
        (path ++ List.replicate PQSEC_FILENAME_LEN 0).take PQSEC_FILENAME_LEN := rfl
    rw [hlist, List.take_append, List.take_of_length_le (by omega), List.take_replicate,
      List.append_assoc, Nat.min_eq_left (by omega),
      show PQSEC_FILENAME_LEN - path.length = k + 1 by omega]
    rfl

/-- A kernel that watches one inode. -/
def watchingKernel : Kernel where
  bpf_d_path := plainDPath
  sensitive_inodes := [⟨42, 8⟩]
  scratch := some (CharArray.ofBytes _ [])
  reserve := some SecurityEvent.zeroed
  task := ⟨7, CharArray.ofBytes _ (lit "sh"), []⟩
  ktime := 1

/-- A short path: the open for writing in `/tmp` is reported as it should be. -/
theorem file_open_reported_iff_staging :
    ReportedRight watchingKernel ⟨FMODE_WRITE, 7, 8, lit "/tmp/x", by decide, by decide⟩ :=
  (file_open_reported_iff watchingKernel _ rfl rfl).mpr (by decide)

/-- The watched inode, opened for writing through a name of 129 bytes: no event. -/
theorem file_open_misses_long_path :
    ∃ file : OpenFile, file.isSensitive watchingKernel = true ∧
      handleFileOpen watchingKernel file = [] ∧ ¬ ReportedRight watchingKernel file := by
  let file : OpenFile :=
    ⟨FMODE_WRITE, 42, 8, 47 :: List.replicate 128 97, by decide, by decide +kernel⟩
  have hrun : handleFileOpen watchingKernel file = [] := by decide +kernel
  refine ⟨file, by decide, hrun, ?_⟩
  rintro ⟨hiff, -⟩
  obtain ⟨e, he, -⟩ := hiff.mpr (Or.inl (by decide))
  rw [hrun] at he
  exact List.cons_ne_nil e [] he.symm

end PqcEdr.Agent
