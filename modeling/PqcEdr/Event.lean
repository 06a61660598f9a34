/-
# The event schema shared by the agent and the analyzer

`common/event.h`: one fixed-size record, sent as its own bytes.  The record's union is kept as
the 152 bytes it occupies, because that is how the analyzer receives it: a reader picks a member
by `type`, and nothing ties the bytes to the member that was written.  Every C string below is
read from its field's first byte up to the first NUL, as `strlen` would; what lies past the end
of the object is not modelled, so a string without a NUL in the whole union ends with it.
-/
import Mathlib.Algebra.Group.Nat.Defs
import Mathlib.Data.List.DropRight
import Mathlib.Order.Lattice

namespace PqcEdr

/-- A byte string: `std::vector<uint8_t>`, or the bytes of a `std::string`. -/
abbrev Bytes := List UInt8

/-- What holds of every byte of a string is decided along the string, not over the 256 bytes. -/
instance (priority := 1100) instDecidableForallMemBytes (p : UInt8 → Prop) [DecidablePred p]
    (s : Bytes) : Decidable (∀ c ∈ s, p c) :=
  List.decidableBAll p s

/-- The comparison of two strings is lawful, under one name for every test of membership. -/
instance instLawfulBEqBytes : LawfulBEq Bytes := inferInstance

/-- The bytes of a string literal of the source. -/
def lit (s : String) : Bytes := s.toUTF8.data.toList

/-! ## 1. Bytes in memory -/

/-- `char[n]`. -/
abbrev CharArray (n : ℕ) := Vector UInt8 n

/-- `strncpy` into a zeroed `char[n]`: cut to `n` bytes, padded with NULs. -/
def CharArray.ofBytes (n : ℕ) (s : Bytes) : CharArray n :=
  ⟨((s ++ List.replicate n 0).take n).toArray, by simp⟩

/-- The C string that starts at the first of these bytes. -/
def cString (mem : Bytes) : Bytes := mem.takeWhile (· ≠ 0)

/-- The little-endian value of some bytes. -/
def ofLe : Bytes → ℕ
  | [] => 0
  | b :: bs => b.toNat + 256 * ofLe bs

/-- The `k` little-endian bytes of a value. -/
def toLe : ℕ → ℕ → Bytes
  | 0, _ => []
  | k + 1, v => UInt8.ofNat (v % 256) :: toLe k (v / 256)

@[simp] theorem length_toLe (k v : ℕ) : (toLe k v).length = k := by
  induction k generalizing v with
  | zero => rfl
  | succ k ih => simp [toLe, ih]

/-- A value that fits is read back from its bytes. -/
theorem ofLe_toLe {k v : ℕ} (h : v < 256 ^ k) : ofLe (toLe k v) = v := by
  induction k generalizing v with
  | zero => simp at h; simp [toLe, ofLe, h]
  | succ k ih =>
    have hdiv : v / 256 < 256 ^ k := Nat.div_lt_of_lt_mul (by rw [Nat.pow_succ] at h; omega)
    have hmod : (UInt8.ofNat (v % 256)).toNat = v % 256 := by
      rw [UInt8.toNat_ofNat']
      omega
    rw [toLe, ofLe, ih hdiv, hmod]
    omega

theorem cString_append_zero {s t : Bytes} (h : 0 ∉ s) : cString (s ++ 0 :: t) = s := by
  have hs : ∀ b ∈ s, decide (b ≠ 0) = true := by
    intro b hb
    refine decide_eq_true ?_
    intro h0
    exact h (h0 ▸ hb)
  rw [cString, List.takeWhile_append_of_pos hs]
  simp

theorem not_mem_cString (s : Bytes) : 0 ∉ cString s := by
  intro h
  have := List.all_eq_true.mp (List.all_takeWhile (p := fun b => decide (b ≠ 0)) (l := s)) 0 h
  simp at this

theorem cString_eq_self {s : Bytes} (h : 0 ∉ s) : cString s = s := by
  rw [cString, List.takeWhile_eq_self_iff]
  intro c hc
  refine decide_eq_true ?_
  rintro rfl
  exact h hc

/-- A string that leaves room for its NUL is read back whole. -/
theorem cString_ofBytes {n : ℕ} {s : Bytes} (h : 0 ∉ s) (hn : s.length < n) (t : Bytes) :
    cString ((CharArray.ofBytes n s).toList ++ t) = s := by
  obtain ⟨m, hm⟩ : ∃ m, n - s.length = m + 1 := ⟨n - s.length - 1, by omega⟩
  have hlist : (CharArray.ofBytes n s).toList = s ++ 0 :: List.replicate m 0 := by
    have : (CharArray.ofBytes n s).toList = (s ++ List.replicate n 0).take n := rfl
    rw [this, List.take_append, List.take_of_length_le (by omega), List.take_replicate, hm,
      Nat.min_eq_left (by omega), List.replicate_succ]
  rw [hlist, List.append_assoc, List.cons_append, cString_append_zero h]

/-- Store some bytes at an offset. -/
def CharArray.store {n : ℕ} (a : CharArray n) (off : ℕ) (bytes : Bytes) : CharArray n :=
  CharArray.ofBytes n (a.toList.take off ++ bytes ++ a.toList.drop (off + bytes.length))

theorem CharArray.toList_ofBytes {n : ℕ} {s : Bytes} (h : s.length = n) :
    (CharArray.ofBytes n s).toList = s := by
  have : (CharArray.ofBytes n s).toList = (s ++ List.replicate n 0).take n := rfl
  rw [this, ← h, List.take_left]

theorem CharArray.getElem?_store {n : ℕ} {a : CharArray n} {off : ℕ} {bytes : Bytes}
    (h : off + bytes.length ≤ n) (i : ℕ) :
    (a.store off bytes).toList[i]? =
      if off ≤ i ∧ i < off + bytes.length then bytes[i - off]? else a.toList[i]? := by
  have hlen : a.toList.length = n := a.length_toList
  have htake : (a.toList.take off).length = off := by
    rw [List.length_take]
    omega
  rw [store, toList_ofBytes (by simp; omega), List.append_assoc]
  rcases Nat.lt_or_ge i off with hlt | hge
  · rw [List.getElem?_append_left (by omega), List.getElem?_take, if_pos hlt, if_neg (by omega)]
  · rw [List.getElem?_append_right (by omega), htake]
    rcases Nat.lt_or_ge i (off + bytes.length) with hin | hout
    · rw [List.getElem?_append_left (by omega), if_pos ⟨hge, hin⟩]
    · rw [List.getElem?_append_right (by omega), List.getElem?_drop, if_neg (by omega)]
      congr 1
      omega

/-- The bytes just stored. -/
theorem CharArray.slice_store {n : ℕ} {a : CharArray n} {off : ℕ} {bytes : Bytes}
    (h : off + bytes.length ≤ n) :
    ((a.store off bytes).toList.drop off).take bytes.length = bytes := by
  refine List.ext_getElem? fun i => ?_
  rw [List.getElem?_take, List.getElem?_drop, getElem?_store h]
  grind

/-- A store leaves what it does not touch. -/
theorem CharArray.slice_store_of_disjoint {n : ℕ} {a : CharArray n} {off o k : ℕ} {bytes : Bytes}
    (h : off + bytes.length ≤ n) (hdisj : o + k ≤ off ∨ off + bytes.length ≤ o) :
    ((a.store off bytes).toList.drop o).take k = (a.toList.drop o).take k := by
  refine List.ext_getElem? fun i => ?_
  rw [List.getElem?_take, List.getElem?_take, List.getElem?_drop, List.getElem?_drop,
    getElem?_store h]
  grind

instance instLinearOrderUInt32 : LinearOrder UInt32 where
  le := (· ≤ ·)
  lt := (· < ·)
  le_refl := UInt32.le_refl
  le_trans _ _ _ := UInt32.le_trans
  le_antisymm _ _ := UInt32.le_antisymm
  le_total := UInt32.le_total
  lt_iff_le_not_ge a b := by
    simp only [UInt32.lt_iff_toNat_lt, UInt32.le_iff_toNat_le]
    omega
  toDecidableLE := inferInstance
  toDecidableLT := inferInstance

/-! ## 2. `security_event` -/

abbrev PQSEC_COMM_LEN : ℕ := 16
abbrev PQSEC_FILENAME_LEN : ℕ := 128
abbrev PQSEC_ANCESTORS : ℕ := 4

/-- `sizeof` of the union `u`: its longest member is `pqsec_file_event`. -/
abbrev unionLen : ℕ := 152

/-! `enum pqsec_event_type`, compared with a `__u32` that may hold any value. -/

def PQSEC_EVT_EXECVE : UInt32 := 1
def PQSEC_EVT_TCP_CONNECT : UInt32 := 2
def PQSEC_EVT_AGENT_DROP : UInt32 := 3
def PQSEC_EVT_FILE_OPEN : UInt32 := 4

/-! `enum pqsec_file_access`, a bit mask. -/

def PQSEC_FA_WRITE : UInt32 := 1
def PQSEC_FA_CREATE : UInt32 := 2
def PQSEC_FA_SENSITIVE : UInt32 := 4
def PQSEC_FA_EXEC : UInt32 := 8

/-- `pqsec_ancestor`: one generation of the process that raised the event. -/
structure Ancestor where
  pid : UInt32
  comm : CharArray PQSEC_COMM_LEN
  deriving DecidableEq

/-- `security_event`, the single record that crosses the ring buffer and the channel. -/
structure SecurityEvent where
  type : UInt32
  pid : UInt32
  ppid : UInt32
  pad : UInt32
  ts_ns : UInt64
  comm : CharArray PQSEC_COMM_LEN
  anc : Vector Ancestor PQSEC_ANCESTORS
  u : CharArray unionLen
  deriving DecidableEq

namespace SecurityEvent

/-- The record as it is sealed: `Bytes(p, p + sizeof(ev))`. -/
def toBytes (ev : SecurityEvent) : Bytes :=
  toLe 4 ev.type.toNat ++ toLe 4 ev.pid.toNat ++ toLe 4 ev.ppid.toNat ++ toLe 4 ev.pad.toNat
    ++ toLe 8 ev.ts_ns.toNat ++ ev.comm.toList
    ++ (ev.anc.toList.map fun a => toLe 4 a.pid.toNat ++ a.comm.toList).flatten ++ ev.u.toList

/-- `sizeof(security_event)`. -/
def sizeOf : ℕ := 272

theorem length_ancestors (l : List Ancestor) :
    ((l.map fun a => toLe 4 a.pid.toNat ++ a.comm.toList).flatten).length = 20 * l.length := by
  induction l with
  | nil => rfl
  | cons a l ih =>
    have hcomm : a.comm.toList.length = 16 := a.comm.length_toList
    rw [List.map_cons, List.flatten_cons, List.length_append, ih, List.length_append, length_toLe,
      hcomm, List.length_cons]
    omega

/-- Every record has the same size on the wire. -/
theorem length_toBytes (ev : SecurityEvent) : ev.toBytes.length = sizeOf := by
  have hcomm : ev.comm.toList.length = 16 := ev.comm.length_toList
  have hanc : ev.anc.toList.length = 4 := ev.anc.length_toList
  have hu : ev.u.toList.length = 152 := ev.u.length_toList
  simp only [toBytes, List.length_append, length_toLe, length_ancestors, hcomm, hanc, hu, sizeOf]

/-! The process name, bounded by its field (`strnlen(ev.comm, sizeof(ev.comm))`). -/

def commStr (ev : SecurityEvent) : Bytes := cString ev.comm.toList

/-- `ev.comm` as a `const char *`, which nothing bounds by its field. -/
def commPtr (ev : SecurityEvent) : Bytes := cString (ev.toBytes.drop 24)

/-! ### The members of the union -/

/-- `u.execve.filename` as a `const char *`. -/
def execveFilename (ev : SecurityEvent) : Bytes := cString ev.u.toList

/-- `u.tcp.daddr`, stored in network byte order and read as a little-endian integer. -/
def tcpDaddr (ev : SecurityEvent) : UInt32 := UInt32.ofNat (ofLe (ev.u.toList.take 4))

def tcpDport (ev : SecurityEvent) : UInt16 := UInt16.ofNat (ofLe ((ev.u.toList.drop 4).take 2))

def tcpFamily (ev : SecurityEvent) : UInt8 := ev.u.toList.getD 6 0

/-- `u.file.path` as a `const char *`. -/
def filePath (ev : SecurityEvent) : Bytes := cString ev.u.toList

def fileAccess (ev : SecurityEvent) : UInt32 :=
  UInt32.ofNat (ofLe ((ev.u.toList.drop PQSEC_FILENAME_LEN).take 4))

def fileIno (ev : SecurityEvent) : UInt64 := UInt64.ofNat (ofLe ((ev.u.toList.drop 136).take 8))

def fileDev (ev : SecurityEvent) : UInt32 := UInt32.ofNat (ofLe ((ev.u.toList.drop 144).take 4))

def dropDropped (ev : SecurityEvent) : UInt64 := UInt64.ofNat (ofLe (ev.u.toList.take 8))

def dropDroppedTotal (ev : SecurityEvent) : UInt64 :=
  UInt64.ofNat (ofLe ((ev.u.toList.drop 8).take 8))

def dropSentTotal (ev : SecurityEvent) : UInt64 :=
  UInt64.ofNat (ofLe ((ev.u.toList.drop 16).take 8))

/-! ### Building a record -/

/-- `security_event e{}`. -/
def zeroed : SecurityEvent where
  type := 0
  pid := 0
  ppid := 0
  pad := 0
  ts_ns := 0
  comm := CharArray.ofBytes _ []
  anc := ⟨(List.replicate PQSEC_ANCESTORS ⟨0, CharArray.ofBytes _ []⟩).toArray, by simp⟩
  u := CharArray.ofBytes _ []

/-- An EXECVE record, as `syn_execve` fills it. -/
def synExecve (comm file : Bytes) (pid ppid : UInt32) (ts : UInt64) : SecurityEvent :=
  { zeroed with
    type := PQSEC_EVT_EXECVE
    pid := pid
    ppid := ppid
    ts_ns := ts
    comm := CharArray.ofBytes _ (comm.take (PQSEC_COMM_LEN - 1))
    u := CharArray.ofBytes _ (file.take (PQSEC_FILENAME_LEN - 1)) }

/-- A TCP_CONNECT record, as `syn_tcp` fills it. -/
def synTcp (comm : Bytes) (daddr : UInt32) (port : UInt16) (pid ppid : UInt32) (ts : UInt64) :
    SecurityEvent :=
  { zeroed with
    type := PQSEC_EVT_TCP_CONNECT
    pid := pid
    ppid := ppid
    ts_ns := ts
    comm := CharArray.ofBytes _ (comm.take (PQSEC_COMM_LEN - 1))
    u := CharArray.ofBytes _ (toLe 4 daddr.toNat ++ toLe 2 port.toNat ++ [2]) }

/-- A FILE_OPEN record with the given access bits, as the `fileopen` line of a replay file
fills it (inode and device left 0). -/
def synFileOpen (comm path : Bytes) (access pid ppid : UInt32) (ts : UInt64) : SecurityEvent :=
  { zeroed with
    type := PQSEC_EVT_FILE_OPEN
    pid := pid
    ppid := ppid
    ts_ns := ts
    comm := CharArray.ofBytes _ (comm.take (PQSEC_COMM_LEN - 1))
    u := CharArray.ofBytes _
      ((CharArray.ofBytes PQSEC_FILENAME_LEN (path.take (PQSEC_FILENAME_LEN - 1))).toList
        ++ toLe 4 access.toNat) }

/-- The union of a FILE_OPEN record: the path's field, the access bits, zeros. -/
theorem u_synFileOpen (comm path : Bytes) (access pid ppid : UInt32) (ts : UInt64) :
    (synFileOpen comm path access pid ppid ts).u.toList =
      (CharArray.ofBytes PQSEC_FILENAME_LEN (path.take (PQSEC_FILENAME_LEN - 1))).toList
        ++ (toLe 4 access.toNat ++ List.replicate 20 0) := by
  let field := CharArray.ofBytes PQSEC_FILENAME_LEN (path.take (PQSEC_FILENAME_LEN - 1))
  have hu : (synFileOpen comm path access pid ppid ts).u.toList =
      ((field.toList ++ toLe 4 access.toNat) ++ List.replicate unionLen 0).take unionLen := rfl
  have hfield : field.toList.length = 128 := field.length_toList
  have hacc : (toLe 4 access.toNat).length = 4 := length_toLe _ _
  rw [hu, List.append_assoc, List.take_append, List.take_of_length_le (by rw [hfield]; decide),
    hfield, List.take_append, List.take_of_length_le (by rw [hacc]; decide), hacc,
    List.take_replicate]
  rfl

/-- A path that fits its field is the path the analyzer reads. -/
theorem filePath_synFileOpen {comm path : Bytes} {access pid ppid : UInt32} {ts : UInt64}
    (h : 0 ∉ path) (hlen : path.length < PQSEC_FILENAME_LEN) :
    (synFileOpen comm path access pid ppid ts).filePath = path := by
  rw [filePath, u_synFileOpen, List.take_of_length_le (Nat.le_sub_one_of_lt hlen),
    cString_ofBytes h hlen]

theorem fileAccess_synFileOpen (comm path : Bytes) (access pid ppid : UInt32) (ts : UInt64) :
    (synFileOpen comm path access pid ppid ts).fileAccess = access := by
  have hfield : (CharArray.ofBytes PQSEC_FILENAME_LEN
      (path.take (PQSEC_FILENAME_LEN - 1))).toList.length = PQSEC_FILENAME_LEN :=
    (CharArray.ofBytes PQSEC_FILENAME_LEN (path.take (PQSEC_FILENAME_LEN - 1))).length_toList
  rw [fileAccess, u_synFileOpen, List.drop_left' hfield,
    List.take_left' (length_toLe 4 access.toNat), ofLe_toLe access.toNat_lt, UInt32.ofNat_toNat]

/-- The union of a TCP_CONNECT record: address, port, family, zeros. -/
theorem u_synTcp (comm : Bytes) (daddr : UInt32) (port : UInt16) (pid ppid : UInt32)
    (ts : UInt64) : (synTcp comm daddr port pid ppid ts).u.toList =
      (toLe 4 daddr.toNat ++ (toLe 2 port.toNat ++ (2 :: List.replicate unionLen 0))).take
        unionLen := by
  have hu : (synTcp comm daddr port pid ppid ts).u.toList =
      ((toLe 4 daddr.toNat ++ toLe 2 port.toNat ++ [2]) ++ List.replicate unionLen 0).take
        unionLen := rfl
  rw [hu, List.append_assoc, List.append_assoc, List.singleton_append]

theorem tcpDaddr_synTcp (comm : Bytes) (daddr : UInt32) (port : UInt16) (pid ppid : UInt32)
    (ts : UInt64) : (synTcp comm daddr port pid ppid ts).tcpDaddr = daddr := by
  rw [tcpDaddr, u_synTcp, List.take_take, Nat.min_eq_left (by decide),
    List.take_left' (length_toLe 4 _), ofLe_toLe daddr.toNat_lt, UInt32.ofNat_toNat]

theorem tcpDport_synTcp (comm : Bytes) (daddr : UInt32) (port : UInt16) (pid ppid : UInt32)
    (ts : UInt64) : (synTcp comm daddr port pid ppid ts).tcpDport = port := by
  rw [tcpDport, u_synTcp, List.drop_take, List.drop_left' (length_toLe 4 _), List.take_take,
    Nat.min_eq_left (by decide), List.take_left' (length_toLe 2 _), ofLe_toLe port.toNat_lt,
    UInt16.ofNat_toNat]

example : (synFileOpen (lit "sh") (lit "/tmp/a") 1 7 6 0).filePath = lit "/tmp/a" := by decide

end SecurityEvent

end PqcEdr
