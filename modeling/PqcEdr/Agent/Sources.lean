/-
# Where the agent's events come from

`agent/src/main.cpp`: whatever the mode, one sink is handed one event after another.  They are the
records of the ring buffer, the five of `run_synthetic`, or those of a replay file, which get the
time of their replay.  Before the collector is attached, the map of the file hook is filled from
a list of paths.

* `mem_populateSensitive_iff`: the map holds the first 64 files of the list, each under the
  identity that the kernel will look it up by.
* `handles_terminated`: in every mode the texts of an event have their NUL.
-/
import Mathlib.Tactic.IntervalCases
import PqcEdr.Agent.Hooks
import PqcEdr.EventsFile.Format
import PqcEdr.Crypto.Record
import PqcEdr.Lib.Budget

namespace PqcEdr.Agent

open EventsFile Crypto

/-! ## 1. `populate_sensitive` -/

/-- The fields of `struct stat` that are read. -/
structure Stat where
  st_ino : UInt64
  st_dev : UInt64

/-- The C library's `major` and `minor`. -/
def major (dev : UInt64) : UInt32 :=
  ((dev &&& (0xfff00 : UInt64)) >>> 8 ||| (dev &&& (0xfffff00000000000 : UInt64)) >>> 32).toUInt32

def minor (dev : UInt64) : UInt32 :=
  (dev &&& (0xff : UInt64) ||| (dev &&& (0xffffff00000 : UInt64)) >>> 12).toUInt32

/-- The key of a file, its device put together as the kernel does. -/
def Stat.key (st : Stat) : SensKey :=
  ⟨st.st_ino, major st.st_dev <<< 20 ||| (minor st.st_dev &&& (0xfffff : UInt32))⟩

/-- `max_entries` of the map. -/
def kMaxSensitive : ℕ := 64

/-- `bpf_map__update_elem` with `BPF_ANY`: a full map takes no new key. -/
def updateElem (map : List SensKey) (k : SensKey) : Option (List SensKey) :=
  if k ∈ map then some map
  else if map.length < kMaxSensitive then some (map ++ [k])
  else none

def kDefault : List Bytes :=
  [lit "/etc/shadow", lit "/etc/gshadow", lit "/etc/sudoers", lit "/root/.ssh/authorized_keys"]

def sensitiveList (files : List Bytes) : List Bytes := if files = [] then kDefault else files

/-- One turn of the loop, on the map and the count. -/
def populateOne (stat : Bytes → Option Stat) (s : List SensKey × ℕ) (f : Bytes) :
    List SensKey × ℕ :=
  match stat f with
  | none => s
  | some st =>
    match updateElem s.1 st.key with
    | none => s
    | some map => (map, s.2 + 1)

/-- The map and the `n` of the message. -/
def populateSensitive (stat : Bytes → Option Stat) (files : List Bytes) : List SensKey × ℕ :=
  (sensitiveList files).foldl (populateOne stat) ([], 0)

/-! ## 2. The identity of a file -/

/-- The kernel's `new_encode_dev`: how a device number leaves it. -/
def newEncodeDev (dev : UInt32) : UInt32 :=
  let major : UInt32 := dev >>> 20
  let minor : UInt32 := dev &&& (0xfffff : UInt32)
  minor &&& (0xff : UInt32) ||| major <<< 8 ||| (minor &&& ~~~(0xff : UInt32)) <<< 12

/-- `stat`, over the inode that the path leads to. -/
def statOf (inodeOf : Bytes → Option SensKey) (path : Bytes) : Option Stat :=
  (inodeOf path).map fun k => ⟨k.ino, (newEncodeDev k.dev).toUInt64⟩

/-- The device number comes back as it was in the kernel. -/
theorem dev_newEncodeDev (dev : UInt32) : major (newEncodeDev dev).toUInt64 <<< 20 |||
    (minor (newEncodeDev dev).toUInt64 &&& (0xfffff : UInt32)) = dev := by
  have hhigh : ∀ (v : UInt32) (k : ℕ), 32 ≤ k → v.toNat.testBit k = false := by
    intro v k hk
    exact Nat.testBit_lt_two_pow (v.toNat_lt.trans_le (Nat.pow_le_pow_right (by decide) hk))
  rw [← UInt32.toNat_inj]
  refine Nat.eq_of_testBit_eq fun i => ?_
  rcases Nat.lt_or_ge i 32 with hlt | hge
  · -- the places of one bit, for each of the 32
    have hdev := hhigh dev
    simp only [major, minor, newEncodeDev, UInt32.toNat_or, UInt32.toNat_and,
      UInt32.toNat_shiftLeft, UInt32.toNat_shiftRight, UInt64.toNat_toUInt32, UInt64.toNat_or,
      UInt64.toNat_and, UInt64.toNat_shiftRight, UInt32.toNat_toUInt64, UInt32.toNat_not,
      Nat.testBit_or, Nat.testBit_and, Nat.testBit_mod_two_pow, Nat.testBit_shiftLeft,
      Nat.testBit_shiftRight]
    generalize Nat.testBit dev.toNat = bit at hdev ⊢
    interval_cases i <;> simp [Nat.testBit_eq_decide_div_mod_eq, hdev]
  · rw [hhigh _ _ hge, hhigh _ _ hge]

theorem key_statOf {inodeOf : Bytes → Option SensKey} {path : Bytes} :
    (statOf inodeOf path).map Stat.key = inodeOf path := by
  have hkey : ∀ k : SensKey, Stat.key ⟨k.ino, (newEncodeDev k.dev).toUInt64⟩ = k := by
    rintro ⟨ino, dev⟩
    exact congrArg (SensKey.mk ino) (dev_newEncodeDev dev)
  rw [statOf, Option.map_map]
  cases inodeOf path with
  | none => rfl
  | some k => exact congrArg some (hkey k)

/-! ## 3. Which files are watched -/

/-- The first of equal keys, up to the map's size. -/
def firstKeys (keys : List SensKey) : List SensKey := Budget.admitted kMaxSensitive keys

/-- A key behind others is stored, was there, or finds the map full. -/
theorem updateElem_firstKeys (keys : List SensKey) (k : SensKey) :
    (updateElem (firstKeys keys) k).getD (firstKeys keys) = firstKeys (keys ++ [k]) := by
  unfold updateElem firstKeys
  by_cases hmem : k ∈ Budget.admitted kMaxSensitive keys
  · rw [if_pos hmem, Budget.admitted_append_of_mem hmem]
    rfl
  · rw [if_neg hmem]
    by_cases hroom : (Budget.admitted kMaxSensitive keys).length < kMaxSensitive
    · rw [if_pos hroom, Budget.admitted_append_of_new hmem hroom]
      rfl
    · rw [if_neg hroom, Budget.admitted_append_of_full (Nat.le_of_not_lt hroom)]
      rfl

theorem populateOne_fst (stat : Bytes → Option Stat) (s : List SensKey × ℕ) (f : Bytes) :
    (populateOne stat s f).1 =
      ((stat f).map Stat.key).elim s.1 fun k => (updateElem s.1 k).getD s.1 := by
  unfold populateOne
  cases stat f with
  | none => rfl
  | some st => cases h : updateElem s.1 st.key <;> simp [h]

theorem populate_fst (stat : Bytes → Option Stat) (list : List Bytes) :
    (list.foldl (populateOne stat) ([], 0)).1 =
      firstKeys (list.filterMap fun f => (stat f).map Stat.key) := by
  induction list using List.reverseRecOn with
  | nil => rfl
  | append_singleton list f ih =>
    rw [List.foldl_append, List.foldl_cons, List.foldl_nil, List.filterMap_append,
      populateOne_fst, ih]
    cases hkey : (stat f).map Stat.key with
    | none => simp [hkey]
    | some k =>
      have hlast : [f].filterMap (fun f => (stat f).map Stat.key) = [k] := by simp [hkey]
      rw [hlast, ← updateElem_firstKeys]
      rfl

/-- **The files that are watched.**  A key is in the map exactly when it is the identity, in the
kernel, of one of the first 64 different files that the list leads to. -/
theorem mem_populateSensitive_iff (inodeOf : Bytes → Option SensKey) (files : List Bytes)
    (k : SensKey) : k ∈ (populateSensitive (statOf inodeOf) files).1 ↔
      k ∈ firstKeys ((sensitiveList files).filterMap inodeOf) := by
  rw [populateSensitive, populate_fst]
  simp only [key_statOf]

/-- With no more than 64 paths, every file that one of them leads to is watched. -/
theorem mem_populateSensitive_of_few {inodeOf : Bytes → Option SensKey} {files : List Bytes}
    (hfew : (sensitiveList files).length ≤ kMaxSensitive) {path : Bytes} {k : SensKey}
    (hpath : path ∈ sensitiveList files) (hk : inodeOf path = some k) :
    k ∈ (populateSensitive (statOf inodeOf) files).1 := by
  have hlen := (List.length_filterMap_le inodeOf (sensitiveList files)).trans hfew
  rw [mem_populateSensitive_iff, firstKeys, Budget.admitted, List.take_of_length_le]
  · exact List.mem_eraseDups.mpr (List.mem_filterMap.mpr ⟨path, hpath, hk⟩)
  · exact (Budget.length_eraseDups_le _).trans hlen

/-! ## 4. The sources -/

/-- `syn_tcp`: `inet_pton` may refuse the text. -/
def synTcp (comm : Bytes) (ip : String) (port : UInt16) (pid ppid : UInt32) (ts : UInt64) :
    Result SecurityEvent :=
  match inetPton (lit ip) with
  | none => .error (.runtime_error ("잘못된 IPv4 주소: " ++ ip))
  | some daddr => .ok (.synTcp comm daddr port pid ppid ts)

/-- The array of `run_synthetic`; `now` answers the calls of `now_ns`. -/
def synthetic (now : ℕ → UInt64) : Result (List SecurityEvent) := do
  let ls := SecurityEvent.synExecve (lit "bash") (lit "/usr/bin/ls") 4242 4200 (now 0)
  let xmrig := SecurityEvent.synExecve (lit "bash") (lit "/tmp/xmrig") 4242 4200 (now 1)
  let curl := SecurityEvent.synExecve (lit "bash") (lit "/usr/bin/curl") 4242 4200 (now 2)
  let beacon ← synTcp (lit "beacon") "45.9.148.99" 4444 4242 4200 (now 3)
  let app ← synTcp (lit "app") "10.0.0.5" 443 4242 4200 (now 4)
  return [ls, xmrig, curl, beacon, app]

/-- The events that the callback of `run_replay` hands to the sink, after `n` of them. -/
def replayEvents (now : ℕ → UInt64) : ℕ → List Entry → List SecurityEvent
  | _, [] => []
  | n, .directive _ _ :: es => replayEvents now n es
  | n, .delay _ _ _ :: es => replayEvents now n es
  | n, .event ev _ _ :: es => { ev with ts_ns := now n } :: replayEvents now (n + 1) es

/-- A mode of the agent. -/
inductive Source
  /-- The hooks, in the order of their records in the ring buffer. -/
  | collector (calls : List (Kernel × Occurrence))
  | synthetic (now : ℕ → UInt64)
  | replay (text : Bytes) (path : String) (now : ℕ → UInt64)

/-- The events for which `handle` is called, and the exception that ends the mode. -/
def Source.run : Source → List SecurityEvent × Option Exn
  | .collector calls => (calls.flatMap fun x => submits x.1 x.2, none)
  | .synthetic now =>
    match Agent.synthetic now with
    | .error e => ([], some e)
    | .ok evs => (evs, none)
  | .replay text path now =>
    (replayEvents now 0 (parse text path).1, (parse text path).2)

/-! ## 5. What they have in common -/

theorem zero_mem_ofBytes {n : ℕ} {s : Bytes} (h : s.length < n) :
    0 ∈ (CharArray.ofBytes n s).toList := by
  obtain ⟨k, hk⟩ := Nat.exists_eq_add_of_lt h
  have hlist : (CharArray.ofBytes n s).toList = (s ++ List.replicate n 0).take n := rfl
  rw [hlist, List.take_append, List.take_of_length_le h.le, List.take_replicate,
    Nat.min_eq_left (by omega), show n - s.length = k + 1 by omega, List.replicate_succ]
  simp

theorem zero_mem_field (n : ℕ) (hn : 0 < n) (s : Bytes) : 0 ∈ (field n s).toList := by
  refine zero_mem_ofBytes ?_
  rw [List.length_take]
  omega

/-- `strncpy` into a zeroed field, one byte short of it. -/
theorem zero_mem_strncpy {n : ℕ} (hn : 0 < n) (s : Bytes) :
    0 ∈ (CharArray.ofBytes n (s.take (n - 1))).toList := by
  refine zero_mem_ofBytes ?_
  rw [List.length_take]
  omega

/-- A zeroed union with so few bytes at its start has zeros behind them. -/
theorem zero_mem_member {s : Bytes} (h : s.length < PQSEC_FILENAME_LEN) :
    0 ∈ (CharArray.ofBytes unionLen s).toList.take PQSEC_FILENAME_LEN := by
  have hfield : 0 ∈ (CharArray.ofBytes PQSEC_FILENAME_LEN s).toList := zero_mem_ofBytes h
  have hlist : ∀ n, (CharArray.ofBytes n s).toList = (s ++ List.replicate n 0).take n := fun _ => rfl
  rw [hlist] at hfield ⊢
  rw [List.take_take, Nat.min_eq_left (by decide)]
  rw [List.take_append, List.take_of_length_le h.le, List.take_replicate] at hfield ⊢
  rw [Nat.min_eq_left (Nat.sub_le _ _)] at hfield
  rwa [Nat.min_eq_left ((Nat.sub_le _ _).trans (by decide))]

theorem terminated_synExecve (comm file : Bytes) (pid ppid : UInt32) (ts : UInt64) :
    Terminated (.synExecve comm file pid ppid ts) := by
  refine ⟨zero_mem_strncpy (by decide) comm, fun _ => zero_mem_member ?_⟩
  rw [List.length_take]
  have hfield : PQSEC_FILENAME_LEN = 128 := rfl
  omega

theorem terminated_synTcp (comm : Bytes) (daddr : UInt32) (port : UInt16) (pid ppid : UInt32)
    (ts : UInt64) : Terminated (.synTcp comm daddr port pid ppid ts) := by
  refine ⟨zero_mem_strncpy (by decide) comm, fun h => ?_⟩
  rcases h with h | h <;> exact absurd h (by simp [SecurityEvent.synTcp]; decide)

/-- The loop over the ancestors writes nothing else. -/
theorem parseTokens_fields (toks : List Bytes) (ev : SecurityEvent) :
    (parseTokens toks ev).comm = ev.comm ∧ (parseTokens toks ev).u = ev.u ∧
      (parseTokens toks ev).type = ev.type := by
  induction toks generalizing ev with
  | nil => exact ⟨rfl, rfl, rfl⟩
  | cons tok toks ih =>
    obtain ⟨hcomm, hu, htype⟩ := ih (if (lit "anc:").isPrefixOf tok then parseAncestry tok ev else ev)
    have hone : ∀ b : Bool, (if b then parseAncestry tok ev else ev).comm = ev.comm ∧
        (if b then parseAncestry tok ev else ev).u = ev.u ∧
        (if b then parseAncestry tok ev else ev).type = ev.type := by
      intro b
      cases b <;> exact ⟨rfl, rfl, rfl⟩
    obtain ⟨hcomm', hu', htype'⟩ := hone ((lit "anc:").isPrefixOf tok)
    exact ⟨hcomm.trans hcomm', hu.trans hu', htype.trans htype'⟩

/-- A member that `parse` fills has its NUL where its type has a path. -/
theorem zero_mem_parseMember {kind s rest : Bytes} {type : UInt32} {u : CharArray unionLen}
    (h : parseMember kind s = .ok (type, u, rest))
    (htype : type = PQSEC_EVT_EXECVE ∨ type = PQSEC_EVT_FILE_OPEN) :
    0 ∈ u.toList.take PQSEC_FILENAME_LEN := by
  have hwhole : ∀ (x : Bytes) (tail : Bytes),
      0 ∈ (CharArray.ofBytes unionLen ((field PQSEC_FILENAME_LEN x).toList ++ tail)).toList.take
        PQSEC_FILENAME_LEN := by
    intro x tail
    have hlen : (field PQSEC_FILENAME_LEN x).toList.length = PQSEC_FILENAME_LEN :=
      Vector.length_toList
    have hlist : (CharArray.ofBytes unionLen ((field PQSEC_FILENAME_LEN x).toList ++ tail)).toList =
        ((field PQSEC_FILENAME_LEN x).toList ++ tail ++ List.replicate unionLen 0).take unionLen :=
      rfl
    rw [hlist, List.take_take, Nat.min_eq_left (by decide), List.append_assoc,
      List.take_append_of_le_length hlen.ge, List.take_of_length_le hlen.le]
    exact zero_mem_field _ (by decide) x
  unfold parseMember at h
  split at h
  · split at h
    · cases h
    · next file _ _ =>
      cases h
      have hfile := hwhole (decodeField file) []
      rwa [List.append_nil] at hfile
  · split at h
    · split at h
      · cases h
      · split at h
        · cases h
        · cases h
          rcases htype with h | h <;> exact absurd h (by decide)
    · split at h
      · split at h
        · cases h
        · cases h
          rw [fileMember, List.append_assoc, List.append_assoc, List.append_assoc]
          exact hwhole _ _
      · cases h

theorem terminated_parseEvent {kind s : Bytes} {ev : SecurityEvent}
    (h : parseEvent kind s = .ok ev) : Terminated ev := by
  unfold parseEvent at h
  split at h
  · cases h
  · next pid ppid comm s' _ =>
    rcases hmember : parseMember kind s' with why | ⟨type, u, rest⟩
    · rw [hmember] at h
      cases h
    · rw [hmember] at h
      obtain ⟨hcomm, hu, htype⟩ := parseTokens_fields (TextInput.words rest)
        { SecurityEvent.zeroed with
          type := type, pid := pid, ppid := ppid, comm := field _ (decodeField comm), u := u }
      have hev : _ = ev := Except.ok.inj h
      rw [hev] at hcomm hu htype
      refine ⟨?_, fun hpath => ?_⟩
      · rw [hcomm]
        exact zero_mem_field _ (by decide) _
      · rw [htype] at hpath
        rw [hu]
        exact zero_mem_parseMember hmember hpath

/-- Every event of a replay file is what `parse` made of a line's fields. -/
theorem exists_parseEvent (name : String) {ls : List Bytes} {lineno k : ℕ}
    {ev : SecurityEvent} {expect : Bytes}
    (h : Entry.event ev expect k ∈ (parseLines name lineno ls).1) :
    ∃ kind s, parseEvent kind s = .ok ev := by
  induction ls generalizing lineno with
  | nil => cases h
  | cons line rest ih =>
    unfold parseLines at h
    split at h
    · cases h
    · exact ih h
    · next e he =>
      rcases List.mem_cons.mp h with rfl | hrest
      · unfold parseLine at he
        dsimp only at he
        split at he
        · split at he <;> cases he
        · next kind s _ =>
          split at he
          · rcases hdelay : parseDelay _ with why | ms
            · rw [hdelay] at he
              cases he
            · rw [hdelay] at he
              cases he
          · rcases hevent : parseEvent kind s with why | ev'
            · rw [hevent] at he
              cases he
            · rw [hevent] at he
              cases he
              exact ⟨kind, s, hevent⟩
      · exact ih hrest

theorem mem_replayEvents {now : ℕ → UInt64} {es : List Entry} {n : ℕ} {ev : SecurityEvent}
    (h : ev ∈ replayEvents now n es) :
    ∃ ev' expect line k, Entry.event ev' expect line ∈ es ∧ ev = { ev' with ts_ns := now k } := by
  induction es generalizing n with
  | nil => cases h
  | cons e es ih =>
    cases e with
    | event ev' expect line =>
      rcases List.mem_cons.mp h with rfl | hrest
      · exact ⟨ev', expect, line, n, List.mem_cons_self, rfl⟩
      · obtain ⟨ev'', expect', line', k, hmem, heq⟩ := ih hrest
        exact ⟨ev'', expect', line', k, List.mem_cons_of_mem _ hmem, heq⟩
    | delay ms expect line =>
      obtain ⟨ev'', expect', line', k, hmem, heq⟩ := ih h
      exact ⟨ev'', expect', line', k, List.mem_cons_of_mem _ hmem, heq⟩
    | directive d line =>
      obtain ⟨ev'', expect', line', k, hmem, heq⟩ := ih h
      exact ⟨ev'', expect', line', k, List.mem_cons_of_mem _ hmem, heq⟩

/-- The synthetic events, by the function that makes them. -/
theorem mem_synthetic {now : ℕ → UInt64} {ev : SecurityEvent}
    (h : ev ∈ (Source.synthetic now).run.1) :
    (∃ comm file ts, ev = .synExecve comm file 4242 4200 ts) ∨
      ∃ comm daddr port ts, ev = .synTcp comm daddr port 4242 4200 ts := by
  simp only [Source.run] at h
  split at h
  · cases h
  · next evs hevs =>
    simp only [Agent.synthetic, synTcp, bind_eq_ok, pure_eq_ok] at hevs
    obtain ⟨beacon, hbeacon, app, happ, rfl⟩ := hevs
    split at hbeacon
    · cases hbeacon
    · split at happ
      · cases happ
      · cases hbeacon
        cases happ
        simp only [List.mem_cons, List.not_mem_nil, or_false] at h
        rcases h with rfl | rfl | rfl | rfl | rfl
        · exact Or.inl ⟨_, _, _, rfl⟩
        · exact Or.inl ⟨_, _, _, rfl⟩
        · exact Or.inl ⟨_, _, _, rfl⟩
        · exact Or.inr ⟨_, _, _, _, rfl⟩
        · exact Or.inr ⟨_, _, _, _, rfl⟩

/-- The kernel's promise: a task's name has its NUL. -/
def Source.NamesEnd : Source → Prop
  | .collector calls => ∀ x ∈ calls, 0 ∈ x.1.task.comm.toList
  | _ => True

/-- **Every mode ends its texts.**  Whatever programs run on the host, whatever they name their
files, and whatever stands in a replay file: an event that the sink is handed has a NUL in each
field that is read as a string. -/
theorem handles_terminated {src : Source} (hnames : src.NamesEnd) {ev : SecurityEvent}
    (h : ev ∈ src.run.1) : Terminated ev := by
  cases src with
  | collector calls =>
    obtain ⟨x, hx, hev⟩ := List.mem_flatMap.mp h
    exact submits_terminated (hnames x hx) hev
  | synthetic now =>
    rcases mem_synthetic h with ⟨comm, file, ts, rfl⟩ | ⟨comm, daddr, port, ts, rfl⟩
    · exact terminated_synExecve _ _ _ _ _
    · exact terminated_synTcp _ _ _ _ _ _
  | replay text path now =>
    obtain ⟨ev', expect, line, k, hmem, rfl⟩ := mem_replayEvents h
    obtain ⟨kind, s, hparse⟩ := exists_parseEvent path hmem
    have hev := terminated_parseEvent hparse
    exact ⟨hev.comm, hev.path⟩

/-- No line of a replay file is a drop notice. -/
theorem type_parseMember {kind s rest : Bytes} {type : UInt32} {u : CharArray unionLen}
    (h : parseMember kind s = .ok (type, u, rest)) : type ≠ PQSEC_EVT_AGENT_DROP := by
  unfold parseMember at h
  split at h
  · split at h
    · cases h
    · cases h
      decide
  · split at h
    · split at h
      · cases h
      · split at h
        · cases h
        · cases h
          decide
    · split at h
      · split at h
        · cases h
        · cases h
          decide
      · cases h

theorem type_parseEvent {kind s : Bytes} {ev : SecurityEvent} (h : parseEvent kind s = .ok ev) :
    ev.type ≠ PQSEC_EVT_AGENT_DROP := by
  unfold parseEvent at h
  split at h
  · cases h
  · next pid ppid comm s' _ =>
    rcases hmember : parseMember kind s' with why | ⟨type, u, rest⟩
    · rw [hmember] at h
      cases h
    · rw [hmember] at h
      obtain ⟨-, -, htype⟩ := parseTokens_fields (TextInput.words rest)
        { SecurityEvent.zeroed with
          type := type, pid := pid, ppid := ppid, comm := field _ (decodeField comm), u := u }
      have hev : _ = ev := Except.ok.inj h
      rw [hev] at htype
      rw [htype]
      exact type_parseMember hmember

/-- Only the sink makes drop notices. -/
theorem type_of_source {src : Source} {ev : SecurityEvent} (h : ev ∈ src.run.1) :
    ev.type ≠ PQSEC_EVT_AGENT_DROP := by
  cases src with
  | collector calls =>
    obtain ⟨⟨K, o⟩, -, hev⟩ := List.mem_flatMap.mp h
    cases o with
    | execve filename =>
      rw [(execveFilename_handleExecve hev).1]
      decide
    | connect sin =>
      rw [(tcp_handleTcpConnect hev).1]
      decide
    | «open» file =>
      rw [(filePath_handleFileOpen hev).1]
      decide
  | synthetic now =>
    rcases mem_synthetic h with ⟨comm, file, ts, rfl⟩ | ⟨comm, daddr, port, ts, rfl⟩
    · exact (by decide : PQSEC_EVT_EXECVE ≠ PQSEC_EVT_AGENT_DROP)
    · exact (by decide : PQSEC_EVT_TCP_CONNECT ≠ PQSEC_EVT_AGENT_DROP)
  | replay text path now =>
    obtain ⟨ev', expect, line, k, hmem, rfl⟩ := mem_replayEvents h
    obtain ⟨kind, s, hparse⟩ := exists_parseEvent path hmem
    have htype := type_parseEvent hparse
    exact htype

end PqcEdr.Agent
