/-
# The correlator

`analyzer/src/correlator.cpp`, translated: three detectors over one stream of events.

* C1 download-exec: a downloader ran, then a temporary path is executed by a process that shares
  an ancestor with it.
* C2 beacon: the same process name connects again and again to the same public address and port.
* C3 write-exec: a path written in a staging directory is executed.

Timestamps are the machine's `uint64_t`, so `then + window_ns_` wraps.  `observe` returns `none`
in one case: `observe_connect` reads `hist.size()` through a reference into `conns_` after the
sweep, and when the sweep has erased that very entry the C++ has no defined result.
-/
import PqcEdr.Analyzer.Prefilter
import PqcEdr.Lib.AssocMap
import PqcEdr.Lib.OrdSet
import PqcEdr.Lib.Recency

namespace PqcEdr.Analyzer

open Recency

/-! ## 1. Helpers -/

def kDownloaders : List Bytes := [lit "curl", lit "wget"]

/-- `is_temp_path`; `strncmp(path, p, strlen(p)) == 0` says that `p` is a prefix. -/
def isTempPath (path : Bytes) : Bool :=
  (lit "/tmp/").isPrefixOf path || (lit "/dev/shm/").isPrefixOf path
    || (lit "/var/tmp/").isPrefixOf path

def elapsed (now then_ : UInt64) : UInt64 := if now ≥ then_ then now - then_ else 0

/-- The window test of every rule, `now > then + window_ns_`, in wrapping arithmetic. -/
def expired (window now then_ : UInt64) : Bool := now > then_ + window

/-- `common_ancestor`: the least shared pid, or 0. -/
def commonAncestor (a b : OrdSet UInt32) : UInt32 := (a.find? fun p => decide (p ∈ b)).getD 0

def kMaxDownloads : ℕ := 64
def kMaxStaged : ℕ := 512
def kMaxHistPerKey : ℕ := 256
def kSweepKeys : ℕ := 4096

/-- `ancestor_set`: the pids above 1 of `ppid` and `anc[]`. -/
def ancestorSet (ev : SecurityEvent) : OrdSet UInt32 :=
  let s := OrdSet.insertIf (· > 1) ∅ ev.ppid
  (ev.anc.toList.map Ancestor.pid).foldl (OrdSet.insertIf (· > 1)) s

/-! ## 2. The state -/

/-- `CorrelationHit`; the default value is "no hit". -/
structure CorrelationHit where
  hit : Bool := false
  severity : Severity := .Info
  rule : String := ""
  reason : Bytes := []
  deriving DecidableEq

/-- A downloader's execution, remembered for the ancestor match. -/
structure Lineage where
  ts_ns : UInt64
  anc : OrdSet UInt32
  comm : Bytes
  deriving DecidableEq

/-- The latest write to a staging path. -/
structure StagedWrite where
  ts_ns : UInt64
  writer : Bytes
  deriving DecidableEq

/-- `std::tuple<std::string, uint32_t, uint16_t>`. -/
structure ConnKey where
  comm : Bytes
  daddr : UInt32
  dport : UInt16
  deriving DecidableEq

structure Correlator where
  window_ns : UInt64
  beacon_threshold : ℕ
  downloads : List Lineage
  staged : AssocMap Bytes StagedWrite
  conns : AssocMap ConnKey (List UInt64)

/-- The constructor: nothing observed yet. -/
def Correlator.init (window_ns : UInt64) (beacon_threshold : ℕ) : Correlator :=
  ⟨window_ns, beacon_threshold, [], ∅, ∅⟩

/-! ## 3. What an event is to the rules -/

/-- A staging write: the C3 side of a FILE_OPEN. -/
def isStagingWrite (ev : SecurityEvent) : Bool :=
  ev.fileAccess &&& PQSEC_FA_WRITE ≠ 0 && ev.filePath ≠ [] && isTempPath ev.filePath

/-- `kDownloaders.count(basename_of(filename))`. -/
def isDownloader (ev : SecurityEvent) : Bool := basenameOf ev.execveFilename ∈ kDownloaders

def stagedWriteOf (ev : SecurityEvent) : StagedWrite := ⟨ev.ts_ns, ev.commStr⟩

def lineageOf (ev : SecurityEvent) : Lineage :=
  ⟨ev.ts_ns, ancestorSet ev, basenameOf ev.execveFilename⟩

def connKeyOf (ev : SecurityEvent) : ConnKey := ⟨ev.commStr, ev.tcpDaddr, ev.tcpDport⟩

/-! ## 4. The reasons of a hit -/

def writeExecReason (w : StagedWrite) (filename : Bytes) (now : UInt64) : Bytes :=
  snprintf 300 [lit "쓰기→실행 체인: ", w.writer, lit " 가 스테이징에 쓴 ", filename, lit " 를 ",
    fixed 1 (toSec (elapsed now w.ts_ns)), lit "초 내 실행 (부모 무관)"]

def downloadExecReason (d : Lineage) (shared : UInt32) (now : UInt64) : Bytes :=
  snprintf 300 [lit "다운로드→실행 체인: ", d.comm, lit " 실행과 임시경로 실행이 공통 조상(pid=",
    decimal shared.toNat, lit ") 공유, ", fixed 1 (toSec (elapsed now d.ts_ns)), lit "초 내"]

def beaconReason (key : ConnKey) (window : UInt64) (count : ℕ) : Bytes :=
  snprintf 256 [lit "비콘 의심: ", key.comm, lit " → ", inetNtop key.daddr, lit ":",
    decimal key.dport.toNat, lit " 로 ", fixed 0 (toSec window), lit "초 윈도우 내 ",
    decimal count, lit "회 반복 접속"]

namespace Correlator

/-! ## 5. The three observers -/

/-- `observe_file`: remember a staging write; past `kMaxStaged` entries, sweep the expired. -/
def observeFile (c : Correlator) (ev : SecurityEvent) : CorrelationHit × Correlator :=
  if !isStagingWrite ev then ({}, c)
  else
    let staged := c.staged.put ev.filePath (stagedWriteOf ev)
    let staged :=
      if staged.size > kMaxStaged then
        staged.eraseIf fun _ w => expired c.window_ns ev.ts_ns w.ts_ns
      else staged
    ({}, { c with staged := staged })

/-- The loop over `downloads_`: the first entry that shares an ancestor. -/
def matchLineage (now : UInt64) (mine : OrdSet UInt32) : List Lineage → CorrelationHit
  | [] => {}
  | d :: ds =>
    let shared := commonAncestor d.anc mine
    if shared = 0 then matchLineage now mine ds
    else ⟨true, .Critical, "download-exec-chain", downloadExecReason d shared now⟩

/-- `observe_execve`: C3 first, then C1.  A downloader is recorded and returns before either. -/
def observeExecve (c : Correlator) (ev : SecurityEvent) : CorrelationHit × Correlator :=
  let now := ev.ts_ns
  let downloads := popWhile (fun d => expired c.window_ns now d.ts_ns) c.downloads
  if isDownloader ev then
    ({}, { c with downloads := pushCapped kMaxDownloads downloads (lineageOf ev) })
  else
    let c := { c with downloads := downloads }
    if !isTempPath ev.execveFilename then ({}, c)
    else
      match c.staged.find? ev.execveFilename with
      | some w =>
        if !expired c.window_ns now w.ts_ns then
          (⟨true, .Critical, "write-exec-chain", writeExecReason w ev.execveFilename now⟩, c)
        else (matchLineage now (ancestorSet ev) downloads, c)
      | none => (matchLineage now (ancestorSet ev) downloads, c)

/-- `hist` after the front expiry and the capped push. -/
def touchHistory (c : Correlator) (ev : SecurityEvent) : List UInt64 :=
  let hist := (c.conns.find? (connKeyOf ev)).getD []
  pushCapped kMaxHistPerKey (popWhile (fun t => expired c.window_ns ev.ts_ns t) hist) ev.ts_ns

/-- The sweep's test: an empty history, or one whose latest connect has expired. -/
def sweepsOut (window now : UInt64) (hist : List UInt64) : Bool :=
  match hist.getLast? with
  | none => true
  | some t => expired window now t

/-- `conns_` after the push and, past `kSweepKeys` keys, the sweep. -/
def touchConns (c : Correlator) (ev : SecurityEvent) : AssocMap ConnKey (List UInt64) :=
  let conns := c.conns.put (connKeyOf ev) (touchHistory c ev)
  if conns.size > kSweepKeys then conns.eraseIf fun _ h => sweepsOut c.window_ns ev.ts_ns h
  else conns

/-- `observe_connect`.  `hist` is a reference into `conns_`, so its size is read from the map as
the sweep left it. -/
def observeConnect (c : Correlator) (ev : SecurityEvent) : Option (CorrelationHit × Correlator) :=
  if isPrivateIpv4 ev.tcpDaddr then some ({}, c)
  else
    let conns := touchConns c ev
    match conns.find? (connKeyOf ev) with
    | none => none
    | some hist =>
      let c' := { c with conns := conns }
      if hist.length < c.beacon_threshold then some ({}, c')
      else
        some (⟨true, .High, "beacon", beaconReason (connKeyOf ev) c.window_ns hist.length⟩, c')

/-- `Correlator::observe`. -/
def observe (c : Correlator) (ev : SecurityEvent) : Option (CorrelationHit × Correlator) :=
  if ev.type = PQSEC_EVT_EXECVE then some (c.observeExecve ev)
  else if ev.type = PQSEC_EVT_TCP_CONNECT then c.observeConnect ev
  else if ev.type = PQSEC_EVT_FILE_OPEN then some (c.observeFile ev)
  else some ({}, c)

/-- The state after a whole stream of events. -/
def observeAll (c : Correlator) (log : List SecurityEvent) : Option Correlator :=
  log.foldlM (fun c ev => (c.observe ev).map Prod.snd) c

end Correlator

end PqcEdr.Analyzer
