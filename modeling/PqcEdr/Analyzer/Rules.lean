/-
# The rules of the prefilter

`analyzer/src/prefilter.cpp`: the first filter, which sorts an event into "drop", "alert" and
"ask the model", and the texts about an event that go to the log and to the model.  Only the
fields of `event_summary` itself pass through `printable`; the process tree and the reasons quote
the kernel's bytes as they are.
-/
import PqcEdr.Analyzer.Prefilter

namespace PqcEdr.Analyzer

/-! ## 1. The decision -/

inductive PrefilterDecision where
  | Drop
  | Escalate
  | Alert
  deriving DecidableEq, Repr

/-- The severity means something for `Alert` only. -/
structure PrefilterResult where
  decision : PrefilterDecision
  severity : Severity
  reason : Bytes
  deriving DecidableEq

/-- The white list: tools that read and build. -/
def kBenignBins : List Bytes :=
  ["ls", "cat", "grep", "ps", "id", "whoami", "which", "uname", "wc",
    "head", "tail", "sed", "awk", "dirname", "basename", "env", "date", "sleep",
    "git", "cmake", "make", "cc", "gcc", "g++", "clang", "ld", "node",
    "rm", "mkdir", "mktemp", "cp", "mv", "touch", "chmod", "getcap",
    "gmake", "ss", "ldconfig", "ctest", "dirname"].map lit

def kMaliciousBins : List Bytes := ["nc", "ncat", "netcat", "socat"].map lit

/-- The rule's test for a temporary directory. -/
def inTempDir (path : Bytes) : Bool :=
  (lit "/tmp/").isPrefixOf path || (lit "/dev/shm/").isPrefixOf path

def prefilterExecve (ev : SecurityEvent) : PrefilterResult :=
  let bin := basenameOf ev.execveFilename
  let path := ev.execveFilename
  if inTempDir path then ⟨.Alert, .High, lit "임시 디렉토리에서 실행"⟩
  else if bin ∈ kMaliciousBins then ⟨.Alert, .High, lit "리버스셸/네트워크 툴 실행: " ++ bin⟩
  else if bin ∈ kBenignBins then ⟨.Drop, .Info, lit "화이트리스트 도구: " ++ bin⟩
  else ⟨.Escalate, .Info, lit "미분류 실행: " ++ bin⟩

def prefilterTcp (ev : SecurityEvent) : PrefilterResult :=
  if isPrivateIpv4 ev.tcpDaddr then ⟨.Drop, .Info, lit "사설/루프백 대역 접속"⟩
  else
    let dport := ev.tcpDport
    if dport = 443 ∨ dport = 80 ∨ dport = 53 then
      ⟨.Escalate, .Info, lit "공인 IP 표준 포트 아웃바운드"⟩
    else ⟨.Alert, .Medium, lit "공인 IP 비표준 포트 아웃바운드"⟩

def prefilterFile (ev : SecurityEvent) : PrefilterResult :=
  if ev.fileAccess &&& PQSEC_FA_SENSITIVE ≠ 0 then
    let what := if ev.filePath ≠ [] then ev.filePath else lit "ino=" ++ decimal ev.fileIno.toNat
    ⟨.Alert, .High, lit "민감파일 접근: " ++ what⟩
  else ⟨.Drop, .Info, lit "스테이징 쓰기 (코릴레이션 맥락)"⟩

def prefilter (ev : SecurityEvent) : PrefilterResult :=
  if ev.type = PQSEC_EVT_EXECVE then prefilterExecve ev
  else if ev.type = PQSEC_EVT_TCP_CONNECT then prefilterTcp ev
  else if ev.type = PQSEC_EVT_FILE_OPEN then prefilterFile ev
  else ⟨.Escalate, .Info, lit "알 수 없는 이벤트 타입"⟩

/-! ## 2. The texts -/

/-- `c < 0x20 || c == 0x7f`. -/
def isControl (c : UInt8) : Bool := c < 0x20 || c = 0x7f

/-- `printable`: the string at `s`, at most `maxLen` bytes, its control bytes replaced. -/
def printable (s : Bytes) (maxLen : ℕ) : Bytes :=
  (cString (s.take maxLen)).map fun c => if isControl c then 63 else c

/-- A generation that is not there: no pid and no name. -/
def isAbsent (a : Ancestor) : Bool := a.pid = 0 && a.comm[0] = 0

/-- A name, or `?` for an empty one. -/
def nameOr (name : Bytes) : Bytes := if name = [] then lit "?" else name

/-- The loop of `process_tree`, up to the first generation that is not there. -/
def ancestorTree : List Ancestor → Bytes
  | [] => []
  | a :: as =>
    if isAbsent a then []
    else lit "<-" ++ nameOr (cString a.comm.toList) ++ ancestorTree as

/-- `process_tree`: `comm<-parent<-...`. -/
def processTree (ev : SecurityEvent) : Bytes := nameOr ev.commStr ++ ancestorTree ev.anc.toList

/-- What `event_summary` prints into its buffer. -/
def summaryText (ev : SecurityEvent) : Bytes :=
  let comm := printable ev.comm.toList PQSEC_COMM_LEN
  if ev.type = PQSEC_EVT_EXECVE then
    let file := printable ev.u.toList PQSEC_FILENAME_LEN
    snprintf 256 [lit "execve comm=", comm, lit " file=", file]
  else if ev.type = PQSEC_EVT_TCP_CONNECT then
    snprintf 256 [lit "connect comm=", comm, lit " dst=", inetNtop ev.tcpDaddr, lit ":",
      decimal ev.tcpDport.toNat]
  else if ev.type = PQSEC_EVT_FILE_OPEN then
    let path :=
      if ev.filePath ≠ [] then printable ev.u.toList PQSEC_FILENAME_LEN
      else lit "ino=" ++ decimal ev.fileIno.toNat
    let kind :=
      if ev.fileAccess &&& PQSEC_FA_SENSITIVE ≠ 0 then lit "read-sensitive" else lit "write"
    snprintf 256 [lit "fileopen comm=", comm, lit " ", kind, lit " ", path]
  else if ev.type = PQSEC_EVT_AGENT_DROP then
    snprintf 256 [lit "agent-drop dropped=", decimal ev.dropDropped.toNat, lit " total=",
      decimal ev.dropDroppedTotal.toNat, lit " sent=", decimal ev.dropSentTotal.toNat]
  else snprintf 256 [lit "unknown type=", decimal ev.type.toNat]

/-- `event_summary`, with the process tree where there is an ancestor. -/
def eventSummary (ev : SecurityEvent) : Bytes :=
  if isAbsent ev.anc[0] then summaryText ev
  else summaryText ev ++ lit " tree=[" ++ processTree ev ++ lit "]"

example : eventSummary (SecurityEvent.synExecve (lit "sh") (lit "/tmp/a\nb") 7 6 0) =
    lit "execve comm=sh file=/tmp/a?b" := by decide

end PqcEdr.Analyzer
