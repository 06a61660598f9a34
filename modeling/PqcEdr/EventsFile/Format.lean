/-
# Replay files

`common/events_file.h`, translated: the `.events` format that the agent records and that the agent
and the evaluation harness read back.  One line is an event or a delay; what follows the first `#`
is a comment, which may hold a label or a directive.

`parse` hands an entry to its callback for each line and throws at the first that is malformed; here
it returns the entries handed over so far together with the exception.
-/
import PqcEdr.Crypto.Exn
import PqcEdr.Lib.TextInput
import PqcEdr.Printf

namespace PqcEdr.EventsFile

open TextInput Crypto

/-! ## 1. Fields -/

/-- A digit of `%02X`. -/
def hexDigit (n : ℕ) : UInt8 := UInt8.ofNat (if n < 10 then 48 + n else 55 + n)

/-- The bytes that `encode_field` escapes. -/
def isEscaped (c : UInt8) : Bool :=
  c == 32 || c == 35 || c == 37 || c == 9 || c == 10 || c == 13

def encodeField (s : Bytes) : Bytes :=
  s.flatMap fun c =>
    if isEscaped c then [37, hexDigit (c.toNat / 16), hexDigit (c.toNat % 16)] else [c]

/-- The byte that two characters behind a `%` stand for, if `strtol` takes the whole of them. -/
def hexByte? (a b : UInt8) : Option UInt8 :=
  let (v, rest) := strtolHex (cString [a, b])
  if rest = [] then some (UInt8.ofInt v) else none

def decodeField : Bytes → Bytes
  | 37 :: a :: b :: s =>
    match hexByte? a b with
    | some v => v :: decodeField s
    | none => 37 :: decodeField (a :: b :: s)
  | c :: s => c :: decodeField s
  | [] => []

/-- `trim`, of blanks, tabs and line ends. -/
def trim (s : Bytes) : Bytes :=
  let blank (c : UInt8) : Bool := c == 32 || c == 9 || c == 13 || c == 10
  (s.dropWhile blank).rdropWhile blank

def accessToStr (a : UInt32) : Bytes :=
  let o := (if a &&& PQSEC_FA_WRITE ≠ 0 then lit "w" else []) ++
    (if a &&& PQSEC_FA_CREATE ≠ 0 then lit "c" else []) ++
    (if a &&& PQSEC_FA_SENSITIVE ≠ 0 then lit "s" else []) ++
    (if a &&& PQSEC_FA_EXEC ≠ 0 then lit "x" else [])
  if o = [] then lit "-" else o

/-- The letters that stand for an access bit; any other one is skipped. -/
def accessFromStr (s : Bytes) : UInt32 :=
  s.foldl (fun a c =>
    if c = 119 then a ||| PQSEC_FA_WRITE
    else if c = 99 then a ||| PQSEC_FA_CREATE
    else if c = 115 then a ||| PQSEC_FA_SENSITIVE
    else if c = 120 then a ||| PQSEC_FA_EXEC
    else a) 0

/-- One number of a dotted quad: up to 255, without leading zeros. -/
def octet? (p : Bytes) : Option UInt8 :=
  if Digits p ∧ (p.length = 1 ∨ p.head? ≠ some 48) ∧ ofDigits p ≤ 255 then
    some (UInt8.ofNat (ofDigits p))
  else none

/-- `inet_pton(AF_INET, ..)`: the address in network byte order. -/
def inetPton (s : Bytes) : Option UInt32 :=
  match (s.splitOn 46).mapM octet? with
  | some [a, b, c, d] => some (UInt32.ofNat (ofLe [a, b, c, d]))
  | _ => none

/-- `strncpy` of a string into a zeroed `char[n]`, which leaves its last byte alone. -/
def field (n : ℕ) (s : Bytes) : CharArray n := CharArray.ofBytes n ((cString s).take (n - 1))

/-! ## 2. Ancestors -/

/-- What `parse_ancestry` makes of one item; without a colon, nothing. -/
def parseAncestor (one : Bytes) : Option Ancestor :=
  if 58 ∈ one then
    some {
      pid := UInt32.ofNat (strtoul (cString (one.takeWhile (· ≠ 58))))
      comm := field _ (decodeField ((one.dropWhile (· ≠ 58)).drop 1)) }
  else none

/-- The loop of `parse_ancestry` over the items that `|` separates. -/
def ancestryLoop : List Bytes → ℕ → Vector Ancestor PQSEC_ANCESTORS →
    Vector Ancestor PQSEC_ANCESTORS
  | [], _, anc => anc
  | one :: rest, gen, anc =>
    if gen < PQSEC_ANCESTORS then
      match parseAncestor one with
      | some a => ancestryLoop rest (gen + 1) (anc.setIfInBounds gen a)
      | none => ancestryLoop rest gen anc
    else anc

def parseAncestry (tok : Bytes) (ev : SecurityEvent) : SecurityEvent :=
  { ev with anc := ancestryLoop ((tok.drop 4).splitOn 124) 0 ev.anc }

/-! ## 3. `parse` -/

inductive Entry
  | event (ev : SecurityEvent) (expect : Bytes) (line : ℕ)
  | delay (delay_ms : ℕ) (expect : Bytes) (line : ℕ)
  | directive (directive : Bytes) (line : ℕ)
  deriving DecidableEq

/-- What follows the first occurrence of a word. -/
def findAfter (word : Bytes) : Bytes → Option Bytes
  | [] => none
  | c :: s => if word.isPrefixOf (c :: s) then some ((c :: s).drop word.length) else findAfter word s

/-- The word behind `expect:` in a comment. -/
def expectLabel (comment : Bytes) : Bytes :=
  match findAfter (lit "expect:") comment with
  | none => []
  | some s => match getWord s with
    | none => []
    | some (w, _) => w

/-- `>>` into a `uint32_t`. -/
def getUInt32 (s : Bytes) : Option (UInt32 × Bytes) :=
  (getUnsigned (2 ^ 32) s).map fun (n, rest) => (UInt32.ofNat n, rest)

/-- `>>` into an `unsigned long` or an `unsigned long long`. -/
def getUInt64 (s : Bytes) : Option (UInt64 × Bytes) :=
  (getUnsigned (2 ^ 64) s).map fun (n, rest) => (UInt64.ofNat n, rest)

/-- `is >> pid >> ppid >> comm`. -/
def getHead (s : Bytes) : Option (UInt32 × UInt32 × Bytes × Bytes) := do
  let (pid, s) ← getUInt32 s
  let (ppid, s) ← getUInt32 s
  let (comm, s) ← getWord s
  return (pid, ppid, comm, s)

/-- `is >> ip >> port`, and the port is one. -/
def getAddress (s : Bytes) : Option (Bytes × UInt32 × Bytes) := do
  let (ip, s) ← getWord s
  let (port, s) ← getUInt32 s
  if port > 65535 then none else return (ip, port, s)

/-- `is >> acc >> ino >> dev >> path`. -/
def getFile (s : Bytes) : Option (Bytes × UInt64 × UInt64 × Bytes × Bytes) := do
  let (acc, s) ← getWord s
  let (ino, s) ← getUInt64 s
  let (dev, s) ← getUInt64 s
  let (path, s) ← getWord s
  return (acc, ino, dev, path, s)

/-- `u.execve`. -/
def execveMember (file : Bytes) : CharArray unionLen :=
  CharArray.ofBytes _ (field PQSEC_FILENAME_LEN (decodeField file)).toList

/-- `u.tcp`, with `AF_INET`. -/
def tcpMember (daddr : UInt32) (port : UInt32) : CharArray unionLen :=
  CharArray.ofBytes _ (toLe 4 daddr.toNat ++ toLe 2 port.toUInt16.toNat ++ [2])

/-- `u.file`; the path `-` is none. -/
def fileMember (acc : Bytes) (ino dev : UInt64) (path : Bytes) : CharArray unionLen :=
  let dpath := decodeField path
  CharArray.ofBytes _ ((field PQSEC_FILENAME_LEN (if dpath ≠ lit "-" then dpath else [])).toList ++
    toLe 4 (accessFromStr acc).toNat ++ toLe 4 0 ++ toLe 8 ino.toNat ++
    toLe 4 dev.toUInt32.toNat)

/-- The part of an event line that its kind decides: the type, the union, and what is left; or why
the line is malformed. -/
def parseMember (kind s : Bytes) : Except String (UInt32 × CharArray unionLen × Bytes) :=
  if kind = lit "execve" then
    match getWord s with
    | none => throw "execve <filename> 누락"
    | some (file, s) => pure (PQSEC_EVT_EXECVE, execveMember file, s)
  else if kind = lit "connect" then
    match getAddress s with
    | none => throw "connect <ipv4> <port> 형식 오류"
    | some (ip, port, s) =>
      match inetPton (cString ip) with
      | none => throw "잘못된 IPv4 주소"
      | some daddr => pure (PQSEC_EVT_TCP_CONNECT, tcpMember daddr port, s)
  else if kind = lit "fileopen" then
    match getFile s with
    | none => throw "fileopen <access> <ino> <dev> <path> 형식 오류"
    | some (acc, ino, dev, path, s) =>
      pure (PQSEC_EVT_FILE_OPEN, fileMember acc ino dev path, s)
  else throw "알 수 없는 항목 종류"

/-- The tokens behind the fields: the ones that begin with `anc:`. -/
def parseTokens (toks : List Bytes) (ev : SecurityEvent) : SecurityEvent :=
  toks.foldl (fun ev tok => if (lit "anc:").isPrefixOf tok then parseAncestry tok ev else ev) ev

/-- An event line behind its kind. -/
def parseEvent (kind s : Bytes) : Except String SecurityEvent :=
  match getHead s with
  | none => throw "<pid> <ppid> <comm> 형식 오류"
  | some (pid, ppid, comm, s) => do
    let (type, u, s) ← parseMember kind s
    pure (parseTokens (words s) { SecurityEvent.zeroed with
      type := type, pid := pid, ppid := ppid, comm := field _ (decodeField comm), u := u })

/-- A `delay` line behind its kind. -/
def parseDelay (s : Bytes) : Except String ℕ :=
  match getLong s with
  | none => throw "delay <ms> 형식 오류"
  | some (ms, _) => if ms < 0 then throw "delay <ms> 형식 오류" else pure ms.toNat

/-- One turn of the loop of `parse`: the entry of a line, if it has one. -/
def parseLine (lineno : ℕ) (line : Bytes) : Except String (Option Entry) :=
  let body := line.takeWhile (· ≠ 35)
  let comment := (line.dropWhile (· ≠ 35)).drop 1
  match getWord body with
  | none =>
    let c := trim comment
    if c.head? = some 33 then pure (some (.directive (trim (c.drop 1)) lineno)) else pure none
  | some (kind, s) =>
    if kind = lit "delay" then do
      let ms ← parseDelay s
      pure (some (.delay ms (expectLabel comment) lineno))
    else do
      let ev ← parseEvent kind s
      pure (some (.event ev (expectLabel comment) lineno))

/-- `throw std::runtime_error(..)` in `bad`. -/
def bad (name : String) (lineno : ℕ) (why : String) : Exn :=
  .runtime_error (name ++ ":" ++ toString lineno ++ " " ++ why)

/-- The loop of `parse`, past `lineno` lines. -/
def parseLines (name : String) : ℕ → List Bytes → List Entry × Option Exn
  | _, [] => ([], none)
  | lineno, line :: rest =>
    match parseLine (lineno + 1) line with
    | .error why => ([], some (bad name (lineno + 1) why))
    | .ok none => parseLines name (lineno + 1) rest
    | .ok (some e) =>
      (e :: (parseLines name (lineno + 1) rest).1, (parseLines name (lineno + 1) rest).2)

def parse (text : Bytes) (name : String) : List Entry × Option Exn :=
  parseLines name 0 (lines text)

/-! ## 4. `format_line` -/

/-- `s.empty() ? "?" : s`. -/
def orUnknown (s : Bytes) : Bytes := if s = [] then lit "?" else s

/-- `u.execve.filename` or `u.file.path`, bounded by its field. -/
def pathStr (ev : SecurityEvent) : Bytes := cString (ev.u.toList.take PQSEC_FILENAME_LEN)

/-- An empty slot of `anc[]`. -/
def isEmptySlot (a : Ancestor) : Bool := a.pid = 0 ∧ a.comm.toList.head? = some 0

def encodeAncestry (ev : SecurityEvent) : Bytes :=
  ev.anc.toList.foldl (fun o a =>
    if isEmptySlot a then o
    else o ++ (if o = [] then lit " anc:" else lit "|") ++ decimal a.pid.toNat ++ lit ":" ++
      encodeField (orUnknown (cString a.comm.toList))) []

def formatLine (ev : SecurityEvent) : Bytes :=
  let comm := encodeField (orUnknown ev.commStr)
  if ev.type = PQSEC_EVT_EXECVE then
    snprintf 512 [lit "execve  ", decimal ev.pid.toNat, lit " ", decimal ev.ppid.toNat, lit " ",
      comm, lit " ", encodeField (orUnknown (pathStr ev))] ++ encodeAncestry ev
  else if ev.type = PQSEC_EVT_TCP_CONNECT then
    snprintf 512 [lit "connect ", decimal ev.pid.toNat, lit " ", decimal ev.ppid.toNat, lit " ",
      comm, lit " ", inetNtop ev.tcpDaddr, lit " ", decimal ev.tcpDport.toNat] ++ encodeAncestry ev
  else if ev.type = PQSEC_EVT_FILE_OPEN then
    snprintf 512 [lit "fileopen ", decimal ev.pid.toNat, lit " ", decimal ev.ppid.toNat, lit " ",
      comm, lit " ", accessToStr ev.fileAccess, lit " ", decimal ev.fileIno.toNat, lit " ",
      decimal ev.fileDev.toNat, lit " ",
      if pathStr ev = [] then lit "-" else encodeField (pathStr ev)] ++ encodeAncestry ev
  else []

example : formatLine (SecurityEvent.synFileOpen (lit "a b") (lit "/tmp/x#1") 3 7 6 0) =
    lit "fileopen 7 6 a%20b wc 0 0 /tmp/x%231" := by decide

end PqcEdr.EventsFile
