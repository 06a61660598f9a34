/-
# What the recorded line carries

`format_line` and then `parse`, for the events that the collector can record.  Vertical tabs and form
feeds are white space to the reader and not to the writer, and a bar separates ancestors; where no
name has these bytes the event comes back as it was, and where one has, it does not.

* `parseLine_formatLine`: without such bytes, the event is read back.
* `plain_of_sameFields`: what is read back has no such bytes.
* `events_codec_round_trip_iff`: both directions, and the buffer.
-/
import PqcEdr.EventsFile.Reading

namespace PqcEdr.EventsFile

open TextInput

/-! ## 1. The events, and what it means to come back -/

/-- An event that the collector can record. -/
structure Recordable (ev : SecurityEvent) : Prop where
  type : IsRecorded ev
  comm : ev.commStr ≠ [] ∧ 0 ∈ ev.comm.toList
  path : ev.type ≠ PQSEC_EVT_TCP_CONNECT → 0 ∈ ev.u.toList.take PQSEC_FILENAME_LEN
  execve : ev.type = PQSEC_EVT_EXECVE → pathStr ev ≠ []
  connect : ev.type = PQSEC_EVT_TCP_CONNECT → ev.tcpFamily = 2
  fileopen : ev.type = PQSEC_EVT_FILE_OPEN →
    (pathStr ev = [] ∨ (pathStr ev).head? = some 47) ∧ ev.fileAccess < 16
  ancestors : ∃ k, (∀ a ∈ ev.anc.toList.take k, cString a.comm.toList ≠ [] ∧ 0 ∈ a.comm.toList) ∧
    ∀ a ∈ ev.anc.toList.drop k, isEmptySlot a = true

/-- An ancestor as its pid and its name. -/
def nameOf (a : Ancestor) : UInt32 × Bytes := (a.pid, cString a.comm.toList)

/-- The fields that a line has room for. -/
structure SameFields (e ev : SecurityEvent) : Prop where
  type : e.type = ev.type
  pid : e.pid = ev.pid
  ppid : e.ppid = ev.ppid
  comm : e.commStr = ev.commStr
  ancestors : e.anc.toList.map nameOf = ev.anc.toList.map nameOf
  path : ev.type ≠ PQSEC_EVT_TCP_CONNECT → pathStr e = pathStr ev
  connect : ev.type = PQSEC_EVT_TCP_CONNECT →
    e.tcpDaddr = ev.tcpDaddr ∧ e.tcpDport = ev.tcpDport ∧ e.tcpFamily = ev.tcpFamily
  fileopen : ev.type = PQSEC_EVT_FILE_OPEN →
    e.fileAccess = ev.fileAccess ∧ e.fileIno = ev.fileIno ∧ e.fileDev = ev.fileDev

/-- No vertical tab and no form feed in a name, and no bar in an ancestor's. -/
structure Plain (ev : SecurityEvent) : Prop where
  comm : ∀ c ∈ ev.commStr, isBreak c = false
  path : ev.type ≠ PQSEC_EVT_TCP_CONNECT → ∀ c ∈ pathStr ev, isBreak c = false
  ancestors : ∀ a ∈ ev.anc.toList, ∀ c ∈ cString a.comm.toList, isBreak c = false ∧ c ≠ 124

/-- The line of the event calls back with that event, once, and the clock at 0. -/
def RoundTrips (ev : SecurityEvent) : Prop :=
  ∀ name, ∃ e, parse (formatLine ev) name = ([.event e [] 1], none) ∧ SameFields e ev ∧
    e.ts_ns = 0

/-! ## 2. One line -/

theorem lines_of_not_mem {s : Bytes} (hs : s ≠ []) (h : 10 ∉ s) : lines s = [s] := by
  induction s with
  | nil => exact absurd rfl hs
  | cons c s ih =>
    rw [List.mem_cons, not_or] at h
    rw [lines, if_neg (Ne.symm h.1)]
    by_cases hnil : s = []
    · subst hnil
      rfl
    · rw [ih hnil h.2]

theorem parseEvent_of_head (kind : Bytes) {s : Bytes} {x : UInt32 × UInt32 × Bytes × Bytes}
    (h : getHead s = some x) :
    parseEvent kind s = (parseMember kind x.2.2.2).map fun m =>
      parseTokens (words m.2.2) { SecurityEvent.zeroed with
        type := m.1, pid := x.1, ppid := x.2.1, comm := field _ (decodeField x.2.2.1)
        u := m.2.1 } := by
  obtain ⟨pid, ppid, comm, s'⟩ := x
  rw [parseEvent, h]
  simp only
  rcases parseMember kind s' with why | ⟨type, u, rest⟩ <;> rfl

theorem lineKind_ne_delay (ev : SecurityEvent) : lineKind ev ≠ lit "delay" := by
  rcases lineKind_cases ev with h | h | h <;> rw [h] <;> decide

/-- A recorded line is an event line. -/
theorem parseLine_fullLine (ev : SecurityEvent) : ∃ s,
    words s = ((lineTexts ev).flatMap pieces).map encodeField ∧
      ∀ n, parseLine n (fullLine ev) =
        (parseEvent (lineKind ev) s).map fun e => some (.event e [] n) := by
  obtain ⟨s, hget, hwords⟩ := exists_getWord (words_fullLine ev)
  have hall : ∀ c ∈ fullLine ev, decide (c ≠ 35) = true := by
    intro c hc
    refine decide_eq_true ?_
    rintro rfl
    exact not_mem_fullLine (Or.inr rfl) ev hc
  have hbody : (fullLine ev).takeWhile (· ≠ 35) = fullLine ev := List.takeWhile_eq_self_iff.mpr hall
  have hcomment : (fullLine ev).dropWhile (· ≠ 35) = [] := List.dropWhile_eq_nil_iff.mpr hall
  refine ⟨s, hwords, fun n => ?_⟩
  rw [parseLine, hbody, hcomment, hget]
  simp only [if_neg (lineKind_ne_delay ev)]
  cases parseEvent (lineKind ev) s <;> rfl

theorem fullLine_ne_nil (ev : SecurityEvent) : fullLine ev ≠ [] := by
  intro h
  have hwords := words_fullLine ev
  rw [h] at hwords
  cases hwords

theorem parse_formatLine {ev : SecurityEvent} (h : IsRecorded ev) (name : String) :
    parse (formatLine ev) name = match parseLine 1 (fullLine ev) with
      | .error why => ([], some (bad name 1 why))
      | .ok none => ([], none)
      | .ok (some e) => ([e], none) := by
  rw [formatLine_eq_fullLine h, parse,
    lines_of_not_mem (fullLine_ne_nil ev) (not_mem_fullLine (Or.inl rfl) ev), parseLines]
  rcases parseLine (0 + 1) (fullLine ev) with why | _ | e <;> rfl

theorem lineKind_execve {ev : SecurityEvent} (h : ev.type = PQSEC_EVT_EXECVE) :
    lineKind ev = lit "execve" := by
  rw [lineKind, if_pos h]

theorem lineKind_connect {ev : SecurityEvent} (h : ev.type = PQSEC_EVT_TCP_CONNECT) :
    lineKind ev = lit "connect" := by
  rw [lineKind, h, if_neg (by decide), if_pos rfl]

theorem lineKind_fileopen {ev : SecurityEvent} (h : ev.type = PQSEC_EVT_FILE_OPEN) :
    lineKind ev = lit "fileopen" := by
  rw [lineKind, h, if_neg (by decide), if_neg (by decide)]

theorem parseMember_execve {s w : Bytes} {ws : List Bytes} (h : words s = w :: ws) :
    ∃ rest, parseMember (lit "execve") s = .ok (PQSEC_EVT_EXECVE, execveMember w, rest) ∧
      words rest = ws := by
  obtain ⟨rest, hget, hrest⟩ := exists_getWord h
  exact ⟨rest, by rw [parseMember, if_pos rfl, hget]; rfl, hrest⟩

theorem parseMember_connect {s ip port : Bytes} {daddr : UInt32} {ws : List Bytes}
    (h : words s = ip :: port :: ws) (hip : inetPton (cString ip) = some daddr)
    (hport : Number 65536 port) :
    ∃ rest, parseMember (lit "connect") s =
        .ok (PQSEC_EVT_TCP_CONNECT, tcpMember daddr (UInt32.ofNat (ofDigits port)), rest) ∧
      words rest = ws := by
  obtain ⟨rest, hrest, hget⟩ := getAddress_of_words h hport
  refine ⟨rest, ?_, hrest⟩
  rw [parseMember, if_neg (by decide), if_pos rfl, hget]
  simp only [hip]
  rfl

theorem parseMember_fileopen {s access ino dev path : Bytes} {ws : List Bytes}
    (h : words s = access :: ino :: dev :: path :: ws) (hino : Number (2 ^ 64) ino)
    (hdev : Number (2 ^ 64) dev) :
    ∃ rest, parseMember (lit "fileopen") s = .ok (PQSEC_EVT_FILE_OPEN, fileMember access
        (UInt64.ofNat (ofDigits ino)) (UInt64.ofNat (ofDigits dev)) path, rest) ∧
      words rest = ws := by
  obtain ⟨s', hs', hget⟩ := getFile_of_words h hino hdev
  obtain ⟨rest, hword, hrest⟩ := exists_getWord hs'
  refine ⟨rest, ?_, hrest⟩
  rw [parseMember, if_neg (by decide), if_neg (by decide), if_pos rfl, hget, hword]
  rfl

theorem parseMember_connect_of_decimal {s : Bytes} {daddr : UInt32} {port : UInt16}
    {ws : List Bytes} (h : words s = inetNtop daddr :: decimal port.toNat :: ws) :
    ∃ rest, parseMember (lit "connect") s =
        .ok (PQSEC_EVT_TCP_CONNECT, tcpMember daddr port.toUInt32, rest) ∧ words rest = ws := by
  have hip : inetPton (cString (inetNtop daddr)) = some daddr := by
    rw [cString_inetNtop, inetPton_inetNtop]
  simpa only [ofDigits_decimal, UInt32.ofNat_uInt16ToNat] using
    parseMember_connect h hip (number_decimal port.toNat_lt)

theorem parseMember_fileopen_of_decimal {s acc w : Bytes} {ino : UInt64} {dev : UInt32}
    {ws : List Bytes} (h : words s = acc :: decimal ino.toNat :: decimal dev.toNat :: w :: ws) :
    ∃ rest, parseMember (lit "fileopen") s =
        .ok (PQSEC_EVT_FILE_OPEN, fileMember acc ino dev.toUInt64 w, rest) ∧ words rest = ws := by
  simpa only [ofDigits_decimal, UInt64.ofNat_toNat, UInt64.ofNat_uInt32ToNat] using
    parseMember_fileopen h (number_uint64 ino) (number_decimal (dev.toNat_lt.trans (by decide)))

/-! ## 3. Plain events come back -/

/-- A text that is one word. -/
def Unbroken (x : Bytes) : Prop := x ≠ [] ∧ ∀ c ∈ x, isBreak c = false

theorem unbroken_decimal (n : ℕ) : Unbroken (decimal n) :=
  ⟨(digits_decimal n).1, fun c hc => isBreak_of_isDigit ((digits_decimal n).2 c hc)⟩

theorem unbroken_orUnknown {s : Bytes} (h : ∀ c ∈ s, isBreak c = false) :
    Unbroken (orUnknown s) := by
  rw [orUnknown]
  split_ifs with hs
  · exact ⟨by decide, by decide⟩
  · exact ⟨hs, h⟩

theorem flatMap_pieces {texts : List Bytes} (h : ∀ x ∈ texts, Unbroken x) :
    texts.flatMap pieces = texts := by
  induction texts with
  | nil => rfl
  | cons x texts ih =>
    obtain ⟨hne, hfree⟩ := h x List.mem_cons_self
    rw [List.flatMap_cons, pieces_singleton hne hfree,
      ih fun y hy => h y (List.mem_cons_of_mem x hy)]
    rfl

theorem unbroken_memberTexts {ev : SecurityEvent}
    (hpath : ev.type ≠ PQSEC_EVT_TCP_CONNECT → ∀ c ∈ pathStr ev, isBreak c = false) :
    ∀ x ∈ memberTexts ev, Unbroken x := by
  intro x hx
  rw [memberTexts] at hx
  by_cases hexec : ev.type = PQSEC_EVT_EXECVE
  · rw [if_pos hexec, List.mem_singleton] at hx
    exact hx ▸ unbroken_orUnknown (hpath (by rw [hexec]; decide))
  · by_cases htcp : ev.type = PQSEC_EVT_TCP_CONNECT
    · rw [if_neg hexec, if_pos htcp, List.mem_cons, List.mem_singleton] at hx
      rcases hx with rfl | rfl
      · obtain ⟨a, b, c, d, -, heq⟩ := inetNtop_eq ev.tcpDaddr
        refine ⟨by rw [heq]; simp, fun c hc => ?_⟩
        rcases mem_inetNtop hc with h | rfl
        · exact isBreak_of_isDigit h
        · decide
      · exact unbroken_decimal _
    · simp only [if_neg hexec, if_neg htcp, List.mem_cons, List.not_mem_nil, or_false] at hx
      rcases hx with rfl | rfl | rfl | rfl
      · exact ⟨(accessToStr_mem _).1, fun c hc => ((accessToStr_mem _).2.2 c hc).2⟩
      · exact unbroken_decimal _
      · exact unbroken_decimal _
      · by_cases hnil : pathStr ev = []
        · rw [if_pos hnil]
          exact ⟨by decide, by decide⟩
        · rw [if_neg hnil]
          exact ⟨hnil, hpath htcp⟩

theorem unbroken_ancestryTexts {ev : SecurityEvent} (h : Plain ev) :
    ∀ x ∈ ancestryTexts ev, Unbroken x := by
  intro x hx
  have htext : ∀ a ∈ presentAncestors ev, ∀ c ∈ ancestorText a, isBreak c = false := by
    intro a ha c hc
    have hcomm := unbroken_orUnknown fun c hc =>
      (h.ancestors a (List.mem_filter.mp ha).1 c hc).1
    rcases List.mem_append.mp hc with hc | hc
    · exact (unbroken_decimal _).2 c hc
    · rcases List.mem_cons.mp hc with rfl | hc
      · decide
      · exact hcomm.2 c hc
  rw [ancestryTexts] at hx
  rcases hpresent : presentAncestors ev with _ | ⟨a, as⟩ <;> rw [hpresent] at hx htext
  · cases hx
  · rw [List.mem_singleton] at hx
    subst hx
    have hanc : Unbroken (lit "anc:") := ⟨by decide, by decide⟩
    refine ⟨List.append_ne_nil_of_left_ne_nil hanc.1 _, fun c hc => ?_⟩
    rcases List.mem_append.mp hc with hc | hc
    · exact hanc.2 c hc
    · rcases List.mem_append.mp hc with hc | hc
      · exact htext a List.mem_cons_self c hc
      · obtain ⟨b, hb, hc⟩ := List.mem_flatMap.mp hc
        rcases List.mem_cons.mp hc with rfl | hc
        · decide
        · exact htext b (List.mem_cons_of_mem a hb) c hc

/-- The slots as the `anc:` token fills them. -/
def readAncestor (a : Ancestor) : Ancestor :=
  ⟨a.pid, field _ (orUnknown (cString a.comm.toList))⟩

theorem splitOn_bars {l : List Bytes} (h : ∀ x ∈ l, 124 ∉ x) {x : Bytes} (hx : 124 ∉ x) :
    (x ++ l.flatMap fun y => 124 :: y).splitOn 124 = x :: l := by
  induction l generalizing x with
  | nil => simpa using List.splitOn_eq_singleton hx
  | cons y l ih =>
    rw [List.flatMap_cons, List.cons_append, List.splitOn_append_cons_self_of_not_mem hx,
      ih (fun z hz => h z (List.mem_cons_of_mem y hz)) (h y List.mem_cons_self)]

/-- The tokens of the line fill the slots with the present ancestors. -/
theorem parseTokens_ancestryTexts {ev : SecurityEvent} (h : Plain ev) (e : SecurityEvent) :
    ∃ anc, parseTokens ((ancestryTexts ev).map encodeField) e = { e with anc := anc } ∧
      anc.toList = (presentAncestors ev).map readAncestor ++
        e.anc.toList.drop (presentAncestors ev).length := by
  have hkept : Kept 124 := kept_of (by decide) (by decide)
  have hbar : ∀ a ∈ presentAncestors ev, 124 ∉ ancestorText a := by
    intro a ha hmem
    rcases List.mem_append.mp hmem with hmem | hmem
    · exact absurd ((digits_decimal _).2 124 hmem) (by decide)
    · rcases List.mem_cons.mp hmem with hmem | hmem
      · exact absurd hmem (by decide)
      · rw [orUnknown] at hmem
        split_ifs at hmem
        · exact absurd hmem (by decide)
        · exact (h.ancestors a (List.mem_filter.mp ha).1 124 hmem).2 rfl
  have hcount : (presentAncestors ev).length ≤ PQSEC_ANCESTORS := by
    have hlen : ev.anc.toList.length = PQSEC_ANCESTORS := ev.anc.length_toList
    exact (List.length_filter_le _ _).trans hlen.le
  rw [ancestryTexts]
  rcases hpresent : presentAncestors ev with _ | ⟨a, as⟩ <;> rw [hpresent] at hbar hcount
  · exact ⟨e.anc, rfl, by simp⟩
  · have htok : encodeField (lit "anc:" ++ (ancestorText a ++
        as.flatMap fun a => 124 :: ancestorText a)) = lit "anc:" ++ encodeField (ancestorText a ++
          (as.map ancestorText).flatMap fun x => 124 :: x) := by
      rw [encodeField_append, encodeField_eq_self (s := lit "anc:") (by decide), List.flatMap_map]
    have hitems : (encodeField (ancestorText a ++
        (as.map ancestorText).flatMap fun x => 124 :: x)).splitOn 124 =
          ((a :: as).map ancestorText).map encodeField := by
      rw [splitOn_encodeField hkept, splitOn_bars ?_ (hbar a List.mem_cons_self)]
      · rfl
      · intro x hx
        obtain ⟨b, hb, rfl⟩ := List.mem_map.mp hx
        exact hbar b (List.mem_cons_of_mem a hb)
    have hread : (((a :: as).map ancestorText).map encodeField).map parseAncestor =
        ((a :: as).map readAncestor).map some := by
      simp only [List.map_map]
      refine List.map_congr_left ?_
      intro b _
      exact parseAncestor_encodeField b
    have hdrop : (lit "anc:" ++ encodeField (ancestorText a ++
        (as.map ancestorText).flatMap fun x => 124 :: x)).drop 4 = encodeField (ancestorText a ++
          (as.map ancestorText).flatMap fun x => 124 :: x) := rfl
    have hstep : parseTokens (List.map encodeField [lit "anc:" ++ (ancestorText a ++
        as.flatMap fun a => 124 :: ancestorText a)]) e =
          parseAncestry (lit "anc:" ++ encodeField (ancestorText a ++
            (as.map ancestorText).flatMap fun x => 124 :: x)) e := by
      rw [List.map_singleton, htok, parseTokens, List.foldl_cons,
        if_pos (List.isPrefixOf_iff_prefix.mpr (List.prefix_append _ _)), List.foldl_nil]
    refine ⟨_, hstep, ?_⟩
    rw [hdrop, hitems, ancestryLoop_of_map hread (by simpa using hcount)]
    simp

theorem length_cString_lt {s : Bytes} (h : 0 ∈ s) : (cString s).length < s.length := by
  refine Nat.lt_of_le_of_ne (length_cString_le s) ?_
  intro heq
  have hself : cString s = s := (List.takeWhile_prefix _).eq_of_length heq
  exact not_mem_cString s (hself.symm ▸ h)

theorem length_pathStr_lt {ev : SecurityEvent} (h : 0 ∈ ev.u.toList.take PQSEC_FILENAME_LEN) :
    (pathStr ev).length < PQSEC_FILENAME_LEN :=
  (length_cString_lt h).trans_le (List.length_take_le _ _)

/-- The union of a recorded event, as `parse` rebuilds it. -/
def readMember (ev : SecurityEvent) : CharArray unionLen :=
  if ev.type = PQSEC_EVT_EXECVE then execveMember (encodeField (orUnknown (pathStr ev)))
  else if ev.type = PQSEC_EVT_TCP_CONNECT then tcpMember ev.tcpDaddr ev.tcpDport.toUInt32
  else fileMember (accessToStr ev.fileAccess) ev.fileIno ev.fileDev.toUInt64
    (encodeField (if pathStr ev = [] then lit "-" else pathStr ev))

theorem parseMember_memberTexts {ev : SecurityEvent} (h : IsRecorded ev) {s : Bytes}
    {ws : List Bytes} (hwords : words s = (memberTexts ev).map encodeField ++ ws) :
    ∃ rest, parseMember (lineKind ev) s = .ok (ev.type, readMember ev, rest) ∧
      words rest = ws := by
  rw [memberTexts] at hwords
  rw [readMember]
  rcases h with htype | htype | htype
  · rw [if_pos htype] at hwords
    rw [if_pos htype, lineKind_execve htype, htype]
    exact parseMember_execve hwords
  · have hne : ¬ ev.type = PQSEC_EVT_EXECVE := by rw [htype]; decide
    rw [if_neg hne, if_pos htype, List.map_cons, List.map_cons, encodeField_inetNtop,
      encodeField_decimal] at hwords
    rw [if_neg hne, if_pos htype, lineKind_connect htype, htype]
    exact parseMember_connect_of_decimal hwords
  · have hne : ¬ ev.type = PQSEC_EVT_EXECVE := by rw [htype]; decide
    have hne' : ¬ ev.type = PQSEC_EVT_TCP_CONNECT := by rw [htype]; decide
    simp only [if_neg hne, if_neg hne', List.map_cons, encodeField_decimal, List.cons_append,
      encodeField_accessToStr] at hwords
    rw [if_neg hne, if_neg hne', lineKind_fileopen htype, htype]
    exact parseMember_fileopen_of_decimal hwords

/-- The rebuilt union has the fields of the original. -/
theorem readMember_fields {ev e : SecurityEvent} (h : Recordable ev) (hu : e.u = readMember ev) :
    (ev.type ≠ PQSEC_EVT_TCP_CONNECT → pathStr e = pathStr ev) ∧
      (ev.type = PQSEC_EVT_TCP_CONNECT →
        e.tcpDaddr = ev.tcpDaddr ∧ e.tcpDport = ev.tcpDport ∧ e.tcpFamily = ev.tcpFamily) ∧
      (ev.type = PQSEC_EVT_FILE_OPEN →
        e.fileAccess = ev.fileAccess ∧ e.fileIno = ev.fileIno ∧ e.fileDev = ev.fileDev) := by
  have hzero : 0 ∉ pathStr ev := not_mem_cString _
  have hcut : ev.type ≠ PQSEC_EVT_TCP_CONNECT →
      (cString (pathStr ev)).take (PQSEC_FILENAME_LEN - 1) = pathStr ev := by
    intro hne
    have hlt := length_pathStr_lt (h.path hne)
    rw [cString_eq_self hzero, List.take_of_length_le (by omega)]
  rw [readMember] at hu
  rcases h.type with htype | htype | htype
  · rw [if_pos htype] at hu
    have hpath : orUnknown (pathStr ev) = pathStr ev := if_neg (h.execve htype)
    refine ⟨?_, ?_, ?_⟩
    · intro hne
      rw [pathStr, hu, pathStr_execveMember, decodeField_encodeField, hpath, hcut hne]
    · intro hcontra
      exact absurd (htype.symm.trans hcontra) (by decide)
    · intro hcontra
      exact absurd (htype.symm.trans hcontra) (by decide)
  · have hne : ¬ ev.type = PQSEC_EVT_EXECVE := by rw [htype]; decide
    rw [if_neg hne, if_pos htype] at hu
    obtain ⟨haddr, hport, hfamily⟩ := tcpMember_fields ev.tcpDaddr ev.tcpDport.toUInt32
    refine ⟨fun hcontra => absurd htype hcontra, fun _ => ⟨?_, ?_, ?_⟩, ?_⟩
    · rw [SecurityEvent.tcpDaddr, hu, haddr, ofLe_toLe (UInt32.toNat_lt _), UInt32.ofNat_toNat]
    · rw [SecurityEvent.tcpDport, hu, hport, ofLe_toLe (UInt16.toNat_lt _), UInt16.ofNat_toNat,
        UInt16.toUInt16_toUInt32]
    · rw [SecurityEvent.tcpFamily, hu, hfamily, h.connect htype]
    · intro hcontra
      exact absurd (htype.symm.trans hcontra) (by decide)
  · have hne : ¬ ev.type = PQSEC_EVT_EXECVE := by rw [htype]; decide
    have hne' : ¬ ev.type = PQSEC_EVT_TCP_CONNECT := by rw [htype]; decide
    rw [if_neg hne, if_neg hne'] at hu
    obtain ⟨hpath, hacc, hino, hdev⟩ := fileMember_fields (accessToStr ev.fileAccess) ev.fileIno
      ev.fileDev.toUInt64 (encodeField (if pathStr ev = [] then lit "-" else pathStr ev))
    obtain ⟨habs, hbits⟩ := h.fileopen htype
    refine ⟨fun hne => ?_, fun hcontra => absurd hcontra hne', fun _ => ⟨?_, ?_, ?_⟩⟩
    · rw [pathStr, hu, hpath, decodeField_encodeField]
      by_cases hnil : pathStr ev = []
      · rw [if_pos hnil, hnil, if_neg (not_not.mpr rfl)]
        rfl
      · have hdash : pathStr ev ≠ lit "-" := by
          intro heq
          rcases habs with hcontra | hcontra
          · exact hnil hcontra
          · rw [heq] at hcontra
            exact absurd hcontra (by decide)
        rw [if_neg hnil, if_pos hdash, hcut hne]
    · rw [SecurityEvent.fileAccess, hu, hacc, ofLe_toLe (UInt32.toNat_lt _), UInt32.ofNat_toNat,
        accessFromStr_accessToStr hbits]
    · rw [SecurityEvent.fileIno, hu, hino, ofLe_toLe (UInt64.toNat_lt _), UInt64.ofNat_toNat]
    · rw [SecurityEvent.fileDev, hu, hdev, ofLe_toLe (UInt32.toNat_lt _), UInt32.ofNat_toNat,
        UInt32.toUInt32_toUInt64]

theorem commStr_field {e : SecurityEvent} {s : Bytes} (h : e.comm = field _ s) :
    e.commStr = (cString s).take (PQSEC_COMM_LEN - 1) := by
  rw [SecurityEvent.commStr, h, cString_field (by decide)]

/-- The present ancestors are the first slots; the other ones are empty. -/
theorem presentAncestors_of_recordable {ev : SecurityEvent} (h : Recordable ev) :
    ∃ k, presentAncestors ev = ev.anc.toList.take k ∧
      (∀ a ∈ ev.anc.toList.take k, nameOf (readAncestor a) = nameOf a) ∧
      ∀ a ∈ ev.anc.toList.drop k, nameOf a = (0, []) := by
  obtain ⟨k, hpresent, hempty⟩ := h.ancestors
  refine ⟨k, ?_, ?_, ?_⟩
  · have hkeep : ∀ a ∈ ev.anc.toList.take k, (!isEmptySlot a) = true := by
      intro a ha
      by_contra hslot
      have hhead : a.comm.toList.head? = some 0 := by
        simp only [isEmptySlot, Bool.not_eq_true', decide_eq_false_iff_not, not_not] at hslot
        exact hslot.2
      refine (hpresent a ha).1 ?_
      rcases hlist : a.comm.toList with _ | ⟨c, t⟩
      · rfl
      · rw [hlist, List.head?_cons, Option.some.injEq] at hhead
        rw [hhead]
        rfl
    have hdrop : ∀ a ∈ ev.anc.toList.drop k, ¬ (!isEmptySlot a) = true := by
      intro a ha
      simp [hempty a ha]
    conv_lhs => rw [presentAncestors, ← List.take_append_drop k ev.anc.toList]
    rw [List.filter_append, List.filter_eq_self.mpr hkeep, List.filter_eq_nil_iff.mpr hdrop,
      List.append_nil]
  · intro a ha
    obtain ⟨hne, hzero⟩ := hpresent a ha
    have hlen : (cString a.comm.toList).length < PQSEC_COMM_LEN :=
      (length_cString_lt hzero).trans_eq a.comm.length_toList
    rw [nameOf, nameOf, readAncestor, orUnknown, if_neg hne,
      cString_field_of_lt (not_mem_cString _) hlen]
  · intro a ha
    have hslot := hempty a ha
    simp only [isEmptySlot, decide_eq_true_eq] at hslot
    have hnil : cString a.comm.toList = [] := by
      rcases hlist : a.comm.toList with _ | ⟨c, t⟩
      · rfl
      · rw [hlist, List.head?_cons, Option.some.injEq] at hslot
        rw [hslot.2]
        rfl
    rw [nameOf, hslot.1, hnil]

/-- A plain event that the collector can record is read back from its line. -/
theorem parseLine_formatLine {ev : SecurityEvent} (h : Recordable ev) (hplain : Plain ev) :
    ∃ e, (∀ n, parseLine n (fullLine ev) = .ok (some (.event e [] n))) ∧ SameFields e ev ∧
      e.ts_ns = 0 := by
  obtain ⟨s, hs, hline⟩ := parseLine_fullLine ev
  have hcomm : orUnknown ev.commStr = ev.commStr := if_neg h.comm.1
  have htexts : (lineTexts ev).flatMap pieces = lineTexts ev := by
    refine flatMap_pieces ?_
    intro x hx
    rcases List.mem_append.mp hx with hx | hx
    · rcases List.mem_append.mp hx with hx | hx
      · simp only [headTexts, List.mem_cons, List.not_mem_nil, or_false] at hx
        rcases hx with rfl | rfl | rfl
        · exact unbroken_decimal _
        · exact unbroken_decimal _
        · exact unbroken_orUnknown hplain.comm
      · exact unbroken_memberTexts hplain.path x hx
    · exact unbroken_ancestryTexts hplain x hx
  rw [htexts, lineTexts, headTexts] at hs
  simp only [List.cons_append, List.nil_append, List.map_cons, List.map_append,
    encodeField_decimal, hcomm] at hs
  obtain ⟨s₁, hs₁, hhead⟩ := getHead_of_decimal hs
  obtain ⟨s₂, hword, hs₂⟩ := exists_getWord hs₁
  obtain ⟨s₃, hmember, hs₃⟩ := parseMember_memberTexts h.type hs₂
  rw [hword, Option.map_some] at hhead
  obtain ⟨anc, htokens, hanc⟩ := parseTokens_ancestryTexts hplain { SecurityEvent.zeroed with
    type := ev.type, pid := ev.pid, ppid := ev.ppid
    comm := field _ (decodeField (encodeField ev.commStr)), u := readMember ev }
  have hread := parseEvent_of_head (lineKind ev) hhead
  rw [hmember] at hread
  simp only [Except.map, hs₃, htokens] at hread
  refine ⟨_, fun n => by rw [hline n, hread]; rfl, ?_, rfl⟩
  obtain ⟨hpath, hconnect, hfile⟩ := readMember_fields (e := { SecurityEvent.zeroed with
    type := ev.type, pid := ev.pid, ppid := ev.ppid
    comm := field _ (decodeField (encodeField ev.commStr)), anc := anc, u := readMember ev }) h rfl
  refine ⟨rfl, rfl, rfl, ?_, ?_, hpath, hconnect, hfile⟩
  · have hlen : ev.commStr.length < PQSEC_COMM_LEN :=
      (length_cString_lt h.comm.2).trans_eq ev.comm.length_toList
    rw [SecurityEvent.commStr, decodeField_encodeField]
    exact cString_field_of_lt (not_mem_cString _) hlen
  · obtain ⟨k, hpresent, hsame, hempty⟩ := presentAncestors_of_recordable h
    have hzero : ∀ j, (SecurityEvent.zeroed.anc.toList.drop j).map nameOf =
        List.replicate (PQSEC_ANCESTORS - j) (0, []) := by
      intro j
      have hall : SecurityEvent.zeroed.anc.toList.map nameOf =
          List.replicate PQSEC_ANCESTORS (0, []) := by decide
      rw [List.map_drop, hall, List.drop_replicate]
    have hlen : ev.anc.toList.length = PQSEC_ANCESTORS := ev.anc.length_toList
    have hrest : (ev.anc.toList.drop k).map nameOf =
        List.replicate (ev.anc.toList.length - k) (0, []) := by
      rw [List.eq_replicate_iff]
      refine ⟨by simp, ?_⟩
      intro b hb
      obtain ⟨a, ha, rfl⟩ := List.mem_map.mp hb
      exact hempty a ha
    simp only [hanc, List.map_append, hzero, hpresent, List.map_map]
    conv_rhs => rw [← List.take_append_drop k ev.anc.toList, List.map_append, hrest]
    congr 1
    · exact List.map_congr_left hsame
    · rw [List.length_take, hlen]
      congr 1
      omega

/-! ## 4. What comes back is plain -/

/-- A word of a line has no breaks once it is decoded. -/
theorem isBreak_of_mem_words {texts : List Bytes} {w : Bytes}
    (h : w ∈ (texts.flatMap pieces).map encodeField) :
    ∃ p, w = encodeField p ∧ ∀ c ∈ p, isBreak c = false := by
  obtain ⟨p, hp, rfl⟩ := List.mem_map.mp h
  obtain ⟨x, -, hx⟩ := List.mem_flatMap.mp hp
  exact ⟨p, rfl, of_mem_pieces hx⟩

theorem mem_of_mem_cut {p : Bytes} {n : ℕ} {c : UInt8} (h : c ∈ (cString p).take n) : c ∈ p :=
  (List.takeWhile_sublist _).subset (List.mem_of_mem_take h)

/-- What the member takes in, and the words behind it: the path has no breaks, and so the other
words are those of the ancestors. -/
theorem path_of_parseMember {ev e : SecurityEvent} (h : Recordable ev) {s : Bytes}
    (hwords : words s = ((memberTexts ev ++ ancestryTexts ev).flatMap pieces).map encodeField)
    {m : UInt32 × CharArray unionLen × Bytes} (hm : parseMember (lineKind ev) s = .ok m)
    (hu : e.u = m.2.1) (hpath : ev.type ≠ PQSEC_EVT_TCP_CONNECT → pathStr e = pathStr ev) :
    (ev.type ≠ PQSEC_EVT_TCP_CONNECT → ∀ c ∈ pathStr ev, isBreak c = false) ∧
      words m.2.2 = ((ancestryTexts ev).flatMap pieces).map encodeField := by
  -- the words behind the member, once the path is known to be one word
  have hbehind : (ev.type ≠ PQSEC_EVT_TCP_CONNECT → ∀ c ∈ pathStr ev, isBreak c = false) →
      words m.2.2 = ((ancestryTexts ev).flatMap pieces).map encodeField := by
    intro hfree
    rw [List.flatMap_append, flatMap_pieces (unbroken_memberTexts hfree), List.map_append] at hwords
    obtain ⟨rest, hok, hrest⟩ := parseMember_memberTexts h.type hwords
    obtain rfl := Except.ok.inj (hm.symm.trans hok)
    exact hrest
  have hgoal : ev.type ≠ PQSEC_EVT_TCP_CONNECT → ∀ c ∈ pathStr ev, isBreak c = false := by
    intro hne c hc
    rw [← hpath hne, pathStr, hu] at hc
    rcases h.type with htype | htype | htype
    · rw [lineKind_execve htype] at hm
      rcases hs : words s with _ | ⟨w, ws⟩
      · rw [parseMember, if_pos rfl, getWord_eq_none.mpr hs] at hm
        cases hm
      · obtain ⟨rest, hok, -⟩ := parseMember_execve hs
        obtain rfl := Except.ok.inj (hm.symm.trans hok)
        obtain ⟨p, rfl, hfree⟩ := isBreak_of_mem_words (hwords ▸ hs ▸ List.mem_cons_self)
        rw [pathStr_execveMember, decodeField_encodeField] at hc
        exact hfree c (mem_of_mem_cut hc)
    · exact absurd htype hne
    · have hexec : ¬ ev.type = PQSEC_EVT_EXECVE := by rw [htype]; decide
      obtain ⟨hacc, hfreeAcc⟩ : Unbroken (accessToStr ev.fileAccess) :=
        ⟨(accessToStr_mem _).1, fun c hc => ((accessToStr_mem _).2.2 c hc).2⟩
      obtain ⟨hino, hfreeIno⟩ := unbroken_decimal ev.fileIno.toNat
      obtain ⟨hdev, hfreeDev⟩ := unbroken_decimal ev.fileDev.toNat
      -- the access bits, the inode and the device are one word each
      have hsplit : words s = accessToStr ev.fileAccess :: decimal ev.fileIno.toNat ::
          decimal ev.fileDev.toNat ::
          (((if pathStr ev = [] then lit "-" else pathStr ev) :: ancestryTexts ev).flatMap
            pieces).map encodeField := by
        rw [hwords, memberTexts, if_neg hexec, if_neg hne]
        simp only [List.cons_append, List.nil_append, List.flatMap_cons,
          pieces_singleton hacc hfreeAcc, pieces_singleton hino hfreeIno,
          pieces_singleton hdev hfreeDev, List.map_cons, encodeField_accessToStr,
          encodeField_decimal]
      rw [lineKind_fileopen htype] at hm
      rcases htail : (((if pathStr ev = [] then lit "-" else pathStr ev) ::
          ancestryTexts ev).flatMap pieces).map encodeField with _ | ⟨w, ws⟩ <;>
        rw [htail] at hsplit
      · obtain ⟨rest, hrest, hget⟩ := getFile_of_decimal hsplit
        rw [parseMember, if_neg (by decide), if_neg (by decide), if_pos rfl, hget,
          getWord_eq_none.mpr hrest] at hm
        cases hm
      · obtain ⟨rest, hok, -⟩ := parseMember_fileopen_of_decimal hsplit
        obtain rfl := Except.ok.inj (hm.symm.trans hok)
        obtain ⟨p, rfl, hfree⟩ := isBreak_of_mem_words (htail ▸ List.mem_cons_self)
        rw [(fileMember_fields _ _ _ _).1, decodeField_encodeField] at hc
        split_ifs at hc
        · exact hfree c (mem_of_mem_cut hc)
        · cases mem_of_mem_cut hc
  exact ⟨hgoal, hbehind hgoal⟩

/-- No ancestor that is read has a break or a bar in its name. -/
theorem ancestors_of_parseTokens {texts toks : List Bytes} {e : SecurityEvent}
    (htoks : toks = (texts.flatMap pieces).map encodeField)
    {a : Ancestor} (ha : a ∈ (parseTokens toks e).anc.toList)
    (he : e.anc = SecurityEvent.zeroed.anc) :
    ∀ c ∈ cString a.comm.toList, isBreak c = false ∧ c ≠ 124 := by
  have hkept : Kept 124 := kept_of (by decide) (by decide)
  obtain ⟨anc, heq, hmem⟩ := parseTokens_eq toks e
  rw [heq] at ha
  intro c hc
  rcases hmem a ha with hold | ⟨tok, htok, hprefix, one, hone, hparse⟩
  · have hempty : ∀ b ∈ SecurityEvent.zeroed.anc.toList, cString b.comm.toList = [] := by decide
    rw [hempty a (he ▸ hold)] at hc
    cases hc
  · obtain ⟨p, rfl, hfree⟩ := isBreak_of_mem_words (htoks ▸ htok)
    obtain ⟨p', rfl, hdrop⟩ := isPrefixOf_encodeField hprefix
    rw [hdrop, splitOn_encodeField hkept] at hone
    obtain ⟨q, hq, rfl⟩ := List.mem_map.mp hone
    obtain ⟨q', hsub, hcomm⟩ := of_parseAncestor hparse
    rw [hcomm, cString_field (by decide)] at hc
    obtain ⟨hbar, hin⟩ := of_mem_splitOnP hq c (hsub c (mem_of_mem_cut hc))
    exact ⟨hfree c (List.mem_append_right _ hin), by simpa using hbar⟩

/-- An event that comes back as it was is plain. -/
theorem plain_of_sameFields {ev e : SecurityEvent} (h : Recordable ev) {n : ℕ} {x : Bytes} {k : ℕ}
    (hparse : parseLine n (fullLine ev) = .ok (some (.event e x k))) (hsame : SameFields e ev) :
    Plain ev := by
  obtain ⟨s, hs, hline⟩ := parseLine_fullLine ev
  have hevent : parseEvent (lineKind ev) s = .ok e := by
    rw [hline n] at hparse
    rcases hev : parseEvent (lineKind ev) s with why | e' <;> rw [hev] at hparse
    · cases hparse
    · cases hparse
      rfl
  obtain ⟨hne, hfreePid⟩ := unbroken_decimal ev.pid.toNat
  obtain ⟨hne', hfreePpid⟩ := unbroken_decimal ev.ppid.toNat
  have hcommText : orUnknown ev.commStr = ev.commStr := if_neg h.comm.1
  have hids : words s = decimal ev.pid.toNat :: decimal ev.ppid.toNat ::
      ((ev.commStr :: (memberTexts ev ++ ancestryTexts ev)).flatMap pieces).map encodeField := by
    rw [hs, lineTexts, headTexts]
    simp only [List.cons_append, List.nil_append, List.flatMap_cons, pieces_singleton hne hfreePid,
      pieces_singleton hne' hfreePpid, List.map_cons, encodeField_decimal, hcommText]
  obtain ⟨s₁, hs₁, hhead⟩ := getHead_of_decimal hids
  rcases hword : getWord s₁ with _ | ⟨w, s₂⟩ <;> rw [hword] at hhead
  · rw [Option.map_none] at hhead
    rw [parseEvent, hhead] at hevent
    cases hevent
  rw [Option.map_some] at hhead
  have hwords := words_of_getWord hword
  obtain ⟨p, rfl, hfree⟩ := isBreak_of_mem_words (hs₁ ▸ hwords ▸ List.mem_cons_self)
  rw [parseEvent_of_head _ hhead] at hevent
  rcases hm : parseMember (lineKind ev) s₂ with why | m <;> rw [hm] at hevent
  · cases hevent
  have he : e = parseTokens (words m.2.2) { SecurityEvent.zeroed with
      type := m.1, pid := ev.pid, ppid := ev.ppid
      comm := field _ (decodeField (encodeField p)), u := m.2.1 } := (Except.ok.inj hevent).symm
  obtain ⟨anc, htokens, -⟩ := parseTokens_eq (words m.2.2) { SecurityEvent.zeroed with
    type := m.1, pid := ev.pid, ppid := ev.ppid
    comm := field _ (decodeField (encodeField p)), u := m.2.1 }
  have hcomm : ∀ c ∈ ev.commStr, isBreak c = false := by
    intro c hc
    have hfield : e.comm = field _ (decodeField (encodeField p)) := by rw [he, htokens]
    rw [← hsame.comm, commStr_field hfield, decodeField_encodeField] at hc
    exact hfree c (mem_of_mem_cut hc)
  have hrest : words s₂ = ((memberTexts ev ++ ancestryTexts ev).flatMap pieces).map encodeField := by
    rw [hs₁, List.flatMap_cons, pieces_singleton h.comm.1 hcomm, List.map_append] at hwords
    exact (List.cons.inj hwords).2.symm
  have hu : e.u = m.2.1 := by rw [he, htokens]
  obtain ⟨hpath, htoks⟩ := path_of_parseMember h hrest hm hu hsame.path
  refine ⟨hcomm, hpath, ?_⟩
  intro a ha
  obtain ⟨b, hb, hname⟩ : ∃ b ∈ e.anc.toList, nameOf b = nameOf a := by
    have hmem := List.mem_map_of_mem (f := nameOf) ha
    rw [← hsame.ancestors] at hmem
    exact List.mem_map.mp hmem
  have hcommEq : cString a.comm.toList = cString b.comm.toList := (Prod.mk.inj hname).2.symm
  rw [hcommEq]
  rw [he] at hb
  exact ancestors_of_parseTokens htoks hb rfl

/-! ## 5. The codec -/

/-- **When the codec carries an event.**  An event that the collector can record comes back from the
line that is written for it exactly when it is plain; the buffer cuts no line. -/
theorem events_codec_round_trip_iff (ev : SecurityEvent) :
    (Recordable ev → (RoundTrips ev ↔ Plain ev)) ∧
      (IsRecorded ev → formatLine ev = fullLine ev) := by
  refine ⟨fun h => ⟨?_, ?_⟩, formatLine_eq_fullLine⟩
  · intro hround
    obtain ⟨e, hparse, hsame, -⟩ := hround ""
    rw [parse_formatLine h.type] at hparse
    rcases hline : parseLine 1 (fullLine ev) with why | _ | entry <;> rw [hline] at hparse
    · cases hparse
    · cases hparse
    · obtain rfl := (List.cons.inj (Prod.mk.inj hparse).1).1
      exact plain_of_sameFields h hline hsame
  · intro hplain name
    obtain ⟨e, hparse, hsame, hts⟩ := parseLine_formatLine h hplain
    refine ⟨e, ?_, hsame, hts⟩
    rw [parse_formatLine h.type, hparse]

/-- A blank, a percent sign and a `#` in the names. -/
def blankEvent : SecurityEvent := SecurityEvent.synExecve (lit "a b%") (lit "/bin/ls #1") 7 6 0

theorem recordable_synExecve {comm file : Bytes} {pid ppid : UInt32} {ts : UInt64}
    (hcomm : (SecurityEvent.synExecve comm file pid ppid ts).commStr ≠ [] ∧
      0 ∈ (SecurityEvent.synExecve comm file pid ppid ts).comm.toList)
    (hpath : 0 ∈ (SecurityEvent.synExecve comm file pid ppid ts).u.toList.take PQSEC_FILENAME_LEN)
    (hfile : pathStr (SecurityEvent.synExecve comm file pid ppid ts) ≠ []) :
    Recordable (SecurityEvent.synExecve comm file pid ppid ts) := by
  have hslots : ∀ a ∈ SecurityEvent.zeroed.anc.toList, isEmptySlot a = true := by decide
  refine ⟨Or.inl rfl, hcomm, fun _ => hpath, fun _ => hfile, ?_, ?_, 0, ?_, hslots⟩
  · intro (h : PQSEC_EVT_EXECVE = PQSEC_EVT_TCP_CONNECT)
    exact absurd h (by decide)
  · intro (h : PQSEC_EVT_EXECVE = PQSEC_EVT_FILE_OPEN)
    exact absurd h (by decide)
  · intro a ha
    cases ha

theorem events_codec_round_trip_iff_blank : RoundTrips blankEvent :=
  ((events_codec_round_trip_iff blankEvent).1
    (recordable_synExecve (by decide) (by decide) (by decide))).mpr
    ⟨by decide, fun _ => by decide, by decide⟩

/-- A vertical tab in the process name. -/
def breakEvent : SecurityEvent := SecurityEvent.synExecve [97, 11, 98] (lit "/bin/ls") 7 6 0

/-- The name comes back as `a`, and the file as `b`. -/
theorem events_codec_loses_name : Recordable breakEvent ∧ ¬ RoundTrips breakEvent := by
  refine ⟨recordable_synExecve (by decide) (by decide) (by decide), ?_⟩
  intro h
  obtain ⟨e, hparse, hsame, -⟩ := h ""
  have hread : ((parse (formatLine breakEvent) "").1.map fun entry => match entry with
      | .event e _ _ => (e.commStr, pathStr e)
      | _ => ([], [])) = [(lit "a", lit "b")] := by decide
  rw [hparse] at hread
  have hname : e.commStr = lit "a" := (Prod.mk.inj (List.cons.inj hread).1).1
  rw [hsame.comm] at hname
  exact absurd hname (by decide)

end PqcEdr.EventsFile
