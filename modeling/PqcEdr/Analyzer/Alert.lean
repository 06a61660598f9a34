/-
# The alert log

`analyzer/src/alert.cpp`: an alert as one line of JSON on the standard output, and a summary for
people on the standard error.  What the lines are worth to a program that reads them is said with
a reader of flat JSON objects, which scans the strings as the library itself does:

* `emitAlert_line`: any alert is one line, and the line reads back as its fields.
* `alert_log_reads`: the log of any alerts reads back, line by line, as those alerts.
-/
import PqcEdr.Analyzer.Claude
import PqcEdr.Analyzer.JsonString
import PqcEdr.EventsFile.Line

namespace PqcEdr.Analyzer

open TextInput (Digits isDigit isSpace scanInt ofDigits lines)
open EventsFile (digits_decimal ofDigits_decimal)

/-! ## 1. `to_string`, `emit_alert` -/

def Verdict.toText : Verdict → String
  | .Normal => "normal"
  | .Suspicious => "suspicious"
  | .Malicious => "malicious"
  | .Unknown => "unknown"

def Severity.toText : Severity → String
  | .Info => "info"
  | .Low => "low"
  | .Medium => "medium"
  | .High => "high"
  | .Critical => "critical"

/-- The values of an alert's object: a string, or an integer. -/
inductive Scalar where
  | text (s : Bytes)
  | integer (n : ℤ)
  deriving DecidableEq

/-- `dump` of such a value. -/
def dumpScalar (h : ErrorHandler) : Scalar → Throws Bytes
  | .text s => (dumpEscaped h s).map fun out => lit "\"" ++ out ++ lit "\""
  | .integer n => .ok (decimalLong n)

def dumpMember (h : ErrorHandler) (field : Bytes × Scalar) : Throws Bytes := do
  let key ← dumpEscaped h field.1
  let value ← dumpScalar h field.2
  pure (lit "\"" ++ key ++ lit "\":" ++ value)

/-- The members, with commas between them. -/
def dumpMembers (h : ErrorHandler) : List (Bytes × Scalar) → Throws Bytes
  | [] => .ok []
  | [field] => dumpMember h field
  | field :: fields => do
    let first ← dumpMember h field
    let rest ← dumpMembers h fields
    pure (first ++ lit "," ++ rest)

/-- `dump(-1, ' ', false, h)` of an object. -/
def dumpObject (h : ErrorHandler) (fields : List (Bytes × Scalar)) : Throws Bytes :=
  (dumpMembers h fields).map fun out => lit "\x7b" ++ out ++ lit "\x7d"

/-- The object of `emit_alert`, its keys in the order of a `std::map`. -/
def alertFields (ts : Int64) (a : Alert) : List (Bytes × Scalar) :=
  [(lit "comm", .text a.comm),
    (lit "event", .text a.event_summary),
    (lit "pid", .integer a.pid.toNat),
    (lit "reason", .text a.reason),
    (lit "severity", .text (lit a.severity.toText)),
    (lit "source", .text (lit a.source)),
    (lit "ts", .integer ts.toInt),
    (lit "verdict", .text (lit a.verdict.toText))]

/-- `%-ns`. -/
def padRight (n : ℕ) (s : Bytes) : Bytes := s ++ List.replicate (n - s.length) 32

/-- What goes to the standard output and to the standard error. -/
structure Printed where
  out : Bytes := []
  err : Bytes := []
  deriving DecidableEq

/-- The summary for people. -/
def alertSummary (a : Alert) : Bytes :=
  lit "  [ALERT] " ++ padRight 10 (lit a.verdict.toText) ++ lit " sev=" ++
    padRight 8 (lit a.severity.toText) ++ lit " src=" ++ padRight 6 (cString (lit a.source)) ++
    lit " | " ++ cString a.event_summary ++ lit " | " ++ cString a.reason ++ lit "\n"

/-- At the time `ts`. -/
def emitAlert (ts : Int64) (a : Alert) : Throws Printed := do
  let line ← dumpObject .replace (alertFields ts a)
  pure { out := cString line ++ lit "\n", err := alertSummary a }

/-! ## 2. A reader of flat objects -/

/-- The next byte, if it is this one. -/
def expect (c : UInt8) : Bytes → Option Bytes
  | [] => none
  | d :: input => if d = c then some input else none

def readScalar (input : Bytes) : Option (Scalar × Bytes) :=
  match expect 34 input with
  | some input => (scanString input).toOption.map fun x => (.text x.1, x.2)
  | none =>
    (scanInt input).map fun x => (.integer (if x.1 then -(x.2.1 : ℤ) else x.2.1), x.2.2)

/-- A key and its value. -/
def readMember (input : Bytes) : Option ((Bytes × Scalar) × Bytes) := do
  let input ← expect 34 input
  let (key, input) ← (scanString input).toOption
  let input ← expect 58 input
  let (value, input) ← readScalar input
  some ((key, value), input)

/-- Members up to the closing brace, at most so many. -/
def readMembers : ℕ → Bytes → Option (List (Bytes × Scalar) × Bytes)
  | 0, _ => none
  | limit + 1, input => do
    let (field, input) ← readMember input
    match expect 44 input with
    | some input => (readMembers limit input).map fun x => (field :: x.1, x.2)
    | none => (expect 125 input).map fun input => ([field], input)

/-- A line that is one object with at least one member. -/
def readObject (line : Bytes) : Option (List (Bytes × Scalar)) := do
  let input ← expect 123 line
  let (fields, rest) ← readMembers input.length input
  if rest = [] then some fields else none

/-! ## 3. Reading what was dumped -/

/-- What is seen of a text: UTF-8, and the text itself where it was that. -/
def Shown (s t : Bytes) : Prop := Utf8.Valid t ∧ (Utf8.Valid s → t = s)

def Scalar.Shown : Scalar → Scalar → Prop
  | .text s, .text t => Analyzer.Shown s t
  | .integer n, .integer m => n = m
  | _, _ => False

theorem expect_self (c : UInt8) (rest : Bytes) : expect c (c :: rest) = some rest := if_pos rfl

theorem expect_ne {c d : UInt8} (h : d ≠ c) (rest : Bytes) : expect c (d :: rest) = none :=
  if_neg h

theorem lit_quote : lit "\"" = [34] := by decide

/-- A string between quotes. -/
theorem dumpEscaped_shown (s : Bytes) : ∃ out t, dumpEscaped .replace s = .ok out ∧
    NoControl out ∧ Shown s t ∧ ∀ rest, scanString (out ++ 34 :: rest) = .ok (t, rest) := by
  obtain ⟨out, t, hdump, hwrites, hsame⟩ := dumpEscaped_reads s
  exact ⟨out, t, hdump, hwrites.noControl, ⟨Utf8.valid_iff_wellFormed.mpr hwrites.wellFormed, hsame⟩,
    hwrites.reads.scanString⟩

theorem noControl_decimal (n : ℕ) : NoControl (decimal n) := by
  intro c hc
  have := mem_decimal hc
  omega

theorem decimalLong_of_nonneg {n : ℤ} (h : 0 ≤ n) : decimalLong n = decimal n.natAbs := by
  rw [decimalLong, if_neg (by omega), List.nil_append]

theorem decimalLong_of_neg {n : ℤ} (h : n < 0) : decimalLong n = 45 :: decimal n.natAbs := by
  have hlit : lit "-" = [45] := by decide
  rw [decimalLong, if_pos h, hlit, List.singleton_append]

theorem scanInt_minus {d t : Bytes} (hd : Digits d) (ht : ∀ c ∈ t.head?, isDigit c = false) :
    scanInt (45 :: (d ++ t)) = some (true, ofDigits d, t) := by
  obtain ⟨htake, hdrop⟩ := TextInput.takeWhile_of_forall hd.2 ht
  have hskip : (45 :: (d ++ t)).dropWhile isSpace = 45 :: (d ++ t) :=
    List.dropWhile_cons_of_neg (by decide)
  have hsign : TextInput.sign (45 :: (d ++ t)) = (true, d ++ t) := rfl
  rw [scanInt, hskip, hsign]
  simp only [htake, hdrop]
  rw [if_neg hd.1]

/-- A number, up to a byte that is no digit. -/
theorem readScalar_decimalLong (n : ℤ) {c : UInt8} (hc : isDigit c = false) (rest : Bytes) :
    readScalar (decimalLong n ++ c :: rest) = some (.integer n, c :: rest) := by
  obtain ⟨d, ds, hd⟩ := List.exists_cons_of_ne_nil (digits_decimal n.natAbs).1
  have hdigit : isDigit d = true := (digits_decimal n.natAbs).2 d (by rw [hd]; exact .head _)
  have hquote : d ≠ 34 := by
    rintro rfl
    exact absurd hdigit (by decide)
  have hafter : ∀ x ∈ (c :: rest).head?, isDigit x = false := by
    rintro x hx
    rwa [← Option.some.inj hx]
  have hscan := TextInput.scanInt_append (digits_decimal n.natAbs) hafter
  rw [ofDigits_decimal] at hscan
  rcases lt_or_ge n 0 with hneg | hpos
  · have hsigned : scanInt (45 :: (decimal n.natAbs ++ c :: rest)) =
        some (true, n.natAbs, c :: rest) := by
      rw [scanInt_minus (digits_decimal n.natAbs) hafter, ofDigits_decimal]
    have habs : -(n.natAbs : ℤ) = n := Int.ofNat_natAbs_of_nonpos hneg.le ▸ Int.neg_neg n
    rw [decimalLong_of_neg hneg, List.cons_append, readScalar, expect_ne (by decide), hsigned]
    exact congrArg (fun m => some (Scalar.integer m, c :: rest)) habs
  · rw [decimalLong_of_nonneg hpos, readScalar]
    have hexpect : expect 34 (decimal n.natAbs ++ c :: rest) = none := by
      rw [hd]
      exact expect_ne hquote _
    rw [hexpect, hscan]
    exact congrArg (fun m => some (Scalar.integer m, c :: rest)) (Int.natAbs_of_nonneg hpos)

theorem dumpScalar_shown (v : Scalar) : ∃ out v', dumpScalar .replace v = .ok out ∧
    NoControl out ∧ v.Shown v' ∧ ∀ c rest, isDigit c = false →
      readScalar (out ++ c :: rest) = some (v', c :: rest) := by
  cases v with
  | text s =>
    obtain ⟨out, t, hdump, hcontrol, hshown, hscan⟩ := dumpEscaped_shown s
    refine ⟨34 :: (out ++ [34]), .text t, ?_, ?_, hshown, ?_⟩
    · rw [dumpScalar, hdump, lit_quote]
      rfl
    · intro c hc
      simp only [List.mem_cons, List.mem_append, List.not_mem_nil, or_false] at hc
      rcases hc with rfl | hc | rfl
      · decide
      · exact hcontrol c hc
      · decide
    · intro c rest _
      have h := hscan (c :: rest)
      simp only [readScalar, List.cons_append, expect_self, List.append_assoc,
        List.nil_append, h, Except.toOption, Option.map_some]
  | integer n =>
    refine ⟨decimalLong n, .integer n, rfl, ?_, rfl, ?_⟩
    · rcases lt_or_ge n 0 with hneg | hpos
      · rw [decimalLong_of_neg hneg]
        exact List.forall_mem_cons.mpr ⟨by decide, noControl_decimal _⟩
      · rw [decimalLong_of_nonneg hpos]
        exact noControl_decimal _
    · intro c rest hc
      exact readScalar_decimalLong n hc rest

/-- A member as it is seen. -/
def FieldShown (f g : Bytes × Scalar) : Prop := Shown f.1 g.1 ∧ f.2.Shown g.2

theorem dumpMember_shown (f : Bytes × Scalar) : ∃ out g, dumpMember .replace f = .ok out ∧
    NoControl out ∧ out ≠ [] ∧ FieldShown f g ∧ ∀ c rest, isDigit c = false →
      readMember (out ++ c :: rest) = some (g, c :: rest) := by
  obtain ⟨key, value⟩ := f
  obtain ⟨out, k, hdump, hcontrol, hshown, hscan⟩ := dumpEscaped_shown key
  obtain ⟨out', v, hdump', hcontrol', hshown', hread⟩ := dumpScalar_shown value
  have hcolon : lit "\":" = [34, 58] := by decide
  refine ⟨34 :: (out ++ 34 :: 58 :: out'), (k, v), ?_, ?_, by simp, ⟨hshown, hshown'⟩, ?_⟩
  · rw [dumpMember, hdump, hdump', lit_quote, hcolon]
    simp [bind, Except.bind, pure, Except.pure]
  · intro c hc
    simp only [List.mem_cons, List.mem_append] at hc
    rcases hc with rfl | hc | rfl | rfl | hc
    · decide
    · exact hcontrol c hc
    · decide
    · decide
    · exact hcontrol' c hc
  · intro c rest hc
    have h := hscan (58 :: (out' ++ c :: rest))
    simp only [readMember, List.cons_append, List.append_assoc, expect_self, h,
      Except.toOption, Option.bind_eq_bind, Option.bind_some, hread c rest hc]

/-- All members of an object, with enough of a limit. -/
theorem dumpMembers_shown {fields : List (Bytes × Scalar)} (hne : fields ≠ []) :
    ∃ out shown, dumpMembers .replace fields = .ok out ∧ NoControl out ∧
      fields.length ≤ out.length ∧ List.Forall₂ FieldShown fields shown ∧
      ∀ limit rest, fields.length ≤ limit →
        readMembers limit (out ++ 125 :: rest) = some (shown, rest) := by
  induction fields with
  | nil => exact absurd rfl hne
  | cons f fields ih =>
    obtain ⟨out, g, hdump, hcontrol, hout, hshown, hread⟩ := dumpMember_shown f
    have hpos := List.length_pos_iff.mpr hout
    cases fields with
    | nil =>
      refine ⟨out, [g], hdump, hcontrol, hpos, .cons hshown .nil, ?_⟩
      intro limit rest hlimit
      obtain ⟨limit, rfl⟩ := Nat.exists_eq_succ_of_ne_zero (by
        rw [List.length_singleton] at hlimit
        omega : limit ≠ 0)
      simp only [readMembers, hread 125 rest (by decide), Option.bind_eq_bind, Option.bind_some,
        expect_ne (show (125 : UInt8) ≠ 44 by decide), expect_self, Option.map_some]
    | cons f' fields =>
      obtain ⟨out', shown, hdump', hcontrol', hlen, hshown', hread'⟩ := ih (by simp)
      have hcomma : lit "," = [44] := by decide
      refine ⟨out ++ 44 :: out', g :: shown, ?_, ?_, ?_, .cons hshown hshown', ?_⟩
      · rw [dumpMembers, hdump, hdump', hcomma]
        · simp [bind, Except.bind, pure, Except.pure]
        · simp
      · exact hcontrol.append (List.forall_mem_cons.mpr ⟨by decide, hcontrol'⟩)
      · simp only [List.length_cons, List.length_append] at hlen ⊢
        omega
      · intro limit rest hlimit
        obtain ⟨limit, rfl⟩ := Nat.exists_eq_succ_of_ne_zero (by
          rw [List.length_cons] at hlimit
          omega : limit ≠ 0)
        have hmore := hread' limit rest (by
          rw [List.length_cons] at hlimit
          omega)
        simp only [readMembers, List.append_assoc, List.cons_append,
          hread 44 (out' ++ 125 :: rest) (by decide), Option.bind_eq_bind, Option.bind_some,
          expect_self, hmore, Option.map_some]

/-- An object reads back, whatever bytes its texts hold. -/
theorem dumpObject_shown {fields : List (Bytes × Scalar)} (hne : fields ≠ []) :
    ∃ line shown, dumpObject .replace fields = .ok line ∧ NoControl line ∧
      List.Forall₂ FieldShown fields shown ∧ readObject line = some shown := by
  obtain ⟨out, shown, hdump, hcontrol, hlen, hshown, hread⟩ := dumpMembers_shown hne
  have hopen : lit "\x7b" = [123] := by decide
  have hclose : lit "\x7d" = [125] := by decide
  refine ⟨123 :: (out ++ [125]), shown, ?_, ?_, hshown, ?_⟩
  · rw [dumpObject, hdump, hopen, hclose]
    rfl
  · refine List.forall_mem_cons.mpr ⟨by decide, NoControl.append hcontrol ?_⟩
    unfold NoControl
    decide
  · have h := hread (out ++ [125]).length [] (by
      rw [List.length_append]
      omega)
    simp only [readObject, expect_self, Option.bind_eq_bind, Option.bind_some, h, if_true]

/-! ## 4. The log -/

/-- The members that a reader sees of an alert: everything but the three texts is as it was. -/
def ReadsAs (ts : Int64) (a : Alert) (fields : List (Bytes × Scalar)) : Prop :=
  ∃ comm event reason, Shown a.comm comm ∧ Shown a.event_summary event ∧ Shown a.reason reason ∧
    fields = [(lit "comm", .text comm), (lit "event", .text event),
      (lit "pid", .integer a.pid.toNat), (lit "reason", .text reason),
      (lit "severity", .text (lit a.severity.toText)), (lit "source", .text (lit a.source)),
      (lit "ts", .integer ts.toInt), (lit "verdict", .text (lit a.verdict.toText))]

theorem valid_lit (s : String) : Utf8.Valid (lit s) := by
  obtain ⟨cs, hcs⟩ := s.isValidUTF8
  have hbytes : s.toUTF8 = cs.utf8Encode := hcs
  refine ⟨cs, ?_⟩
  rw [lit, hbytes, List.utf8Encode, Utf8.encode, List.data_toByteArray]

theorem shown_lit {s : String} {t : Bytes} (h : Shown (lit s) t) : t = lit s := h.2 (valid_lit s)

theorem fieldShown_text {key : String} {s : Bytes} {g : Bytes × Scalar}
    (h : FieldShown (lit key, .text s) g) : ∃ t, g = (lit key, .text t) ∧ Shown s t := by
  obtain ⟨k, v⟩ := g
  obtain ⟨hkey, hvalue⟩ := h
  cases v with
  | text t => exact ⟨t, Prod.ext (shown_lit hkey) rfl, hvalue⟩
  | integer n => exact hvalue.elim

theorem fieldShown_integer {key : String} {n : ℤ} {g : Bytes × Scalar}
    (h : FieldShown (lit key, .integer n) g) : g = (lit key, .integer n) := by
  obtain ⟨k, v⟩ := g
  obtain ⟨hkey, hvalue⟩ := h
  cases v with
  | text t => exact hvalue.elim
  | integer m => exact Prod.ext (shown_lit hkey) (congrArg Scalar.integer hvalue.symm)

theorem readsAs_of_shown {ts : Int64} {a : Alert} {shown : List (Bytes × Scalar)}
    (h : List.Forall₂ FieldShown (alertFields ts a) shown) : ReadsAs ts a shown := by
  simp only [alertFields, List.forall₂_cons_left_iff, List.forall₂_nil_left_iff] at h
  obtain ⟨_, _, h1, ⟨_, _, h2, ⟨_, _, h3, ⟨_, _, h4, ⟨_, _, h5, ⟨_, _, h6, ⟨_, _, h7,
    ⟨_, _, h8, rfl, rfl⟩, rfl⟩, rfl⟩, rfl⟩, rfl⟩, rfl⟩, rfl⟩, rfl⟩ := h
  obtain ⟨comm, rfl, hcomm⟩ := fieldShown_text h1
  obtain ⟨event, rfl, hevent⟩ := fieldShown_text h2
  obtain rfl := fieldShown_integer h3
  obtain ⟨reason, rfl, hreason⟩ := fieldShown_text h4
  obtain ⟨severity, rfl, hseverity⟩ := fieldShown_text h5
  obtain ⟨source, rfl, hsource⟩ := fieldShown_text h6
  obtain rfl := fieldShown_integer h7
  obtain ⟨verdict, rfl, hverdict⟩ := fieldShown_text h8
  refine ⟨comm, event, reason, hcomm, hevent, hreason, ?_⟩
  rw [shown_lit hseverity, shown_lit hsource, shown_lit hverdict]

/-- No bytes of an alert make its line throw or break: it is one line, and reads back. -/
theorem emitAlert_line (ts : Int64) (a : Alert) : ∃ line, emitAlert ts a =
      .ok { out := line ++ [10], err := alertSummary a } ∧ NoControl line ∧
    ∃ fields, readObject line = some fields ∧ ReadsAs ts a fields := by
  obtain ⟨line, shown, hdump, hcontrol, hshown, hread⟩ :=
    dumpObject_shown (show alertFields ts a ≠ [] from List.cons_ne_nil _ _)
  have hnul : cString line = line := by
    refine List.takeWhile_eq_self_iff.mpr fun c hc => decide_eq_true ?_
    rintro rfl
    exact absurd (hcontrol 0 hc) (by decide)
  have hnewline : lit "\n" = [10] := by decide
  refine ⟨line, ?_, hcontrol, shown, hread, readsAs_of_shown hshown⟩
  rw [emitAlert, hdump]
  simp only [bind, Except.bind, pure, Except.pure, hnul, hnewline]

theorem emitAlert_returns (ts : Int64) (a : Alert) : ∃ p, emitAlert ts a = .ok p := by
  obtain ⟨line, hemit, -⟩ := emitAlert_line ts a
  exact ⟨_, hemit⟩

/-- What `emit_alert` prints: it throws nothing. -/
def printedAlert (ts : Int64) (a : Alert) : Printed :=
  ClaudeLlmClient.returned (emitAlert ts a) (emitAlert_returns ts a)

theorem emitAlert_eq_printed (ts : Int64) (a : Alert) : emitAlert ts a = .ok (printedAlert ts a) := by
  obtain ⟨p, hp⟩ := emitAlert_returns ts a
  rw [hp, printedAlert, ClaudeLlmClient.returned_eq (emitAlert_returns ts a) hp]

/-- The lines of a log, one alert after the other. -/
theorem printedAlert_lines (log : List (Int64 × Alert)) :
    List.Forall₂ (fun x line => ∃ fields, readObject line = some fields ∧ ReadsAs x.1 x.2 fields)
      log (lines (log.flatMap fun x => (printedAlert x.1 x.2).out)) := by
  induction log with
  | nil => exact .nil
  | cons x log ih =>
    obtain ⟨ts, a⟩ := x
    obtain ⟨line, hemit, hcontrol, hread⟩ := emitAlert_line ts a
    have hout : (printedAlert ts a).out = line ++ [10] :=
      congrArg Printed.out (ClaudeLlmClient.returned_eq (emitAlert_returns ts a) hemit)
    have hbreak : (10 : UInt8) ∉ line := fun h => absurd (hcontrol 10 h) (by decide)
    rw [List.flatMap_cons, hout, List.append_assoc, List.singleton_append,
      TextInput.lines_append_newline hbreak]
    exact .cons hread ih

/-- **The log of any alerts.**  Whatever bytes the texts of the alerts hold, `emit_alert` returns
on each of them, the standard output has one line for each, and a reader gets the alerts back from
the lines, in order. -/
theorem alert_log_reads (log : List (Int64 × Alert)) :
    ∃ printed, (log.mapM fun x => emitAlert x.1 x.2) = .ok printed ∧
      List.Forall₂ (fun x line => ∃ fields, readObject line = some fields ∧ ReadsAs x.1 x.2 fields)
        log (lines (printed.flatMap (·.out))) := by
  refine ⟨log.map fun x => printedAlert x.1 x.2, ?_, ?_⟩
  · induction log with
    | nil => rfl
    | cons x log ih => rw [List.mapM_cons, emitAlert_eq_printed, ih]; rfl
  · rw [List.flatMap_map]
    exact printedAlert_lines log

end PqcEdr.Analyzer
