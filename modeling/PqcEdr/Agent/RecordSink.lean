/-
# The recorder

`RecordSink` of `agent/src/main.cpp`: a header, then a line for each event that has one, and before
it a `delay` line where more than ten milliseconds have passed since the last event written.

* `lines_recordAll`: the lines of the file.
* `parseLine_headerLine`, `parseLine_delayLine`: what the reader makes of those that are no event.
-/
import PqcEdr.EventsFile.RoundTrip

namespace PqcEdr.Agent

open TextInput EventsFile

/-! ## 1. The sink -/

/-- `out_` is what has been written, flushed or not. -/
structure RecordSink where
  out : Bytes
  n : UInt64
  last_ts : UInt64

/-- The constructor's line, around the time of day as `strftime` prints it. -/
def headerLine (stamp : Bytes) : Bytes :=
  lit "# recorded by agent --record at " ++ stamp ++
    lit " (ts_ns 는 기록하지 않음 — 재생 시 시계 재부여)"

/-- The milliseconds of the `delay` line before an event, if one is written. -/
def delayMs (last_ts ts_ns : UInt64) : Option UInt64 :=
  if last_ts ≠ 0 ∧ ts_ns > last_ts + 10000000 then some ((ts_ns - last_ts) / 1000000) else none

def delayLine (ms : UInt64) : Bytes := lit "delay " ++ decimal ms.toNat

namespace RecordSink

/-- The constructor, where the file opens. -/
def create (stamp : Bytes) : RecordSink := ⟨headerLine stamp ++ lit "\n", 0, 0⟩

def handle (s : RecordSink) (ev : SecurityEvent) : RecordSink :=
  let line := formatLine ev
  if line = [] then s
  else
    let delay := match delayMs s.last_ts ev.ts_ns with
      | some ms => delayLine ms ++ lit "\n"
      | none => []
    { out := s.out ++ delay ++ line ++ lit "\n", n := s.n + 1, last_ts := ev.ts_ns }

end RecordSink

/-- The file after a run of the agent. -/
def recordAll (stamp : Bytes) (log : List SecurityEvent) : Bytes :=
  (log.foldl RecordSink.handle (RecordSink.create stamp)).out

/-- The events that have a line. -/
def recorded (log : List SecurityEvent) : List SecurityEvent :=
  log.filter fun ev => formatLine ev ≠ []

/-! ## 2. The lines of the file -/

/-- The lines behind the header, past an event at `last_ts`. -/
def recordedLines : UInt64 → List SecurityEvent → List Bytes
  | _, [] => []
  | last_ts, ev :: evs =>
    ((delayMs last_ts ev.ts_ns).map delayLine).toList ++ fullLine ev :: recordedLines ev.ts_ns evs

theorem isRecorded_of_formatLine {ev : SecurityEvent} (h : formatLine ev ≠ []) : IsRecorded ev := by
  by_contra hnot
  rw [IsRecorded, not_or, not_or] at hnot
  exact h (by rw [formatLine, if_neg hnot.1, if_neg hnot.2.1, if_neg hnot.2.2])

theorem mem_recorded {log : List SecurityEvent} {ev : SecurityEvent} :
    ev ∈ recorded log ↔ ev ∈ log ∧ IsRecorded ev := by
  rw [recorded, List.mem_filter, decide_eq_true_eq]
  refine and_congr_right fun _ => ⟨isRecorded_of_formatLine, fun h => ?_⟩
  rw [formatLine_eq_fullLine h]
  exact fullLine_ne_nil ev

/-- An event without a line leaves the sink alone. -/
theorem foldl_handle_recorded (s : RecordSink) (log : List SecurityEvent) :
    log.foldl RecordSink.handle s = (recorded log).foldl RecordSink.handle s := by
  rw [recorded, List.foldl_filter]
  congr 1
  funext s ev
  by_cases h : formatLine ev = []
  · simp [RecordSink.handle, h]
  · simp [h]

theorem lit_newline : lit "\n" = [10] := by decide

theorem not_mem_delayLine {b : UInt8} (hb : b = 10 ∨ b = 35) (ms : UInt64) : b ∉ delayLine ms := by
  rw [delayLine, List.mem_append, not_or]
  refine ⟨by rcases hb with rfl | rfl <;> decide, fun hmem => ?_⟩
  have hdigit := (digits_decimal ms.toNat).2 b hmem
  rcases hb with rfl | rfl <;> exact absurd hdigit (by decide)

theorem lines_foldl_handle {evs : List SecurityEvent} (h : ∀ ev ∈ evs, IsRecorded ev)
    {s : RecordSink} (ls : List Bytes) (hs : ∀ t, lines (s.out ++ t) = ls ++ lines t) :
    lines (evs.foldl RecordSink.handle s).out = ls ++ recordedLines s.last_ts evs := by
  induction evs generalizing s ls with
  | nil =>
    have hout := hs []
    rwa [List.append_nil] at hout
  | cons ev evs ih =>
    have hev : IsRecorded ev := h ev List.mem_cons_self
    have hline : formatLine ev = fullLine ev := formatLine_eq_fullLine hev
    have hnl : ∀ t, lines (fullLine ev ++ (lit "\n" ++ t)) = fullLine ev :: lines t := by
      intro t
      rw [lit_newline, List.singleton_append]
      exact lines_append_newline (not_mem_fullLine (Or.inl rfl) ev) t
    have hstep : ∀ t, lines ((s.handle ev).out ++ t) =
        (ls ++ ((delayMs s.last_ts ev.ts_ns).map delayLine).toList ++ [fullLine ev]) ++
          lines t := by
      intro t
      rw [RecordSink.handle, hline]
      simp only [if_neg (fullLine_ne_nil ev)]
      cases delayMs s.last_ts ev.ts_ns with
      | none =>
        simp only [List.append_assoc, List.append_nil, List.nil_append, hs, hnl, Option.map_none,
          Option.toList_none, List.cons_append]
      | some ms =>
        have hdelay := lines_append_newline (not_mem_delayLine (Or.inl rfl) ms)
        simp only [List.append_assoc, hs, lit_newline, List.cons_append, hdelay, Option.map_some,
          Option.toList_some, List.nil_append] at hnl ⊢
        rw [hnl]
    have hlast : (s.handle ev).last_ts = ev.ts_ns := by
      rw [RecordSink.handle, hline]
      simp only [if_neg (fullLine_ne_nil ev)]
    rw [List.foldl_cons, ih (fun e he => h e (List.mem_cons_of_mem ev he)) _ hstep, hlast,
      recordedLines]
    simp only [List.append_assoc, List.singleton_append]

/-- The header, and a line or two for each event that is recorded. -/
theorem lines_recordAll {stamp : Bytes} (hstamp : 10 ∉ stamp) (log : List SecurityEvent) :
    lines (recordAll stamp log) = headerLine stamp :: recordedLines 0 (recorded log) := by
  have hheader : 10 ∉ headerLine stamp := by
    simp only [headerLine, List.mem_append, not_or]
    exact ⟨⟨by decide, hstamp⟩, by decide⟩
  rw [recordAll, foldl_handle_recorded]
  refine lines_foldl_handle (fun ev hev => (mem_recorded.mp hev).2) [headerLine stamp] ?_
  intro t
  rw [RecordSink.create, lit_newline, List.append_assoc, List.singleton_append]
  exact lines_append_newline hheader t

/-! ## 3. What the reader makes of them -/

/-- What `trim` leaves of a text begins with its first byte that is no blank. -/
theorem head?_trim {c : UInt8} {s t : Bytes} (hc : c ≠ 32 ∧ c ≠ 9 ∧ c ≠ 13 ∧ c ≠ 10)
    (hs : s = 32 :: c :: t) : (trim s).head? = some c := by
  have hblank : (c == 32 || c == 9 || c == 13 || c == 10) = false := by simp [hc]
  have hdrop : s.dropWhile (fun c => c == 32 || c == 9 || c == 13 || c == 10) = c :: t := by
    rw [hs, List.dropWhile_cons_of_pos (by decide), List.dropWhile_cons_of_neg (by simp [hc])]
  rw [trim, hdrop]
  obtain ⟨rest, hrest⟩ :=
    List.rdropWhile_prefix (fun c => c == 32 || c == 9 || c == 13 || c == 10) (l := c :: t)
  cases hkept : (c :: t).rdropWhile (fun c => c == 32 || c == 9 || c == 13 || c == 10) with
  | nil =>
    have hall := List.rdropWhile_eq_nil_iff.mp hkept c List.mem_cons_self
    rw [hblank] at hall
    cases hall
  | cons d r =>
    rw [hkept] at hrest
    rw [List.head?_cons, (List.cons.inj hrest).1]

theorem lit_header : lit "# recorded by agent --record at " =
    35 :: 32 :: 114 :: lit "ecorded by agent --record at " := by decide

/-- The header is a comment, and no directive. -/
theorem parseLine_headerLine (stamp : Bytes) (lineno : ℕ) :
    parseLine lineno (headerLine stamp) = .ok none := by
  have hcomment : (headerLine stamp).takeWhile (· ≠ 35) = [] := by
    rw [headerLine, lit_header]
    rfl
  obtain ⟨rest, hrest⟩ :
      ∃ rest, ((headerLine stamp).dropWhile (· ≠ 35)).drop 1 = 32 :: 114 :: rest := by
    rw [headerLine, lit_header]
    exact ⟨_, rfl⟩
  have htrim := head?_trim (c := 114) (by decide) hrest
  have hnone : getWord [] = none := rfl
  rw [parseLine, hcomment, hnone]
  simp only [htrim]
  rfl

theorem lit_delay : lit "delay " = lit "delay" ++ [32] := by decide

/-- A `delay` line is read as the delay it was written for. -/
theorem parseLine_delayLine {ms : UInt64} (h : ms.toNat < 2 ^ 63) (lineno : ℕ) :
    parseLine lineno (delayLine ms) = .ok (some (.delay ms.toNat [] lineno)) := by
  have hdigits := digits_decimal ms.toNat
  have hwords : words (delayLine ms) = [lit "delay", decimal ms.toNat] := by
    rw [delayLine, lit_delay, List.append_assoc, List.singleton_append,
      words_append_cons (by decide), words_singleton hdigits.1 fun c hc =>
        isSpace_of_isDigit (hdigits.2 c hc)]
    rfl
  obtain ⟨s, hkind, hs⟩ := exists_getWord hwords
  obtain ⟨rest, hms, -⟩ := exists_getWord hs
  have hall : ∀ c ∈ delayLine ms, decide (c ≠ 35) = true := by
    intro c hc
    refine decide_eq_true ?_
    rintro rfl
    exact not_mem_delayLine (Or.inr rfl) ms hc
  have hlong : getLong s = some ((ms.toNat : ℤ), rest) := by
    rw [getLong, scanInt_of_digits hms hdigits, ofDigits_decimal]
    simp only [Bool.false_eq_true, if_false, if_pos h]
  rw [parseLine, List.takeWhile_eq_self_iff.mpr hall, List.dropWhile_eq_nil_iff.mpr hall, hkind]
  simp only [if_pos, parseDelay, hlong, if_neg (not_lt.mpr (Int.natCast_nonneg ms.toNat)),
    Int.toNat_natCast]
  rfl

/-- A delay is a number of milliseconds that a `long` holds. -/
theorem delayMs_lt {last_ts ts_ns ms : UInt64} (h : delayMs last_ts ts_ns = some ms) :
    ms.toNat < 2 ^ 63 := by
  unfold delayMs at h
  split at h
  · obtain rfl := Option.some.inj h
    have hlt := (ts_ns - last_ts).toNat_lt
    have hmillion : (1000000 : UInt64).toNat = 1000000 := rfl
    rw [UInt64.toNat_div, hmillion]
    omega
  · cases h

end PqcEdr.Agent
