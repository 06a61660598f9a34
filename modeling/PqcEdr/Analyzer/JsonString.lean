/-
# The strings of `nlohmann::json`, read back

`scan_string` of the library's lexer beside the `dump_escaped` that writes.  Both hold to the table
of well-formed UTF-8, the one as a chain of `case` labels, the other as an automaton:

* `decode_start`, `decode_tail`: the automaton's table is that table.
* `dumpEscaped_reads`: what is written with the replacing handler is read back, to the text itself
  where that is UTF-8.
-/
import PqcEdr.Analyzer.Json
import PqcEdr.Lib.TextInput
import PqcEdr.Lib.Utf8Table

namespace PqcEdr.Analyzer

open TextInput (hexDigit?)
open Utf8 (Range tail followers Follows In)

/-! ## 1. `scan_string` -/

/-- `get_codepoint`: four digits; `none` is the source's -1. -/
def getCodepoint : Bytes → Option (ℕ × Bytes)
  | a :: b :: c :: d :: input => do
    let a ← hexDigit? a
    let b ← hexDigit? b
    let c ← hexDigit? c
    let d ← hexDigit? d
    some (a * 0x1000 + b * 0x100 + c * 0x10 + d, input)
  | _ => none

/-- `next_byte_in_range`, behind the byte that it adds first. -/
def nextByteInRange : List Range → Bytes → Option (Bytes × Bytes)
  | [], input => some ([], input)
  | _ :: _, [] => none
  | r :: ranges, c :: input =>
    if In r c then (nextByteInRange ranges input).map fun x => (c :: x.1, x.2) else none

/-- "translate codepoint into bytes". -/
def codepointBytes (codepoint : ℕ) : Bytes :=
  if codepoint < 0x80 then [UInt8.ofNat codepoint]
  else if codepoint ≤ 0x7FF then
    [UInt8.ofNat (0xC0 ||| codepoint >>> 6), UInt8.ofNat (0x80 ||| (codepoint &&& 0x3F))]
  else if codepoint ≤ 0xFFFF then
    [UInt8.ofNat (0xE0 ||| codepoint >>> 12), UInt8.ofNat (0x80 ||| (codepoint >>> 6 &&& 0x3F)),
      UInt8.ofNat (0x80 ||| (codepoint &&& 0x3F))]
  else
    [UInt8.ofNat (0xF0 ||| codepoint >>> 18), UInt8.ofNat (0x80 ||| (codepoint >>> 12 &&& 0x3F)),
      UInt8.ofNat (0x80 ||| (codepoint >>> 6 &&& 0x3F)), UInt8.ofNat (0x80 ||| (codepoint &&& 0x3F))]

def hexMessage : Bytes := lit "invalid string: '\\u' must be followed by 4 hex digits"

def surrogateMessage : Bytes :=
  lit "invalid string: surrogate U+D800..U+DBFF must be followed by U+DC00..U+DFFF"

def illFormedMessage : Bytes := lit "invalid string: ill-formed UTF-8 byte"

/-- The escape `\u`: what is added, and the input behind. -/
def scanUnicode (input : Bytes) : Throws (Bytes × Bytes) :=
  match getCodepoint input with
  | none => .error hexMessage
  | some (codepoint1, input) =>
    if 0xD800 ≤ codepoint1 ∧ codepoint1 ≤ 0xDBFF then
      if input.take 2 = lit "\\u" then
        match getCodepoint (input.drop 2) with
        | none => .error hexMessage
        | some (codepoint2, input) =>
          if 0xDC00 ≤ codepoint2 ∧ codepoint2 ≤ 0xDFFF then
            .ok (codepointBytes (codepoint1 <<< 10 + codepoint2 - 0x35FDC00), input)
          else .error surrogateMessage
      else .error surrogateMessage
    else if 0xDC00 ≤ codepoint1 ∧ codepoint1 ≤ 0xDFFF then
      .error (lit "invalid string: surrogate U+DC00..U+DFFF must follow U+D800..U+DBFF")
    else .ok (codepointBytes codepoint1, input)

/-- The escapes of one letter. -/
def letterEscape (c : UInt8) : Option UInt8 :=
  if c = 34 then some 34
  else if c = 92 then some 92
  else if c = 47 then some 47
  else if c = 98 then some 8
  else if c = 102 then some 12
  else if c = 110 then some 10
  else if c = 114 then some 13
  else if c = 116 then some 9
  else none

/-- Behind a backslash. -/
def scanEscape : Bytes → Throws (Bytes × Bytes)
  | [] => .error (lit "invalid string: forbidden character after backslash")
  | c :: input =>
    if c = 117 then scanUnicode input
    else
      match letterEscape c with
      | some b => .ok ([b], input)
      | none => .error (lit "invalid string: forbidden character after backslash")

def controlNames : List String :=
  ["NUL", "SOH", "STX", "ETX", "EOT", "ENQ", "ACK", "BEL", "BS", "HT", "LF", "VT", "FF", "CR", "SO",
    "SI", "DLE", "DC1", "DC2", "DC3", "DC4", "NAK", "SYN", "ETB", "CAN", "EM", "SUB", "ESC", "FS",
    "GS", "RS", "US"]

/-- The message for a byte below 0x20; some have an escape of one letter besides. -/
def controlMessage (c : UInt8) : Bytes :=
  let digits := hexByte "0123456789ABCDEF" c
  lit "invalid string: control character U+00" ++ digits ++ lit " (" ++
    lit (controlNames.getD c.toNat "") ++ lit ") must be escaped to \\u00" ++ digits ++
    (if c = 8 then lit " or \\b"
    else if c = 9 then lit " or \\t"
    else if c = 10 then lit " or \\n"
    else if c = 12 then lit " or \\f"
    else if c = 13 then lit " or \\r"
    else [])

/-- One turn of the loop: `none` is the closing quote.  The error is the `error_message`. -/
def scanChar : Bytes → Throws (Option Bytes × Bytes)
  | [] => .error (lit "invalid string: missing closing quote")
  | c :: input =>
    if c = 34 then .ok (none, input)
    else if c = 92 then (scanEscape input).map fun x => (some x.1, x.2)
    else if c < 0x20 then .error (controlMessage c)
    else
      match followers c with
      | none => .error illFormedMessage
      | some ranges =>
        match nextByteInRange ranges input with
        | none => .error illFormedMessage
        | some (added, input) => .ok (some (c :: added), input)

theorem length_getCodepoint {input rest : Bytes} {n : ℕ} (h : getCodepoint input = some (n, rest)) :
    rest.length < input.length := by
  unfold getCodepoint at h
  split at h
  · simp only [Option.bind_eq_bind, Option.bind_eq_some_iff, Option.some.injEq,
      Prod.mk.injEq] at h
    obtain ⟨_, _, _, _, _, _, _, _, _, rfl⟩ := h
    simp only [List.length_cons]
    omega
  · cases h

theorem length_nextByteInRange {ranges : List Range} {input added rest : Bytes}
    (h : nextByteInRange ranges input = some (added, rest)) : rest.length ≤ input.length := by
  induction ranges generalizing input added with
  | nil =>
    simp only [nextByteInRange, Option.some.injEq, Prod.mk.injEq] at h
    rw [h.2]
  | cons r ranges ih =>
    cases input with
    | nil => cases h
    | cons c input =>
      unfold nextByteInRange at h
      split at h
      · obtain ⟨⟨more, rest'⟩, hrec, heq⟩ := Option.map_eq_some_iff.mp h
        obtain ⟨-, rfl⟩ := Prod.mk.inj heq
        exact (ih hrec).trans (Nat.le_succ _)
      · cases h

theorem length_scanUnicode {input added rest : Bytes}
    (h : scanUnicode input = .ok (added, rest)) : rest.length < input.length := by
  unfold scanUnicode at h
  split at h
  · cases h
  · rename_i codepoint1 input' h1
    have hlt := length_getCodepoint h1
    split_ifs at h
    · split at h
      · cases h
      · rename_i codepoint2 input'' h2
        have hlt' := length_getCodepoint h2
        rw [List.length_drop] at hlt'
        split_ifs at h
        simp only [Except.ok.injEq, Prod.mk.injEq] at h
        rw [← h.2]
        omega
    · simp only [Except.ok.injEq, Prod.mk.injEq] at h
      rw [← h.2]
      exact hlt

theorem length_scanChar {input rest : Bytes} {added : Option Bytes}
    (h : scanChar input = .ok (added, rest)) : rest.length < input.length := by
  unfold scanChar at h
  split at h
  · cases h
  · rename_i c input
    rw [List.length_cons]
    split_ifs at h
    · simp only [Except.ok.injEq, Prod.mk.injEq] at h
      rw [h.2]
      omega
    · unfold scanEscape at h
      split at h
      · cases h
      · rename_i e input
        rw [List.length_cons]
        split_ifs at h
        · cases hu : scanUnicode input with
          | error e => simp [hu, Except.map] at h
          | ok x =>
            simp only [hu, Except.map, Except.ok.injEq, Prod.mk.injEq] at h
            have hlt : x.2.length < input.length := length_scanUnicode hu
            rw [← h.2]
            omega
        · split at h
          · simp only [Except.map, Except.ok.injEq, Prod.mk.injEq] at h
            rw [h.2]
            omega
          · cases h
    · split at h
      · cases h
      · split at h
        · cases h
        · rename_i added' input' hnext
          simp only [Except.ok.injEq, Prod.mk.injEq] at h
          have := length_nextByteInRange hnext
          rw [← h.2]
          omega

/-- Behind the opening quote: the string, and the input behind the closing one. -/
def scanString (input : Bytes) : Throws (Bytes × Bytes) :=
  match _h : scanChar input with
  | .error e => .error e
  | .ok (none, rest) => .ok ([], rest)
  | .ok (some added, rest) => (scanString rest).map fun x => (added ++ x.1, x.2)
termination_by input.length
decreasing_by exact length_scanChar _h

/-! ## 2. The automaton of `dump_escaped` -/

/-- The class of a byte in the table. -/
def byteClass (b : UInt8) : UInt8 := utf8d.getD b.toNat 0

def nextState (state type : UInt8) : UInt8 := utf8d.getD (256 + state.toNat * 16 + type.toNat) 0

/-- The states between the bytes of a character. -/
def waitingStates : Bytes := [2, 3, 4, 5, 6, 7, 8]

/-- What such a state waits for. -/
def owed (state : UInt8) : Range × List Range :=
  if state = 2 then (tail, [])
  else if state = 3 then (tail, [tail])
  else if state = 4 then ((0xA0, 0xBF), [tail])
  else if state = 5 then ((0x80, 0x9F), [tail])
  else if state = 6 then ((0x90, 0xBF), [tail, tail])
  else if state = 7 then (tail, [tail, tail])
  else ((0x80, 0x8F), [tail, tail])

/-- Bounds of the code point read so far, which no overlong form meets. -/
def bounds (state : UInt8) : ℕ × ℕ :=
  if state = 2 then (2, 0x10000)
  else if state = 3 then (1, 0x400)
  else if state = 4 then (0, 0x400)
  else if state = 5 then (1, 0x400)
  else if state = 6 then (0, 0x10)
  else (1, 0x10)

/-- Between the bytes of a character. -/
structure Waiting (state : UInt8) (codep : UInt32) (r : Range) (ranges : List Range) : Prop where
  state_mem : state ∈ waitingStates
  owed_eq : owed state = (r, ranges)
  least : (bounds state).1 ≤ codep.toNat
  below : codep.toNat < (bounds state).2

/-- The first byte of a character, read in the accepting state. -/
def startOk (type byte : UInt8) : Bool :=
  let state := nextState UTF8_ACCEPT type
  let codep := (0xFF >>> type.toUInt32) &&& byte.toUInt32
  match followers byte with
  | none => state = UTF8_REJECT
  | some [] => state = UTF8_ACCEPT ∧ codep = byte.toUInt32
  | some (r :: ranges) => state ∈ waitingStates ∧ owed state = (r, ranges) ∧
      (bounds state).1 ≤ codep.toNat ∧ codep.toNat < (bounds state).2

theorem start_table : ∀ x ∈ (utf8d.take 256).zipIdx, startOk x.1 (UInt8.ofNat x.2) = true := by
  decide +kernel

/-- The classes of the continuation bytes. -/
theorem tail_classes : ∀ x ∈ (utf8d.take 256).zipIdx, x.1 < 12 ∧
    (x.1 = 1 ↔ 0x80 ≤ x.2 ∧ x.2 < 0x90) ∧ (x.1 = 9 ↔ 0x90 ≤ x.2 ∧ x.2 < 0xA0) ∧
    (x.1 = 7 ↔ 0xA0 ≤ x.2 ∧ x.2 < 0xC0) := by
  decide +kernel

/-- The classes of the bytes of a range. -/
def classes (r : Range) : Bytes :=
  if r = tail then [1, 9, 7]
  else if r = (0xA0, 0xBF) then [7]
  else if r = (0x80, 0x9F) then [1, 9]
  else if r = (0x90, 0xBF) then [9, 7]
  else [1]

/-- The state that waits for some continuation bytes. -/
def landing (ranges : List Range) : UInt8 :=
  if ranges = [] then UTF8_ACCEPT else if ranges = [tail] then 2 else 3

theorem next_table : ∀ state ∈ waitingStates, ∀ type < 12, nextState state (UInt8.ofNat type) =
    if UInt8.ofNat type ∈ classes (owed state).1 then landing (owed state).2
    else UTF8_REJECT := by
  decide +kernel

theorem byteClass_mem (b : UInt8) : (byteClass b, b.toNat) ∈ (utf8d.take 256).zipIdx := by
  have hlen : utf8d.length = 400 := by decide +kernel
  have hlt : b.toNat < utf8d.length := by
    have := b.toNat_lt
    omega
  rw [List.mem_zipIdx_iff_getElem?, List.getElem?_take_of_lt b.toNat_lt,
    List.getElem?_eq_getElem hlt, byteClass, List.getD_eq_getElem?_getD,
    List.getElem?_eq_getElem hlt, Option.getD_some]

theorem in_iff_class {state : UInt8} (h : state ∈ waitingStates) (b : UInt8) :
    In (owed state).1 b ↔ byteClass b ∈ classes (owed state).1 := by
  obtain ⟨-, h1, h9, h7⟩ := tail_classes _ (byteClass_mem b)
  have h80bf : 0x80 ≤ b.toNat ∧ b.toNat ≤ 0xBF ↔ byteClass b ∈ ([1, 9, 7] : Bytes) := by
    simp only [List.mem_cons, List.not_mem_nil, or_false, h1, h9, h7]
    omega
  have ha0bf : 0xA0 ≤ b.toNat ∧ b.toNat ≤ 0xBF ↔ byteClass b ∈ ([7] : Bytes) := by
    simp only [List.mem_singleton, h7]
    omega
  have h809f : 0x80 ≤ b.toNat ∧ b.toNat ≤ 0x9F ↔ byteClass b ∈ ([1, 9] : Bytes) := by
    simp only [List.mem_cons, List.not_mem_nil, or_false, h1, h9]
    omega
  have h90bf : 0x90 ≤ b.toNat ∧ b.toNat ≤ 0xBF ↔ byteClass b ∈ ([9, 7] : Bytes) := by
    simp only [List.mem_cons, List.not_mem_nil, or_false, h9, h7]
    omega
  have h808f : 0x80 ≤ b.toNat ∧ b.toNat ≤ 0x8F ↔ byteClass b ∈ ([1] : Bytes) := by
    simp only [List.mem_singleton, h1]
    omega
  rw [Utf8.in_iff_toNat]
  simp only [waitingStates, List.mem_cons, List.not_mem_nil, or_false] at h
  rcases h with rfl | rfl | rfl | rfl | rfl | rfl | rfl
  exacts [h80bf, h80bf, ha0bf, h809f, h90bf, h80bf, h808f]

theorem decode_fst (state : UInt8) (codep : UInt32) (b : UInt8) :
    (decode state codep b).1 = nextState state (byteClass b) := rfl

/-- Inside a character, the code point takes six more bits. -/
theorem decode_snd {state : UInt8} (h : state ≠ UTF8_ACCEPT) {codep : UInt32}
    (hcodep : codep.toNat < 0x10000) (b : UInt8) :
    (decode state codep b).2.toNat = codep.toNat * 64 + b.toNat % 64 := by
  unfold decode
  simp only [if_pos h, UInt32.toNat_or, UInt32.toNat_shiftLeft, UInt8.toNat_toUInt32,
    UInt8.toNat_and]
  have hmask : b.toNat &&& UInt8.toNat 0x3f = b.toNat % 64 := Nat.and_two_pow_sub_one_eq_mod _ 6
  have hshift : codep.toNat <<< (UInt32.toNat 6 % 32) = codep.toNat * 64 := Nat.shiftLeft_eq _ 6
  have hfits : codep.toNat * 64 % 2 ^ 32 = codep.toNat * 64 := Nat.mod_eq_of_lt (by omega)
  have hlow : b.toNat % 64 < 2 ^ 6 := Nat.mod_lt _ (by decide)
  rw [hmask, hshift, hfits, Nat.or_comm, ← Nat.shiftLeft_eq _ 6,
    ← Nat.shiftLeft_add_eq_or_of_lt hlow]

/-- The bytes that may start a character, and what they leave. -/
theorem decode_start (codep : UInt32) (b : UInt8) :
    match followers b with
    | none => (decode UTF8_ACCEPT codep b).1 = UTF8_REJECT
    | some [] => decode UTF8_ACCEPT codep b = (UTF8_ACCEPT, b.toUInt32)
    | some (r :: ranges) =>
      Waiting (decode UTF8_ACCEPT codep b).1 (decode UTF8_ACCEPT codep b).2 r ranges := by
  have h := start_table _ (byteClass_mem b)
  rw [UInt8.ofNat_toNat] at h
  unfold startOk at h
  have hsnd : (decode UTF8_ACCEPT codep b).2 =
      (0xFF >>> (byteClass b).toUInt32) &&& b.toUInt32 := rfl
  split at h
  · exact of_decide_eq_true h
  · obtain ⟨hstate, hcodep⟩ := of_decide_eq_true h
    exact Prod.ext hstate (hsnd.trans hcodep)
  · obtain ⟨hmem, howed, hleast, hbelow⟩ := of_decide_eq_true h
    exact ⟨hmem, howed, by rw [hsnd]; exact hleast, by rw [hsnd]; exact hbelow⟩

theorem waiting_one {codep : UInt32} (h : 2 ≤ codep.toNat) (h' : codep.toNat < 0x10000) :
    Waiting (landing [tail]) codep tail [] := ⟨by decide, rfl, h, h'⟩

theorem waiting_two {codep : UInt32} (h : 1 ≤ codep.toNat) (h' : codep.toNat < 0x400) :
    Waiting (landing [tail, tail]) codep tail [tail] := ⟨by decide, rfl, h, h'⟩

/-- Between the bytes of a character: a byte of the range goes on or ends it, any other is
rejected. -/
theorem decode_tail {state : UInt8} {codep : UInt32} {r : Range} {ranges : List Range}
    (h : Waiting state codep r ranges) (b : UInt8) :
    if In r b then
      match ranges with
      | [] => (decode state codep b).1 = UTF8_ACCEPT ∧ 0x80 ≤ (decode state codep b).2.toNat
      | r' :: ranges => Waiting (decode state codep b).1 (decode state codep b).2 r' ranges
    else (decode state codep b).1 = UTF8_REJECT := by
  obtain ⟨hmem, howed, hleast, hbelow⟩ := h
  have hlt := (tail_classes _ (byteClass_mem b)).1
  have hnext := next_table state hmem (byteClass b).toNat hlt
  have hin := in_iff_class hmem b
  rw [UInt8.ofNat_toNat, howed] at hnext
  rw [howed] at hin
  rw [decode_fst]
  by_cases hb : In r b
  · rw [if_pos (hin.mp hb)] at hnext
    rw [if_pos hb, hnext]
    obtain ⟨hlo, hhi⟩ := Utf8.in_iff_toNat.mp hb
    have hne : state ≠ UTF8_ACCEPT := by
      rintro rfl
      exact absurd hmem (by decide)
    have hsmall : codep.toNat < 0x10000 := hbelow.trans_le (by
      unfold bounds
      split_ifs <;> decide)
    have hsnd := decode_snd hne hsmall b
    simp only [waitingStates, List.mem_cons, List.not_mem_nil, or_false] at hmem
    rcases hmem with rfl | rfl | rfl | rfl | rfl | rfl | rfl <;>
      obtain ⟨rfl, rfl⟩ := Prod.mk.inj howed
    · change 2 ≤ codep.toNat at hleast
      exact ⟨rfl, by omega⟩
    · change 1 ≤ codep.toNat at hleast
      change codep.toNat < 0x400 at hbelow
      exact waiting_one (by omega) (by omega)
    · change codep.toNat < 0x400 at hbelow
      change 0xA0 ≤ b.toNat at hlo
      change b.toNat ≤ 0xBF at hhi
      exact waiting_one (by omega) (by omega)
    · change 1 ≤ codep.toNat at hleast
      change codep.toNat < 0x400 at hbelow
      exact waiting_one (by omega) (by omega)
    · change codep.toNat < 0x10 at hbelow
      change 0x90 ≤ b.toNat at hlo
      change b.toNat ≤ 0xBF at hhi
      exact waiting_two (by omega) (by omega)
    · change 1 ≤ codep.toNat at hleast
      change codep.toNat < 0x10 at hbelow
      exact waiting_two (by omega) (by omega)
    · change 1 ≤ codep.toNat at hleast
      change codep.toNat < 0x10 at hbelow
      exact waiting_two (by omega) (by omega)
  · rw [if_neg (mt hin.mpr hb)] at hnext
    rw [if_neg hb, hnext]

/-! ## 3. What the scanner reads -/

/-- Behind the opening quote, the scanner takes `out` for the text `t` and goes on. -/
def ReadsTo (out t : Bytes) : Prop :=
  ∀ rest, scanString (out ++ rest) = (scanString rest).map fun x => (t ++ x.1, x.2)

theorem scanString_of_char {input rest : Bytes} {t : Bytes}
    (h : scanChar input = .ok (some t, rest)) :
    scanString input = (scanString rest).map fun x => (t ++ x.1, x.2) := by
  rw [scanString]
  split <;> simp_all

/-- The closing quote. -/
theorem scanString_quote (rest : Bytes) : scanString (34 :: rest) = .ok ([], rest) := by
  have h : scanChar (34 :: rest) = .ok (none, rest) := by
    rw [scanChar, if_pos rfl]
  rw [scanString]
  split <;> simp_all

theorem readsTo_nil : ReadsTo [] [] := by
  intro rest
  cases h : scanString rest <;> simp [h, Except.map]

theorem ReadsTo.append {out t out' t' : Bytes} (h : ReadsTo out t) (h' : ReadsTo out' t') :
    ReadsTo (out ++ out') (t ++ t') := by
  intro rest
  rw [List.append_assoc, h, h']
  cases scanString rest <;> simp [Except.map]

theorem reads_of_char {out t : Bytes} (h : ∀ rest, scanChar (out ++ rest) = .ok (some t, rest)) :
    ReadsTo out t :=
  fun rest => scanString_of_char (h rest)

/-- Read up to the closing quote. -/
theorem ReadsTo.scanString {out t : Bytes} (h : ReadsTo out t) (rest : Bytes) :
    scanString (out ++ 34 :: rest) = .ok (t, rest) := by
  rw [h, scanString_quote]
  simp [Except.map]

theorem nextByteInRange_of_follows {ranges : List Range} {t : Bytes} (h : Follows ranges t)
    (rest : Bytes) : nextByteInRange ranges (t ++ rest) = some (t, rest) := by
  induction h with
  | nil => rfl
  | cons hc _ ih => rw [List.cons_append, nextByteInRange, if_pos hc, ih, Option.map_some]

/-- A character that needs no escape. -/
theorem reads_sequence {b : UInt8} {ranges : List Range} {t : Bytes}
    (hb : followers b = some ranges) (ht : Follows ranges t) (hquote : b ≠ 34) (hslash : b ≠ 92)
    (hcontrol : ¬ b < 0x20) : ReadsTo (b :: t) (b :: t) := by
  refine reads_of_char fun rest => ?_
  rw [List.cons_append, scanChar, if_neg hquote, if_neg hslash, if_neg hcontrol, hb]
  simp only [nextByteInRange_of_follows ht]

theorem readsTo_replacement : ReadsTo replacementCharacter replacementCharacter :=
  reads_sequence (show followers 0xEF = some [tail, tail] from rfl)
    (.cons (by decide) (.cons (by decide) .nil)) (by decide) (by decide) (by decide)

/-- An escape of one letter. -/
theorem reads_letter {c b : UInt8} (hc : c ≠ 117) (h : letterEscape c = some b) :
    ReadsTo [92, c] [b] := by
  refine reads_of_char fun rest => ?_
  rw [List.cons_append, List.cons_append, List.nil_append, scanChar, if_neg (by decide),
    if_pos rfl, scanEscape, if_neg hc, h]
  rfl

theorem hexByte_digits : ∀ n < 0x20,
    hexDigit? ((lit "0123456789abcdef").getD (UInt8.ofNat n / 16).toNat 0) = some (n / 16) ∧
    hexDigit? ((lit "0123456789abcdef").getD (UInt8.ofNat n % 16).toNat 0) = some (n % 16) := by
  decide

/-- The escape of a control byte. -/
theorem reads_control {b : UInt8} (h : b.toNat < 0x20) :
    ReadsTo (lit "\\u00" ++ hexByte "0123456789abcdef" b) [b] := by
  have hlit : lit "\\u00" = [92, 117, 48, 48] := by decide
  have hzero : hexDigit? 48 = some 0 := by decide
  obtain ⟨hhigh, hlow⟩ := hexByte_digits b.toNat h
  rw [UInt8.ofNat_toNat] at hhigh hlow
  have hcode : ∀ rest, getCodepoint (48 :: 48 :: (hexByte "0123456789abcdef" b ++ rest)) =
      some (b.toNat, rest) := by
    intro rest
    have hvalue : 0 * 0x1000 + 0 * 0x100 + b.toNat / 16 * 0x10 + b.toNat % 16 = b.toNat := by omega
    simp only [hexByte, List.cons_append, List.nil_append, getCodepoint, hzero, hhigh, hlow,
      Option.bind_eq_bind, Option.bind_some, hvalue]
  refine reads_of_char fun rest => ?_
  have hbytes : codepointBytes b.toNat = [b] := by
    rw [codepointBytes, if_pos (by omega), UInt8.ofNat_toNat]
  have hunicode : scanUnicode (48 :: 48 :: (hexByte "0123456789abcdef" b ++ rest)) =
      .ok ([b], rest) := by
    rw [scanUnicode, hcode]
    simp only [if_neg (show ¬ (0xD800 ≤ b.toNat ∧ b.toNat ≤ 0xDBFF) by omega),
      if_neg (show ¬ (0xDC00 ≤ b.toNat ∧ b.toNat ≤ 0xDFFF) by omega), hbytes]
  rw [hlit]
  simp only [List.cons_append, List.nil_append]
  rw [scanChar, if_neg (by decide), if_pos rfl, scanEscape, if_pos rfl, hunicode]
  rfl

/-- What is written for a byte below 0x80. -/
theorem reads_escaped {b : UInt8} (hb : followers b = some []) :
    ReadsTo (escaped b.toUInt32 b) [b] := by
  have hval : ∀ n : UInt8, b.toUInt32 = n.toUInt32 ↔ b = n := by
    intro n
    simp [← UInt32.toNat_inj, ← UInt8.toNat_inj]
  have hle : b.toUInt32 ≤ 0x1F ↔ b.toNat < 0x20 := by
    rw [UInt32.le_iff_toNat_le, UInt8.toNat_toUInt32]
    exact Nat.lt_succ_iff.symm
  unfold escaped
  split_ifs with h8 h9 h10 h12 h13 h34 h92 hcontrol
  · rw [(hval 8).mp h8]
    exact reads_letter (by decide) (by decide)
  · rw [(hval 9).mp h9]
    exact reads_letter (by decide) (by decide)
  · rw [(hval 10).mp h10]
    exact reads_letter (by decide) (by decide)
  · rw [(hval 12).mp h12]
    exact reads_letter (by decide) (by decide)
  · rw [(hval 13).mp h13]
    exact reads_letter (by decide) (by decide)
  · rw [(hval 34).mp h34]
    exact reads_letter (by decide) (by decide)
  · rw [(hval 92).mp h92]
    exact reads_letter (by decide) (by decide)
  · rw [UInt8.toUInt8_toUInt32]
    exact reads_control (hle.mp hcontrol)
  · refine reads_sequence hb .nil (mt (hval 34).mpr h34) (mt (hval 92).mpr h92) ?_
    rw [UInt8.lt_iff_toNat_lt]
    exact mt hle.mpr hcontrol

/-! ## 4. What `dump_escaped` writes -/

/-- No byte below 0x20, so no line feed. -/
def NoControl (out : Bytes) : Prop := ∀ c ∈ out, 0x20 ≤ c.toNat

theorem NoControl.append {out out' : Bytes} (h : NoControl out) (h' : NoControl out') :
    NoControl (out ++ out') := List.forall_mem_append.mpr ⟨h, h'⟩

theorem noControl_escaped (b : UInt8) : NoControl (escaped b.toUInt32 b) := by
  have hlits : ∀ s ∈ ["\\b", "\\t", "\\n", "\\f", "\\r", "\\\"", "\\\\", "\\u00"],
      ∀ c ∈ lit s, 0x20 ≤ c.toNat := by decide
  simp only [List.forall_mem_cons] at hlits
  obtain ⟨h8, h9, h10, h12, h13, h34, h92, hu, -⟩ := hlits
  unfold escaped
  split_ifs with _ _ _ _ _ _ _ hcontrol
  · exact h8
  · exact h9
  · exact h10
  · exact h12
  · exact h13
  · exact h34
  · exact h92
  · have hdigits : ∀ n < 0x20, ∀ c ∈ hexByte "0123456789abcdef" (UInt8.ofNat n),
        0x20 ≤ c.toNat := by decide
    rw [UInt32.le_iff_toNat_le, UInt8.toNat_toUInt32] at hcontrol
    have hdigits := hdigits b.toNat (Nat.lt_succ_iff.mpr hcontrol)
    rw [UInt8.ofNat_toNat] at hdigits
    rw [UInt8.toUInt8_toUInt32]
    exact NoControl.append hu hdigits
  · rename_i hcontrol
    rw [UInt32.le_iff_toNat_le, UInt8.toNat_toUInt32] at hcontrol
    change ¬ b.toNat ≤ 0x1F at hcontrol
    intro c hc
    rw [List.mem_singleton.mp hc]
    omega

theorem escaped_of_le {codepoint : UInt32} (h : 0x80 ≤ codepoint.toNat) (b : UInt8) :
    escaped codepoint b = [b] := by
  have hne : ∀ n : UInt32, n.toNat < 0x80 → codepoint ≠ n := by
    rintro n hn rfl
    omega
  have hgt : ¬ codepoint ≤ 0x1F := by
    rw [UInt32.le_iff_toNat_le]
    change ¬ codepoint.toNat ≤ 0x1F
    omega
  unfold escaped
  rw [if_neg (hne 0x08 (by decide)), if_neg (hne 0x09 (by decide)), if_neg (hne 0x0A (by decide)),
    if_neg (hne 0x0C (by decide)), if_neg (hne 0x0D (by decide)), if_neg (hne 0x22 (by decide)),
    if_neg (hne 0x5C (by decide)), if_neg hgt]

/-- `out` is written for the text `t`. -/
structure Writes (out t : Bytes) : Prop where
  reads : ReadsTo out t
  noControl : NoControl out
  wellFormed : Utf8.WellFormed t

theorem writes_nil : Writes [] [] := ⟨readsTo_nil, by simp [NoControl], .nil⟩

theorem Writes.append {out t out' t' : Bytes} (h : Writes out t) (h' : Writes out' t') :
    Writes (out ++ out') (t ++ t') :=
  ⟨h.reads.append h'.reads, h.noControl.append h'.noControl,
    h.wellFormed.append h'.wellFormed⟩

theorem writes_escaped {b : UInt8} (hb : followers b = some []) :
    Writes (escaped b.toUInt32 b) [b] :=
  ⟨reads_escaped hb, noControl_escaped b, Utf8.wellFormed_char hb .nil⟩

theorem writes_replacement : Writes replacementCharacter replacementCharacter :=
  ⟨readsTo_replacement, by unfold NoControl; decide,
    Utf8.wellFormed_char (show followers 0xEF = some [tail, tail] from rfl)
      (.cons (by decide) (.cons (by decide) .nil))⟩

/-- The first byte of more than one, by its value. -/
theorem le_of_followers {b : UInt8} {r : Range} {ranges : List Range}
    (h : followers b = some (r :: ranges)) : 0x80 ≤ b.toNat := by
  rw [Utf8.followers_eq] at h
  by_contra hlt
  rw [if_pos (by omega)] at h
  cases h

theorem le_of_follows {ranges : List Range} {t : Bytes}
    (hall : ∀ r ∈ ranges, 0x80 ≤ r.1.toNat) (h : Follows ranges t) : ∀ c ∈ t, 0x80 ≤ c.toNat := by
  induction h with
  | nil => simp
  | cons hc _ ih =>
    rw [List.forall_mem_cons] at hall ⊢
    exact ⟨hall.1.trans (Utf8.in_iff_toNat.mp hc).1, ih hall.2⟩

theorem ranges_of_followers {b : UInt8} {ranges : List Range} (h : followers b = some ranges) :
    ∀ r ∈ ranges, 0x80 ≤ r.1.toNat := by
  unfold followers at h
  split_ifs at h <;> obtain rfl := Option.some.inj h <;> simp [tail]

/-- A character of more than one byte is written as it is. -/
theorem writes_sequence {b : UInt8} {r : Range} {ranges : List Range} {t : Bytes}
    (hb : followers b = some (r :: ranges)) (ht : Follows (r :: ranges) t) :
    Writes (b :: t) (b :: t) := by
  have hle := le_of_followers hb
  have hne : ∀ n : UInt8, n.toNat < 0x80 → b ≠ n := by
    rintro n hn rfl
    omega
  refine ⟨reads_sequence hb ht (hne 34 (by decide)) (hne 92 (by decide)) ?_, ?_,
    Utf8.wellFormed_char hb ht⟩
  · rw [UInt8.lt_iff_toNat_lt]
    change ¬ b.toNat < 0x20
    omega
  · intro c hc
    rcases List.mem_cons.mp hc with rfl | hc
    · omega
    · have := le_of_follows (ranges_of_followers hb) ht c hc
      omega

/-- Between two characters. -/
def Escape.AtBoundary (e : Escape) : Prop := e.state = UTF8_ACCEPT ∧ e.undumped = []

/-- Inside a character, whose first bytes stand undumped. -/
def Escape.Inside (e : Escape) (r : Range) (ranges : List Range) : Prop :=
  Waiting e.state e.codepoint r ranges ∧ ∃ b read t, e.undumped = b :: t ∧
    followers b = some (read ++ r :: ranges) ∧ Follows read t

section

variable {h : ErrorHandler} {e : Escape} {b : UInt8} {r : Range} {ranges : List Range}

/-- A character of one byte. -/
theorem readByte_one (he : e.AtBoundary) (hb : followers b = some []) (i : ℕ) :
    ∃ e', readByte h i b e = .ok (e', false) ∧ e'.AtBoundary ∧
      e'.accepted = e.accepted ++ escaped b.toUInt32 b := by
  obtain ⟨hstate, hundumped⟩ := he
  have hdec := decode_start e.codepoint b
  rw [hb] at hdec
  unfold readByte
  rw [hstate, hdec]
  refine ⟨_, if_pos rfl, ⟨rfl, rfl⟩, ?_⟩
  rw [hundumped, List.append_nil]

theorem Waiting.ne {state : UInt8} {codep : UInt32} (hw : Waiting state codep r ranges) :
    state ≠ UTF8_ACCEPT ∧ state ≠ UTF8_REJECT := by
  have hall : ∀ x ∈ waitingStates, x ≠ UTF8_ACCEPT ∧ x ≠ UTF8_REJECT := by decide
  exact hall state hw.state_mem

/-- A byte that leaves the automaton between the bytes of a character. -/
theorem readByte_waiting (i : ℕ)
    (hw : Waiting (decode e.state e.codepoint b).1 (decode e.state e.codepoint b).2 r ranges) :
    ∃ e', readByte h i b e = .ok (e', false) ∧ Waiting e'.state e'.codepoint r ranges ∧
      e'.accepted = e.accepted ∧ e'.undumped = e.undumped ++ [b] := by
  obtain ⟨haccept, hreject⟩ := hw.ne
  unfold readByte
  generalize decode e.state e.codepoint b = d at hw haccept hreject ⊢
  obtain ⟨state, codepoint⟩ := d
  simp only [if_neg haccept, if_neg hreject]
  exact ⟨_, rfl, hw, rfl, rfl⟩

/-- The first byte of more than one. -/
theorem readByte_first (he : e.AtBoundary) (hb : followers b = some (r :: ranges)) (i : ℕ) :
    ∃ e', readByte h i b e = .ok (e', false) ∧ e'.Inside r ranges ∧ e'.accepted = e.accepted ∧
      e'.undumped = [b] := by
  obtain ⟨hstate, hundumped⟩ := he
  have hdec := decode_start e.codepoint b
  rw [hb, ← hstate] at hdec
  obtain ⟨e', hread, hw, haccepted, hmore⟩ := readByte_waiting (h := h) i hdec
  rw [hundumped, List.nil_append] at hmore
  exact ⟨e', hread, ⟨hw, b, [], [], hmore, hb, .nil⟩, haccepted, hmore⟩

/-- A byte inside a character, with more to come. -/
theorem readByte_next {r' : Range} (he : e.Inside r (r' :: ranges)) (hb : In r b) (i : ℕ) :
    ∃ e', readByte h i b e = .ok (e', false) ∧ e'.Inside r' ranges ∧ e'.accepted = e.accepted ∧
      e'.undumped = e.undumped ++ [b] := by
  obtain ⟨hw, c, read, t, hundumped, hc, ht⟩ := he
  have hdec := decode_tail hw b
  rw [if_pos hb] at hdec
  obtain ⟨e', hread, hw', haccepted, hmore⟩ := readByte_waiting (h := h) i hdec
  refine ⟨e', hread, ⟨hw', c, read ++ [r], t ++ [b], ?_, ?_, ?_⟩, haccepted, hmore⟩
  · rw [hmore, hundumped, List.cons_append]
  · rw [hc, List.append_assoc, List.singleton_append]
  · exact List.rel_append ht (.cons hb .nil)

/-- The last byte of a character. -/
theorem readByte_last (he : e.Inside r []) (hb : In r b) (i : ℕ) :
    ∃ e', readByte h i b e = .ok (e', false) ∧ e'.AtBoundary ∧
      e'.accepted = e.accepted ++ (e.undumped ++ [b]) := by
  obtain ⟨hw, -⟩ := he
  have hdec := decode_tail hw b
  rw [if_pos hb] at hdec
  obtain ⟨haccept, hcode⟩ := hdec
  unfold readByte
  generalize decode e.state e.codepoint b = d at haccept hcode ⊢
  obtain ⟨state, codepoint⟩ := d
  simp only [if_pos haccept]
  refine ⟨_, rfl, ⟨haccept, rfl⟩, ?_⟩
  rw [escaped_of_le hcode, List.append_assoc]

/-- A byte that cannot stand here: the replacing handler writes U+FFFD, and reads the byte again
if it has dropped others. -/
theorem readByte_bad (hbad : e.AtBoundary ∧ followers b = none ∨
      ∃ r ranges, e.Inside r ranges ∧ ¬ In r b) (i : ℕ) :
    ∃ e', readByte .replace i b e = .ok (e', e.undumped ≠ []) ∧ e'.AtBoundary ∧
      e'.accepted = e.accepted ++ replacementCharacter := by
  have hreject : (decode e.state e.codepoint b).1 = UTF8_REJECT := by
    rcases hbad with ⟨⟨hstate, -⟩, hb⟩ | ⟨r, ranges, ⟨hw, -⟩, hb⟩
    · have hdec := decode_start e.codepoint b
      rwa [hb, ← hstate] at hdec
    · have hdec := decode_tail hw b
      rwa [if_neg hb] at hdec
  have hne : UTF8_REJECT ≠ UTF8_ACCEPT := by decide
  unfold readByte
  generalize decode e.state e.codepoint b = d at hreject ⊢
  obtain ⟨state, codepoint⟩ := d
  obtain rfl : state = UTF8_REJECT := hreject
  simp only [if_neg hne]
  exact ⟨_, rfl, ⟨rfl, rfl⟩, rfl⟩

theorem readBytes_once {e' : Escape} {i : ℕ} (hread : readByte h i b e = .ok (e', false))
    (rest : Bytes) : readBytes h i (b :: rest) e = readBytes h (i + 1) rest e' := by
  rw [readBytes, hread]
  rfl

/-- The rest of a character. -/
theorem readBytes_tail {t : Bytes} (he : e.Inside r ranges) (ht : Follows (r :: ranges) t) (i : ℕ)
    (rest : Bytes) :
    ∃ e' j, readBytes h i (t ++ rest) e = readBytes h j rest e' ∧ e'.AtBoundary ∧
      e'.accepted = e.accepted ++ (e.undumped ++ t) := by
  induction ranges generalizing r t e i with
  | nil =>
    obtain ⟨b, rfl, hb⟩ := Utf8.follows_one ht
    obtain ⟨e', hread, hbound, haccepted⟩ := readByte_last (h := h) he hb i
    exact ⟨e', i + 1, readBytes_once hread rest, hbound, haccepted⟩
  | cons r' ranges ih =>
    obtain ⟨b, t, hb, hmore, rfl⟩ := List.forall₂_cons_left_iff.mp ht
    obtain ⟨e₁, hread, hinside, haccepted, hundumped⟩ := readByte_next (h := h) he hb i
    obtain ⟨e', j, hrest, hbound, htail⟩ := ih hinside hmore (i + 1)
    refine ⟨e', j, ?_, hbound, ?_⟩
    · rw [List.cons_append, readBytes_once hread, hrest]
    · rw [htail, haccepted, hundumped, List.append_assoc, List.singleton_append]

/-- A character, whatever the handler. -/
theorem readBytes_char {t : Bytes} (he : e.AtBoundary) (hb : followers b = some ranges)
    (ht : Follows ranges t) (i : ℕ) (rest : Bytes) :
    ∃ e' j out, readBytes h i (b :: t ++ rest) e = readBytes h j rest e' ∧ e'.AtBoundary ∧
      e'.accepted = e.accepted ++ out ∧ Writes out (b :: t) := by
  cases ranges with
  | nil =>
    cases ht
    obtain ⟨e', hread, hbound, haccepted⟩ := readByte_one (h := h) he hb i
    exact ⟨e', i + 1, _, readBytes_once hread rest, hbound, haccepted, writes_escaped hb⟩
  | cons r ranges =>
    obtain ⟨e₁, hread, hinside, haccepted, hundumped⟩ := readByte_first (h := h) he hb i
    obtain ⟨e', j, hrest, hbound, htail⟩ := readBytes_tail (h := h) hinside ht (i + 1) rest
    refine ⟨e', j, b :: t, ?_, hbound, ?_, writes_sequence hb ht⟩
    · rw [List.cons_append, readBytes_once hread, hrest]
    · rw [htail, haccepted, hundumped, List.singleton_append]

/-- A whole text of UTF-8, whatever the handler. -/
theorem readBytes_wellFormed {s : Bytes} (hs : Utf8.WellFormed s) (he : e.AtBoundary) (i : ℕ) :
    ∃ e' out, readBytes h i s e = .ok e' ∧ e'.AtBoundary ∧ e'.accepted = e.accepted ++ out ∧
      Writes out s := by
  induction hs generalizing e i with
  | nil => exact ⟨e, [], rfl, he, (List.append_nil _).symm, writes_nil⟩
  | char hb ht _ ih =>
    obtain ⟨e₁, j, out, hread, hbound, haccepted, hwrites⟩ := readBytes_char (h := h) he hb ht i _
    obtain ⟨e', out', hrest, hbound', haccepted', hwrites'⟩ := ih hbound j
    refine ⟨e', out ++ out', by rw [hread, hrest], hbound', ?_, hwrites.append hwrites'⟩
    rw [haccepted', haccepted, List.append_assoc]

/-- What the loop keeps for any bytes: the accepted ones are written for some text. -/
def Escape.Writing (e : Escape) : Prop :=
  (∃ t, Writes e.accepted t) ∧ (e.AtBoundary ∨ ∃ r ranges, e.Inside r ranges)

theorem readByte_replace (he : e.Writing) (b : UInt8) (i : ℕ) :
    ∃ e' again, readByte .replace i b e = .ok (e', again) ∧ e'.Writing := by
  obtain ⟨⟨t, hwrites⟩, hbound | ⟨r, ranges, hinside⟩⟩ := he
  · cases hb : followers b with
    | none =>
      obtain ⟨e', hread, hbound', haccepted⟩ := readByte_bad (Or.inl ⟨hbound, hb⟩) i
      exact ⟨e', _, hread, ⟨_, haccepted ▸ hwrites.append writes_replacement⟩, Or.inl hbound'⟩
    | some ranges =>
      cases ranges with
      | nil =>
        obtain ⟨e', hread, hbound', haccepted⟩ := readByte_one (h := .replace) hbound hb i
        exact ⟨e', _, hread, ⟨_, haccepted ▸ hwrites.append (writes_escaped hb)⟩, Or.inl hbound'⟩
      | cons r ranges =>
        obtain ⟨e', hread, hinside, haccepted, -⟩ := readByte_first (h := .replace) hbound hb i
        exact ⟨e', _, hread, ⟨t, haccepted ▸ hwrites⟩, Or.inr ⟨r, ranges, hinside⟩⟩
  · by_cases hb : In r b
    · cases ranges with
      | nil =>
        obtain ⟨e', hread, hbound', haccepted⟩ := readByte_last (h := .replace) hinside hb i
        obtain ⟨-, c, read, t', hundumped, hc, ht'⟩ := hinside
        have hall := List.rel_append ht' (.cons hb .nil)
        have hseq : Writes (c :: (t' ++ [b])) (c :: (t' ++ [b])) := by
          cases read with
          | nil => exact writes_sequence hc hall
          | cons r' read => exact writes_sequence hc hall
        rw [hundumped, List.cons_append] at haccepted
        exact ⟨e', _, hread, ⟨_, haccepted ▸ hwrites.append hseq⟩, Or.inl hbound'⟩
      | cons r' ranges =>
        obtain ⟨e', hread, hinside', haccepted, -⟩ := readByte_next (h := .replace) hinside hb i
        exact ⟨e', _, hread, ⟨t, haccepted ▸ hwrites⟩, Or.inr ⟨r', ranges, hinside'⟩⟩
    · obtain ⟨e', hread, hbound', haccepted⟩ :=
        readByte_bad (Or.inr ⟨r, ranges, hinside, hb⟩) i
      exact ⟨e', _, hread, ⟨_, haccepted ▸ hwrites.append writes_replacement⟩, Or.inl hbound'⟩

theorem readBytes_replace (s : Bytes) (he : e.Writing) (i : ℕ) :
    ∃ e', readBytes .replace i s e = .ok e' ∧ e'.Writing := by
  induction s generalizing e i with
  | nil => exact ⟨e, rfl, he⟩
  | cons b s ih =>
    obtain ⟨e₁, again, hread, he₁⟩ := readByte_replace he b i
    rw [readBytes, hread]
    cases again with
    | false => exact ih he₁ (i + 1)
    | true =>
      obtain ⟨e₂, _, hread₂, he₂⟩ := readByte_replace he₁ b i
      obtain ⟨e', hrest, he'⟩ := ih he₂ (i + 1)
      refine ⟨e', ?_, he'⟩
      simp only [bind, Except.bind, if_true, hread₂, hrest]

end

theorem atBoundary_init : ({} : Escape).AtBoundary := ⟨rfl, rfl⟩

/-- A text of UTF-8 is written so that it is read back, whatever the handler. -/
theorem dumpEscaped_valid (h : ErrorHandler) {s : Bytes} (hs : Utf8.Valid s) :
    ∃ out, dumpEscaped h s = .ok out ∧ Writes out s := by
  obtain ⟨e, out, hread, ⟨hstate, hundumped⟩, haccepted, hwrites⟩ :=
    readBytes_wellFormed (h := h) (Utf8.valid_iff_wellFormed.mp hs) atBoundary_init 0
  refine ⟨out, ?_, hwrites⟩
  rw [dumpEscaped, hread]
  simp only [bind, Except.bind]
  rw [if_pos hstate, haccepted, hundumped, List.append_nil]
  rfl

/-- **Any bytes are written as a string.**  With the replacing handler there is no exception,
nothing is written that would end the line, and the scanner reads UTF-8 back: the text itself
where it was that. -/
theorem dumpEscaped_reads (s : Bytes) : ∃ out t, dumpEscaped .replace s = .ok out ∧
    Writes out t ∧ (Utf8.Valid s → t = s) := by
  by_cases hs : Utf8.Valid s
  · obtain ⟨out, hdump, hwrites⟩ := dumpEscaped_valid .replace hs
    exact ⟨out, s, hdump, hwrites, fun _ => rfl⟩
  · obtain ⟨e, hread, ⟨t, hwrites⟩, hplace⟩ := readBytes_replace s (e := {})
      ⟨⟨[], writes_nil⟩, Or.inl atBoundary_init⟩ 0
    rw [dumpEscaped, hread]
    simp only [bind, Except.bind]
    rcases hplace with ⟨hstate, hundumped⟩ | ⟨r, ranges, hwaiting, -⟩
    · rw [if_pos hstate, hundumped, List.append_nil]
      exact ⟨_, t, rfl, hwrites, fun h => absurd h hs⟩
    · rw [if_neg hwaiting.ne.1]
      exact ⟨_, _, rfl, hwrites.append writes_replacement, fun h => absurd h hs⟩

end PqcEdr.Analyzer
