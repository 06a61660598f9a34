/-
# `nlohmann::json`, as far as the client of the model uses it

`third_party/json/nlohmann/json.hpp`: a parsed value, the accessors that read a reply, each with
the exception it throws, and `dump_escaped`, which writes the strings of a request.  An exception
is the text of its `what()`.

The parser itself is not here: whatever it makes of a text, a value or an exception, is taken up
by the accessors.
-/
import PqcEdr.Printf

namespace PqcEdr.Analyzer

/-! ## 1. Values -/

/-- `basic_json` with the number types `int64_t`, `uint64_t` and `double`; the keys of an object
are distinct, as those of a `std::map` are. -/
inductive Json where
  | null
  | boolean (b : Bool)
  | number_integer (n : Int64)
  | number_unsigned (n : UInt64)
  | number_float (x : Double)
  | string (s : Bytes)
  | array (elements : List Json)
  | object (fields : List (Bytes × Json))

/-- A call that returns or throws a `std::exception`. -/
abbrev Throws (α : Type) := Except Bytes α

section

variable {α β : Type}

/-- A bind returns exactly where both of its parts do. -/
theorem throws_bind_eq_ok {x : Throws α} {f : α → Throws β} {b : β} :
    (x >>= f) = .ok b ↔ ∃ a, x = .ok a ∧ f a = .ok b := by
  cases x <;> simp [bind, Except.bind]

theorem throws_bind_returns {x : Throws α} {f : α → Throws β} (hx : ∃ a, x = .ok a)
    (hf : ∀ a, ∃ b, f a = .ok b) : ∃ b, (x >>= f) = .ok b := by
  obtain ⟨a, rfl⟩ := hx
  exact hf a

end

def typeError (id : ℕ) (what : Bytes) : Bytes :=
  lit "[json.exception.type_error." ++ decimal id ++ lit "] " ++ what

def outOfRange (id : ℕ) (what : Bytes) : Bytes :=
  lit "[json.exception.out_of_range." ++ decimal id ++ lit "] " ++ what

/-- `find` in an object. -/
def findField (fields : List (Bytes × Json)) (key : Bytes) : Option Json :=
  (fields.find? fun f => f.1 = key).map Prod.snd

namespace Json

def typeName : Json → Bytes
  | null => lit "null"
  | object _ => lit "object"
  | array _ => lit "array"
  | string _ => lit "string"
  | boolean _ => lit "boolean"
  | number_integer _ => lit "number"
  | number_unsigned _ => lit "number"
  | number_float _ => lit "number"

/-! ## 2. Accessors -/

/-- `at(key)`. -/
def atKey (key : Bytes) : Json → Throws Json
  | object fields =>
    match findField fields key with
    | some v => .ok v
    | none => .error (outOfRange 403 (lit "key '" ++ key ++ lit "' not found"))
  | j => .error (typeError 304 (lit "cannot use at() with " ++ j.typeName))

/-- `at(idx)`. -/
def atIndex (idx : ℕ) : Json → Throws Json
  | array elements =>
    match elements[idx]? with
    | some v => .ok v
    | none => .error (outOfRange 401 (lit "array index " ++ decimal idx ++ lit " is out of range"))
  | j => .error (typeError 304 (lit "cannot use at() with " ++ j.typeName))

def contains (key : Bytes) : Json → Bool
  | object fields => (findField fields key).isSome
  | _ => false

/-- `get<std::string>()`. -/
def getString : Json → Throws Bytes
  | string s => .ok s
  | j => .error (typeError 302 (lit "type must be string, but is " ++ j.typeName))

/-- `static_cast<double>` of an integer. -/
def doubleOfInt (n : ℤ) : Double :=
  let x := roundBinary64 n.natAbs 1
  .finite (n < 0) x.1 x.2

/-- `get<double>()`, which does not take a boolean. -/
def getDouble : Json → Throws Double
  | number_unsigned n => .ok (doubleOfInt n.toNat)
  | number_integer n => .ok (doubleOfInt n.toInt)
  | number_float x => .ok x
  | j => .error (typeError 302 (lit "type must be number, but is " ++ j.typeName))

/-- `static_cast<unsigned long long>` of a `double`, which the language leaves undefined where the
truncated value does not fit: `wild` is what the machine makes of it. -/
def ullOfDouble (wild : Double → UInt64) : Double → UInt64
  | .finite negative num den =>
    let t := num / den
    if t < 2 ^ 64 ∧ (negative → t = 0) then UInt64.ofNat t else wild (.finite negative num den)
  | x => wild x

/-- `get<unsigned long long>()`: not `uint64_t` (which is `unsigned long`), so this is the
overload for any arithmetic type, and it takes a boolean. -/
def getUll (wild : Double → UInt64) : Json → Throws UInt64
  | number_unsigned n => .ok n
  | number_integer n => .ok n.toUInt64
  | number_float x => .ok (ullOfDouble wild x)
  | boolean b => .ok (if b then 1 else 0)
  | j => .error (typeError 302 (lit "type must be number, but is " ++ j.typeName))

/-- `value(key, default_value)`, whose result type decides the conversion `get`. -/
def value {α : Type} (get : Json → Throws α) (key : Bytes) (default_value : α) : Json → Throws α
  | object fields =>
    match findField fields key with
    | some v => get v
    | none => .ok default_value
  | j => .error (typeError 306 (lit "cannot use value() with " ++ j.typeName))

theorem atKey_eq_ok {key : Bytes} {j v : Json} :
    j.atKey key = .ok v ↔ ∃ fields, j = object fields ∧ findField fields key = some v := by
  cases j with
  | object fields =>
    unfold atKey
    cases hfind : findField fields key <;> simp [hfind]
  | _ => simp [atKey]

theorem atIndex_eq_ok {idx : ℕ} {j v : Json} :
    j.atIndex idx = .ok v ↔ ∃ elements, j = array elements ∧ elements[idx]? = some v := by
  cases j with
  | array elements =>
    unfold atIndex
    cases hget : elements[idx]? <;> simp [hget]
  | _ => simp [atIndex]

theorem getString_eq_ok {j : Json} {s : Bytes} : j.getString = .ok s ↔ j = string s := by
  cases j <;> simp [getString]

/-- What `value` found, it converted. -/
theorem value_eq_ok {α : Type} {get : Json → Throws α} {key : Bytes} {d a : α} {j : Json} :
    j.value get key d = .ok a ↔ ∃ fields, j = object fields ∧
      ((findField fields key = none ∧ d = a) ∨
        ∃ v, findField fields key = some v ∧ get v = .ok a) := by
  cases j with
  | object fields =>
    unfold value
    cases hfind : findField fields key <;> simp [hfind]
  | _ => simp [value]

end Json

/-! ## 3. `dump_escaped` -/

/-- `error_handler_t`: what to do with a string that is not UTF-8. -/
inductive ErrorHandler where
  | strict
  | replace
  | ignore
  deriving DecidableEq, Repr

/-- The table of the decoder: the class of each byte, then the next state for each state and
class. -/
def utf8d : List UInt8 :=
  List.replicate 128 0 ++ List.replicate 16 1 ++ List.replicate 16 9 ++ List.replicate 32 7 ++
  [8, 8] ++ List.replicate 30 2 ++
  [0xA, 0x3, 0x3, 0x3, 0x3, 0x3, 0x3, 0x3, 0x3, 0x3, 0x3, 0x3, 0x3, 0x4, 0x3, 0x3,
    0xB, 0x6, 0x6, 0x6, 0x5, 0x8, 0x8, 0x8, 0x8, 0x8, 0x8, 0x8, 0x8, 0x8, 0x8, 0x8,
    0x0, 0x1, 0x2, 0x3, 0x5, 0x8, 0x7, 0x1, 0x1, 0x1, 0x4, 0x6, 0x1, 0x1, 0x1, 0x1,
    1, 1, 1, 1, 1, 1, 1, 1, 1, 1, 1, 1, 1, 1, 1, 1, 1, 0, 1, 1, 1, 1, 1, 0, 1, 0, 1, 1, 1, 1, 1, 1,
    1, 2, 1, 1, 1, 1, 1, 2, 1, 2, 1, 1, 1, 1, 1, 1, 1, 1, 1, 1, 1, 1, 1, 2, 1, 1, 1, 1, 1, 1, 1, 1,
    1, 2, 1, 1, 1, 1, 1, 1, 1, 2, 1, 1, 1, 1, 1, 1, 1, 1, 1, 1, 1, 1, 1, 3, 1, 3, 1, 1, 1, 1, 1, 1,
    1, 3, 1, 1, 1, 1, 1, 3, 1, 3, 1, 1, 1, 1, 1, 1, 1, 3, 1, 1, 1, 1, 1, 1, 1, 1, 1, 1, 1, 1, 1, 1]

def UTF8_ACCEPT : UInt8 := 0

def UTF8_REJECT : UInt8 := 1

/-- The next state and code point. -/
def decode (state : UInt8) (codep : UInt32) (byte : UInt8) : UInt8 × UInt32 :=
  let type := utf8d.getD byte.toNat 0
  (utf8d.getD (256 + state.toNat * 16 + type.toNat) 0,
    if state ≠ UTF8_ACCEPT then (byte &&& 0x3f).toUInt32 ||| (codep <<< 6)
    else (0xFF >>> type.toUInt32) &&& byte.toUInt32)

/-- A byte in hexadecimal, with the digits given. -/
def hexByte (digits : String) (byte : UInt8) : Bytes :=
  [(lit digits).getD (byte / 16).toNat 0, (lit digits).getD (byte % 16).toNat 0]

/-- What is written for a code point whose last byte is `byte`, with `ensure_ascii` off. -/
def escaped (codepoint : UInt32) (byte : UInt8) : Bytes :=
  if codepoint = 0x08 then lit "\\b"
  else if codepoint = 0x09 then lit "\\t"
  else if codepoint = 0x0A then lit "\\n"
  else if codepoint = 0x0C then lit "\\f"
  else if codepoint = 0x0D then lit "\\r"
  else if codepoint = 0x22 then lit "\\\""
  else if codepoint = 0x5C then lit "\\\\"
  else if codepoint ≤ 0x1F then lit "\\u00" ++ hexByte "0123456789abcdef" codepoint.toUInt8
  else [byte]

/-- `string_buffer`: up to `bytes_after_last_accept`, and the undumped characters behind it. -/
structure Escape where
  accepted : Bytes := []
  undumped : Bytes := []
  state : UInt8 := UTF8_ACCEPT
  codepoint : UInt32 := 0
  deriving DecidableEq, Repr

/-- U+FFFD. -/
def replacementCharacter : Bytes := [0xEF, 0xBF, 0xBD]

/-- One byte of the string, and whether it is to be read again (`--i`). -/
def readByte (error_handler : ErrorHandler) (i : ℕ) (byte : UInt8) (s : Escape) :
    Throws (Escape × Bool) :=
  let (state, codepoint) := decode s.state s.codepoint byte
  if state = UTF8_ACCEPT then
    .ok ({ accepted := s.accepted ++ s.undumped ++ escaped codepoint byte
           undumped := []
           state := state
           codepoint := codepoint }, false)
  else if state = UTF8_REJECT then
    match error_handler with
    | .strict =>
      .error (typeError 316 (lit "invalid UTF-8 byte at index " ++ decimal i ++ lit ": 0x" ++
        hexByte "0123456789ABCDEF" byte))
    | .ignore =>
      .ok ({ accepted := s.accepted, undumped := [], state := UTF8_ACCEPT, codepoint := codepoint },
        s.undumped ≠ [])
    | .replace =>
      .ok ({ accepted := s.accepted ++ replacementCharacter
             undumped := []
             state := UTF8_ACCEPT
             codepoint := codepoint }, s.undumped ≠ [])
  else
    .ok ({ s with undumped := s.undumped ++ [byte], state := state, codepoint := codepoint }, false)

/-- The loop.  A byte that is read again meets no undumped characters, so it is not read a third
time. -/
def readBytes (error_handler : ErrorHandler) : ℕ → Bytes → Escape → Throws Escape
  | _, [], s => .ok s
  | i, byte :: rest, s => do
    let (s, again) ← readByte error_handler i byte s
    if again then
      let (s, _) ← readByte error_handler i byte s
      readBytes error_handler (i + 1) rest s
    else readBytes error_handler (i + 1) rest s

def dumpEscaped (error_handler : ErrorHandler) (s : Bytes) : Throws Bytes := do
  let r ← readBytes error_handler 0 s {}
  if r.state = UTF8_ACCEPT then .ok (r.accepted ++ r.undumped)
  else
    match error_handler with
    | .strict =>
      .error (typeError 316 (lit "incomplete UTF-8 string; last byte: 0x" ++
        hexByte "0123456789ABCDEF" (s.getLastD 0)))
    | .ignore => .ok r.accepted
    | .replace => .ok (r.accepted ++ replacementCharacter)

-- a quote, a control byte, `é`, a truncated three-byte sequence and a byte that starts nothing
example : dumpEscaped .replace (lit "\"\t\x01" ++ [0xC3, 0xA9, 0xE2, 0x82, 0x41, 0xFF]) =
    .ok (lit "\\\"\\t\\u0001" ++ [0xC3, 0xA9] ++ replacementCharacter ++ lit "A" ++
      replacementCharacter) := by decide

theorem readByte_returns {h : ErrorHandler} (hh : h ≠ .strict) (i : ℕ) (byte : UInt8)
    (s : Escape) : ∃ r, readByte h i byte s = .ok r := by
  unfold readByte
  obtain ⟨state, codepoint⟩ := decode s.state s.codepoint byte
  by_cases haccept : state = UTF8_ACCEPT
  · exact ⟨_, if_pos haccept⟩
  · by_cases hreject : state = UTF8_REJECT
    · simp only [if_neg haccept, if_pos hreject]
      cases h with
      | strict => exact absurd rfl hh
      | replace => exact ⟨_, rfl⟩
      | ignore => exact ⟨_, rfl⟩
    · simp only [if_neg haccept, if_neg hreject]
      exact ⟨_, rfl⟩

theorem readBytes_returns {h : ErrorHandler} (hh : h ≠ .strict) (i : ℕ) (bytes : Bytes)
    (s : Escape) : ∃ r, readBytes h i bytes s = .ok r := by
  induction bytes generalizing i s with
  | nil => exact ⟨s, rfl⟩
  | cons byte rest ih =>
    unfold readBytes
    refine throws_bind_returns (readByte_returns hh i byte s) fun ⟨s, again⟩ => ?_
    cases again with
    | true => exact throws_bind_returns (readByte_returns hh i byte s) fun r => ih (i + 1) r.1
    | false => exact ih (i + 1) s

/-- Whatever the bytes are, only the strict handler throws. -/
theorem dumpEscaped_returns {h : ErrorHandler} (hh : h ≠ .strict) (s : Bytes) :
    ∃ out, dumpEscaped h s = .ok out := by
  unfold dumpEscaped
  refine throws_bind_returns (readBytes_returns hh 0 s {}) fun r => ?_
  split
  · exact ⟨_, rfl⟩
  · cases h with
    | strict => exact absurd rfl hh
    | replace => exact ⟨_, rfl⟩
    | ignore => exact ⟨_, rfl⟩

end PqcEdr.Analyzer
