/-
# The C library's formatted output, as far as the analyzer uses it

The reasons of a hit are built with `snprintf` into a fixed buffer: `%s`, `%u`, `%zu`, and the
seconds of an elapsed time with `%.1f` or `%.0f`.  The seconds are a `double`, so the two
roundings of `static_cast<double>(ns) / 1e9` are carried out here on exact fractions.
-/
import PqcEdr.Event

namespace PqcEdr

/-- `%u`, `%llu`, `%zu`. -/
def decimal (n : ℕ) : Bytes := (Nat.toDigits 10 n).map fun c => UInt8.ofNat c.toNat

theorem mem_decimal {n : ℕ} {c : UInt8} (h : c ∈ decimal n) : 48 ≤ c.toNat ∧ c.toNat ≤ 57 := by
  obtain ⟨d, hd, rfl⟩ := List.mem_map.mp h
  have hdigit := Nat.isDigit_of_mem_toDigits (by decide) (by decide) hd
  simp only [Char.isDigit, Bool.and_eq_true, decide_eq_true_eq, UInt32.le_iff_toNat_le] at hdigit
  have hlow : 48 ≤ d.toNat := hdigit.1
  have hhigh : d.toNat ≤ 57 := hdigit.2
  rw [UInt8.toNat_ofNat', Nat.mod_eq_of_lt (by omega)]
  exact ⟨hlow, hhigh⟩

/-- `snprintf(buf, size, ..)` read back as a C string: the text, cut to the buffer. -/
def snprintf (size : ℕ) (text : List Bytes) : Bytes := text.flatten.take (size - 1)

/-! ## 1. Binary64 -/

/-- `n / d` to the nearest integer, ties to even. -/
def roundHalfEven (n d : ℕ) : ℕ :=
  let q := n / d
  let r := n % d
  if 2 * r < d then q else if d < 2 * r then q + 1 else q + q % 2

/-- The double nearest to `n / d`, as a fraction.  Every value here lies in the normal range,
so the significand has 53 bits: scale the quotient into `[2^52, 2^53)` and round it. -/
def roundBinary64 (n d : ℕ) : ℕ × ℕ :=
  if n = 0 then (0, 1)
  else
    -- `n * 2^up / (d * 2^down)` lies in `(2^51, 2^53)`; one more doubling if it is below `2^52`
    let up := 52 + d.log2 - n.log2
    let down := n.log2 - (52 + d.log2)
    if n * 2 ^ up / (d * 2 ^ down) < 2 ^ 52 then
      if down = 0 then (roundHalfEven (n * 2 ^ (up + 1)) d, 2 ^ (up + 1))
      else (roundHalfEven n (d * 2 ^ (down - 1)) * 2 ^ (down - 1), 1)
    else (roundHalfEven (n * 2 ^ up) (d * 2 ^ down) * 2 ^ down, 2 ^ up)

/-- `to_sec`: `static_cast<double>(ns) / 1e9`. -/
def toSec (ns : UInt64) : ℕ × ℕ :=
  let x := roundBinary64 ns.toNat 1
  roundBinary64 x.1 (x.2 * 1000000000)

/-- `%.kf`. -/
def fixed (k : ℕ) (x : ℕ × ℕ) : Bytes :=
  let t := roundHalfEven (x.1 * 10 ^ k) x.2
  let frac := decimal (t % 10 ^ k)
  if k = 0 then decimal t
  else decimal (t / 10 ^ k) ++ lit "." ++ List.replicate (k - frac.length) 48 ++ frac

example : fixed 1 (toSec 110049999999) = lit "110.0" := by decide

/-- A `double` that comes from outside. -/
inductive Double
  | finite (negative : Bool) (num den : ℕ)
  | inf (negative : Bool)
  | nan (negative : Bool)
  deriving DecidableEq, Repr

/-- `%.kf` of any `double`. -/
def Double.fixed (k : ℕ) : Double → Bytes
  | .finite negative num den => (if negative then lit "-" else []) ++ PqcEdr.fixed k (num, den)
  | .inf negative => (if negative then lit "-" else []) ++ lit "inf"
  | .nan negative => (if negative then lit "-" else []) ++ lit "nan"

/-! ## 2. Addresses -/

/-- `inet_ntop(AF_INET, &daddr, ..)` of an address stored in network byte order. -/
def inetNtop (daddr : UInt32) : Bytes :=
  let b := toLe 4 daddr.toNat
  (List.intersperse (lit ".") (b.map fun o => decimal o.toNat)).flatten

example : inetNtop 0x050c0a0a = lit "10.10.12.5" := by decide

end PqcEdr
