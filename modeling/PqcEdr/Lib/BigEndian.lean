/-
# Big-endian bytes

Digits of a number in base 256, most significant first; the two-byte case as C writes it with
shifts and masks; and the byte-wise XOR of two strings.  What a length header and a counter nonce
need: each is read back from its bytes, so each is determined by them.
-/
import Mathlib.Algebra.Group.Nat.Defs
import Mathlib.Data.List.Basic
import Mathlib.Tactic.Common

namespace BigEndian

/-! ## 1. Digits -/

/-- The `k` low base-256 digits of a number, most significant first. -/
def toBe : ℕ → ℕ → List UInt8
  | 0, _ => []
  | k + 1, v => UInt8.ofNat (v / 256 ^ k) :: toBe k v

/-- The number some digits spell. -/
def ofBe : List UInt8 → ℕ
  | [] => 0
  | b :: bs => b.toNat * 256 ^ bs.length + ofBe bs

@[simp] theorem length_toBe (k v : ℕ) : (toBe k v).length = k := by
  induction k with
  | zero => rfl
  | succ k ih => rw [toBe, List.length_cons, ih]

theorem ofBe_toBe (k v : ℕ) : ofBe (toBe k v) = v % 256 ^ k := by
  induction k with
  | zero => simp [toBe, ofBe, Nat.mod_one]
  | succ k ih =>
    have hdigit : (UInt8.ofNat (v / 256 ^ k)).toNat = v / 256 ^ k % 256 := by
      rw [UInt8.toNat_ofNat']
    rw [toBe, ofBe, ih, length_toBe, hdigit, Nat.pow_succ, Nat.mod_mul]
    rw [Nat.add_comm, Nat.mul_comm]

/-- A number that fits is determined by its digits. -/
theorem toBe_inj {k v w : ℕ} (hv : v < 256 ^ k) (hw : w < 256 ^ k) (h : toBe k v = toBe k w) :
    v = w := by
  have hmod := congrArg ofBe h
  rwa [ofBe_toBe, ofBe_toBe, Nat.mod_eq_of_lt hv, Nat.mod_eq_of_lt hw] at hmod

theorem getElem?_toBe {k v i : ℕ} (hi : i < k) :
    (toBe k v)[i]? = some (UInt8.ofNat (v / 256 ^ (k - 1 - i))) := by
  induction k generalizing i with
  | zero => omega
  | succ k ih =>
    cases i with
    | zero => simp [toBe]
    | succ i =>
      rw [toBe, List.getElem?_cons_succ, ih (by omega)]
      congr 4
      omega

/-! ## 2. Sixteen bits -/

/-- `[v >> 8, v & 0xff]`. -/
def put16 (v : UInt16) : List UInt8 := [(v >>> 8).toUInt8, (v &&& 0xff).toUInt8]

/-- `hi << 8 | lo`. -/
def get16 (hi lo : UInt8) : UInt16 := hi.toUInt16 <<< 8 ||| lo.toUInt16

@[simp] theorem length_put16 (v : UInt16) : (put16 v).length = 2 := rfl

theorem toNat_get16 (hi lo : UInt8) : (get16 hi lo).toNat = hi.toNat * 256 + lo.toNat := by
  have hhi : hi.toNat < 2 ^ 8 := hi.toNat_lt
  have hlo : lo.toNat < 2 ^ 8 := lo.toNat_lt
  have hshift : (hi.toNat <<< 8) % 2 ^ 16 = hi.toNat <<< 8 := by
    rw [Nat.shiftLeft_eq]
    exact Nat.mod_eq_of_lt (by omega)
  have htoNat : (get16 hi lo).toNat = (hi.toNat <<< 8) % 2 ^ 16 ||| lo.toNat := by
    simp [get16, UInt16.toNat_or, UInt16.toNat_shiftLeft]
  rw [htoNat, hshift, ← Nat.shiftLeft_add_eq_or_of_lt hlo, Nat.shiftLeft_eq]

theorem get16_put16 (v : UInt16) : get16 (v >>> 8).toUInt8 (v &&& 0xff).toUInt8 = v := by
  have hv : v.toNat < 2 ^ 16 := v.toNat_lt
  have hhi : (v >>> 8).toUInt8.toNat = v.toNat / 256 % 256 := by
    simp [UInt16.toNat_shiftRight, Nat.shiftRight_eq_div_pow]
  have hlo : (v &&& 0xff).toUInt8.toNat = v.toNat % 256 := by
    have hmask := Nat.and_two_pow_sub_one_eq_mod v.toNat 8
    simp only [UInt16.toNat_toUInt8, UInt16.toNat_and]
    change (v.toNat &&& 255) % 2 ^ 8 = _
    rw [show (255 : ℕ) = 2 ^ 8 - 1 from rfl, hmask]
    omega
  refine UInt16.toNat_inj.mp ?_
  rw [toNat_get16, hhi, hlo]
  omega

theorem put16_get16 (hi lo : UInt8) : put16 (get16 hi lo) = [hi, lo] := by
  have h := get16_put16 (get16 hi lo)
  have hnat := congrArg UInt16.toNat h
  rw [toNat_get16, toNat_get16] at hnat
  have h1 := hi.toNat_lt
  have h2 := lo.toNat_lt
  have h3 := (get16 hi lo >>> 8).toUInt8.toNat_lt
  have h4 := (get16 hi lo &&& 0xff).toUInt8.toNat_lt
  have hhi : (get16 hi lo >>> 8).toUInt8 = hi := UInt8.toNat_inj.mp (by omega)
  have hlo : (get16 hi lo &&& 0xff).toUInt8 = lo := UInt8.toNat_inj.mp (by omega)
  rw [put16, hhi, hlo]

theorem put16_inj {v w : UInt16} (h : put16 v = put16 w) : v = w := by
  rw [put16, put16, List.cons.injEq, List.cons.injEq] at h
  rw [← get16_put16 v, ← get16_put16 w, h.1, h.2.1]

/-! ## 3. Byte-wise XOR -/

/-- A fixed mask can be taken off again. -/
theorem zipWith_xor_inj {mask xs ys : List UInt8} (hx : xs.length = mask.length)
    (hy : ys.length = mask.length)
    (h : List.zipWith (· ^^^ ·) mask xs = List.zipWith (· ^^^ ·) mask ys) : xs = ys := by
  induction mask generalizing xs ys with
  | nil => rw [List.eq_nil_of_length_eq_zero hx, List.eq_nil_of_length_eq_zero hy]
  | cons m mask ih =>
    obtain ⟨x, xs, rfl⟩ := List.exists_cons_of_length_eq_add_one hx
    obtain ⟨y, ys, rfl⟩ := List.exists_cons_of_length_eq_add_one hy
    rw [List.zipWith_cons_cons, List.zipWith_cons_cons, List.cons.injEq] at h
    have hhead : x = y := by
      have := congrArg (m ^^^ ·) h.1
      simpa [← UInt8.xor_assoc] using this
    rw [hhead, ih (by simpa using hx) (by simpa using hy) h.2]

end BigEndian
