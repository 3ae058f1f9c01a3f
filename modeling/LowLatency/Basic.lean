import Mathlib.Data.Nat.Bitwise

/-!
# The C++ types shared by the components

| here | there |
| --- | --- |
| `StdString`   | `std::string`, `string_view` contents: a sequence of bytes |
| `sizeT`       | a value reduced to `std::size_t` (64 bits, unsigned, wrapping) |
| `longToSizeT` | the implicit conversion `long` to `size_t` |
| `sizeTToLong` | the implicit conversion of a `size_t` to a 64-bit signed type (`long`, `int64_t`) |
| `longAdd`     | `x + y` on `long` or `long long`; signed overflow is undefined, and `none` |
| `intIncrement`, `intAdd`, `intMul` | `x++`, `x + y`, `x * y` on an `int` (32 bits); signed overflow is undefined, and `none` |
| `intWrap`     | a value reduced to an `int`, as a conversion does it and an addition that wraps around |

`long` and `int` themselves are `Int`; where a result depends on the range of a `long`, a theorem
bounds the values.
-/

namespace LowLatency

abbrev StdString := List UInt8

/-- Reduction to the 64-bit unsigned `std::size_t`. -/
def sizeT (x : Nat) : Nat := x % 2 ^ 64

theorem sizeT_of_lt {x : Nat} (h : x < 2 ^ 64) : sizeT x = x := Nat.mod_eq_of_lt h

/-- `long` to `size_t`: the value modulo `2^64`. -/
def longToSizeT (x : Int) : Nat := (x % 2 ^ 64).toNat

theorem longToSizeT_natCast (k : Nat) : longToSizeT k = k % 2 ^ 64 := by
  unfold longToSizeT; omega

/-- `size_t` to a 64-bit signed type: the value modulo `2^64`, in the signed range. -/
def sizeTToLong (x : Nat) : Int := Int.bmod x (2 ^ 64)

theorem sizeTToLong_of_lt {x : Nat} (h : x < 2 ^ 63) : sizeTToLong x = x := by
  have hpow : ((2 ^ 64 : Nat) : Int) = 18446744073709551616 := rfl
  refine Int.bmod_eq_of_le_mul_two ?_ ?_
  · rw [hpow]
    omega
  · rw [hpow]
    omega

/-- `x + y` on `long`. -/
def longAdd (x y : Int) : Option Int := if -2 ^ 63 ≤ x + y ∧ x + y < 2 ^ 63 then some (x + y) else none

/-- `x++` on an `int`. -/
def intIncrement (x : Int) : Option Int := if x < 2 ^ 31 - 1 then some (x + 1) else none

/-- `x + y` on an `int`. -/
def intAdd (x y : Int) : Option Int := if -2 ^ 31 ≤ x + y ∧ x + y < 2 ^ 31 then some (x + y) else none

/-- `x * y` on an `int`. -/
def intMul (x y : Int) : Option Int := if -2 ^ 31 ≤ x * y ∧ x * y < 2 ^ 31 then some (x * y) else none

/-- Reduction to the 32-bit signed `int`. -/
def intWrap (x : Int) : Int := x.bmod (2 ^ 32)

@[simp] theorem intWrap_add_left (x y : Int) : intWrap (intWrap x + y) = intWrap (x + y) := Int.bmod_add_bmod

@[simp] theorem intWrap_add_right (x y : Int) : intWrap (x + intWrap y) = intWrap (x + y) := Int.add_bmod_bmod

theorem intWrap_eq_iff {x y : Int} : intWrap x = intWrap y ↔ (2 ^ 32 : Int) ∣ x - y := by
  have hpow : ((2 ^ 32 : Nat) : Int) = 2 ^ 32 := rfl
  rw [intWrap, intWrap, Int.bmod_eq_bmod_iff_bmod_sub_eq_zero, ← Int.dvd_iff_bmod_eq_zero, hpow]

/-- A number below `2^31` is itself as a 32-bit `int`. -/
theorem bmod_of_lt {n : Nat} (h : n < 2 ^ 31) : Int.bmod n (2 ^ 32) = n := by
  have hpow : ((2 ^ 32 : Nat) : Int) = 4294967296 := rfl
  refine Int.bmod_eq_of_le_mul_two ?_ ?_
  · rw [hpow]
    omega
  · rw [hpow]
    omega

end LowLatency
