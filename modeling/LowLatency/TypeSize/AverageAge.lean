import Mathlib
import LowLatency.Basic

/-!
# `average_age`, for three sizes of an age

| here | there (`test.cc`) |
| --- | --- |
| `AgeType`    | `T` in `BM_AverageAge<T>`, the underlying type of `enum class Age` (lines 578-584, 641-643) |
| `AgeType.ofSizeT` | `static_cast<Age<T>>` of a `size_t` |
| `averageAge` | `average_age<T>` (lines 587-599) |

The sum is an `int`, and its overflow is undefined: `none`. The size of the vector is a `size_t`, so for
the division the sum is converted to `size_t` too. A negative sum becomes a number close to `2^64`; what
is left of the quotient after the cast is the mean only by luck (`averageAge_iff`).
-/

namespace LowLatency.TypeSize

inductive AgeType where
  | int
  | short
  | uint8
deriving DecidableEq

def AgeType.bits : AgeType → Nat
  | .int => 32
  | .short => 16
  | .uint8 => 8

/-- The values of the type. -/
def AgeType.Fits : AgeType → Int → Prop
  | .int, x => -2 ^ 31 ≤ x ∧ x < 2 ^ 31
  | .short, x => -2 ^ 15 ≤ x ∧ x < 2 ^ 15
  | .uint8, x => 0 ≤ x ∧ x < 2 ^ 8

instance (T : AgeType) (x : Int) : Decidable (T.Fits x) := by
  cases T <;> unfold AgeType.Fits <;> infer_instance

/-- Reduction to the 16-bit signed `short`. -/
def shortWrap (x : Int) : Int := x.bmod (2 ^ 16)

/-- The value modulo `2^bits`, in the range of the type. -/
def AgeType.ofSizeT : AgeType → Nat → Int
  | .int, q => intWrap q
  | .short, q => shortWrap q
  | .uint8, q => (q % 2 ^ 8 : Nat)

/-- The sum comes first, the test for an empty vector after it. An `int` is converted to `size_t` as a
`long` of the same value is. -/
def averageAge (T : AgeType) (ages : List Int) : Option Int :=
  (ages.foldlM intAdd 0).map fun total =>
    if ages.isEmpty then 0 else T.ofSizeT (longToSizeT total / sizeT ages.length)

/-! ## The mean -/

/-- The sum divided by the length, rounded toward zero. -/
def mean (ages : List Int) : Int := ages.sum.tdiv ages.length

/-- Rounding toward zero does not leave the range of the elements. -/
theorem mean_between {ages : List Int} (hne : ages ≠ []) :
    (∃ x ∈ ages, x ≤ mean ages) ∧ ∃ y ∈ ages, mean ages ≤ y := by
  have hpos : (0 : Int) < ages.length := Int.natCast_pos.2 (List.length_pos_iff.2 hne)
  have hdiv : ages.length * mean ages + ages.sum.tmod ages.length = ages.sum := Int.mul_tdiv_add_tmod _ _
  have hlt : ages.sum.tmod ages.length < ages.length := Int.tmod_lt_of_pos _ hpos
  have hgt : -(ages.length : Int) < ages.sum.tmod ages.length := Int.lt_tmod_of_pos _ hpos
  constructor
  · by_contra hno
    push Not at hno
    have hsum := List.card_nsmul_le_sum ages (mean ages + 1) fun x hx => hno x hx
    rw [Int.nsmul_eq_mul, Int.mul_add] at hsum
    omega
  · by_contra hno
    push Not at hno
    have hsum := List.sum_le_card_nsmul ages (mean ages - 1) fun y hy => by have := hno y hy; omega
    rw [Int.nsmul_eq_mul, Int.mul_sub] at hsum
    omega

/-- With two values of the type, all between them are values of the type. -/
theorem AgeType.Fits.between {T : AgeType} {x y z : Int} (hx : T.Fits x) (hz : T.Fits z) (hxy : x ≤ y)
    (hyz : y ≤ z) : T.Fits y := by
  cases T with
  | int => exact ⟨Int.le_trans hx.1 hxy, Int.lt_of_le_of_lt hyz hz.2⟩
  | short => exact ⟨Int.le_trans hx.1 hxy, Int.lt_of_le_of_lt hyz hz.2⟩
  | uint8 => exact ⟨Int.le_trans hx.1 hxy, Int.lt_of_le_of_lt hyz hz.2⟩

theorem fits_mean {T : AgeType} {ages : List Int} (hne : ages ≠ []) (hfits : ∀ x ∈ ages, T.Fits x) :
    T.Fits (mean ages) := by
  obtain ⟨⟨x, hx, hxm⟩, y, hy, hmy⟩ := mean_between hne
  exact (hfits x hx).between (hfits y hy) hxm hmy

/-! ## The computation -/

/-- The accumulated sum, as long as it stays in the range of an `int`. -/
theorem foldlM_intAdd {ages : List Int} {total : Int} (h : ∀ j, AgeType.int.Fits (total + (ages.take j).sum)) :
    ages.foldlM intAdd total = some (total + ages.sum) := by
  induction ages generalizing total with
  | nil => simp
  | cons age ages ih =>
    have hone := h 1
    rw [List.take_succ_cons, List.take_zero, List.sum_cons, List.sum_nil, Int.add_zero] at hone
    unfold AgeType.Fits at hone
    rw [List.foldlM_cons, intAdd, if_pos hone, List.sum_cons, ← Int.add_assoc]
    refine ih ?_
    intro j
    have hnext := h (j + 1)
    rwa [List.take_succ_cons, List.sum_cons, ← Int.add_assoc] at hnext

/-- A number in the balanced range is the reduction of exactly what is congruent to it. -/
theorem bmod_eq_iff_dvd {M : Nat} (hM : 0 < M) {m : Int} (hlo : -M ≤ 2 * m) (hhi : 2 * m < M) (x : Int) :
    x.bmod M = m ↔ (M : Int) ∣ x - m := by
  have hsub : m - x = -(x - m) := by omega
  rw [Int.bmod_eq_iff hM, hsub, Int.dvd_neg]
  refine ⟨fun h => h.2.2, fun h => ⟨?_, ?_, h⟩⟩
  · omega
  · omega

/-- A cast gives the value of the type that is congruent modulo `2^bits`. -/
theorem ofSizeT_eq_iff {T : AgeType} {m : Int} (hm : T.Fits m) (q : Nat) :
    T.ofSizeT q = m ↔ ((2 ^ T.bits : Nat) : Int) ∣ q - m := by
  unfold AgeType.Fits at hm
  cases T with
  | int =>
    rw [AgeType.ofSizeT, AgeType.bits, intWrap]
    exact bmod_eq_iff_dvd (by decide) (by push_cast; omega) (by push_cast; omega) q
  | short =>
    rw [AgeType.ofSizeT, AgeType.bits, shortWrap]
    exact bmod_eq_iff_dvd (by decide) (by push_cast; omega) (by push_cast; omega) q
  | uint8 =>
    rw [AgeType.ofSizeT, AgeType.bits]
    omega

/-- The condition on the sum and the length: the sum is not negative, or the cast drops all that its
conversion to `size_t` has added to the quotient. -/
def WrapVanishes (T : AgeType) (sum : Int) (length : Nat) : Prop :=
  0 ≤ sum ∨ 2 ^ T.bits ∣ (2 ^ 64 - (-sum).toNat % length) / length

instance (T : AgeType) (sum : Int) (length : Nat) : Decidable (WrapVanishes T sum length) :=
  inferInstanceAs (Decidable (_ ∨ _))

section
variable {T : AgeType} {ages : List Int}

theorem averageAge_eq (T : AgeType) (hne : ages ≠ []) (hlen : ages.length < 2 ^ 64)
    (hsums : ∀ j, AgeType.int.Fits (ages.take j).sum) :
    averageAge T ages = some (T.ofSizeT (longToSizeT ages.sum / ages.length)) := by
  have htotal : ages.foldlM intAdd 0 = some ages.sum := by
    rw [foldlM_intAdd (by simpa using hsums), Int.zero_add]
  rw [averageAge, htotal, Option.map_some, sizeT_of_lt hlen, if_neg (by simpa using hne)]

/-- A sum that is not negative is converted to itself, and the quotient is the mean. -/
theorem quotient_of_nonneg (hsum : AgeType.int.Fits ages.sum) (h0 : 0 ≤ ages.sum) :
    ((longToSizeT ages.sum / ages.length : Nat) : Int) = mean ages := by
  obtain ⟨-, hhi⟩ := hsum
  obtain ⟨s, hs⟩ := Int.eq_ofNat_of_zero_le h0
  have hconv : longToSizeT ages.sum = s := by
    rw [hs, longToSizeT_natCast]
    exact Nat.mod_eq_of_lt (by omega)
  rw [hconv, mean, hs, Int.ofNat_tdiv]

/-- For a negative sum, how far the quotient in `size_t` is from the mean. -/
theorem quotient_of_neg (hne : ages ≠ []) (hsum : AgeType.int.Fits ages.sum) (hneg : ages.sum < 0) :
    ((longToSizeT ages.sum / ages.length : Nat) : Int) - mean ages =
      ((2 ^ 64 - (-ages.sum).toNat % ages.length) / ages.length : Nat) := by
  obtain ⟨hlo, -⟩ := hsum
  have hpos : 0 < ages.length := List.length_pos_iff.2 hne
  obtain ⟨s, hs⟩ : ∃ s : Nat, ages.sum = -s := ⟨(-ages.sum).toNat, by omega⟩
  have hconv : longToSizeT ages.sum = 2 ^ 64 - s := by
    unfold longToSizeT
    omega
  have hmean : mean ages = -(s / ages.length : Nat) := by
    rw [mean, hs, Int.neg_tdiv, Int.ofNat_tdiv]
  have hmod := Nat.mod_add_div s ages.length
  have hsplit : 2 ^ 64 - s = 2 ^ 64 - s % ages.length - ages.length * (s / ages.length) := by omega
  have hle : s / ages.length ≤ (2 ^ 64 - s % ages.length) / ages.length := by
    rw [Nat.le_div_iff_mul_le hpos, Nat.mul_comm]
    omega
  rw [hconv, hmean, hs, Int.neg_neg, Int.toNat_natCast, hsplit, Nat.sub_mul_div]
  omega

/-- For one type. -/
theorem averageAge_eq_mean_iff (hne : ages ≠ []) (hlen : ages.length < 2 ^ 64) (hfits : ∀ x ∈ ages, T.Fits x)
    (hsums : ∀ j, AgeType.int.Fits (ages.take j).sum) :
    averageAge T ages = some (mean ages) ↔ WrapVanishes T ages.sum ages.length := by
  have hsum : AgeType.int.Fits ages.sum := by simpa using hsums ages.length
  rw [averageAge_eq T hne hlen hsums, Option.some_inj, ofSizeT_eq_iff (fits_mean hne hfits), WrapVanishes]
  rcases lt_or_ge ages.sum 0 with hneg | hnonneg
  · rw [quotient_of_neg hne hsum hneg, Int.natCast_dvd_natCast]
    refine ⟨Or.inr, ?_⟩
    rintro (h0 | hdvd)
    · omega
    · exact hdvd
  · rw [quotient_of_nonneg hsum hnonneg, Int.sub_self]
    exact ⟨fun _ => Or.inl hnonneg, fun _ => Int.dvd_zero _⟩

end

/-- A quotient of `2^64` less a remainder that loses all its low bits comes from an exact division. -/
theorem two_pow_dvd_quotient_iff {w length b : Nat} (hw : w ≤ 32) (hlen : 2 * length ≤ 2 ^ w) (hb : b < length) :
    2 ^ w ∣ (2 ^ 64 - b) / length ↔ (∃ k, length = 2 ^ k) ∧ b = 0 := by
  constructor
  · intro hdvd
    have hsplit : length * ((2 ^ 64 - b) / length) + ((2 ^ 64 - b) % length + b) = 2 ^ 64 := by
      have hle : b ≤ 2 ^ 64 := by
        have : 2 ^ w ≤ 2 ^ 32 := Nat.pow_le_pow_right (by decide) hw
        omega
      have := Nat.div_add_mod (2 ^ 64 - b) length
      omega
    have hrest : 2 ^ w ∣ (2 ^ 64 - b) % length + b := by
      rw [← Nat.dvd_add_right (Nat.dvd_mul_left_of_dvd hdvd length), hsplit]
      exact Nat.pow_dvd_pow 2 (by omega)
    have hmod : (2 ^ 64 - b) % length < length := Nat.mod_lt _ (by omega)
    have hzero := Nat.eq_zero_of_dvd_of_lt hrest (by omega)
    have hexact : length ∣ 2 ^ 64 := ⟨(2 ^ 64 - b) / length, by omega⟩
    obtain ⟨k, -, hk⟩ := (Nat.dvd_prime_pow Nat.prime_two).1 hexact
    exact ⟨⟨k, hk⟩, by omega⟩
  · rintro ⟨⟨k, rfl⟩, rfl⟩
    have hk : k + 1 ≤ w := by
      rw [← Nat.pow_succ'] at hlen
      exact (Nat.pow_le_pow_iff_right (by decide)).1 hlen
    rw [Nat.sub_zero, Nat.pow_div (by omega) (by decide)]
    exact Nat.pow_dvd_pow 2 (by omega)

/-- For lengths up to half the range of `T`, the wrap vanishes if the length is a power of two and
divides the sum. -/
theorem wrapVanishes_iff {T : AgeType} {length : Nat} (hpos : 0 < length) (hlen : 2 * length ≤ 2 ^ T.bits)
    (sum : Int) :
    WrapVanishes T sum length ↔ 0 ≤ sum ∨ (∃ k, length = 2 ^ k) ∧ (length : Int) ∣ sum := by
  have hbits : T.bits ≤ 32 := by cases T <;> decide
  rw [WrapVanishes, two_pow_dvd_quotient_iff hbits hlen (Nat.mod_lt _ hpos), ← Nat.dvd_iff_mod_eq_zero]
  rcases lt_or_ge sum 0 with hneg | hnonneg
  · have hcast : ((-sum).toNat : Int) = -sum := Int.toNat_of_nonneg (by omega)
    rw [← Int.natCast_dvd_natCast, hcast, Int.dvd_neg]
  · exact ⟨fun _ => Or.inl hnonneg, fun _ => Or.inl hnonneg⟩

/-- **`average_age` is the mean, rounded toward zero, exactly when the wrap vanishes**, for every
non-empty vector of values of `T` whose prefix sums are `int`s; for lengths up to half the range of `T`,
exactly when the sum is not negative or the length is a power of two that divides it. The mean lies
between two elements, and on vectors that all three types can represent the instantiations agree. -/
theorem averageAge_iff (T : AgeType) (ages : List Int) (hne : ages ≠ []) (hlen : ages.length < 2 ^ 64)
    (hfits : ∀ x ∈ ages, T.Fits x) (hsums : ∀ j, AgeType.int.Fits (ages.take j).sum) :
    (averageAge T ages = some (mean ages) ↔ WrapVanishes T ages.sum ages.length) ∧
      (2 * ages.length ≤ 2 ^ T.bits → (averageAge T ages = some (mean ages) ↔
        0 ≤ ages.sum ∨ (∃ k, ages.length = 2 ^ k) ∧ (ages.length : Int) ∣ ages.sum)) ∧
      (∃ x ∈ ages, x ≤ mean ages) ∧ (∃ y ∈ ages, mean ages ≤ y) ∧
      ((∀ U : AgeType, ∀ x ∈ ages, U.Fits x) → ∀ U V, averageAge U ages = averageAge V ages) := by
  have hiff := averageAge_eq_mean_iff hne hlen hfits hsums
  refine ⟨hiff, ?_, (mean_between hne).1, (mean_between hne).2, ?_⟩
  · intro hhalf
    rw [hiff, wrapVanishes_iff (List.length_pos_iff.2 hne) hhalf]
  · intro hall
    have hnonneg : 0 ≤ ages.sum := List.sum_nonneg fun x hx => (hall .uint8 x hx).1
    have hmean : ∀ U, averageAge U ages = some (mean ages) :=
      fun U => (averageAge_eq_mean_iff hne hlen (hall U) hsums).2 (Or.inl hnonneg)
    intro U V
    rw [hmean U, hmean V]

/-- Two ages before birth, whose sum is even. -/
theorem averageAge_negative_even : averageAge .short [-3, -5] = some (mean [-3, -5]) := by
  refine (averageAge_iff .short [-3, -5] (by decide) (by decide) (by decide) ?_).1.2 (by decide)
  rintro (_ | _ | j)
  · decide
  · decide
  · simp [AgeType.Fits]

/-- The mean of three times -1 comes out as 1431655764. -/
theorem averageAge_negative_odd :
    (∀ x ∈ [-1, -1, -1], AgeType.int.Fits x) ∧ (∀ j ≤ 3, AgeType.int.Fits ([-1, -1, -1].take j).sum) ∧
      averageAge .int [-1, -1, -1] = some 1431655764 ∧ mean [-1, -1, -1] = -1 := by
  decide

end LowLatency.TypeSize
