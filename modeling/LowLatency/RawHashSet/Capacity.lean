import LowLatency.Basic
import LowLatency.RawHashSet.Group

/-!
# Capacities of `absl::raw_hash_set`

The number of slots is one less than a power of two, and a table of `capacity` slots takes at most
`CapacityToGrowth(capacity)` elements before it grows. `GrowthToLowerboundCapacity` goes the other way;
its result is rounded up by `NormalizeCapacity`.

| here | there (`raw_hash_set.h`) |
| --- | --- |
| `isValidCapacity`, `nextCapacity` | lines 977-983 |
| `normalizeCapacity`               | lines 996-998 |
| `capacityToGrowth`                | lines 1010-1018 |
| `growthToLowerboundCapacity`      | lines 1025-1032 |
| `selectBucketCountForIterRange`   | lines 1034-1048 |
| `isSmall`                         | line 1211 |

A failed `assert` is `none`. The two load-factor functions are adjoint (`lowerbound_le_iff`): the
capacity chosen for a number of elements is the least that takes them.
-/

namespace LowLatency.RawHashSet

def isValidCapacity (n : Nat) : Bool := (sizeT (n + 1) &&& n) == 0 && decide (0 < n)

def nextCapacity (n : Nat) : Option Nat := if isValidCapacity n || n == 0 then some (sizeT (n * 2 + 1)) else none

/-- `countl_zero(n)` is `64 - n.size`. -/
def normalizeCapacity (n : Nat) : Nat := if n ≠ 0 then (2 ^ 64 - 1) >>> (64 - n.size) else 1

def capacityToGrowth (G : Group) (capacity : Nat) : Option Nat :=
  if isValidCapacity capacity then
    if G.kWidth = 8 ∧ capacity = 7 then some 6 else some (capacity - capacity / 8)
  else none

def growthToLowerboundCapacity (G : Group) (growth : Nat) : Nat :=
  if G.kWidth = 8 ∧ growth = 7 then 8
  else sizeT (growth + longToSizeT ((sizeTToLong growth - 1).tdiv 7))

def selectBucketCountForIterRange (G : Group) (randomAccess : Bool) (distance bucketCount : Nat) : Nat :=
  if bucketCount ≠ 0 then bucketCount
  else if randomAccess then growthToLowerboundCapacity G distance
  else 0

def isSmall (G : Group) (capacity : Nat) : Bool := decide (capacity < G.kWidth - 1)

/-! ## Powers of two -/

theorem isValidCapacity_of_pow {cap m : Nat} (hm : 1 ≤ m) (hm' : m ≤ 63) (hcap : cap + 1 = 2 ^ m) :
    isValidCapacity cap = true := by
  have hlt : 2 ^ m < 2 ^ 64 := Nat.pow_lt_pow_right (by decide) (by omega)
  have htwo : 2 ^ 1 ≤ 2 ^ m := Nat.pow_le_pow_right (by decide) hm
  have hand : 2 ^ m &&& cap = 0 := by
    refine Nat.eq_of_testBit_eq fun i => ?_
    rw [Nat.testBit_and, Nat.testBit_two_pow, show cap = 2 ^ m - 1 by omega, Nat.testBit_two_pow_sub_one,
      Nat.zero_testBit]
    by_cases him : m = i
    · simp [him]
    · simp [him]
  simp only [isValidCapacity, hcap, sizeT_of_lt hlt, hand]
  simp
  omega

/-- The capacities that pass the check. -/
theorem exists_pow_of_isValidCapacity {cap : Nat} (hcap : cap < 2 ^ 64 - 1) (h : isValidCapacity cap = true) :
    ∃ m, 1 ≤ m ∧ m ≤ 63 ∧ cap + 1 = 2 ^ m := by
  rw [isValidCapacity, sizeT_of_lt (by omega), Bool.and_eq_true, beq_iff_eq, decide_eq_true_eq] at h
  obtain ⟨hand, hpos⟩ := h
  -- the top bit of `cap + 1` is not one of `cap`: all below it are
  have hbit := Bits.testBit_size_pred (x := cap + 1) (by omega)
  have hbit' : cap.testBit ((cap + 1).size - 1) = false := by
    have := congrArg (fun x => x.testBit ((cap + 1).size - 1)) hand
    simpa [hbit] using this
  refine ⟨(cap + 1).size - 1, ?_, ?_, ?_⟩
  · have : 1 < (cap + 1).size := Nat.lt_size.2 (by omega)
    omega
  · have : (cap + 1).size ≤ 64 := Nat.size_le.2 (by omega)
    omega
  · have hge : 2 ^ ((cap + 1).size - 1) ≤ cap + 1 := Nat.ge_two_pow_of_testBit hbit
    by_contra hne
    have hcapge : 2 ^ ((cap + 1).size - 1) ≤ cap := by omega
    have hlt : cap < 2 ^ ((cap + 1).size - 1 + 1) := by
      have := Nat.lt_size_self (cap + 1)
      have hpos : 0 < (cap + 1).size := Nat.size_pos.2 (by omega)
      rw [Nat.sub_add_cancel hpos]
      omega
    have := Nat.testBit_of_two_pow_le_and_two_pow_add_one_gt hcapge hlt
    rw [hbit'] at this
    cases this

theorem nextCapacity_eq {cap m : Nat} (hm : m ≤ 62) (hcap : cap + 1 = 2 ^ m) : nextCapacity cap = some (2 ^ (m + 1) - 1) := by
  have hlt : 2 ^ (m + 1) < 2 ^ 64 := Nat.pow_lt_pow_right (by decide) (by omega)
  have hcheck : (isValidCapacity cap || cap == 0) = true := by
    rcases Nat.eq_zero_or_pos m with rfl | hpos
    · simp [show cap = 0 by simpa using hcap]
    · simp [isValidCapacity_of_pow hpos (by omega) hcap]
  rw [Nat.pow_succ] at hlt ⊢
  rw [nextCapacity, if_pos hcheck, sizeT_of_lt (by omega)]
  congr 1
  omega

/-- `NormalizeCapacity` rounds up. -/
theorem normalizeCapacity_add_one {n : Nat} (hn : n < 2 ^ 64) : normalizeCapacity n + 1 = 2 ^ max 1 n.size := by
  unfold normalizeCapacity
  by_cases hzero : n = 0
  · simp [hzero]
  · have hsize : n.size ≤ 64 := Nat.size_le.2 hn
    have hpos : 0 < n.size := Nat.size_pos.2 (Nat.pos_of_ne_zero hzero)
    have hsplit : 2 ^ 64 = 2 ^ n.size * 2 ^ (64 - n.size) := by rw [← Nat.pow_add, Nat.add_sub_cancel' hsize]
    have hdiv : (2 ^ 64 - 1) / 2 ^ (64 - n.size) = 2 ^ n.size - 1 := by
      have := Nat.mul_sub_div 0 (2 ^ (64 - n.size)) (2 ^ n.size) (by rw [Nat.mul_comm, ← hsplit]; decide)
      rw [Nat.mul_comm, ← hsplit] at this
      simpa using this
    have htwo := Nat.two_pow_pos n.size
    rw [if_pos hzero, Nat.shiftRight_eq_div_pow, hdiv, Nat.max_eq_right hpos]
    omega

theorem le_normalizeCapacity {n : Nat} (hn : n < 2 ^ 64) : n ≤ normalizeCapacity n := by
  have h := normalizeCapacity_add_one hn
  have hsize := Nat.lt_size_self n
  have : 2 ^ n.size ≤ 2 ^ max 1 n.size := Nat.pow_le_pow_right (by decide) (Nat.le_max_right _ _)
  omega

theorem normalizeCapacity_le {n cap m : Nat} (hn : n < 2 ^ 64) (hm : 1 ≤ m) (hcap : cap + 1 = 2 ^ m) (hle : n ≤ cap) :
    normalizeCapacity n ≤ cap := by
  have h := normalizeCapacity_add_one hn
  have hsize : n.size ≤ m := Nat.size_le.2 (by omega)
  have : 2 ^ max 1 n.size ≤ 2 ^ m := Nat.pow_le_pow_right (by decide) (Nat.max_le.2 ⟨hm, hsize⟩)
  omega

/-! ## The load factor -/

section
variable {G : Group}

/-- The growth of a valid capacity, without the checks. -/
def growth (G : Group) (cap : Nat) : Nat := if G.kWidth = 8 ∧ cap = 7 then 6 else cap - cap / 8

theorem capacityToGrowth_eq {cap m : Nat} (hm : 1 ≤ m) (hm' : m ≤ 63) (hcap : cap + 1 = 2 ^ m) :
    capacityToGrowth G cap = some (growth G cap) := by
  unfold capacityToGrowth growth
  rw [if_pos (isValidCapacity_of_pow hm hm' hcap)]
  split <;> rfl

theorem growth_le (G : Group) (cap : Nat) : growth G cap ≤ cap := by
  unfold growth
  split <;> omega

theorem kWidth_eq (G : Group) : G.kWidth = 8 ∨ G.kWidth = 16 := by
  rcases G.logWidth_eq with h | h
  · exact Or.inl (congrArg (2 ^ ·) h)
  · exact Or.inr (congrArg (2 ^ ·) h)

/-- Outside the small tables there is always a slot to spare. -/
theorem growth_lt {cap : Nat} (h : G.kWidth ≤ cap + 1) : growth G cap < cap := by
  have := kWidth_eq G
  unfold growth
  split <;> omega

theorem growthToLowerboundCapacity_eq {g : Nat} (hg : g < 2 ^ 62) :
    growthToLowerboundCapacity G g = if G.kWidth = 8 ∧ g = 7 then 8 else g + (g - 1) / 7 := by
  unfold growthToLowerboundCapacity
  rw [sizeTToLong_of_lt (by omega)]
  cases g with
  | zero => simp [sizeT, longToSizeT]
  | succ g =>
    have hdiv : (((g + 1 : Nat) : Int) - 1).tdiv 7 = ((g / 7 : Nat) : Int) := by
      rw [show (((g + 1 : Nat) : Int) - 1) = (g : Int) by omega]
      exact (Int.ofNat_tdiv g 7).symm
    rw [hdiv, longToSizeT_natCast, Nat.mod_eq_of_lt (by omega), sizeT_of_lt (by omega), Nat.add_sub_cancel]

/-- **The load factor and its inverse**: a capacity is at least the lower bound for `g` elements if and
only if it takes `g` elements. -/
theorem lowerbound_le_iff {cap m g : Nat} (hm : 1 ≤ m) (hcap : cap + 1 = 2 ^ m) (hg : g < 2 ^ 62) :
    growthToLowerboundCapacity G g ≤ cap ↔ g ≤ growth G cap := by
  rw [growthToLowerboundCapacity_eq hg]
  unfold growth
  have hW := kWidth_eq G
  -- from 7 on, `cap` is 7 modulo 8
  have hmod : cap = 1 ∨ cap = 3 ∨ cap % 8 = 7 := by
    match m, hm with
    | 1, _ => omega
    | 2, _ => omega
    | m + 3, _ => rw [Nat.pow_add] at hcap; omega
  have hfifteen : cap = 1 ∨ cap = 3 ∨ cap = 7 ∨ 15 ≤ cap := by omega
  split <;> split <;> omega

theorem growthToLowerboundCapacity_lt {g : Nat} (hg : g < 2 ^ 62) : growthToLowerboundCapacity G g < 2 ^ 63 := by
  rw [growthToLowerboundCapacity_eq hg]
  split <;> omega

/-- The capacity that the table is given for `g` elements: it takes them, and no smaller one does. -/
theorem normalized_lowerbound_least (G : Group) (g : Nat) (hg : g < 2 ^ 62) :
    ∃ cap growth, normalizeCapacity (growthToLowerboundCapacity G g) = cap ∧ capacityToGrowth G cap = some growth ∧
      g ≤ growth ∧ ∀ cap' growth', cap' < 2 ^ 64 → capacityToGrowth G cap' = some growth' → g ≤ growth' → cap ≤ cap' := by
  have hlt := growthToLowerboundCapacity_lt (G := G) hg
  have hcap := normalizeCapacity_add_one (n := growthToLowerboundCapacity G g) (by omega)
  have hm : max 1 (growthToLowerboundCapacity G g).size ≤ 63 := Nat.max_le.2 ⟨by decide, Nat.size_le.2 hlt⟩
  refine ⟨_, _, rfl, capacityToGrowth_eq (Nat.le_max_left _ _) hm hcap, ?_, ?_⟩
  · exact (lowerbound_le_iff (Nat.le_max_left _ _) hcap hg).1 (le_normalizeCapacity (by omega))
  · intro cap' growth' hcap' hgrowth' hle
    have hvalid : isValidCapacity cap' = true := by
      by_contra hno
      simp [capacityToGrowth, hno] at hgrowth'
    by_cases htop : cap' = 2 ^ 64 - 1
    · have : 2 ^ max 1 (growthToLowerboundCapacity G g).size ≤ 2 ^ 63 := Nat.pow_le_pow_right (by decide) hm
      omega
    · obtain ⟨m, hm1, hm63, hpow⟩ := exists_pow_of_isValidCapacity (by omega) hvalid
      obtain rfl : growth G cap' = growth' := by
        rw [capacityToGrowth_eq hm1 hm63 hpow] at hgrowth'
        exact Option.some.inj hgrowth'
      exact normalizeCapacity_le (by omega) hm1 hpow ((lowerbound_le_iff hm1 hpow hg).2 hle)

/-- For 15 elements 15 slots are too few. -/
theorem normalized_lowerbound_least_fifteen :
    capacityToGrowth (groupSse2 true) 15 = some 14 ∧ normalizeCapacity (growthToLowerboundCapacity (groupSse2 true) 15) = 31 ∧
      ∃ growth, capacityToGrowth (groupSse2 true) 31 = some growth ∧ 15 ≤ growth := by
  obtain ⟨cap, growth, hcap, hgrowth, hle, -⟩ := normalized_lowerbound_least (groupSse2 true) 15 (by decide)
  have h31 : normalizeCapacity (growthToLowerboundCapacity (groupSse2 true) 15) = 31 := by decide +kernel
  obtain rfl : 31 = cap := h31.symm.trans hcap
  exact ⟨by decide +kernel, h31, growth, hgrowth, hle⟩

end

end LowLatency.RawHashSet
