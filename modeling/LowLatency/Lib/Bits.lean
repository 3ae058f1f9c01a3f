import Mathlib.Data.Nat.Digits.Defs
import Mathlib.Data.Nat.Size

/-!
# Bits of a word, and the bytes it is made of

* The lowest and the highest set bit (`lowest`, `Nat.size`), and `x & (x - 1)`, which clears the
  lowest one (`testBit_and_pred`).
* A word is the number whose digits to base 256 are its bytes, the first one the lowest. A bit of the
  word is a bit of one of its bytes (`testBit_ofDigits`). Where one is subtracted from every byte at
  once, a byte that is too small borrows from the next one (`subOnes`, `ofDigits_subOnes`): a byte
  receives a borrow only above a zero byte (`exists_zero_of_borrow`).
-/

namespace Bits

/-! ## Set bits -/

/-- The lowest set bit of a word of `bits` bits, or `bits` if there is none. -/
def lowest (bits x : Nat) : Nat := ((List.range bits).find? x.testBit).getD bits

section
variable {bits x : Nat}

theorem lowest_spec {b : Nat} (hb : b < bits) (h : x.testBit b = true) :
    x.testBit (lowest bits x) = true ∧ lowest bits x ≤ b ∧ ∀ i < lowest bits x, x.testBit i = false := by
  have hsome : ((List.range bits).find? x.testBit).isSome = true :=
    List.find?_isSome.2 ⟨b, List.mem_range.2 hb, h⟩
  obtain ⟨k, hk⟩ := Option.isSome_iff_exists.1 hsome
  have hlow : lowest bits x = k := by rw [lowest, hk, Option.getD_some]
  obtain ⟨hbit, -, hmin⟩ := List.find?_range_eq_some.1 hk
  rw [hlow]
  refine ⟨hbit, ?_, fun i hi => by simpa using hmin i hi⟩
  by_contra hlt
  have := hmin b (by omega)
  simp [h] at this

theorem exists_testBit (hx : x ≠ 0) (hlt : x < 2 ^ bits) : ∃ b < bits, x.testBit b = true := by
  obtain ⟨b, hb⟩ := Nat.exists_testBit_of_ne_zero hx
  refine ⟨b, ?_, hb⟩
  by_contra hge
  have := Nat.testBit_lt_two_pow (Nat.lt_of_lt_of_le hlt (Nat.pow_le_pow_right (by decide) (Nat.le_of_not_lt hge)))
  simp [hb] at this

/-- The highest set bit is below the width of the number, and all set bits are. -/
theorem testBit_size_pred (hx : x ≠ 0) : x.testBit (x.size - 1) = true := by
  have hpos : 0 < x.size := Nat.size_pos.2 (Nat.pos_of_ne_zero hx)
  have hle : 2 ^ (x.size - 1) ≤ x := Nat.lt_size.1 (by omega)
  have hlt : x < 2 ^ (x.size - 1 + 1) := by
    rw [Nat.sub_add_cancel hpos]
    exact Nat.lt_size_self x
  exact Nat.testBit_of_two_pow_le_and_two_pow_add_one_gt hle hlt

theorem le_size_pred {b : Nat} (h : x.testBit b = true) : b ≤ x.size - 1 := by
  have := Nat.lt_size.2 (Nat.ge_two_pow_of_testBit h)
  omega

/-- Below and at the lowest set bit, `x - 1` has the opposite bits; above it, the same. -/
theorem testBit_pred {k : Nat} (hk : x.testBit k = true) (hmin : ∀ i < k, x.testBit i = false) (b : Nat) :
    (x - 1).testBit b = if b ≤ k then decide (b < k) else x.testBit b := by
  -- with `k` the lowest bit, `x` is `2^k` above a multiple of `2^(k+1)`
  have hlow : x % 2 ^ (k + 1) = 2 ^ k := by
    refine Nat.eq_of_testBit_eq fun i => ?_
    rw [Nat.testBit_mod_two_pow, Nat.testBit_two_pow]
    rcases Nat.lt_trichotomy i k with hlt | rfl | hgt
    · simp [hmin i hlt, Nat.ne_of_gt hlt]
    · simp [hk]
    · simp [Nat.not_lt.2 hgt, Nat.ne_of_lt hgt]
  have hdiv := Nat.div_add_mod x (2 ^ (k + 1))
  rw [hlow] at hdiv
  have hpos := Nat.two_pow_pos k
  have hpred : x - 1 = 2 ^ (k + 1) * (x / 2 ^ (k + 1)) + (2 ^ k - 1) := by omega
  have hlt : 2 ^ k - 1 < 2 ^ (k + 1) := by
    have := Nat.pow_lt_pow_right (a := 2) (by decide) (Nat.lt_succ_self k)
    omega
  rw [hpred, Nat.testBit_two_pow_mul_add _ hlt]
  by_cases hb : b ≤ k
  · rw [if_pos (Nat.lt_succ_of_le hb), if_pos hb, Nat.testBit_two_pow_sub_one]
  · rw [if_neg (by omega), if_neg hb, Nat.testBit_div_two_pow, Nat.sub_add_cancel (by omega)]

/-- `x & (x - 1)` clears the lowest set bit. -/
theorem testBit_and_pred {k : Nat} (hk : x.testBit k = true) (hmin : ∀ i < k, x.testBit i = false) (b : Nat) :
    (x &&& (x - 1)).testBit b = (x.testBit b && decide (b ≠ k)) := by
  rw [Nat.testBit_and, testBit_pred hk hmin]
  rcases Nat.lt_trichotomy b k with hb | rfl | hb
  · simp [hmin b hb]
  · simp
  · rw [if_neg (Nat.not_le.2 hb), Bool.and_self]
    simp [Nat.ne_of_gt hb]

/-- The number of ones at the low end, counted as the zeros of `x + 1`. -/
theorem lowest_succ {n : Nat} (hx : x < 2 ^ n) (hn : n < bits) :
    lowest bits (x + 1) ≤ n ∧ (∀ i < lowest bits (x + 1), x.testBit i = true) ∧
      x.testBit (lowest bits (x + 1)) = false := by
  have hlt : x + 1 < 2 ^ (n + 1) := by
    have := Nat.two_pow_pos n
    rw [Nat.pow_succ]
    omega
  obtain ⟨b, hb, hbit⟩ := exists_testBit (x := x + 1) (Nat.succ_ne_zero x) hlt
  obtain ⟨hk, hle, hmin⟩ := lowest_spec (show b < bits by omega) hbit
  have hpred := testBit_pred hk hmin
  rw [Nat.add_sub_cancel] at hpred
  refine ⟨by omega, fun i hi => ?_, ?_⟩
  · simp [hpred, hi, Nat.le_of_lt hi]
  · simp [hpred]

end

/-! ## Bytes -/

/-- Bit `j` of byte `l`. -/
theorem testBit_ofDigits {bs : List Nat} (hbs : ∀ b ∈ bs, b < 256) {l j : Nat} (hj : j < 8) :
    (Nat.ofDigits 256 bs).testBit (8 * l + j) = (bs.getD l 0).testBit j := by
  induction bs generalizing l with
  | nil => simp
  | cons b bs ih =>
    have hb : b < 2 ^ 8 := hbs b List.mem_cons_self
    rw [Nat.ofDigits_cons, Nat.add_comm, Nat.testBit_two_pow_mul_add _ hb]
    cases l with
    | zero => simp [hj]
    | succ l =>
      rw [if_neg (by omega), show 8 * (l + 1) + j - 8 = 8 * l + j by omega,
        ih fun c hc => hbs c (List.mem_cons_of_mem b hc)]
      rfl

/-- One and the borrow `c` from every byte, with the borrows that follow. -/
def subOnes : List Nat → Nat → List Nat
  | [], _ => []
  | b :: bs, c => (b + 255 - c) % 256 :: subOnes bs (if b ≤ c then 1 else 0)

/-- The borrow that reaches byte `l`. -/
def borrow : List Nat → Nat → Nat → Nat
  | _, c, 0 => c
  | [], _, _ + 1 => 0
  | b :: bs, c, l + 1 => borrow bs (if b ≤ c then 1 else 0) l

theorem subOnes_lt (bs : List Nat) (c : Nat) : ∀ b ∈ subOnes bs c, b < 256 := by
  induction bs generalizing c with
  | nil => simp [subOnes]
  | cons b bs ih =>
    intro x hx
    rcases List.mem_cons.1 hx with rfl | hx
    · exact Nat.mod_lt _ (by decide)
    · exact ih _ x hx

theorem length_subOnes (bs : List Nat) (c : Nat) : (subOnes bs c).length = bs.length := by
  induction bs generalizing c with
  | nil => rfl
  | cons b bs ih => simp [subOnes, ih]

theorem borrow_le_one (bs : List Nat) {c : Nat} (hc : c ≤ 1) (l : Nat) : borrow bs c l ≤ 1 := by
  induction l generalizing bs c with
  | zero => cases bs <;> exact hc
  | succ l ih =>
    cases bs with
    | nil => exact Nat.zero_le 1
    | cons b bs => exact ih bs (by split <;> omega)

theorem getD_subOnes {bs : List Nat} {l : Nat} (hl : l < bs.length) (c : Nat) :
    (subOnes bs c).getD l 0 = (bs.getD l 0 + 255 - borrow bs c l) % 256 := by
  induction l generalizing bs c with
  | zero =>
    cases bs with
    | nil => simp at hl
    | cons b bs => rfl
  | succ l ih =>
    cases bs with
    | nil => simp at hl
    | cons b bs => exact ih (by simpa using hl) _

/-- The bytes of the difference. -/
theorem ofDigits_subOnes {bs : List Nat} (hbs : ∀ b ∈ bs, b < 256) {c : Nat} (hc : c ≤ 1) :
    ∃ top, Nat.ofDigits 256 bs + top * 256 ^ bs.length =
      Nat.ofDigits 256 (List.replicate bs.length 1) + c + Nat.ofDigits 256 (subOnes bs c) := by
  induction bs generalizing c with
  | nil => exact ⟨c, by simp [subOnes]⟩
  | cons b bs ih =>
    have hb := hbs b List.mem_cons_self
    obtain ⟨top, htop⟩ := ih (fun x hx => hbs x (List.mem_cons_of_mem b hx)) (c := if b ≤ c then 1 else 0)
      (by split <;> omega)
    refine ⟨top, ?_⟩
    rw [List.length_cons, List.replicate_succ, subOnes, Nat.ofDigits_cons, Nat.ofDigits_cons, Nat.ofDigits_cons,
      Nat.pow_succ, ← Nat.mul_assoc]
    have hbyte : b + 256 * (if b ≤ c then 1 else 0) = 1 + c + (b + 255 - c) % 256 := by split <;> omega
    omega

/-- A byte is borrowed from only if a lower one is zero. -/
theorem exists_zero_of_borrow {bs : List Nat} {l : Nat} (h : borrow bs 0 l = 1) :
    ∃ k < l, bs[k]? = some 0 := by
  -- the borrow starts at a zero byte and goes on through bytes that are at most one
  have hgen : ∀ (bs : List Nat) (c l : Nat), c ≤ 1 → borrow bs c l = 1 → c = 1 ∨ ∃ k < l, bs[k]? = some 0 := by
    intro bs c l hc
    induction l generalizing bs c with
    | zero => cases bs <;> exact fun h => Or.inl h
    | succ l ih =>
      intro h
      cases bs with
      | nil => simp [borrow] at h
      | cons b bs =>
        rcases ih bs _ (by split <;> omega) h with hone | ⟨k, hk, hzero⟩
        · by_cases hbc : b ≤ c
          · rcases Nat.eq_zero_or_pos b with rfl | hb
            · exact Or.inr ⟨0, Nat.succ_pos l, rfl⟩
            · exact Or.inl (by omega)
          · simp [hbc] at hone
        · exact Or.inr ⟨k + 1, Nat.succ_lt_succ hk, hzero⟩
  rcases hgen bs 0 l (Nat.zero_le 1) h with hzero | hex
  · cases hzero
  · exact hex

end Bits
