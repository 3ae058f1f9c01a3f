import Mathlib.Data.Nat.Choose.Basic
import Mathlib.Tactic.IntervalCases
import Mathlib.Tactic.Ring
import LowLatency.Basic
import LowLatency.Lib.Loops

/-!
# Summation with and without unrolling

| here | there (`loop_unrolling.cc`) |
| --- | --- |
| `loopWithoutUnrolling` | one round of `BM_LoopWithoutUnrolling` (lines 36-40): `result` at its end |
| `loopWithUnrolling`    | one round of `BM_LoopWithUnrolling` (lines 50-67) |
| `eightTerms`           | the right-hand side of its `+=` (lines 65-66) |

`n` is `state.range(0)`. The sum wraps around; the index does not, its overflow is `none`.

The unrolled loop adds eight numbers whenever the first of them is below `n`, so it sums up to the next
multiple of eight. The sum of what is too much is never a multiple of `2^32`: the wrap does not hide it.
-/

namespace LowLatency.LoopUnrolling

open Loops

/-- `result += i` (line 39). -/
def addIndex (i result : Int) : Option Int := some (intWrap (result + i))

def loopWithoutUnrolling (n : Int) : Option Int :=
  (forLoop (· < n) intIncrement addIndex (n.toNat + 1) 0 0).map (·.2)

/-- `i + (i + 1) + (i + 2) + … + (i + 7)`, from left to right. -/
def eightTerms (i : Int) : Int := [1, 2, 3, 4, 5, 6, 7].foldl (fun sum k => intWrap (sum + intWrap (i + k))) i

def addEight (i result : Int) : Option Int := some (intWrap (result + eightTerms i))

def loopWithUnrolling (n : Int) : Option Int :=
  (forLoop (· < n) (intAdd · 8) addEight (n.toNat + 1) 0 0).map (·.2)

/-- `k * (k-1) / 2`, as an `int`. -/
def closedForm (k : Nat) : Int := intWrap (k * (k - 1) / 2 : Nat)

theorem addIndex_closedForm (k : Nat) : addIndex k (closedForm k) = some (closedForm (k + 1)) := by
  rw [addIndex, closedForm, intWrap_add_left, closedForm, Nat.triangle_succ, Int.natCast_add]

theorem eightTerms_eq (i : Int) : eightTerms i = intWrap (8 * i + 28) := by
  simp only [eightTerms, List.foldl_cons, List.foldl_nil, intWrap_add_left, intWrap_add_right]
  congr 1
  ring

/-- The sum of `r` more numbers. -/
theorem triangle_add (k r : Nat) : (k + r) * (k + r - 1) / 2 = k * (k - 1) / 2 + (r * k + r * (r - 1) / 2) := by
  induction r with
  | zero => simp
  | succ r ih =>
    rw [← Nat.add_assoc, Nat.triangle_succ, ih, Nat.triangle_succ, Nat.succ_mul]
    omega

theorem addEight_closedForm (k : Nat) : addEight k (closedForm k) = some (closedForm (k + 8)) := by
  rw [addEight, closedForm, eightTerms_eq, intWrap_add_left, intWrap_add_right, closedForm, triangle_add,
    Int.natCast_add]
  rfl

theorem closedForm_zero : closedForm 0 = 0 := by decide

section
variable {n : Nat}

theorem loopWithoutUnrolling_eq (hn : n < 2 ^ 31) : loopWithoutUnrolling n = some (closedForm n) := by
  have hindices : Indices (· < (n : Int)) intIncrement (fun j => (j : Int)) n := by
    refine ⟨?_, ?_, ?_⟩
    · intro j hj
      exact Int.ofNat_lt.2 hj
    · exact Int.lt_irrefl _
    · intro j hj
      exact if_pos (by omega)
  have hloop := forLoop_track hindices closedForm
    (fun j _ => addIndex_closedForm j) (Nat.lt_succ_self n)
  rw [closedForm_zero, Int.natCast_zero] at hloop
  rw [loopWithoutUnrolling, Int.toNat_natCast, hloop, Option.map_some]

/-- The unrolled loop sums up to the next multiple of eight. -/
theorem loopWithUnrolling_eq (hn : n ≤ 2 ^ 31 - 8) :
    loopWithUnrolling n = some (closedForm (8 * ((n + 7) / 8))) := by
  have hindices : Indices (· < (n : Int)) (intAdd · 8) (fun j => ((8 * j : Nat) : Int))
      ((n + 7) / 8) := by
    refine ⟨?_, ?_, ?_⟩
    · intro j hj
      exact Int.ofNat_lt.2 (by omega)
    · omega
    · intro j hj
      exact if_pos (by omega)
  have hloop := forLoop_track hindices (fun j => closedForm (8 * j))
    (fun j _ => addEight_closedForm (8 * j)) (show (n + 7) / 8 < n + 1 by omega)
  rw [Nat.mul_zero, closedForm_zero, Int.natCast_zero] at hloop
  rw [loopWithUnrolling, Int.toNat_natCast, hloop, Option.map_some]

/-- The one to seven numbers from `n` to a multiple of eight do not add up to a multiple of `2^32`: their
sum is odd, or twice an odd number, or an odd multiple of their mean, which is no multiple of eight. -/
theorem closedForm_roundUp_iff (n : Nat) : closedForm (8 * ((n + 7) / 8)) = closedForm n ↔ 8 ∣ n := by
  obtain ⟨r, hr⟩ : ∃ r, 8 * ((n + 7) / 8) = n + r := ⟨8 * ((n + 7) / 8) - n, by omega⟩
  have hlt : r < 8 := by omega
  rw [hr, closedForm, closedForm, triangle_add, intWrap_eq_iff, Int.natCast_add, add_sub_cancel_left]
  interval_cases r <;> omega

end

/-- **The unrolled sum is the plain one exactly for multiples of eight**: up to `2^31 - 8`, the loop
without unrolling ends with `n * (n-1) / 2` modulo `2^32`, and the unrolled loop with the same result if
and only if `n` is a multiple of 8. -/
theorem unrolled_sum_iff (n : Int) (h0 : 0 ≤ n) (hn : n ≤ 2 ^ 31 - 8) :
    loopWithoutUnrolling n = some (intWrap (n * (n - 1) / 2)) ∧
      (loopWithUnrolling n = loopWithoutUnrolling n ∧
        loopWithUnrolling n = some (intWrap (n * (n - 1) / 2)) ↔ 8 ∣ n) := by
  obtain ⟨k, rfl⟩ := Int.eq_ofNat_of_zero_le h0
  have hform : closedForm k = intWrap (k * (k - 1) / 2) := by
    cases k with
    | zero => rfl
    | succ k =>
      rw [closedForm]
      congr 1
      push_cast
      simp
  have hplain := loopWithoutUnrolling_eq (show k < 2 ^ 31 by omega)
  have hunrolled := loopWithUnrolling_eq (show k ≤ 2 ^ 31 - 8 by omega)
  rw [← hform, hplain, hunrolled, and_self, Option.some_inj, Option.some_inj, closedForm_roundUp_iff]
  exact ⟨rfl, by omega⟩

/-- Sixteen is a multiple of eight. -/
theorem unrolled_sum_sixteen : loopWithUnrolling 16 = loopWithoutUnrolling 16 ∧ loopWithUnrolling 16 = some 120 :=
  (unrolled_sum_iff 16 (by decide) (by decide)).2.2 (by decide)

/-- With one number to sum, the unrolled loop sums 0 to 7. -/
theorem unrolled_sum_one : loopWithoutUnrolling 1 = some 0 ∧ loopWithUnrolling 1 = some 28 := by decide

end LowLatency.LoopUnrolling
