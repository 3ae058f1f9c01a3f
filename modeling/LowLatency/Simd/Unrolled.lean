import Mathlib.Data.List.Nodup
import LowLatency.Lib.Loops
import LowLatency.Simd.AddArrays

/-!
# The unrolled vector loop and its tail

| here | there (`test.cc`) |
| --- | --- |
| `assign`        | `p_dest[i] = p_src1[i] * 2.0f + p_src2[i];` (lines 460, 521) |
| `group`         | one of the four groups: two loads, `_mm256_fmadd_ps`, a store (lines 494-516) |
| `simdLoop`      | one round of `BM_SimdLoop` (lines 459-461) |
| `simdLoopIntrinsicUnrolled` | one round of `BM_SimdLoop_Intrinsic_Unrolled` (lines 489-522) |

`op x y` is `x * 2.0f + y`, fused or not. A `Round` has the array `dest` and, as history variables,
the indices of the elements that were read from `src1` and `src2` and written to `dest`, in order. An
access outside an array is `none`, as in `AddArrays`, where the loops have no tail.
-/

namespace LowLatency.Simd

open Loops

variable {α : Type*}

structure Round (α : Type*) where
  dest : FloatArray α
  read1 : List Nat
  read2 : List Nat
  written : List Nat
deriving DecidableEq

/-- The round after `lanes` elements from `i` on were read from both sources and written. -/
def Round.access (r : Round α) (lanes i : Nat) (dest : FloatArray α) : Round α :=
  ⟨dest, r.read1 ++ List.range' i lanes, r.read2 ++ List.range' i lanes, r.written ++ List.range' i lanes⟩

section
variable (op : α → α → α) (src1 src2 : FloatArray α) (N : Nat)

def assign (i : Nat) (r : Round α) : Option (Round α) :=
  src1.elements[i]?.bind fun x =>
    src2.elements[i]?.bind fun y =>
      if i < r.dest.elements.length then
        some (r.access 1 i { r.dest with elements := r.dest.elements.set i (op x y) })
      else none

def group (i : Nat) (r : Round α) : Option (Round α) :=
  (block op src1 src2 1 8 i r.dest).map (r.access 8 i)

/-- The body of the unrolled loop. -/
def fourGroups (i : Nat) (r : Round α) : Option (Round α) :=
  (group op src1 src2 i r).bind fun r =>
    (group op src1 src2 (i + 8) r).bind fun r =>
      (group op src1 src2 (i + 16) r).bind (group op src1 src2 (i + 24))

/-- `for (; i < N; ++i)` with the scalar body, from `i` on. -/
def scalarLoop (i : Nat) (r : Round α) : Option (Round α) :=
  (forLoop (· < N) (fun i => some (sizeT (i + 1))) (assign op src1 src2) (N + 1) i r).map (·.2)

def simdLoop (dest : FloatArray α) : Option (Round α) := scalarLoop op src1 src2 N 0 ⟨dest, [], [], []⟩

def simdLoopIntrinsicUnrolled (dest : FloatArray α) : Option (Round α) :=
  (forLoop (fun i => sizeT (i + 31) < N) (fun i => some (sizeT (i + 32))) (fourGroups op src1 src2) (N + 1) 0
    ⟨dest, [], [], []⟩).bind fun (i, r) => scalarLoop op src1 src2 N i r

end

/-! ## Progress -/

/-- The round when the elements before `i` are done, each read and written once. -/
def Round.upTo (op : α → α → α) (src1 src2 dest : FloatArray α) (i : Nat) : Round α :=
  ⟨{ dest with elements := doneTo op src1.elements src2.elements dest.elements i },
    List.range i, List.range i, List.range i⟩

theorem upTo_zero (op : α → α → α) (src1 src2 dest : FloatArray α) :
    Round.upTo op src1 src2 dest 0 = ⟨dest, [], [], []⟩ := rfl

theorem range_append_range' (i k : Nat) : List.range i ++ List.range' i k = List.range (i + k) := by
  rw [List.range_eq_range', List.range_eq_range', ← List.range'_append_1, Nat.zero_add]

section
variable {op : α → α → α} {src1 src2 dest : FloatArray α} {N : Nat}

/-- A block of any number of lanes takes the round on by as many elements. -/
theorem block_upTo {lanes : Nat} (h : Operands src1 src2 dest N 1 lanes) {i : Nat} (hdvd : lanes ∣ i)
    (hi : i + lanes ≤ N) :
    (block op src1 src2 1 lanes i (Round.upTo op src1 src2 dest i).dest).map
      ((Round.upTo op src1 src2 dest i).access lanes i) = some (Round.upTo op src1 src2 dest (i + lanes)) := by
  rw [Round.upTo, block_eq h hdvd hi, Option.map_some, Round.access, range_append_range', Round.upTo]

/-- The scalar body is a block of one lane. -/
theorem assign_eq_block (i : Nat) (r : Round α) :
    assign op src1 src2 i r = (block op src1 src2 1 1 i r.dest).map (r.access 1 i) := by
  rw [assign, block, load_one, load_one]
  cases src1.elements[i]? with
  | none => rfl
  | some x =>
    cases src2.elements[i]? with
    | none => rfl
    | some y =>
      simp only [Option.bind_some, Option.map_some, List.zipWith_cons_cons, List.zipWith_nil_left, store_one]
      split
      · rfl
      · rfl

theorem fourGroups_upTo (h : Operands src1 src2 dest N 1 8) {i : Nat} (hdvd : 8 ∣ i) (hi : i + 32 ≤ N) :
    fourGroups op src1 src2 i (Round.upTo op src1 src2 dest i) = some (Round.upTo op src1 src2 dest (i + 32)) := by
  have hgroup : ∀ k, 8 ∣ k → k + 8 ≤ N →
      group op src1 src2 k (Round.upTo op src1 src2 dest k) = some (Round.upTo op src1 src2 dest (k + 8)) :=
    fun k hk hle => block_upTo h hk hle
  rw [fourGroups, hgroup i hdvd (by omega), Option.bind_some, hgroup (i + 8) (by omega) (by omega), Option.bind_some,
    hgroup (i + 8 + 8) (by omega) (by omega), Option.bind_some, hgroup (i + 8 + 8 + 8) (by omega) (by omega)]

/-- From any index on, the scalar loop does the rest. -/
theorem scalarLoop_upTo (h : Operands src1 src2 dest N 1 1) (hN : N < 2 ^ 63) {lo : Nat} (hlo : lo ≤ N) :
    scalarLoop op src1 src2 N lo (Round.upTo op src1 src2 dest lo) = some (Round.upTo op src1 src2 dest N) := by
  have hindices : Indices (· < N) (fun i => some (sizeT (i + 1))) (fun j => lo + j) (N - lo) := by
    refine ⟨?_, ?_, ?_⟩
    · intro j hj
      omega
    · omega
    · intro j hj
      rw [sizeT_of_lt (by omega), Nat.add_assoc]
  have hbody : ∀ j < N - lo, assign op src1 src2 (lo + j) (Round.upTo op src1 src2 dest (lo + j)) =
      some (Round.upTo op src1 src2 dest (lo + (j + 1))) := by
    intro j hj
    rw [assign_eq_block]
    exact block_upTo h (Nat.one_dvd _) (by omega)
  have hloop : forLoop (· < N) (fun i => some (sizeT (i + 1))) (assign op src1 src2) (N + 1) lo
      (Round.upTo op src1 src2 dest lo) = some (lo + (N - lo), Round.upTo op src1 src2 dest (lo + (N - lo))) :=
    forLoop_track hindices (fun j => Round.upTo op src1 src2 dest (lo + j)) hbody (by omega)
  rw [scalarLoop, hloop, Option.map_some, Nat.add_sub_cancel' hlo]

/-- The unrolled loop stops at the last multiple of 32, from which the tail goes on. -/
theorem unrolledLoop_upTo (h : Operands src1 src2 dest N 1 8) (hN : N < 2 ^ 63) :
    forLoop (fun i => sizeT (i + 31) < N) (fun i => some (sizeT (i + 32))) (fourGroups op src1 src2) (N + 1) 0
      (Round.upTo op src1 src2 dest 0) = some (32 * (N / 32), Round.upTo op src1 src2 dest (32 * (N / 32))) := by
  have hindices : Indices (fun i => sizeT (i + 31) < N) (fun i => some (sizeT (i + 32))) (fun j => 32 * j)
      (N / 32) := by
    refine ⟨?_, ?_, ?_⟩
    · intro j hj
      rw [sizeT_of_lt (by omega)]
      omega
    · rw [sizeT_of_lt (by omega)]
      omega
    · intro j hj
      rw [sizeT_of_lt (by omega), Nat.mul_succ]
  have hbody : ∀ j < N / 32, fourGroups op src1 src2 (32 * j) (Round.upTo op src1 src2 dest (32 * j)) =
      some (Round.upTo op src1 src2 dest (32 * (j + 1))) := by
    intro j hj
    exact fourGroups_upTo h (by omega) (by omega)
  exact forLoop_track hindices (fun j => Round.upTo op src1 src2 dest (32 * j)) hbody (by omega)

end

/-- **The unrolled vector loop agrees with the plain loop** for every size below `2^63`: both leave the results of `op` in
`dest`, having written each index below `N` exactly once and accessed no other. -/
theorem unrolled_eq_plain (op : α → α → α) (src1 src2 dest : FloatArray α) (N : Nat) (hN : N < 2 ^ 63)
    (h1 : src1.elements.length = N) (h2 : src2.elements.length = N) (hd : dest.elements.length = N) :
    ∃ plain unrolled, simdLoop op src1 src2 N dest = some plain ∧
      simdLoopIntrinsicUnrolled op src1 src2 N dest = some unrolled ∧ unrolled.dest = plain.dest ∧
      plain.dest = { dest with elements := List.zipWith op src1.elements src2.elements } ∧
      (∀ i < N, unrolled.written.count i = 1) ∧
      ∀ i, i ∈ unrolled.read1 ∨ i ∈ unrolled.read2 ∨ i ∈ unrolled.written → i < N := by
  have hscalar := operands_unaligned 1 h1 h2 hd
  refine ⟨Round.upTo op src1 src2 dest N, Round.upTo op src1 src2 dest N, ?_, ?_, rfl, ?_, ?_, ?_⟩
  · rw [simdLoop, ← upTo_zero op src1 src2]
    exact scalarLoop_upTo hscalar hN (Nat.zero_le N)
  · rw [simdLoopIntrinsicUnrolled, ← upTo_zero op src1 src2, unrolledLoop_upTo (operands_unaligned 8 h1 h2 hd) hN,
      Option.bind_some]
    exact scalarLoop_upTo hscalar hN (Nat.mul_div_le N 32)
  · rw [Round.upTo, doneTo_size h1 h2 hd]
  · intro i hi
    exact List.count_eq_one_of_mem List.nodup_range (List.mem_range.2 hi)
  · intro i hi
    simpa [Round.upTo] using hi

/-- One block of four groups, and two elements for the tail. -/
theorem unrolled_eq_plain_tail :
    ∃ plain unrolled,
      simdLoop (fun x y => x * 2 + y) ⟨0, List.range 34⟩ ⟨136, List.replicate 34 1⟩ 34 ⟨272, List.replicate 34 0⟩ =
        some plain ∧
      simdLoopIntrinsicUnrolled (fun x y => x * 2 + y) ⟨0, List.range 34⟩ ⟨136, List.replicate 34 1⟩ 34
        ⟨272, List.replicate 34 0⟩ = some unrolled ∧
      unrolled.dest = plain.dest ∧ plain.dest.elements[31]? = some 63 ∧ plain.dest.elements[33]? = some 67 := by
  obtain ⟨plain, unrolled, hplain, hunrolled, hdest, helements, -⟩ := unrolled_eq_plain (fun x y => x * 2 + y)
    (⟨0, List.range 34⟩ : FloatArray Nat) ⟨136, List.replicate 34 1⟩ ⟨272, List.replicate 34 0⟩ 34 (by decide) rfl rfl rfl
  refine ⟨plain, unrolled, hplain, hunrolled, hdest, ?_, ?_⟩
  · rw [helements]
    rfl
  · rw [helements]
    rfl

end LowLatency.Simd
