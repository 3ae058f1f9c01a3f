import Mathlib.Logic.Function.Iterate
import LowLatency.Lib.Loops

/-!
# Loop fission

| here | there (`loop_unrolling.cc`) |
| --- | --- |
| `Fixture`    | the arrays of `LoopFissionFixture`, of `n` elements each since `SetUp` (lines 76-115) |
| `DoubleOps`  | what the loops do with a `double` |
| `fused`, `fission` | the two shapes of a round, for two statements |
| `mathOperationsFused`, …  | the loops of the benchmark of that name (lines 118-237), one round |

In the first three pairs the fused body is two statements, and the split loops have one each. In
`ConditionCheck` the first of the split loops writes to a vector of its own, which the second reads.
Every statement reads and writes its arrays at its own index only. This is all that the split needs,
also where the second statement reads what the first has written (`MemoryAccess`).
-/

namespace LowLatency.LoopUnrolling

open Loops

structure DoubleOps (α : Type*) where
  add : α → α → α
  mul : α → α → α
  greater : α → α → Bool
  sin : α → α
  cos : α → α
  log : α → α
  sqrt : α → α
  exp : α → α
  zero : α
  half : α
  one : α
  two : α
  fifty : α

structure Fixture (α : Type*) (n : Nat) where
  a : Vector α n
  b : Vector α n
  c : Vector α n
  d : Vector α n
  result1 : Vector α n
  result2 : Vector α n

variable {α : Type*} {n : Nat}

section
variable (first second : Fin n → Fixture α n → Fixture α n)

def fused (s : Fixture α n) : Fixture α n := forEach n (fun i s => second i (first i s)) s

def fission (s : Fixture α n) : Fixture α n := forEach n second (forEach n first s)

end

section
variable (F : DoubleOps α)

/-! ## Math computation intensive -/

/-- `result1[i] = std::sin(a[i]) + std::cos(b[i])`. -/
def trigonometric (i : Fin n) (s : Fixture α n) : Fixture α n :=
  { s with result1 := s.result1.set i (F.add (F.sin s.a[i]) (F.cos s.b[i])) }

/-- `result2[i] = std::log(c[i] + 1.0) * std::sqrt(d[i])`. -/
def logarithmic (i : Fin n) (s : Fixture α n) : Fixture α n :=
  { s with result2 := s.result2.set i (F.mul (F.log (F.add s.c[i] F.one)) (F.sqrt s.d[i])) }

def mathOperationsFused : Fixture α n → Fixture α n := fused (trigonometric F) (logarithmic F)

def mathOperationsFission : Fixture α n → Fixture α n := fission (trigonometric F) (logarithmic F)

/-! ## Memory access pattern -/

/-- `a[i] = b[i] * 2.0 + c[i]`. -/
def writeA (i : Fin n) (s : Fixture α n) : Fixture α n :=
  { s with a := s.a.set i (F.add (F.mul s.b[i] F.two) s.c[i]) }

/-- `d[i] = a[i] + b[i] * 0.5`. -/
def writeD (i : Fin n) (s : Fixture α n) : Fixture α n :=
  { s with d := s.d.set i (F.add s.a[i] (F.mul s.b[i] F.half)) }

def memoryAccessFused : Fixture α n → Fixture α n := fused (writeA F) (writeD F)

def memoryAccessFission : Fixture α n → Fixture α n := fission (writeA F) (writeD F)

/-! ## Simple and complex operations -/

/-- `result1[i] = a[i] + b[i]`. -/
def simple (i : Fin n) (s : Fixture α n) : Fixture α n :=
  { s with result1 := s.result1.set i (F.add s.a[i] s.b[i]) }

/-- `result2[i] = std::exp(std::sin(c[i]))`. -/
def complex (i : Fin n) (s : Fixture α n) : Fixture α n :=
  { s with result2 := s.result2.set i (F.exp (F.sin s.c[i])) }

def mixedComplexityFused : Fixture α n → Fixture α n := fused (simple F) (complex F)

def mixedComplexityFission : Fixture α n → Fixture α n := fission (simple F) (complex F)

/-! ## Conditional checks -/

/-- Lines 209-213, and 228-232 for the condition found in `should_compute`. -/
def computeIf (condition : Bool) (i : Fin n) (s : Fixture α n) : Fixture α n :=
  { s with result1 := s.result1.set i (if condition then F.mul (F.sqrt s.a[i]) (F.log s.b[i]) else F.zero) }

def conditionCheckFused (s : Fixture α n) : Fixture α n :=
  forEach n (fun i s => computeIf F (F.greater s.a[i] F.fifty) i s) s

/-- The arrays of a round with its local `std::vector<bool> should_compute(n)`. -/
structure Masked (α : Type*) (n : Nat) where
  arrays : Fixture α n
  shouldCompute : Vector Bool n

/-- `should_compute[i] = (a[i] > 50.0)`. -/
def check (i : Fin n) (s : Masked α n) : Masked α n :=
  { s with shouldCompute := s.shouldCompute.set i (F.greater s.arrays.a[i] F.fifty) }

def compute (i : Fin n) (s : Masked α n) : Masked α n :=
  { s with arrays := computeIf F s.shouldCompute[i] i s.arrays }

def conditionCheckFission (s : Fixture α n) : Fixture α n :=
  (forEach n (compute F) (forEach n (check F) ⟨s, Vector.replicate n false⟩)).arrays

end

/-! ## Equality of the rounds -/

section
variable {F : DoubleOps α}

theorem fused_eq_fission {first second : Fin n → Fixture α n → Fixture α n}
    (hcomm : ∀ i j, i < j → ∀ s, first j (second i s) = second i (first j s)) :
    fused first second = fission first second := by
  funext s
  exact forEach_fission hcomm s

theorem mathOperations_eq (F : DoubleOps α) :
    (mathOperationsFused F : Fixture α n → Fixture α n) = mathOperationsFission F :=
  fused_eq_fission fun _ _ _ _ => rfl

/-- What `writeD` reads at its index is not what `writeA` writes at another. -/
theorem writeA_writeD {i j : Fin n} (hij : i < j) (s : Fixture α n) :
    writeA F j (writeD F i s) = writeD F i (writeA F j s) := by
  have hne : (j : Nat) ≠ i := Nat.ne_of_gt hij
  simp only [writeA, writeD, Fin.getElem_fin, Vector.getElem_set_ne _ _ hne]

theorem memoryAccess_eq (F : DoubleOps α) :
    (memoryAccessFused F : Fixture α n → Fixture α n) = memoryAccessFission F :=
  fused_eq_fission fun _ _ hij s => writeA_writeD hij s

theorem mixedComplexity_eq (F : DoubleOps α) :
    (mixedComplexityFused F : Fixture α n → Fixture α n) = mixedComplexityFission F :=
  fused_eq_fission fun _ _ _ _ => rfl

theorem check_compute {i j : Fin n} (hij : i < j) (s : Masked α n) :
    check F j (compute F i s) = compute F i (check F j s) := by
  have hne : (j : Nat) ≠ i := Nat.ne_of_gt hij
  simp only [check, compute, computeIf, Fin.getElem_fin, Vector.getElem_set_ne _ _ hne]

/-- One index after the other, the condition found is the one just stored. -/
theorem compute_check (i : Fin n) (s : Masked α n) :
    (compute F i (check F i s)).arrays = computeIf F (F.greater s.arrays.a[i] F.fifty) i s.arrays := by
  simp only [check, compute, Fin.getElem_fin, Vector.getElem_set_self]

theorem conditionCheck_eq (F : DoubleOps α) :
    (conditionCheckFused F : Fixture α n → Fixture α n) = conditionCheckFission F := by
  funext s
  rw [conditionCheckFission, ← forEach_fission fun _ _ hij s => check_compute hij s]
  symm
  exact forEach_map Masked.arrays (fun i s => compute_check i s) _

end

/-- **Loop fission preserves the results**: for each of the four pairs, whatever the operations on a
`double` are, any number of rounds of the fused loop and of the split loops leave the same six arrays. -/
theorem fission_preserves (F : DoubleOps α) (rounds : Nat) (s : Fixture α n) :
    (mathOperationsFused F)^[rounds] s = (mathOperationsFission F)^[rounds] s ∧
      (memoryAccessFused F)^[rounds] s = (memoryAccessFission F)^[rounds] s ∧
      (mixedComplexityFused F)^[rounds] s = (mixedComplexityFission F)^[rounds] s ∧
      (conditionCheckFused F)^[rounds] s = (conditionCheckFission F)^[rounds] s := by
  rw [mathOperations_eq, memoryAccess_eq, mixedComplexity_eq, conditionCheck_eq]
  exact ⟨rfl, rfl, rfl, rfl⟩

end LowLatency.LoopUnrolling
