import LowLatency.Basic

/-!
# Vector addition of two arrays

| here | there |
| --- | --- |
| `FloatArray`            | a `float*` and the elements it points to; `α` stands for `float` and `add` for `+` on it |
| `load`, `store`         | `_mm_loadu_ps`, `_mm256_loadu_ps`, `_mm256_load_ps` and the stores, by alignment and number of lanes |
| `addArrays`             | `AddArrays` (`simd.cc:17-24`) |
| `vectorLoop`, `block`   | `for (size_t i = 0; i < size; i += lanes)` and its body |
| `addArraysSSE`, `addArraysAVX2`, `addArraysAVX2Aligned` | lines 51-64, 91-104, 131-144 |

An access outside an array is undefined, an aligned access to an address that is not aligned faults:
both are `none`, as is a loop that does not end.

The loops test `i < size` for the first of the elements that an iteration accesses, and nothing
handles the elements after the last full block. The unrolled loop in `test.cc:476-530` does both.
-/

namespace LowLatency.Simd

variable {α : Type*}

structure FloatArray (α : Type*) where
  address : Nat
  elements : List α
deriving DecidableEq

/-- `lanes` floats from index `i` on, at an address that is a multiple of `alignment`. -/
def FloatArray.load (alignment lanes : Nat) (a : FloatArray α) (i : Nat) : Option (List α) :=
  if (a.address + 4 * i) % alignment = 0 ∧ i + lanes ≤ a.elements.length then some ((a.elements.drop i).take lanes)
  else none

def FloatArray.store (alignment : Nat) (c : FloatArray α) (i : Nat) (chunk : List α) : Option (FloatArray α) :=
  if (c.address + 4 * i) % alignment = 0 ∧ i + chunk.length ≤ c.elements.length then
    some { c with elements := c.elements.take i ++ chunk ++ c.elements.drop (i + chunk.length) }
  else none

section
variable (add : α → α → α) (a b : FloatArray α) (size : Nat)

def addLoop : Nat → Nat → FloatArray α → Option (FloatArray α)
  | 0, _, _ => none
  | fuel + 1, i, c =>
    if i < size then
      a.elements[i]?.bind fun x =>
        b.elements[i]?.bind fun y =>
          if i < c.elements.length then
            addLoop fuel (sizeT (i + 1)) { c with elements := c.elements.set i (add x y) }
          else none
    else some c

def addArrays (c : FloatArray α) : Option (FloatArray α) := addLoop add a b size (size + 1) 0 c

/-- Load, load, add, store, at index `i`. -/
def block (alignment lanes i : Nat) (c : FloatArray α) : Option (FloatArray α) :=
  (a.load alignment lanes i).bind fun aChunk =>
    (b.load alignment lanes i).bind fun bChunk =>
      c.store alignment i (List.zipWith add aChunk bChunk)

def vectorLoop (alignment lanes : Nat) : Nat → Nat → FloatArray α → Option (FloatArray α)
  | 0, _, _ => none
  | fuel + 1, i, c =>
    if i < size then (block add a b alignment lanes i c).bind (vectorLoop alignment lanes fuel (sizeT (i + lanes)))
    else some c

def addArraysSSE (c : FloatArray α) : Option (FloatArray α) := vectorLoop add a b size 1 4 (size + 1) 0 c

def addArraysAVX2 (c : FloatArray α) : Option (FloatArray α) := vectorLoop add a b size 1 8 (size + 1) 0 c

def addArraysAVX2Aligned (c : FloatArray α) : Option (FloatArray α) := vectorLoop add a b size 32 8 (size + 1) 0 c

end

/-! ## Full blocks -/

/-- The contents of `c` when the elements before `i` are done. -/
def doneTo (add : α → α → α) (a b c : List α) (i : Nat) : List α := (List.zipWith add a b).take i ++ c.drop i

section
variable {add : α → α → α} {size lanes : Nat} {a b c : List α}

theorem length_doneTo (add : α → α → α) (ha : a.length = size) (hb : b.length = size) (hc : c.length = size)
    {i : Nat} (hi : i ≤ size) : (doneTo add a b c i).length = size := by
  rw [doneTo, List.length_append, List.length_take, List.length_zipWith, List.length_drop, ha, hb, hc]
  omega

/-- Everything done. -/
theorem doneTo_size (ha : a.length = size) (hb : b.length = size) (hc : c.length = size) :
    doneTo add a b c size = List.zipWith add a b := by
  rw [doneTo, List.drop_eq_nil_of_le (Nat.le_of_eq hc), List.append_nil, List.take_of_length_le]
  rw [List.length_zipWith, ha, hb, Nat.min_self]

/-- One more block. -/
theorem doneTo_block (ha : a.length = size) (hb : b.length = size) {i : Nat} (hi : i + lanes ≤ size) :
    (doneTo add a b c i).take i ++ List.zipWith add ((a.drop i).take lanes) ((b.drop i).take lanes) ++
      (doneTo add a b c i).drop (i + lanes) = doneTo add a b c (i + lanes) := by
  have hlen : ((List.zipWith add a b).take i).length = i := by
    rw [List.length_take, List.length_zipWith, ha, hb]
    omega
  have hchunk : List.zipWith add ((a.drop i).take lanes) ((b.drop i).take lanes) =
      ((List.zipWith add a b).drop i).take lanes := by
    rw [List.drop_zipWith, List.take_zipWith]
  have hrest : (doneTo add a b c i).drop (i + lanes) = c.drop (i + lanes) := by
    rw [doneTo, ← List.drop_drop, List.drop_left' hlen, List.drop_drop]
  rw [hrest, doneTo, List.take_left' hlen, hchunk, ← List.take_add, doneTo]

end

/-- Arrays of `size` elements, whose blocks start at multiples of the alignment. -/
structure Operands (a b c : FloatArray α) (size alignment lanes : Nat) : Prop where
  lengthA : a.elements.length = size
  lengthB : b.elements.length = size
  lengthC : c.elements.length = size
  alignedA : ∀ i, lanes ∣ i → (a.address + 4 * i) % alignment = 0
  alignedB : ∀ i, lanes ∣ i → (b.address + 4 * i) % alignment = 0
  alignedC : ∀ i, lanes ∣ i → (c.address + 4 * i) % alignment = 0

section
variable {add : α → α → α} {a b c : FloatArray α} {size alignment lanes : Nat}

/-- Unaligned accesses ask for nothing. -/
theorem operands_unaligned (lanes : Nat) (ha : a.elements.length = size) (hb : b.elements.length = size)
    (hc : c.elements.length = size) : Operands a b c size 1 lanes :=
  ⟨ha, hb, hc, fun _ _ => Nat.mod_one _, fun _ _ => Nat.mod_one _, fun _ _ => Nat.mod_one _⟩

/-- Eight floats are 32 bytes. -/
theorem operands_avx (ha : a.elements.length = size) (hb : b.elements.length = size) (hc : c.elements.length = size)
    (hala : 32 ∣ a.address) (halb : 32 ∣ b.address) (halc : 32 ∣ c.address) : Operands a b c size 32 8 := by
  refine ⟨ha, hb, hc, ?_, ?_, ?_⟩
  · intro i hi
    omega
  · intro i hi
    omega
  · intro i hi
    omega

theorem block_eq (h : Operands a b c size alignment lanes) {i : Nat} (hdvd : lanes ∣ i) (hi : i + lanes ≤ size) :
    block add a b alignment lanes i { c with elements := doneTo add a.elements b.elements c.elements i } =
      some { c with elements := doneTo add a.elements b.elements c.elements (i + lanes) } := by
  have hchunk : (List.zipWith add ((a.elements.drop i).take lanes) ((b.elements.drop i).take lanes)).length =
      lanes := by
    simp [h.lengthA, h.lengthB]
    omega
  have hlen := length_doneTo add h.lengthA h.lengthB h.lengthC (show i ≤ size by omega)
  rw [block, FloatArray.load, if_pos ⟨h.alignedA i hdvd, by rw [h.lengthA]; exact hi⟩, Option.bind_some,
    FloatArray.load, if_pos ⟨h.alignedB i hdvd, by rw [h.lengthB]; exact hi⟩, Option.bind_some, FloatArray.store,
    hchunk]
  rw [if_pos ⟨h.alignedC i hdvd, by rw [hlen]; exact hi⟩, doneTo_block h.lengthA h.lengthB hi]

/-- With full blocks only, the loop adds the arrays. -/
theorem vectorLoop_eq (h : Operands a b c size alignment lanes) (hlanes : 0 < lanes) (hsize : size < 2 ^ 64)
    (hdvd : lanes ∣ size) {fuel i : Nat} (hi : lanes ∣ i) (hle : i ≤ size) (hfuel : size - i < fuel) :
    vectorLoop add a b size alignment lanes fuel i
        { c with elements := doneTo add a.elements b.elements c.elements i } =
      some { c with elements := List.zipWith add a.elements b.elements } := by
  induction fuel generalizing i with
  | zero => exact absurd hfuel (Nat.not_lt_zero _)
  | succ fuel ih =>
    rw [vectorLoop]
    rcases Nat.lt_or_eq_of_le hle with hlt | rfl
    · have hblock : i + lanes ≤ size := by
        have := Nat.le_of_dvd (by omega) (Nat.dvd_sub hdvd hi)
        omega
      rw [if_pos hlt, block_eq h hi hblock, Option.bind_some, sizeT_of_lt (by omega)]
      exact ih (Nat.dvd_add hi (Nat.dvd_refl lanes)) hblock (by omega)
    · rw [if_neg (Nat.lt_irrefl i), doneTo_size h.lengthA h.lengthB h.lengthC]

/-- A loop that ends without an access outside `a` has found full blocks only. -/
theorem dvd_of_vectorLoop (ha : a.elements.length = size) (hsize : size < 2 ^ 64) {fuel i : Nat} (hle : i ≤ size)
    {c c' : FloatArray α} (h : vectorLoop add a b size alignment lanes fuel i c = some c') : lanes ∣ size - i := by
  induction fuel generalizing i c with
  | zero => cases h
  | succ fuel ih =>
    rw [vectorLoop] at h
    by_cases hlt : i < size
    · rw [if_pos hlt] at h
      obtain ⟨c₁, hblock, hrest⟩ := Option.bind_eq_some_iff.1 h
      obtain ⟨chunk, hload, -⟩ := Option.bind_eq_some_iff.1 hblock
      have hi : i + lanes ≤ size := by
        unfold FloatArray.load at hload
        split at hload
        · rename_i hin
          rw [← ha]
          exact hin.2
        · cases hload
      rw [sizeT_of_lt (by omega)] at hrest
      have hdvd := ih hi hrest
      rw [show size - i = size - (i + lanes) + lanes by omega]
      exact Nat.dvd_add hdvd (Nat.dvd_refl lanes)
    · rw [Nat.sub_eq_zero_of_le (by omega)]
      exact Nat.dvd_zero lanes

/-- The vector loop adds the arrays exactly when the size is a multiple of its lanes. -/
theorem vectorLoop_iff (h : Operands a b c size alignment lanes) (hlanes : 0 < lanes) (hsize : size < 2 ^ 64) :
    vectorLoop add a b size alignment lanes (size + 1) 0 c =
      some { c with elements := List.zipWith add a.elements b.elements } ↔ lanes ∣ size := by
  constructor
  · intro hloop
    exact dvd_of_vectorLoop h.lengthA hsize (Nat.zero_le size) hloop
  · intro hdvd
    exact vectorLoop_eq h hlanes hsize hdvd (Nat.dvd_zero lanes) (Nat.zero_le size) (by omega)

end

/-! ## One element at a time -/

section
variable {add : α → α → α} {a b c : FloatArray α} {size : Nat}

theorem load_one (a : FloatArray α) (i : Nat) : a.load 1 1 i = a.elements[i]?.map fun x => [x] := by
  unfold FloatArray.load
  by_cases hi : i < a.elements.length
  · rw [if_pos ⟨Nat.mod_one _, hi⟩, List.getElem?_eq_getElem hi, List.drop_eq_getElem_cons hi]
    rfl
  · rw [if_neg (fun h => hi h.2), List.getElem?_eq_none (by omega)]
    rfl

theorem store_one (c : FloatArray α) (i : Nat) (x : α) :
    c.store 1 i [x] = if i < c.elements.length then some { c with elements := c.elements.set i x } else none := by
  unfold FloatArray.store
  by_cases hi : i < c.elements.length
  · rw [if_pos ⟨Nat.mod_one _, hi⟩, if_pos hi, List.set_eq_take_append_cons_drop, if_pos hi]
    simp
  · rw [if_neg (fun h => hi h.2), if_neg hi]

/-- The scalar loop is the vector loop with one lane. -/
theorem addLoop_eq_vectorLoop (add : α → α → α) (a b : FloatArray α) (size fuel i : Nat) (c : FloatArray α) :
    addLoop add a b size fuel i c = vectorLoop add a b size 1 1 fuel i c := by
  induction fuel generalizing i c with
  | zero => rfl
  | succ fuel ih =>
    rw [addLoop, vectorLoop, block, load_one, load_one]
    by_cases hlt : i < size
    · rw [if_pos hlt, if_pos hlt]
      cases a.elements[i]? with
      | none => rfl
      | some x =>
        cases b.elements[i]? with
        | none => rfl
        | some y =>
          simp only [Option.bind_some, Option.map_some, List.zipWith_cons_cons, List.zipWith_nil_left, store_one]
          by_cases hc : i < c.elements.length
          · rw [if_pos hc, if_pos hc, Option.bind_some, ih]
          · rw [if_neg hc, if_neg hc]
            rfl
    · rw [if_neg hlt, if_neg hlt]

/-- The scalar loop adds arrays of every size. -/
theorem addArrays_eq (ha : a.elements.length = size) (hb : b.elements.length = size) (hc : c.elements.length = size)
    (hsize : size < 2 ^ 64) :
    addArrays add a b size c = some { c with elements := List.zipWith add a.elements b.elements } := by
  rw [addArrays, addLoop_eq_vectorLoop]
  exact (vectorLoop_iff (operands_unaligned 1 ha hb hc) Nat.one_pos hsize).2 (Nat.one_dvd size)

end

/-- **The vector versions agree with the scalar one exactly on full blocks**: for arrays of `size`
elements, 32-byte aligned for the aligned version, `AddArraysSSE` leaves `c` as `AddArrays` does, without
an access outside the arrays, if and only if `size` is a multiple of 4, and the two AVX2 versions if and
only if it is a multiple of 8. -/
theorem vector_eq_scalar_iff (add : α → α → α) (a b c : FloatArray α) (size : Nat) (hsize : size < 2 ^ 64)
    (ha : a.elements.length = size) (hb : b.elements.length = size) (hc : c.elements.length = size) :
    ∃ sum, addArrays add a b size c = some sum ∧
      (addArraysSSE add a b size c = some sum ↔ 4 ∣ size) ∧
      (addArraysAVX2 add a b size c = some sum ↔ 8 ∣ size) ∧
      (32 ∣ a.address → 32 ∣ b.address → 32 ∣ c.address →
        (addArraysAVX2Aligned add a b size c = some sum ↔ 8 ∣ size)) := by
  refine ⟨_, addArrays_eq ha hb hc hsize, ?_, ?_, ?_⟩
  · exact vectorLoop_iff (operands_unaligned 4 ha hb hc) (by decide) hsize
  · exact vectorLoop_iff (operands_unaligned 8 ha hb hc) (by decide) hsize
  · intro hala halb halc
    exact vectorLoop_iff (operands_avx ha hb hc hala halb halc) (by decide) hsize

/-- Eight elements are two blocks for SSE, and one for AVX2. -/
theorem vector_eq_scalar_eight :
    ∃ sum, addArrays (· + ·) ⟨0, List.range 8⟩ ⟨32, List.replicate 8 5⟩ 8 ⟨64, List.replicate 8 0⟩ = some sum ∧
      addArraysSSE (· + ·) ⟨0, List.range 8⟩ ⟨32, List.replicate 8 5⟩ 8 ⟨64, List.replicate 8 0⟩ = some sum ∧
      addArraysAVX2 (· + ·) ⟨0, List.range 8⟩ ⟨32, List.replicate 8 5⟩ 8 ⟨64, List.replicate 8 0⟩ = some sum ∧
      addArraysAVX2Aligned (· + ·) ⟨0, List.range 8⟩ ⟨32, List.replicate 8 5⟩ 8 ⟨64, List.replicate 8 0⟩ = some sum := by
  obtain ⟨sum, hsum, hsse, havx, haligned⟩ := vector_eq_scalar_iff (· + ·) (⟨0, List.range 8⟩ : FloatArray Nat)
    ⟨32, List.replicate 8 5⟩ ⟨64, List.replicate 8 0⟩ 8 (by decide) rfl rfl rfl
  exact ⟨sum, hsum, hsse.2 (by decide), havx.2 (by decide), (haligned (by decide) (by decide) (by decide)).2 (by decide)⟩

/-- One element: the first block of every vector version goes past the end. -/
theorem vector_ne_scalar :
    addArrays (· + ·) ⟨0, [1]⟩ ⟨32, [2]⟩ 1 (⟨64, [0]⟩ : FloatArray Nat) = some ⟨64, [3]⟩ ∧
      addArraysSSE (· + ·) ⟨0, [1]⟩ ⟨32, [2]⟩ 1 (⟨64, [0]⟩ : FloatArray Nat) = none ∧
      addArraysAVX2 (· + ·) ⟨0, [1]⟩ ⟨32, [2]⟩ 1 (⟨64, [0]⟩ : FloatArray Nat) = none ∧
      addArraysAVX2Aligned (· + ·) ⟨0, [1]⟩ ⟨32, [2]⟩ 1 (⟨64, [0]⟩ : FloatArray Nat) = none := by
  decide

end LowLatency.Simd
