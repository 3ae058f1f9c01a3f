import LowLatency.RawHashSet.Capacity
import LowLatency.Lib.QuadraticProbing

/-!
# The table of `absl::raw_hash_set`

| here | there (`raw_hash_set.h`, `raw_hash_set.cc`) |
| --- | --- |
| `Table`                 | `CommonFields` (lines 895-960) and the two arrays it points to |
| `ProbeSeq`, `probe`     | `probe_seq`, `probe` (lines 286-314, 1214-1217) |
| `findFirstNonFull`      | `find_first_non_full` (lines 1230-1255), `ShouldInsertBackwards` (`.cc`) |
| `resetCtrl`, `setCtrl`  | `ResetCtrl`, `SetCtrl` (lines 1262-1297) |
| `initializeSlots`       | `InitializeSlots` (lines 1331-1356) |
| `find`                  | `find`, `has_element` (lines 2251-2272, 2531-2547) |
| `resize`, `rehashAndGrowIfNecessary` | lines 2431-2528 |
| `convertDeletedToEmptyAndFullToDeleted`, `dropDeletesWithoutResize` | the functions of these names (`.cc`) |
| `findOrPrepareInsert`, `prepareInsert`, `emplaceAt`, `emplace` | lines 2564-2632, 2358-2369 |
| `eraseMetaOnly`, `eraseAt`, `erase` | `EraseMetaOnly` (`.cc`), lines 2091-2119 |
| `clearBackingArray`, `clear`, `rehash`, `reserve` | `ClearBackingArray` (`.cc`), lines 1856-1885, 2179-2210 |
| `new`, `ofRange`        | the constructors (lines 1650-1680) |

`none` is an `assert` that fails (the build does not define `NDEBUG`), an access outside an array, or a
slot read that holds no element. Loops have the fuel that the assertions in them allow; no result below
depends on running out of it. Allocation succeeds. The generation checks and the sampling of the
sanitizer builds are not compiled in.

What the program does not determine is in `Env`: the hash function, the addresses that the allocator
returns, which are mixed into the hashes, and the numbers from `RandomSeed`.
-/

namespace LowLatency.RawHashSet

structure Env (K : Type) where
  group : Group
  hasher : K → UInt64
  /-- The address of `kEmptyGroup`. -/
  emptyGroup : UInt64
  /-- The address of the `i`-th backing array allocated. -/
  allocate : Nat → UInt64
  /-- The `i`-th result of `RandomSeed()`. -/
  randomSeed : Nat → UInt64

/-- The fields of the table, the contents of its control bytes and slots, and how many arrays were
allocated and seeds drawn. A slot without an element is raw memory. -/
structure Table (K : Type) where
  control : List Ctrl
  slots : List (Option K)
  size : Nat
  capacity : Nat
  growthLeft : Nat
  address : UInt64
  allocations : Nat
  draws : Nat

variable {K : Type}

def Env.width (E : Env K) : Nat := E.group.kWidth

def Env.numClonedBytes (E : Env K) : Nat := E.width - 1

/-- `a - b` on `size_t`. -/
def sizeTSub (a b : Nat) : Nat := sizeT (a + 2 ^ 64 - b)

def kEmptyGroup : List Ctrl := .sentinel :: List.replicate 15 .empty

/-- `CommonFields{}`. -/
def Table.empty (E : Env K) (allocations draws : Nat) : Table K where
  control := kEmptyGroup
  slots := []
  size := 0
  capacity := 0
  growthLeft := 0
  address := E.emptyGroup
  allocations := allocations
  draws := draws

/-- The control byte at `i`. -/
def Table.ctrlAt (t : Table K) (i : Nat) : Ctrl := t.control.getD i .sentinel

/-- The element in slot `i`. -/
def Table.slotAt (t : Table K) (i : Nat) : Option K := t.slots.getD i none

/-! ## Hashes and probing -/

def perTableSalt (address : UInt64) : UInt64 := address >>> 12

def H1 (hash address : UInt64) : UInt64 := (hash >>> 7) ^^^ perTableSalt address

theorem H2_lt (hash : UInt64) : (hash &&& 0x7F).toNat < 128 := by
  rw [UInt64.toNat_and]
  exact Nat.lt_of_le_of_lt Nat.and_le_right (by decide)

def H2 (hash : UInt64) : Fin 128 := ⟨(hash &&& 0x7F).toNat, H2_lt hash⟩

structure ProbeSeq where
  mask : Nat
  offset : Nat
  index : Nat

def ProbeSeq.new (hash : UInt64) (mask : Nat) : Option ProbeSeq :=
  if sizeT (mask + 1) &&& mask = 0 then some ⟨mask, hash.toNat &&& mask, 0⟩ else none

/-- `offset(i)`. -/
def ProbeSeq.slot (seq : ProbeSeq) (i : Nat) : Nat := (seq.offset + i) &&& seq.mask

def ProbeSeq.next (width : Nat) (seq : ProbeSeq) : ProbeSeq :=
  ⟨seq.mask, (seq.offset + (seq.index + width)) &&& seq.mask, seq.index + width⟩

def probe (t : Table K) (hash : UInt64) : Option ProbeSeq := ProbeSeq.new (H1 hash t.address) t.capacity

def loadGroup (G : Group) (control : List Ctrl) (pos : Nat) : Option (List Ctrl) :=
  if pos + G.kWidth ≤ control.length then some ((control.drop pos).take G.kWidth) else none

/-- The `for` over the lanes that match: the first whose slot holds the key. -/
def matchLoop [DecidableEq K] (t : Table K) (key : K) (seq : ProbeSeq) : List Nat → Option (Option Nat)
  | [] => some none
  | l :: ls =>
    match t.slotAt (seq.slot l) with
    | none => none
    | some elem => if elem = key then some (some (seq.slot l)) else matchLoop t key seq ls

def findLoop [DecidableEq K] (G : Group) (t : Table K) (key : K) (h2 : Fin 128) : Nat → ProbeSeq → Option (Option Nat)
  | 0, _ => none
  | fuel + 1, seq => do
    let g ← loadGroup G t.control seq.offset
    match ← matchLoop t key seq (lanes G.bits G.shift (G.matchH2 g h2)) with
    | some i => some (some i)
    | none =>
      if G.maskEmpty g ≠ 0 then some none
      else if (seq.next G.kWidth).index ≤ t.capacity then findLoop G t key h2 fuel (seq.next G.kWidth)
      else none

/-- The index of the slot found, or `none` inside for `end()`. -/
def find [DecidableEq K] (E : Env K) (t : Table K) (key : K) : Option (Option Nat) := do
  let seq ← probe t (E.hasher key)
  findLoop E.group t key (H2 (E.hasher key)) (t.capacity + 1) seq

def contains [DecidableEq K] (E : Env K) (t : Table K) (key : K) : Option Bool := (find E t key).map Option.isSome

structure FindInfo where
  offset : Nat
  probeLength : Nat

/-- Whether to insert backwards, with the seed drawn. -/
def shouldInsertBackwards (E : Env K) (t : Table K) (hash : UInt64) : Bool × Table K :=
  (decide (6 < (H1 hash t.address ^^^ E.randomSeed t.draws) % 13), { t with draws := t.draws + 1 })

/-- Which of the lanes that are empty or deleted. -/
def pickLane (E : Env K) (t : Table K) (hash : UInt64) (mask : Nat) : Nat × Table K :=
  let lowest := lowestBitSet E.group.bits E.group.shift mask
  if isSmall E.group t.capacity then (lowest, t)
  else
    let (backwards, t) := shouldInsertBackwards E t hash
    (if backwards then highestBitSet E.group.shift mask else lowest, t)

def findFirstNonFullLoop (E : Env K) (t : Table K) (hash : UInt64) : Nat → ProbeSeq → Option (FindInfo × Table K)
  | 0, _ => none
  | fuel + 1, seq => do
    let g ← loadGroup E.group t.control seq.offset
    let mask := E.group.maskEmptyOrDeleted g
    if mask ≠ 0 then
      let (lane, t) := pickLane E t hash mask
      some (⟨seq.slot lane, seq.index⟩, t)
    else if (seq.next E.width).index ≤ t.capacity then findFirstNonFullLoop E t hash fuel (seq.next E.width)
    else none

def findFirstNonFull (E : Env K) (t : Table K) (hash : UInt64) : Option (FindInfo × Table K) := do
  let seq ← probe t hash
  findFirstNonFullLoop E t hash (t.capacity + 1) seq

/-! ## Control bytes -/

def storeCtrl (control : List Ctrl) (i : Nat) (c : Ctrl) : Option (List Ctrl) :=
  if i < control.length then some (control.set i c) else none

/-- The second position that `SetCtrl` writes: the clone of byte `i`, or byte `i` itself. -/
def cloneIndex (E : Env K) (capacity i : Nat) : Nat :=
  (sizeTSub i E.numClonedBytes &&& capacity) + (E.numClonedBytes &&& capacity)

def setCtrl (E : Env K) (t : Table K) (i : Nat) (h : Ctrl) : Option (Table K) :=
  if i < t.capacity then do
    let control ← storeCtrl t.control i h
    let control ← storeCtrl control (cloneIndex E t.capacity i) h
    some { t with control := control }
  else none

def resetGrowthLeft (E : Env K) (t : Table K) : Option (Table K) := do
  let growth ← capacityToGrowth E.group t.capacity
  some { t with growthLeft := sizeTSub growth t.size }

def resetCtrl (E : Env K) (t : Table K) : Option (Table K) :=
  resetGrowthLeft E
    { t with control := (List.replicate (t.capacity + 1 + E.numClonedBytes) .empty).set t.capacity .sentinel }

/-- A new backing array for `t.capacity` slots. -/
def initializeSlots (E : Env K) (t : Table K) : Option (Table K) :=
  if t.capacity ≠ 0 then
    resetCtrl E { t with
      slots := List.replicate t.capacity none
      address := E.allocate t.allocations
      allocations := t.allocations + 1 }
  else none

/-- `construct`, `transfer` and `destroy` on a slot. -/
def Table.setSlot (t : Table K) (i : Nat) (k : Option K) : Table K := { t with slots := t.slots.set i k }

/-! ## Rehashing -/

/-- The loop of `resize` over the old slots, which are not in the table any more. -/
def transferLoop (E : Env K) (old : Table K) : List Nat → Table K → Option (Table K)
  | [], t => some t
  | i :: is, t =>
    if (old.ctrlAt i).isFull then do
      let k ← old.slotAt i
      let (target, t) ← findFirstNonFull E t (E.hasher k)
      let t ← setCtrl E t target.offset (.full (H2 (E.hasher k)))
      transferLoop E old is (t.setSlot target.offset (some k))
    else transferLoop E old is t

def resize (E : Env K) (t : Table K) (newCapacity : Nat) : Option (Table K) :=
  if isValidCapacity newCapacity then do
    let new ← initializeSlots E { t with capacity := newCapacity }
    transferLoop E t (List.range t.capacity) new
  else none

/-- The loop over the groups that start below `capacity`. -/
def convertLoop (G : Group) (capacity : Nat) : Nat → Nat → List Ctrl → Option (List Ctrl)
  | 0, _, _ => none
  | fuel + 1, pos, control =>
    if pos < capacity then do
      let g ← loadGroup G control pos
      convertLoop G capacity fuel (pos + G.kWidth)
        (control.take pos ++ G.convertSpecialToEmptyAndFullToDeleted g ++ control.drop (pos + G.kWidth))
    else some control

def convertDeletedToEmptyAndFullToDeleted (E : Env K) (t : Table K) : Option (Table K) :=
  if t.ctrlAt t.capacity = .sentinel ∧ isValidCapacity t.capacity = true then do
    let control ← convertLoop E.group t.capacity (t.capacity + 1) 0 t.control
    some { t with control := (control.take (t.capacity + 1) ++ control.take E.numClonedBytes).set t.capacity .sentinel }
  else none

def probeIndex (E : Env K) (seq : ProbeSeq) (pos : Nat) : Nat := (sizeTSub pos seq.offset &&& seq.mask) / E.width

/-- Where the element of a slot marked as deleted goes, and whether the slot is to be done again. -/
def dropPlace (E : Env K) (t : Table K) (i : Nat) (k : K) (target : FindInfo) (seq : ProbeSeq) : Option (Table K × Bool) :=
  if probeIndex E seq target.offset = probeIndex E seq i then
    (setCtrl E t i (.full (H2 (E.hasher k)))).map fun t => (t, false)
  else if (t.ctrlAt target.offset).isEmpty then do
    let t ← setCtrl E t target.offset (.full (H2 (E.hasher k)))
    let t ← setCtrl E ((t.setSlot target.offset (some k)).setSlot i none) i .empty
    some (t, false)
  else if (t.ctrlAt target.offset).isDeleted then do
    let tmp ← t.slotAt target.offset
    let t ← setCtrl E t target.offset (.full (H2 (E.hasher k)))
    some ((t.setSlot target.offset (some k)).setSlot i (some tmp), true)
  else none

/-- The body of the loop for such a slot. -/
def dropStep (E : Env K) (t : Table K) (i : Nat) : Option (Table K × Bool) := do
  let k ← t.slotAt i
  let (target, t) ← findFirstNonFull E t (E.hasher k)
  let seq ← probe t (E.hasher k)
  dropPlace E t i k target seq

def dropLoop (E : Env K) : Nat → Nat → Table K → Option (Table K)
  | 0, _, _ => none
  | fuel + 1, i, t =>
    if i ≠ t.capacity then
      if (t.ctrlAt i).isDeleted then do
        let (t, again) ← dropStep E t i
        dropLoop E fuel (if again then i else i + 1) t
      else dropLoop E fuel (i + 1) t
    else some t

/-- A round either moves on to the next slot or leaves one slot less to place. -/
def dropDeletesWithoutResize (E : Env K) (t : Table K) : Option (Table K) :=
  if isValidCapacity t.capacity = true ∧ isSmall E.group t.capacity = false then do
    let t ← convertDeletedToEmptyAndFullToDeleted E t
    let t ← dropLoop E (2 * t.capacity + 1) 0 t
    resetGrowthLeft E t
  else none

def rehashAndGrowIfNecessary (E : Env K) (t : Table K) : Option (Table K) :=
  if E.width < t.capacity ∧ sizeT (t.size * 32) ≤ sizeT (t.capacity * 25) then dropDeletesWithoutResize E t
  else do
    let capacity ← nextCapacity t.capacity
    resize E t capacity

/-! ## Insertion -/

/-- The slot to insert at, in the table that has room for it. -/
def prepareTarget (E : Env K) (t : Table K) (hash : UInt64) : Option (FindInfo × Table K) := do
  let (target, t) ← findFirstNonFull E t hash
  if t.growthLeft = 0 ∧ (t.ctrlAt target.offset).isDeleted = false then do
    let t ← rehashAndGrowIfNecessary E t
    findFirstNonFull E t hash
  else some (target, t)

def prepareInsert (E : Env K) (t : Table K) (hash : UInt64) : Option (Nat × Table K) := do
  let (target, t) ← prepareTarget E t hash
  let t ← setCtrl E { t with
    size := sizeT (t.size + 1)
    growthLeft := sizeTSub t.growthLeft (if (t.ctrlAt target.offset).isEmpty then 1 else 0) }
    target.offset (.full (H2 hash))
  some (target.offset, t)

/-- The index of the slot, and whether it is to be filled. -/
def findOrPrepareInsert [DecidableEq K] (E : Env K) (t : Table K) (key : K) : Option ((Nat × Bool) × Table K) := do
  match ← find E t key with
  | some i => some ((i, false), t)
  | none =>
    let (i, t) ← prepareInsert E t (E.hasher key)
    some ((i, true), t)

/-- The element is constructed, and must then be found where it is. -/
def emplaceAt [DecidableEq K] (E : Env K) (t : Table K) (i : Nat) (key : K) : Option (Table K) :=
  let t := t.setSlot i (some key)
  if find E t key = some (some i) then some t else none

def emplace [DecidableEq K] (E : Env K) (t : Table K) (key : K) : Option ((Nat × Bool) × Table K) := do
  let ((i, inserted), t) ← findOrPrepareInsert E t key
  if inserted then
    let t ← emplaceAt E t i key
    some ((i, true), t)
  else some ((i, false), t)

/-- `insert(first, last)`. -/
def insertRange [DecidableEq K] (E : Env K) : Table K → List K → Option (Table K)
  | t, [] => some t
  | t, k :: ks => do
    let (_, t) ← emplace E t k
    insertRange E t ks

/-! ## Erasing -/

/-- Whether no group that has the slot was ever full: there are fewer than a width of slots between the
empty ones before and after it. -/
def wasNeverFull (E : Env K) (emptyBefore emptyAfter : Nat) : Bool :=
  emptyBefore != 0 && emptyAfter != 0 &&
    decide (lowestBitSet E.group.bits E.group.shift emptyAfter +
      leadingZeros E.group.bits E.width E.group.shift emptyBefore < E.width)

def eraseMetaOnly (E : Env K) (t : Table K) (index : Nat) : Option (Table K) :=
  if (t.ctrlAt index).isFull then do
    let after ← loadGroup E.group t.control index
    let before ← loadGroup E.group t.control (sizeTSub index E.width &&& t.capacity)
    let never := wasNeverFull E (E.group.maskEmpty before) (E.group.maskEmpty after)
    let t ← setCtrl E { t with size := sizeTSub t.size 1 } index (if never then .empty else .deleted)
    some { t with growthLeft := sizeT (t.growthLeft + if never then 1 else 0) }
  else none

/-- `erase(iterator)`: `AssertIsFull`, `destroy`, `erase_meta_only`. -/
def eraseAt (E : Env K) (t : Table K) (i : Nat) : Option (Table K) :=
  if (t.ctrlAt i).isFull then do
    let _ ← t.slotAt i
    eraseMetaOnly E (t.setSlot i none) i
  else none

/-- `erase(key)`, with the number of elements erased. -/
def erase [DecidableEq K] (E : Env K) (t : Table K) (key : K) : Option (Nat × Table K) := do
  match ← find E t key with
  | none => some (0, t)
  | some i =>
    let t ← eraseAt E t i
    some (1, t)

/-! ## Clearing and reserving -/

def destroyLoop : List Nat → Table K → Option (Table K)
  | [], t => some t
  | i :: is, t =>
    if (t.ctrlAt i).isFull then
      match t.slotAt i with
      | none => none
      | some _ => destroyLoop is (t.setSlot i none)
    else destroyLoop is t

def destroySlots (t : Table K) : Option (Table K) := destroyLoop (List.range t.capacity) t

def clearBackingArray (E : Env K) (t : Table K) (reuse : Bool) : Option (Table K) :=
  if reuse then resetCtrl E { t with size := 0 } else some (Table.empty E t.allocations t.draws)

def clear (E : Env K) (t : Table K) : Option (Table K) :=
  if t.capacity = 0 then some t
  else do
    let t' ← destroySlots t
    clearBackingArray E t' (decide (t.capacity < 128))

def rehash (E : Env K) (t : Table K) (n : Nat) : Option (Table K) :=
  if n = 0 ∧ t.capacity = 0 then some t
  else if n = 0 ∧ t.size = 0 then clearBackingArray E t false
  else
    let m := normalizeCapacity (n ||| growthToLowerboundCapacity E.group t.size)
    if n = 0 ∨ t.capacity < m then resize E t m else some t

def reserve (E : Env K) (t : Table K) (n : Nat) : Option (Table K) :=
  if sizeT (t.size + t.growthLeft) < n then resize E t (normalizeCapacity (growthToLowerboundCapacity E.group n))
  else some t

/-! ## Construction -/

def Table.new (E : Env K) (allocations draws bucketCount : Nat) : Option (Table K) :=
  let t := Table.empty E allocations draws
  if bucketCount ≠ 0 then initializeSlots E { t with capacity := normalizeCapacity bucketCount } else some t

/-- `raw_hash_set(first, last)`. -/
def Table.ofRange [DecidableEq K] (E : Env K) (allocations draws : Nat) (randomAccess : Bool) (ks : List K) :
    Option (Table K) := do
  let t ← Table.new E allocations draws (selectBucketCountForIterRange E.group randomAccess ks.length 0)
  insertRange E t ks

end LowLatency.RawHashSet
