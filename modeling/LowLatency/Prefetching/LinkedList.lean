import Mathlib.Data.List.Nodup
import Mathlib.Data.List.Range
import Mathlib.Data.Nat.Choose.Basic
import LowLatency.Basic
import LowLatency.Lib.Loops

/-!
# The scrambled linked list

| here | there (`prefetching.cc`) |
| --- | --- |
| `Node`, `Globals` | `struct Node` (lines 145-150), `g_pool` and `g_list_head` (154-155); a `Node*` is a slot of the pool or null |
| `linkNode`        | the body of the loop of `SetupScrambledList` (lines 171-178) |
| `setupScrambledList` | `SetupScrambledList` (lines 158-180) |
| `sumLoop`         | the `while` loop of `BM_LinkedList_No_Prefetch` (lines 192-195) |
| `sumLoopPrefetch` | the `while` loop of `BM_LinkedList_With_Prefetch` (lines 211-222) |
| `traverse`        | the same walk, with the slots and the data it meets |

`NODE_COUNT` is the number of slots of the pool. `shuffle` stands for `std::shuffle` with its generator.
A null pointer that is dereferenced, an index outside a vector and the overflow of a sum are undefined:
`none`. So is a walk that does not end; the pool does not change under it, and a walk through more nodes
than there are slots goes on forever. A prefetch changes nothing.
-/

namespace LowLatency.Prefetching

open Loops

structure Node where
  data : Int
  next : Option Nat
deriving DecidableEq

structure Globals where
  pool : List Node
  listHead : Option Nat
deriving DecidableEq

/-- `*p`. -/
def deref (pool : List Node) (p : Option Nat) : Option Node := p.bind fun slot => pool[slot]?

/-- `&g_pool[idx]`. -/
def address (pool : List Node) (idx : Nat) : Option Nat := if idx < pool.length then some idx else none

/-! ## Building the list -/

structure Setup where
  pool : List Node
  current : Nat

def linkNode (randomIndices : List Nat) (nodeCount i : Nat) (s : Setup) : Option Setup :=
  s.pool[s.current]?.bind fun _ =>
    if i + 1 < nodeCount then
      randomIndices[i + 1]?.bind fun nextIdx =>
        (address s.pool nextIdx).map fun next => ⟨s.pool.set s.current ⟨sizeTToLong i, some next⟩, next⟩
    else some { s with pool := s.pool.set s.current ⟨sizeTToLong i, none⟩ }

def setupScrambledList (shuffle : List Nat → List Nat) (g : Globals) : Option Globals :=
  if g.listHead ≠ none then some g
  else
    let nodeCount := g.pool.length
    let randomIndices := shuffle (List.range nodeCount)
    randomIndices[0]?.bind fun idx =>
      (address g.pool idx).bind fun head =>
        (forLoop (· < nodeCount) (fun i => some (sizeT (i + 1))) (linkNode randomIndices nodeCount)
          (nodeCount + 1) 0 ⟨g.pool, head⟩).map fun (_, s) => ⟨s.pool, some head⟩

/-! ## Walking along it -/

/-- `while (current != nullptr) { body; current = current->next; }`: `current` and the state at the end. -/
def walk {σ : Type} (body : Option Nat → Node → σ → Option σ) (g : Globals) (s : σ) : Option (Option Nat × σ) :=
  forLoop (· ≠ none) (fun current => (deref g.pool current).map (·.next))
    (fun current s => (deref g.pool current).bind fun node => body current node s) (g.pool.length + 1) g.listHead s

/-- The pointers and the data met on the way. -/
def traverse (g : Globals) : Option (Option Nat × List (Option Nat × Int)) :=
  walk (fun current node visited => some (visited ++ [(current, node.data)])) g []

/-- `sum += current->data`. -/
def addData (_ : Option Nat) (node : Node) (sum : Int) : Option Int := longAdd sum node.data

def sumLoop (g : Globals) : Option Int := (walk addData g 0).map (·.2)

/-- `current->next != nullptr && current->next->next != nullptr`. -/
def prefetches (pool : List Node) (node : Node) : Option Bool :=
  if node.next ≠ none then (deref pool node.next).map fun next => next.next.isSome else some false

/-- The test and the prefetch, then `sum += current->data`. -/
def prefetchAddData (pool : List Node) (current : Option Nat) (node : Node) (sum : Int) : Option Int :=
  (prefetches pool node).bind fun _ => addData current node sum

def sumLoopPrefetch (g : Globals) : Option Int := (walk (prefetchAddData g.pool) g 0).map (·.2)

/-- A benchmark: the setup, then the sums of its rounds. -/
def benchmark (sum : Globals → Option Int) (shuffle : List Nat → List Nat) (rounds : Nat) (g : Globals) :
    Option (Globals × List Int) :=
  (setupScrambledList shuffle g).bind fun g => ((List.range rounds).mapM fun _ => sum g).map (g, ·)

def linkedListNoPrefetch := benchmark sumLoop

def linkedListWithPrefetch := benchmark sumLoopPrefetch

/-! ## The list that is built -/

/-- The first `i` slots of `p` are linked in order. -/
def LinkedTo (p : List Nat) (pool : List Node) (i : Nat) : Prop :=
  ∀ j < i, deref pool p[j]? = some ⟨j, p[j + 1]?⟩

/-- The whole of `p`, from the head of the list to null. -/
structure Scrambled (p : List Nat) (g : Globals) : Prop where
  length : g.pool.length = p.length
  head : g.listHead = p[0]?
  linked : LinkedTo p g.pool p.length

section
variable {p : List Nat} {pool : List Node}

/-- Writing the node of the next slot leaves the nodes before it alone: no slot comes twice. -/
theorem LinkedTo.set {i : Nat} (h : LinkedTo p pool i) (hnodup : p.Nodup) (hi : i < p.length)
    (hslot : p[i] < pool.length) :
    LinkedTo p (pool.set p[i] ⟨i, p[i + 1]?⟩) (i + 1) := by
  intro j hj
  rcases Nat.lt_succ_iff_lt_or_eq.1 hj with hlt | rfl
  · have hne : p[i] ≠ p[j] := fun heq => Nat.ne_of_gt hlt ((hnodup.getElem_inj_iff).1 heq)
    rw [← h j hlt, List.getElem?_eq_getElem (Nat.lt_trans hlt hi)]
    exact List.getElem?_set_ne hne
  · rw [List.getElem?_eq_getElem hi]
    exact List.getElem?_set_self hslot

/-- Before iteration `i`, `current` points to slot `i` of the permutation. -/
structure SetupInv (p : List Nat) (i : Nat) (s : Setup) : Prop where
  length : s.pool.length = p.length
  current : i < p.length → p[i]? = some s.current
  linked : LinkedTo p s.pool i

theorem linkNode_inv {i : Nat} {s : Setup} (h : SetupInv p i s) (hnodup : p.Nodup)
    (hslots : ∀ slot ∈ p, slot < p.length) (hi : i < p.length) (hlong : i < 2 ^ 63) :
    ∃ s', linkNode p p.length i s = some s' ∧ SetupInv p (i + 1) s' := by
  have hcur : p[i] = s.current := by
    have := h.current hi
    rwa [List.getElem?_eq_getElem hi, Option.some_inj] at this
  have hslot : p[i] < s.pool.length := by
    rw [h.length]
    exact hslots _ (List.getElem_mem hi)
  have hlinked := h.linked.set hnodup hi hslot
  unfold linkNode
  rw [← hcur, List.getElem?_eq_getElem hslot, Option.bind_some, sizeTToLong_of_lt hlong]
  by_cases hnext : i + 1 < p.length
  · have haddr : address s.pool p[i + 1] = some p[i + 1] := if_pos (by
      rw [h.length]
      exact hslots _ (List.getElem_mem hnext))
    rw [List.getElem?_eq_getElem hnext] at hlinked
    rw [if_pos hnext, List.getElem?_eq_getElem hnext, Option.bind_some, haddr, Option.map_some]
    exact ⟨_, rfl, by rw [List.length_set, h.length], fun _ => List.getElem?_eq_getElem hnext, hlinked⟩
  · rw [List.getElem?_eq_none (by omega)] at hlinked
    rw [if_neg hnext]
    exact ⟨_, rfl, by rw [List.length_set, h.length], fun hlt => absurd hlt hnext, hlinked⟩

/-- **The setup** links the slots in the order of the permutation, whatever the pool held before. -/
theorem setup_scrambled {g : Globals} {shuffle : List Nat → List Nat} (hhead : g.listHead = none)
    (hpos : 0 < g.pool.length) (hlong : g.pool.length < 2 ^ 63)
    (hperm : (shuffle (List.range g.pool.length)).Perm (List.range g.pool.length)) :
    ∃ g', setupScrambledList shuffle g = some g' ∧ Scrambled (shuffle (List.range g.pool.length)) g' := by
  generalize hp : shuffle (List.range g.pool.length) = p at hperm
  have hlen : p.length = g.pool.length := by rw [hperm.length_eq, List.length_range]
  have hnodup : p.Nodup := hperm.nodup_iff.2 List.nodup_range
  have hslots : ∀ slot ∈ p, slot < p.length := by
    intro slot hslot
    rw [hlen]
    exact List.mem_range.1 (hperm.mem_iff.1 hslot)
  have h0 : 0 < p.length := by rw [hlen]; exact hpos
  have haddr : address g.pool p[0] = some p[0] := if_pos (by rw [← hlen]; exact hslots _ (List.getElem_mem h0))
  have hindices : Indices (· < p.length) (fun i => some (sizeT (i + 1))) (fun j => j) p.length := by
    refine ⟨fun j hj => hj, Nat.lt_irrefl _, ?_⟩
    intro j hj
    rw [sizeT_of_lt (by omega)]
  have hstart : SetupInv p 0 ⟨g.pool, p[0]⟩ :=
    ⟨hlen.symm, fun h => List.getElem?_eq_getElem h, fun j hj => absurd hj (Nat.not_lt_zero j)⟩
  obtain ⟨s, hloop, hinv⟩ := forLoop_inv hindices (SetupInv p)
    (fun j hj s hs => linkNode_inv hs hnodup hslots hj (by omega)) (Nat.lt_succ_self p.length) hstart
  refine ⟨⟨s.pool, some p[0]⟩, ?_, ?_⟩
  · unfold setupScrambledList
    simp only [hhead, ne_eq, not_true_eq_false, if_false, hp]
    rw [← hlen, List.getElem?_eq_getElem h0, Option.bind_some, haddr, Option.bind_some, hloop, Option.map_some]
  · exact ⟨hinv.length, (List.getElem?_eq_getElem h0).symm, hinv.linked⟩

/-- Once there is a list, the setup does nothing. -/
theorem Scrambled.setup {g : Globals} (h : Scrambled p g) (hpos : 0 < p.length) (shuffle : List Nat → List Nat) :
    setupScrambledList shuffle g = some g := by
  rw [setupScrambledList, if_pos]
  rw [h.head, List.getElem?_eq_getElem hpos]
  exact Option.some_ne_none _

/-! ## The walks -/

section
variable {g : Globals} {σ : Type}

/-- A walk meets the nodes in order, with the data `0, 1, …`, and ends at null. -/
theorem Scrambled.walk (h : Scrambled p g) {body : Option Nat → Node → σ → Option σ} (S : Nat → σ)
    (hbody : ∀ j < p.length, body p[j]? ⟨j, p[j + 1]?⟩ (S j) = some (S (j + 1))) :
    walk body g (S 0) = some (none, S p.length) := by
  have hindices : Indices (· ≠ none) (fun current => (deref g.pool current).map (·.next)) (fun j => p[j]?)
      p.length := by
    refine ⟨?_, ?_, ?_⟩
    · intro j hj
      rw [List.getElem?_eq_getElem hj]
      exact Option.some_ne_none _
    · rw [List.getElem?_eq_none (Nat.le_refl _)]
      exact fun hne => hne rfl
    · intro j hj
      rw [h.linked j hj]
      rfl
  have hstep : ∀ j < p.length, ((deref g.pool p[j]?).bind fun node => body p[j]? node (S j)) = some (S (j + 1)) := by
    intro j hj
    rw [h.linked j hj, Option.bind_some, hbody j hj]
  have hend : p[p.length]? = none := List.getElem?_eq_none (Nat.le_refl _)
  rw [Prefetching.walk, h.head, h.length]
  refine (forLoop_track hindices S hstep (Nat.lt_succ_self p.length)).trans ?_
  rw [hend]

/-- The walk passes `p(0), p(1), …` and finds the data in order. -/
theorem Scrambled.traverse (h : Scrambled p g) :
    traverse g = some (none, (List.range p.length).map fun i : Nat => (p[i]?, (i : Int))) := by
  refine h.walk (fun j => (List.range j).map fun i : Nat => (p[i]?, (i : Int))) ?_
  intro j _
  rw [List.range_succ, List.map_append]
  rfl

theorem map_range_getElem? (p : List Nat) : ((List.range p.length).map fun i => p[i]?) = p.map some := by
  apply List.ext_getElem
  · simp
  · intro i hi _
    have hlt : i < p.length := by simpa using hi
    simp [hlt]

/-- The sum up to `j`, as a `long long`. -/
theorem longAdd_triangle {j n : Nat} (hj : j < n) (hn : n < 2 ^ 32) :
    longAdd (j * (j - 1) / 2 : Nat) j = some (((j + 1) * (j + 1 - 1) / 2 : Nat) : Int) := by
  have hsq : (j + 1) * (j + 1 - 1) ≤ 2 ^ 32 * (2 ^ 32 - 1) := Nat.mul_le_mul (by omega) (by omega)
  have htri := Nat.triangle_succ j
  have hcast : ((j * (j - 1) / 2 : Nat) : Int) + j = ((j + 1) * (j + 1 - 1) / 2 : Nat) := by omega
  rw [longAdd, hcast, if_pos (by omega)]

theorem Scrambled.sumLoop (h : Scrambled p g) (hn : p.length < 2 ^ 32) :
    sumLoop g = some ((p.length * (p.length - 1) / 2 : Nat) : Int) := by
  have hadd : ∀ j < p.length, addData p[j]? ⟨j, p[j + 1]?⟩ (j * (j - 1) / 2 : Nat) =
      some (((j + 1) * (j + 1 - 1) / 2 : Nat) : Int) := fun j hj => longAdd_triangle hj hn
  have hwalk := h.walk (fun j => ((j * (j - 1) / 2 : Nat) : Int)) hadd
  exact congrArg (Option.map (·.2)) hwalk

/-- The test for the prefetch dereferences `current->next` only where there is a next node. -/
theorem Scrambled.prefetches (h : Scrambled p g) (j : Nat) :
    prefetches g.pool ⟨j, p[j + 1]?⟩ = some (decide (j + 2 < p.length)) := by
  unfold Prefetching.prefetches
  by_cases hnext : j + 1 < p.length
  · rw [h.linked (j + 1) hnext, if_pos (by rw [List.getElem?_eq_getElem hnext]; exact Option.some_ne_none _)]
    rw [Option.map_some, Option.some_inj, Bool.eq_iff_iff, decide_eq_true_iff]
    simp
  · rw [List.getElem?_eq_none (by omega), if_neg (fun hne => hne rfl), decide_eq_false (by omega)]

theorem Scrambled.sumLoopPrefetch (h : Scrambled p g) (hn : p.length < 2 ^ 32) :
    sumLoopPrefetch g = some ((p.length * (p.length - 1) / 2 : Nat) : Int) := by
  have hadd : ∀ j < p.length, prefetchAddData g.pool p[j]? ⟨j, p[j + 1]?⟩ (j * (j - 1) / 2 : Nat) =
      some (((j + 1) * (j + 1 - 1) / 2 : Nat) : Int) := by
    intro j hj
    rw [prefetchAddData, h.prefetches j, Option.bind_some, addData]
    exact longAdd_triangle hj hn
  have hwalk := h.walk (fun j => ((j * (j - 1) / 2 : Nat) : Int)) hadd
  exact congrArg (Option.map (·.2)) hwalk

/-- All rounds of a benchmark have the sum of one. -/
theorem benchmark_eq {sum : Globals → Option Int} {shuffle : List Nat → List Nat} {g' : Globals} {total : Int}
    (hsetup : setupScrambledList shuffle g = some g') (hsum : sum g' = some total) (rounds : Nat) :
    benchmark sum shuffle rounds g = some (g', List.replicate rounds total) := by
  have hrounds : ((List.range rounds).mapM fun _ => sum g') = some (List.replicate rounds total) := by
    rw [hsum]
    simpa using List.mapM_pure (m := Option) (l := List.range rounds) (f := fun _ => total)
  rw [benchmark, hsetup, Option.bind_some, hrounds, Option.map_some]

end

end

/-- **The scrambled list is one chain over the whole pool**, for every permutation the shuffle may
produce. The walk from its head ends at null after `n` nodes, has met the slots in the order of the
permutation, each of them once, and found the data 0, 1, …; a second setup changes nothing; and every
round of both benchmarks has the sum `n (n - 1) / 2`. -/
theorem scrambled_list (shuffle : List Nat → List Nat) (g : Globals) (n : Nat) (h1 : 1 ≤ n) (hn : n < 2 ^ 32)
    (hpool : g.pool.length = n) (hhead : g.listHead = none) (p : List Nat) (hp : shuffle (List.range n) = p)
    (hperm : p.Perm (List.range n)) :
    ∃ g', setupScrambledList shuffle g = some g' ∧
      (∃ visited, traverse g' = some (none, visited) ∧ visited.length = n ∧
        (∀ i < n, visited[i]? = some (p[i]?, (i : Int))) ∧ ∀ slot < n, (visited.map (·.1)).count (some slot) = 1) ∧
      (∀ shuffle', setupScrambledList shuffle' g' = some g') ∧
      ∀ rounds,
        linkedListNoPrefetch shuffle rounds g =
          some (g', List.replicate rounds ((n * (n - 1) / 2 : Nat) : Int)) ∧
        linkedListWithPrefetch shuffle rounds g =
          some (g', List.replicate rounds ((n * (n - 1) / 2 : Nat) : Int)) := by
  subst hpool hp
  obtain ⟨g', hsetup, hscr⟩ := setup_scrambled hhead h1 (by omega) hperm
  generalize shuffle (List.range g.pool.length) = p at hperm hscr
  have hlen : p.length = g.pool.length := by rw [hperm.length_eq, List.length_range]
  refine ⟨g', hsetup, ⟨_, hscr.traverse, ?_, ?_, ?_⟩, fun shuffle' => hscr.setup (by omega) shuffle',
    fun rounds => ⟨?_, ?_⟩⟩
  · rw [List.length_map, List.length_range, hlen]
  · intro i hi
    rw [List.getElem?_map, List.getElem?_range (by omega), Option.map_some]
  · intro slot hslot
    have hmem : slot ∈ p := hperm.mem_iff.2 (List.mem_range.2 hslot)
    have hnodup : (p.map some).Nodup := (hperm.nodup_iff.2 List.nodup_range).map (Option.some_injective Nat)
    rw [List.map_map]
    show List.count (some slot) ((List.range p.length).map fun i => p[i]?) = 1
    rw [map_range_getElem?]
    exact List.count_eq_one_of_mem hnodup (List.mem_map_of_mem hmem)
  · rw [← hlen]
    exact benchmark_eq hsetup (hscr.sumLoop (by omega)) rounds
  · rw [← hlen]
    exact benchmark_eq hsetup (hscr.sumLoopPrefetch (by omega)) rounds

/-- Three slots that held a cycle, linked backwards. -/
theorem scrambled_list_reversed :
    ∃ g', setupScrambledList List.reverse ⟨[⟨7, some 1⟩, ⟨8, some 0⟩, ⟨9, some 2⟩], none⟩ = some g' ∧
      ∃ visited, traverse g' = some (none, visited) ∧ visited.length = 3 := by
  obtain ⟨g', hsetup, ⟨visited, hvisited, hlen, -⟩, -⟩ := scrambled_list List.reverse
    ⟨[⟨7, some 1⟩, ⟨8, some 0⟩, ⟨9, some 2⟩], none⟩ 3 (by decide) (by decide) rfl rfl [2, 1, 0] rfl (by decide)
  exact ⟨g', hsetup, visited, hvisited, hlen⟩

end LowLatency.Prefetching
