import Mathlib.Algebra.BigOperators.Ring.Finset
import Mathlib.Algebra.Order.BigOperators.Group.Finset
import LowLatency.Basic
import LowLatency.Lib.ForkJoin

/-!
# Counting with shared and with sharded counters

Three benchmarks count to `num_threads * elements_per_thread`, again in every iteration of the
benchmark loop. The control thread of `ForkJoin` is the body of that loop.

| here | there |
| --- | --- |
| `directSharing`              | `BM_DirectSharing` (`cache_line.cc:22-67`): one atomic counter |
| `falseSharing`, `noSharing`  | `BM_FalseSharing` (lines 94-151), `BM_NoSharing` (lines 164-220): a counter for each thread |
| `work`                       | their `work` (lines 118-130, 188-200) |
| `fetchAdd`                   | `std::atomic<int>::fetch_add`, which wraps around |
| `Counters.increments`        | the increments made in this iteration; not in the code |

The last two differ in the alignment of the counters only: every counter belongs to one thread.
Between `fetch_add` and the reset a thread's count is in memory twice, in `final_sum` and still in its
counter, and `notYetAdded` leaves it out.
-/

namespace LowLatency.CacheLine

open ForkJoin

def fetchAdd (x v : Int) : Int := Int.bmod (x + v) (2 ^ 32)

structure Counters (n : Nat) where
  finalSum : Int
  counters : Fin n → Int
  increments : Nat

/-- The next step of a thread: increment `i`, or `fetch_add` after the last one; the reset; nothing. -/
inductive Work where
  | counting (i : Nat)
  | resetting
  | done
deriving DecidableEq

def work (n elementsPerThread : Nat) (thread : Fin n) (m : Counters n) : Work → Option (Counters n × Work)
  | .counting i =>
    if i < elementsPerThread then
      (intIncrement (m.counters thread)).map fun value =>
        ({ m with counters := Function.update m.counters thread value, increments := m.increments + 1 },
          .counting (i + 1))
    else some ({ m with finalSum := fetchAdd m.finalSum (m.counters thread) }, .resetting)
  | .resetting => some ({ m with counters := Function.update m.counters thread 0 }, .done)
  | .done => none

/-- The text that the two benchmarks share. -/
def sharded (n elementsPerThread : Nat) : Program n (Counters n) Work where
  initial := ⟨0, fun _ => 0, 0⟩
  prepare m := { m with finalSum := 0, increments := 0 }
  start := .counting 0
  step := work n elementsPerThread
  finished w := w == .done

def falseSharing (n elementsPerThread : Nat) : Program n (Counters n) Work := sharded n elementsPerThread

def noSharing (n elementsPerThread : Nat) : Program n (Counters n) Work := sharded n elementsPerThread

/-- A thread is at its `i`-th `fetch_add`. -/
def directSharing (n elementsPerThread : Nat) : Program n Int Nat where
  initial := 0
  prepare _ := 0
  start := 0
  step _ counter i := if i < elementsPerThread then some (fetchAdd counter 1, i + 1) else none
  finished i := decide (elementsPerThread ≤ i)

/-- What a thread's counter contributes to the total beside `final_sum`. -/
def notYetAdded (slot : Slot Work) (counter : Int) : Int :=
  match slot with
  | .running .resetting => 0
  | _ => counter

theorem fetchAdd_eq {x v : Nat} (h : x + v < 2 ^ 31) : fetchAdd x v = (x + v : Nat) := by
  rw [fetchAdd, ← Int.natCast_add, bmod_of_lt h]

/-- A quantity that is at most `k` for each thread. -/
theorem sum_le_mul {n k : Nat} {f : Fin n → Nat} (h : ∀ i, f i ≤ k) : ∑ i, f i ≤ n * k := by
  have := Finset.sum_le_card_nsmul Finset.univ f k fun i _ => h i
  simpa using this

/-! ## One atomic counter -/

section
variable {n k : Nat}

/-- The increments of a thread in this iteration. -/
def directProgress (k : Nat) : Slot Nat → Nat
  | .unspawned => 0
  | .running i => i
  | .joined => k

structure DirectInside (k : Nat) (counter : Int) (slots : Fin n → Slot Nat) : Prop where
  le : ∀ t, directProgress k (slots t) ≤ k
  counter : counter = (∑ t, directProgress k (slots t) : Nat)

theorem DirectInside.update {counter counter' : Int} {slots : Fin n → Slot Nat} {t : Fin n} {slot : Slot Nat}
    (h : DirectInside k counter slots) (hle : directProgress k slot ≤ k)
    (hcounter : counter' + directProgress k (slots t) = counter + directProgress k slot) :
    DirectInside k counter' (Function.update slots t slot) := by
  have hsum := Runs.sum_update (directProgress k) slots t slot
  have hold := h.counter
  refine ⟨?_, by omega⟩
  rw [Function.forall_update_iff slots fun _ slot => directProgress k slot ≤ k]
  exact ⟨hle, fun u _ => h.le u⟩

theorem direct_rounds (h : n * k < 2 ^ 31) : Rounds (directSharing n k) (fun _ => True) (DirectInside k) where
  initial := trivial
  prepare _ := ⟨fun _ => Nat.zero_le k, by simp [directSharing, directProgress]⟩
  spawn hi hslot := hi.update (Nat.zero_le k) (by rw [hslot]; rfl)
  step {counter slots t i counter' i'} hi hslot hstep := by
    simp only [directSharing] at hstep
    split at hstep
    · rename_i hlt
      obtain ⟨rfl, rfl⟩ := Prod.mk.inj (Option.some.inj hstep)
      have hold : directProgress k (slots t) = i := by rw [hslot]; rfl
      have hnew : directProgress k (.running (i + 1)) = i + 1 := rfl
      have hinside : DirectInside k (counter + 1) (Function.update slots t (.running (i + 1))) :=
        hi.update hlt (by omega)
      -- the counter after this step is at most the total
      have hle := sum_le_mul hinside.le
      have hsum := Runs.sum_update (directProgress k) slots t (.running (i + 1))
      rw [hi.counter] at hinside ⊢
      rw [show (1 : Int) = (1 : Nat) from rfl, fetchAdd_eq (by omega)]
      exact hinside
    · cases hstep
  join {counter slots t i} hi hslot hfin := by
    have hle := hi.le t
    have hk : k ≤ i := of_decide_eq_true hfin
    rw [hslot] at hle
    refine hi.update (Nat.le_refl k) ?_
    rw [hslot]
    simp only [directProgress] at hle ⊢
    omega
  finish _ _ := trivial

theorem direct_terminates : Terminates (directSharing n k) (DirectInside k) (fun i => k - i) where
  live {counter slots t i} _ _ hfin := by
    have hlt : i < k := Nat.not_le.1 (of_decide_eq_false hfin)
    exact ⟨_, if_pos hlt⟩
  lowers {t counter i counter' i'} hstep := by
    simp only [directSharing] at hstep
    split at hstep
    · obtain ⟨-, rfl⟩ := Prod.mk.inj (Option.some.inj hstep)
      omega
    · cases hstep

end

/-! ## A counter for each thread -/

section
variable {n k : Nat}

/-- The increments of a thread in this iteration. -/
def progress (k : Nat) : Slot Work → Nat
  | .unspawned => 0
  | .running (.counting i) => i
  | _ => k

/-- How many of them are in `final_sum`. -/
def added (k : Nat) : Slot Work → Nat
  | .unspawned => 0
  | .running (.counting _) => 0
  | _ => k

/-- How many of them are in the thread's counter. -/
def held (k : Nat) : Slot Work → Nat
  | .running (.counting i) => i
  | .running .resetting => k
  | _ => 0

theorem added_le_progress (k : Nat) (slot : Slot Work) : added k slot ≤ progress k slot := by
  unfold added progress
  split
  · exact Nat.le_refl 0
  · exact Nat.zero_le _
  · exact Nat.le_refl k

/-- An increment is in `final_sum`, or in a counter that is still to be added. -/
theorem notYetAdded_held (k : Nat) (slot : Slot Work) :
    notYetAdded slot (held k slot) + added k slot = progress k slot := by
  rcases slot with _ | (_ | _ | _) | _ <;> simp [notYetAdded, held, added, progress]

structure Inside (k : Nat) (m : Counters n) (slots : Fin n → Slot Work) : Prop where
  le : ∀ t, progress k (slots t) ≤ k
  counters : ∀ t, m.counters t = held k (slots t)
  increments : m.increments = ∑ t, progress k (slots t)
  finalSum : m.finalSum = (∑ t, added k (slots t) : Nat)

def Between (m : Counters n) : Prop := (∀ t, m.counters t = 0) ∧ m.finalSum = m.increments

/-- One thread moves on, and its counter with it. -/
theorem Inside.update {m m' : Counters n} {slots : Fin n → Slot Work} {t : Fin n} {slot : Slot Work}
    (h : Inside k m slots) (hle : progress k slot ≤ k) (hself : m'.counters t = held k slot)
    (hother : ∀ u, u ≠ t → m'.counters u = m.counters u)
    (hincrements : m'.increments + progress k (slots t) = m.increments + progress k slot)
    (hfinal : m'.finalSum + added k (slots t) = m.finalSum + added k slot) :
    Inside k m' (Function.update slots t slot) := by
  have hprogress := Runs.sum_update (progress k) slots t slot
  have hadded := Runs.sum_update (added k) slots t slot
  have hincr := h.increments
  have hsum := h.finalSum
  refine ⟨?_, ?_, by omega, by omega⟩
  · rw [Function.forall_update_iff slots fun _ slot => progress k slot ≤ k]
    exact ⟨hle, fun u _ => h.le u⟩
  · rw [Function.forall_update_iff slots fun u slot => m'.counters u = held k slot]
    exact ⟨hself, fun u hut => (hother u hut).trans (h.counters u)⟩

/-- The steps of `work`; none of them is undefined. -/
theorem Inside.work (h : n * k < 2 ^ 31) {m : Counters n} {slots : Fin n → Slot Work} {t : Fin n} {w : Work}
    (hi : Inside k m slots) (hslot : slots t = .running w) (hdone : w ≠ .done) :
    ∃ m' w', work n k t m w = some (m', w') ∧ Inside k m' (Function.update slots t (.running w')) := by
  have hcounter := hi.counters t
  have hle := hi.le t
  have hk : k ≤ n * k := Nat.le_mul_of_pos_left k (Fin.pos t)
  rw [hslot] at hcounter hle
  cases w with
  | counting i =>
    replace hcounter : m.counters t = i := hcounter
    replace hle : i ≤ k := hle
    by_cases hlt : i < k
    · have hincr : intIncrement (m.counters t) = some ((i + 1 : Nat) : Int) := by
        rw [hcounter, intIncrement, if_pos (by omega), Int.natCast_succ]
      refine ⟨_, _, by simp only [CacheLine.work, if_pos hlt, hincr, Option.map_some]; rfl, ?_⟩
      refine hi.update hlt (Function.update_self _ _ _) (fun u hut => Function.update_of_ne hut _ _) ?_ ?_
      · rw [hslot]
        simp only [progress]
        omega
      · rw [hslot]
        rfl
    · obtain rfl : i = k := by omega
      have hadd : Inside i { m with finalSum := m.finalSum + i } (Function.update slots t (.running .resetting)) :=
        hi.update (Nat.le_refl i) hcounter (fun _ _ => rfl) (by rw [hslot]; rfl) (by rw [hslot]; simp [added])
      -- what is in `final_sum` afterwards is at most the total
      have hsum := sum_le_mul fun u => Nat.le_trans (added_le_progress i _) (hadd.le u)
      have hfetch : fetchAdd m.finalSum (m.counters t) = m.finalSum + i := by
        have hnew : m.finalSum + i = _ := hadd.finalSum
        have hold := hi.finalSum
        rw [hcounter, hold, fetchAdd_eq (by omega), Int.natCast_add]
      exact ⟨_, _, by simp only [CacheLine.work, if_neg hlt, hfetch], hadd⟩
  | resetting =>
    refine ⟨_, _, rfl, ?_⟩
    refine hi.update (Nat.le_refl k) (Function.update_self _ _ _) (fun u hut => Function.update_of_ne hut _ _) ?_ ?_
    · rw [hslot]
      rfl
    · rw [hslot]
      rfl
  | done => exact absurd rfl hdone

theorem sharded_rounds (h : n * k < 2 ^ 31) : Rounds (sharded n k) Between (Inside k) where
  initial := ⟨fun _ => rfl, rfl⟩
  prepare hb := ⟨fun _ => Nat.zero_le k, hb.1, by simp [sharded, progress], by simp [sharded, added]⟩
  spawn {m slots t} hi hslot := by
    have hcounter := hi.counters t
    rw [hslot] at hcounter
    exact hi.update (Nat.zero_le k) hcounter (fun _ _ => rfl) (by rw [hslot]; rfl) (by rw [hslot]; rfl)
  step {m slots t w m' w'} hi hslot hstep := by
    have hdone : w ≠ .done := by
      rintro rfl
      cases hstep
    obtain ⟨m'', w'', hwork, hinside⟩ := hi.work h hslot hdone
    obtain ⟨rfl, rfl⟩ := Prod.mk.inj (Option.some.inj (hwork.symm.trans hstep))
    exact hinside
  join {m slots t w} hi hslot hfin := by
    obtain rfl : w = .done := eq_of_beq hfin
    have hcounter := hi.counters t
    rw [hslot] at hcounter
    exact hi.update (Nat.le_refl k) hcounter (fun _ _ => rfl) (by rw [hslot]; rfl) (by rw [hslot]; rfl)
  finish {m slots} hi hall := by
    refine ⟨?_, ?_⟩
    · intro t
      rw [hi.counters t, hall t]
      rfl
    · rw [hi.finalSum, hi.increments]
      simp [hall, added, progress]

/-- The steps of a thread that are left. -/
def Work.left (k : Nat) : Work → Nat
  | .counting i => k - i + 2
  | .resetting => 1
  | .done => 0

theorem sharded_terminates (h : n * k < 2 ^ 31) : Terminates (sharded n k) (Inside k) (Work.left k) where
  live {m slots t w} hi hslot hfin := by
    have hdone : w ≠ .done := by
      rintro rfl
      cases hfin
    obtain ⟨m', w', hwork, -⟩ := hi.work h hslot hdone
    exact ⟨(m', w'), hwork⟩
  lowers {t m w m' w'} hstep := by
    simp only [sharded, work] at hstep
    split at hstep
    · split at hstep
      · obtain ⟨value, -, hvalue⟩ := Option.map_eq_some_iff.1 hstep
        obtain ⟨-, rfl⟩ := Prod.mk.inj hvalue
        simp only [Work.left]
        omega
      · obtain ⟨-, rfl⟩ := Prod.mk.inj (Option.some.inj hstep)
        simp [Work.left]
    · obtain ⟨-, rfl⟩ := Prod.mk.inj (Option.some.inj hstep)
      simp [Work.left]
    · cases hstep

/-- The increments made in this iteration, wherever they are. -/
theorem Inside.total {m : Counters n} {slots : Fin n → Slot Work} (hi : Inside k m slots) :
    m.finalSum + ∑ t, notYetAdded (slots t) (m.counters t) = m.increments := by
  rw [hi.finalSum, hi.increments, Nat.cast_sum, Nat.cast_sum, ← Finset.sum_add_distrib]
  refine Finset.sum_congr rfl ?_
  intro t _
  rw [hi.counters t, add_comm, notYetAdded_held]

/-- The total in every reachable state, within an iteration and between two. -/
theorem total_of_good {s : State n (Counters n) Work} (hs : Good Between (Inside k) s) :
    s.shared.finalSum + ∑ t, notYetAdded (s.slots t) (s.shared.counters t) = s.shared.increments := by
  unfold Good at hs
  split at hs
  · obtain ⟨⟨hzero, hsum⟩, hidle⟩ := hs
    have hnone : ∀ t, notYetAdded (s.slots t) (s.shared.counters t) = 0 := by
      intro t
      rw [hzero t]
      unfold notYetAdded
      split <;> rfl
    simp [hnone, hsum]
  · exact hs.1.total
  · exact hs.1.total

end

/-- Two threads count to 1 in two iterations; in the second one, thread 1 is done before thread 0 starts. -/
def twoRounds : List (Act 2) :=
  [.control, .control, .control, .control, .worker 0, .worker 1, .worker 1, .worker 0, .worker 1, .worker 0,
    .control, .control, .control,
    .control, .control, .control, .worker 1, .worker 1, .worker 1, .worker 0, .worker 0, .worker 0,
    .control, .control, .control]

/-- The same with one counter, to 2: the first thread of the second iteration counts while the other is not spawned. -/
def twoDirectRounds : List (Act 2) :=
  [.control, .control, .control, .control, .worker 0, .worker 1, .worker 1, .worker 0, .control, .control, .control,
    .control, .control, .worker 0, .control, .worker 1, .control, .worker 0, .worker 1, .control, .control]

end LowLatency.CacheLine
