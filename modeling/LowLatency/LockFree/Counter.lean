import Mathlib.Algebra.Order.BigOperators.Group.Finset
import LowLatency.Basic
import LowLatency.LockFree.SpinLock

/-!
# `SpinLockTest`: a plain counter behind the lock

| here | there |
| --- | --- |
| `Bench.counter` | `int counter` (`lock_free.cc:46`), set to 0 by `SetUp` (line 26) |
| `Bench.lock`    | `SpinLock lock`, with the atomic steps of every thread inside it |
| `Phase`         | where a thread is in `lock.lock(); counter++; lock.unlock();` (lines 247-250) |
| `Worker.left`   | the iterations of `for (auto _ : state)` that the thread has not finished |
| `Bench.written` | how often `counter++` has written; not in the code |

`counter++` is a read and a write. Between the two the thread keeps the value that it read, and what
makes the write right is that nobody else has written since: a thread at either access holds the
lock, and `Owner` says that only one thread does.
-/

namespace LowLatency.LockFree

inductive Phase where
  /-- before `lock.lock()`, or finished -/
  | start
  | locking
  /-- about to read `counter` -/
  | read
  /-- about to write `value + 1` -/
  | write (value : Int)
  /-- before `lock.unlock()` -/
  | unlock
  | unlocking
deriving DecidableEq

structure Worker where
  phase : Phase
  left : Nat
deriving DecidableEq

structure Bench (T : Type*) where
  lock : State T
  counter : Int
  workers : T → Worker
  written : Nat

variable {T : Type*}

def Bench.init (iterations : T → Nat) : Bench T := ⟨.init, 0, fun t => ⟨.start, iterations t⟩, 0⟩

def Worker.finished (w : Worker) : Prop := w.phase = .start ∧ w.left = 0

instance (w : Worker) : Decidable w.finished := inferInstanceAs (Decidable (_ ∧ _))

variable [DecidableEq T]

def Bench.setWorker (s : Bench T) (t : T) (phase : Phase) (left : Nat) : Bench T :=
  { s with workers := Function.update s.workers t ⟨phase, left⟩ }

/-- The call that `t` has made on the lock has returned. -/
def State.returned (lock : State T) (t : T) : Prop := (lock.threads t).pc = .idle

instance (lock : State T) (t : T) : Decidable (lock.returned t) := inferInstanceAs (Decidable (_ = _))

/-- The next step of thread `t`. -/
def Bench.step (s : Bench T) (t : T) : Option (Bench T) :=
  let left := (s.workers t).left
  match (s.workers t).phase with
  | .start =>
    if left = 0 then none
    else (s.lock.step (.lock t)).map fun lock => { s.setWorker t .locking left with lock }
  | .locking => (s.lock.step (.step t)).map fun lock =>
    { s.setWorker t (if lock.returned t then .read else .locking) left with lock }
  | .read => some (s.setWorker t (.write s.counter) left)
  | .write value => (intIncrement value).map fun counter =>
    { s.setWorker t .unlock left with counter, written := s.written + 1 }
  | .unlock => (s.lock.step (.unlock t)).map fun lock => { s.setWorker t .unlocking left with lock }
  | .unlocking => (s.lock.step (.step t)).map fun lock =>
    { s.setWorker t (if lock.returned t then .start else .unlocking)
        (if lock.returned t then left - 1 else left) with lock }

/-- A run is the order in which the threads take their steps. -/
def Bench.exec (iterations : T → Nat) (order : List T) : Option (Bench T) :=
  Runs.run Bench.step (Bench.init iterations) order

theorem returned_set {lock : State T} {t : T} {b : Bool} {th : Thread} :
    (lock.set t b th).returned t ↔ th.pc = .idle := by
  simp [State.returned, State.set]

theorem Bench.step_finished {s : Bench T} {t : T} (h : (s.workers t).finished) : s.step t = none := by
  simp [Bench.step, h.1, h.2]

/-! ## A thread inside the lock -/

/-- The accesses of `lock`. -/
def PC.inLock : PC → Bool
  | .lockLoad | .lockExchange | .spinLoad | .retryExchange | .lockRet => true
  | _ => false

/-- `lock()` goes on, or returns with the lock held. -/
theorem lock_progress (lock : Bool) {th : Thread} (hpc : th.pc.inLock = true) (hholds : th.holds = false) :
    ∃ lock' th', th.step lock = some (lock', th') ∧
      (th'.pc.inLock = true ∧ th'.holds = false ∨ th'.pc = .idle ∧ th'.holds = true) := by
  unfold Thread.step
  cases hth : th.pc <;> rw [hth] at hpc <;> simp only [PC.inLock, Bool.false_eq_true] at hpc
  case lockRet => exact ⟨lock, .ret true, rfl, .inr ⟨rfl, rfl⟩⟩
  all_goals
    refine ⟨_, _, rfl, .inl ⟨?_, hholds⟩⟩
    cases lock <;> rfl

/-- What the lock knows of a thread at each of its program points. A thread that is about to write has
read the present value. -/
def Worker.Ok (counter : Int) (th : Thread) (w : Worker) : Prop :=
  match w.phase with
  | .start => th.pc = .idle ∧ th.holds = false
  | .locking => 0 < w.left ∧ th.pc.inLock = true ∧ th.holds = false
  | .read => 0 < w.left ∧ th.pc = .idle ∧ th.holds = true
  | .write value => 0 < w.left ∧ th.pc = .idle ∧ th.holds = true ∧ value = counter
  | .unlock => 0 < w.left ∧ th.pc = .idle ∧ th.holds = true
  | .unlocking => 0 < w.left ∧ th.pc = .unlockStore

/-- The writes that a thread still has to make. -/
def Worker.pending (w : Worker) : Nat :=
  match w.phase with
  | .unlock | .unlocking => w.left - 1
  | _ => w.left

variable [Fintype T]

structure Bench.Inv (iterations : T → Nat) (s : Bench T) : Prop where
  owner : ∃ o, Owner s.lock o
  counter : s.counter = s.written
  workers : ∀ t, (s.workers t).Ok s.counter (s.lock.threads t)
  written : s.written + ∑ t, (s.workers t).pending = ∑ t, iterations t

omit [DecidableEq T] in
theorem Bench.inv_init (iterations : T → Nat) : (Bench.init iterations).Inv iterations where
  owner := ⟨none, owner_init⟩
  counter := rfl
  workers _ := ⟨rfl, rfl⟩
  written := Nat.zero_add _

/-! ## One step -/

/-- The value of the counter does not matter to a thread that does not own the lock. -/
theorem Worker.Ok.counter {c c' : Int} {th : Thread} {w : Worker} (h : w.Ok c th) (howns : th.owns = false) :
    w.Ok c' th := by
  unfold Worker.Ok at h ⊢
  split at h
  case h_4 =>
    -- a thread at the write holds the lock
    simp [Thread.owns, h.2.2.1] at howns
  all_goals exact h

section
variable {iterations : T → Nat} {s : Bench T} {t : T}

/-- What has to be checked when `t` takes a step: the others do not see it, unless the counter
changes, and then they do not own the lock. -/
theorem Bench.Inv.set (hi : s.Inv iterations) {lock : State T} {counter : Int} {written : Nat} {w : Worker}
    (howner : ∃ o, Owner lock o) (hothers : ∀ u, u ≠ t → lock.threads u = s.lock.threads u)
    (hcounter : counter = written) (hw : w.Ok counter (lock.threads t))
    (hsame : counter = s.counter ∨ (s.lock.threads t).owns = true)
    (hpending : written + w.pending = s.written + (s.workers t).pending) :
    Bench.Inv iterations ⟨lock, counter, Function.update s.workers t w, written⟩ := by
  refine ⟨howner, hcounter, ?_, ?_⟩
  · show ∀ u, (Function.update s.workers t w u).Ok counter (lock.threads u)
    rw [Function.forall_update_iff s.workers fun u w => w.Ok counter (lock.threads u)]
    refine ⟨hw, ?_⟩
    intro u hut
    rw [hothers u hut]
    rcases hsame with rfl | howns
    · exact hi.workers u
    · refine (hi.workers u).counter ?_
      obtain ⟨o, ho⟩ := hi.owner
      rw [Bool.eq_false_iff]
      intro howns'
      exact hut (Option.some.inj (((ho.owns u).1 howns').symm.trans ((ho.owns t).1 howns)))
  · have hsum := Runs.sum_update Worker.pending s.workers t w
    have hwritten := hi.written
    show written + ∑ u, (Function.update s.workers t w u).pending = _
    omega

/-- A step of `t` inside the lock. -/
theorem Bench.Inv.setLock (hi : s.Inv iterations) {a : Act T} {b : Bool} {th : Thread} {phase : Phase} {left : Nat}
    (h : s.lock.step a = some (s.lock.set t b th)) (hw : Worker.Ok s.counter th ⟨phase, left⟩)
    (hpending : Worker.pending ⟨phase, left⟩ = (s.workers t).pending) :
    Bench.Inv iterations { s.setWorker t phase left with lock := s.lock.set t b th } := by
  refine hi.set ?_ ?_ hi.counter ?_ (.inl rfl) ?_
  · obtain ⟨o, ho⟩ := hi.owner
    obtain ⟨o', -, ho'⟩ := step_mutex ho h
    exact ⟨o', ho'⟩
  · intro u hut
    exact Function.update_of_ne hut _ _
  · show Worker.Ok s.counter ((s.lock.set t b th).threads t) _
    simpa [State.set] using hw
  · show s.written + Worker.pending ⟨phase, left⟩ = _
    rw [hpending]

/-- **One step**: a thread that has not finished can take its next step, and the step keeps the
invariant. -/
theorem Bench.Inv.step (hi : s.Inv iterations) (htotal : ∑ t, iterations t < 2 ^ 31)
    (hleft : ¬(s.workers t).finished) : ∃ s', s.step t = some s' ∧ s'.Inv iterations := by
  have hw := hi.workers t
  cases hphase : (s.workers t).phase with
  | start =>
    have hpos : (s.workers t).left ≠ 0 := fun h => hleft ⟨hphase, h⟩
    simp only [Worker.Ok, hphase] at hw
    have hlock : s.lock.step (.lock t) =
        some (s.lock.set t s.lock.lock ((s.lock.threads t).goto .lockLoad (by simp))) := by
      simp [State.step, Thread.lock, hw.1]
    refine ⟨_, by simp only [Bench.step, hphase, if_neg hpos, hlock, Option.map_some]; rfl, ?_⟩
    exact hi.setLock hlock ⟨Nat.pos_of_ne_zero hpos, rfl, hw.2⟩ (by simp [Worker.pending, hphase])
  | locking =>
    simp only [Worker.Ok, hphase] at hw
    obtain ⟨b, th, hth, hnext⟩ := lock_progress s.lock.lock hw.2.1 hw.2.2
    have hlock : s.lock.step (.step t) = some (s.lock.set t b th) := by
      simp [State.step, hth]
    refine ⟨_, by simp only [Bench.step, hphase, hlock, Option.map_some, returned_set]; rfl, ?_⟩
    rcases hnext with ⟨hin, hholds⟩ | ⟨hidle, hholds⟩
    · have hne : th.pc ≠ .idle := by
        intro h
        rw [h] at hin
        cases hin
      rw [if_neg hne]
      exact hi.setLock hlock ⟨hw.1, hin, hholds⟩ (by simp [Worker.pending, hphase])
    · rw [if_pos hidle]
      exact hi.setLock hlock ⟨hw.1, hidle, hholds⟩ (by simp [Worker.pending, hphase])
  | read =>
    simp only [Worker.Ok, hphase] at hw
    refine ⟨_, by simp only [Bench.step, hphase]; rfl, ?_⟩
    exact hi.set hi.owner (fun _ _ => rfl) hi.counter ⟨hw.1, hw.2.1, hw.2.2, rfl⟩ (.inl rfl)
      (by simp [Worker.pending, hphase])
  | write value =>
    simp only [Worker.Ok, hphase] at hw
    obtain ⟨hpos, hidle, hholds, rfl⟩ := hw
    -- this write is one of those that are still to be made
    have hpending : 0 < (s.workers t).pending := by simpa [Worker.pending, hphase] using hpos
    have hsingle : (s.workers t).pending ≤ ∑ u, (s.workers u).pending :=
      Finset.single_le_sum (f := fun u => (s.workers u).pending) (fun _ _ => Nat.zero_le _) (Finset.mem_univ t)
    have hwritten := hi.written
    have hcounter := hi.counter
    have hincr : intIncrement s.counter = some (s.counter + 1) := if_pos (by omega)
    refine ⟨_, by simp only [Bench.step, hphase, hincr, Option.map_some]; rfl, ?_⟩
    refine hi.set hi.owner (fun _ _ => rfl) (by rw [hcounter]; rfl) ⟨hpos, hidle, hholds⟩ (.inr ?_) ?_
    · simp [Thread.owns, hholds]
    · simp only [Worker.pending, hphase]
      omega
  | unlock =>
    simp only [Worker.Ok, hphase] at hw
    have hlock : s.lock.step (.unlock t) = some (s.lock.set t s.lock.lock ⟨.unlockStore, true, fun _ => rfl⟩) := by
      simp [State.step, Thread.unlock, hw.2.1, hw.2.2]
    refine ⟨_, by simp only [Bench.step, hphase, hlock, Option.map_some]; rfl, ?_⟩
    exact hi.setLock hlock ⟨hw.1, rfl⟩ (by simp [Worker.pending, hphase])
  | unlocking =>
    simp only [Worker.Ok, hphase] at hw
    have hlock : s.lock.step (.step t) = some (s.lock.set t false (.ret false)) := by
      simp [State.step, Thread.step, hw.2]
    have hidle : (Thread.ret false).pc = .idle := rfl
    refine ⟨_, by simp only [Bench.step, hphase, hlock, Option.map_some, returned_set, if_pos hidle]; rfl, ?_⟩
    exact hi.setLock hlock ⟨rfl, rfl⟩ (by simp [Worker.pending, hphase])

end

/-- All steps of a run. -/
theorem inv_of_order {iterations : T → Nat} (htotal : ∑ t, iterations t < 2 ^ 31) {order : List T} {s : Bench T}
    (h : Bench.exec iterations order = some s) : s.Inv iterations := by
  refine Runs.run_inv ?_ (Bench.inv_init iterations) Runs.meets_true h
  intro s t s' hi _ hstep
  have hleft : ¬(s.workers t).finished := by
    intro hfin
    rw [Bench.step_finished hfin] at hstep
    cases hstep
  obtain ⟨s'', hs'', hi''⟩ := hi.step htotal hleft
  obtain rfl : s'' = s' := Option.some.inj (hs''.symm.trans hstep)
  exact hi''

/-- **No increment is lost.** However the threads take their turns, `counter` is the number of writes
made so far. No thread is ever stuck before it has finished its iterations, and when all have,
`counter` is the number of all iterations. -/
theorem no_lost_increment (iterations : T → Nat) (htotal : ∑ t, iterations t < 2 ^ 31) {order : List T} {s : Bench T}
    (h : Bench.exec iterations order = some s) :
    s.counter = s.written ∧ (∀ t, ¬(s.workers t).finished → ∃ s', s.step t = some s') ∧
      ((∀ t, (s.workers t).finished) → s.counter = ∑ t, iterations t) := by
  have hi := inv_of_order htotal h
  refine ⟨hi.counter, ?_, ?_⟩
  · intro t hleft
    obtain ⟨s', hs', -⟩ := hi.step htotal hleft
    exact ⟨s', hs'⟩
  · intro hfin
    have hpending : ∑ t, (s.workers t).pending = 0 := by
      refine Finset.sum_eq_zero ?_
      intro t _
      simp [Worker.pending, (hfin t).1, (hfin t).2]
    have hwritten := hi.written
    rw [hpending, Nat.add_zero] at hwritten
    rw [hi.counter, hwritten]

/-- Thread 1 spins while thread 0 is between its read and its write. -/
def contendedCounter : List (Fin 2) := [0, 0, 0, 0, 1, 1, 0, 1, 0, 0, 0, 1, 1, 1, 1, 1, 1, 1]

theorem no_lost_increment_contended :
    ∃ s, Bench.exec (fun _ : Fin 2 => 1) contendedCounter = some s ∧ s.counter = 2 := by
  obtain ⟨s, hs, hfin⟩ := Option.map_eq_some_iff.1 (by decide :
    (Bench.exec (fun _ : Fin 2 => 1) contendedCounter).map (fun s => decide (∀ t, (s.workers t).finished)) =
      some true)
  obtain ⟨-, -, hall⟩ := no_lost_increment (fun _ : Fin 2 => 1) (by decide) hs
  exact ⟨s, hs, hall (of_decide_eq_true hfin)⟩

end LowLatency.LockFree
