import LowLatency.Lib.Fairness
import LowLatency.LockFree.SpinLock

/-!
# `SpinLock` is not fair

`lock()` keeps no queue, and who waits in its loop sees `lock_` only at its own turns. So another thread that takes
the lock and gives it back between two of these turns overtakes it, as often as it likes (`lock_overtaken`).

The schedule is one round of seven turns for ever: `overtaker` says where the other thread is at each place of it.
-/

namespace LowLatency.LockFree

open Fairness

variable {T : Type*}

/-- Thread `o` takes the lock, thread `t` looks at it, and `o` gives it back. -/
def overtaking (o t : T) (i : Nat) : Act T :=
  [.lock o, .step o, .step o, .step o, .step t, .unlock o, .step o].getD (i % 7) (.step t)

/-- `lock_`, and the thread that overtakes, before each turn of the round. -/
def overtaker : Nat → Bool × PC × Bool
  | 0 => (false, .idle, false)
  | 1 => (false, .lockLoad, false)
  | 2 => (false, .lockExchange, false)
  | 3 => (true, .lockRet, false)
  | 4 | 5 => (true, .idle, true)
  | _ => (true, .unlockStore, true)

/-- Before turn `j` of a round, with `t` at one of its loads. -/
structure Overtaken (o t : T) (j : Nat) (s : State T) : Prop where
  place : (s.lock, (s.threads o).pc, (s.threads o).holds) = overtaker j
  waits : (s.threads t).pc = .lockLoad ∨ (s.threads t).pc = .spinLoad
  holds : (s.threads t).holds = false

variable [DecidableEq T]

section
variable {o t : T} {j : Nat} {s : State T}

/-- A turn of the thread that overtakes. -/
theorem Overtaken.own (hs : Overtaken o t j s) (hne : o ≠ t) {k : Nat} {a : Act T} {b : Bool} {th : Thread}
    (hstep : s.step a = some (s.set o b th)) (h : (b, th.pc, th.holds) = overtaker k) :
    Overtaken o t k (turn State.step s a) := by
  have hother : (s.set o b th).threads t = s.threads t := Function.update_of_ne hne.symm _ _
  rw [turn_of_some hstep]
  refine ⟨?_, ?_, ?_⟩
  · simpa [State.set] using h
  · rw [hother]
    exact hs.waits
  · rw [hother]
    exact hs.holds

/-- A turn of the thread that waits, while the lock is taken. -/
theorem Overtaken.look (hs : Overtaken o t j s) (hne : o ≠ t) {k : Nat} (hlock : s.lock = true)
    (h : overtaker k = overtaker j) : Overtaken o t k (turn State.step s (.step t)) := by
  have hstep : s.step (.step t) = some (s.set t true ((s.threads t).goto .spinLoad (by simp))) := by
    rcases hs.waits with hpc | hpc <;> simp [State.step, Thread.step, hpc, hlock]
  rw [turn_of_some hstep]
  refine ⟨?_, .inr ?_, ?_⟩
  · rw [h, ← hs.place, hlock]
    simp [State.set, Function.update_of_ne hne]
  · simp [State.set, Thread.goto]
  · simpa [State.set, Thread.goto] using hs.holds

/-- One turn of the round. -/
theorem overtaken_turn (hne : o ≠ t) (hj : j < 7) (hs : Overtaken o t j s) :
    Overtaken o t ((j + 1) % 7) (turn State.step s (overtaking o t j)) := by
  have hplace := hs.place
  obtain rfl | rfl | rfl | rfl | rfl | rfl | rfl : j = 0 ∨ j = 1 ∨ j = 2 ∨ j = 3 ∨ j = 4 ∨ j = 5 ∨ j = 6 := by omega
  all_goals
    simp only [overtaker, Prod.mk.injEq] at hplace
    obtain ⟨hlock, hpc, hholds⟩ := hplace
  · have hstep : s.step (.lock o) = some (s.set o false ((s.threads o).goto .lockLoad (by simp))) := by
      simp [State.step, Thread.lock, hpc, hlock]
    exact hs.own hne hstep (by simp [overtaker, Thread.goto, hholds])
  · have hstep : s.step (.step o) = some (s.set o false ((s.threads o).goto .lockExchange (by simp))) := by
      simp [State.step, Thread.step, hpc, hlock]
    exact hs.own hne hstep (by simp [overtaker, Thread.goto, hholds])
  · have hstep : s.step (.step o) = some (s.set o true ((s.threads o).goto .lockRet (by simp))) := by
      simp [State.step, Thread.step, hpc, hlock]
    exact hs.own hne hstep (by simp [overtaker, Thread.goto, hholds])
  · have hstep : s.step (.step o) = some (s.set o true (.ret true)) := by
      simp [State.step, Thread.step, hpc, hlock]
    exact hs.own hne hstep (by simp [overtaker, Thread.ret])
  · exact hs.look hne hlock rfl
  · have hstep : s.step (.unlock o) = some (s.set o true ⟨.unlockStore, true, fun _ => rfl⟩) := by
      simp [State.step, Thread.unlock, hpc, hlock, hholds]
    exact hs.own hne hstep (by simp [overtaker])
  · have hstep : s.step (.step o) = some (s.set o false (.ret false)) := by
      simp [State.step, Thread.step, hpc]
    exact hs.own hne hstep (by simp [overtaker, Thread.ret])

omit [DecidableEq T] in
theorem overtaking_mod (o t : T) (i : Nat) : overtaking o t i = overtaking o t (i % 7) := by
  rw [overtaking, overtaking, Nat.mod_mod]

/-- The whole schedule. -/
theorem overtaken_states (hne : o ≠ t) (hs : Overtaken o t 0 s) (n : Nat) :
    Overtaken o t (n % 7) (states State.step (overtaking o t) s n) := by
  induction n with
  | zero => exact hs
  | succ n ih =>
    have hturn := overtaken_turn hne (Nat.mod_lt n (by decide)) ih
    rw [states, overtaking_mod, Nat.add_mod]
    exact hturn

omit [DecidableEq T] in
theorem Overtaken.owns (hs : Overtaken o t j s) : (s.threads t).owns = false := by
  rcases hs.waits with hpc | hpc <;> simp [Thread.owns, hs.holds, hpc, PC.won]

end

/-- **Overtaking**: in every reachable state in which the lock is free and thread `t` waits for it, another thread that is in no
call can take the lock and give it back again and again from then on. Thread `t` has its turn again and again, but it is in
`lock()` all the time and never gets the lock. -/
theorem lock_overtaken {acts : List (Act T)} {s : State T} (h : State.exec acts = some s) (hfree : s.lock = false) {o t : T}
    (hne : o ≠ t) (ho : (s.threads o).pc = .idle) (ht : (s.threads t).pc = .lockLoad ∨ (s.threads t).pc = .spinLoad) :
    ∃ order, Recurs order (.step t) ∧ ∀ n,
      (((states State.step order s n).threads t).pc = .lockLoad ∨ ((states State.step order s n).threads t).pc = .spinLoad) ∧
      ((states State.step order s n).threads t).owns = false ∧
      (∃ m ≥ n, ((states State.step order s m).threads o).holds = true) ∧
      ∃ m ≥ n, (states State.step order s m).lock = false ∧ ((states State.step order s m).threads o).holds = false := by
  have howner : Owner s none := by
    obtain ⟨_ | u, hu⟩ := owner_of_exec h
    · exact hu
    · rw [hu.lock] at hfree
      cases hfree
  have hholds : ∀ u, (s.threads u).holds = false := by
    intro u
    have hnot := howner.not_owns (t := u) nofun
    rw [Thread.owns, Bool.or_eq_false_iff] at hnot
    exact hnot.1
  have hs : Overtaken o t 0 s := ⟨by rw [hfree, ho, hholds o]; rfl, ht, hholds t⟩
  have hplace : ∀ n j, j < 7 → Overtaken o t j (states State.step (overtaking o t) s (7 * n + j)) := by
    intro n j hj
    have hstate := overtaken_states hne hs (7 * n + j)
    rwa [show (7 * n + j) % 7 = j by omega] at hstate
  refine ⟨overtaking o t, ?_, ?_⟩
  · intro n
    refine ⟨7 * n + 4, by omega, ?_⟩
    rw [overtaking_mod, show (7 * n + 4) % 7 = 4 by omega]
    rfl
  · intro n
    have hn := overtaken_states hne hs n
    refine ⟨hn.waits, hn.owns, ⟨7 * n + 4, by omega, ?_⟩, 7 * n + 0, by omega, ?_⟩
    · have htaken := (hplace n 4 (by decide)).place
      rw [overtaker, Prod.mk.injEq, Prod.mk.injEq] at htaken
      exact htaken.2.2
    · have hback := (hplace n 0 (by decide)).place
      rw [overtaker, Prod.mk.injEq, Prod.mk.injEq] at hback
      exact ⟨hback.1, hback.2.2⟩

/-- A thread that has just called `lock()`. -/
theorem lock_overtaken_first :
    ∃ s, State.exec [.lock 1] = some s ∧ ∃ order : Nat → Act (Fin 2), Recurs order (.step 1) ∧
      ∀ n, ((states State.step order s n).threads 1).owns = false ∧
        (∃ m ≥ n, ((states State.step order s m).threads 0).holds = true) ∧
        ∃ m ≥ n, (states State.step order s m).lock = false := by
  obtain ⟨s, hs, hrun⟩ := Option.map_eq_some_iff.1 (by decide : (State.exec [.lock (1 : Fin 2)]).map
    (fun s => (s.lock, (s.threads 0).pc, (s.threads 1).pc)) = some (false, .idle, .lockLoad))
  rw [Prod.mk.injEq, Prod.mk.injEq] at hrun
  obtain ⟨hfree, ho, ht⟩ := hrun
  obtain ⟨order, hfair, hall⟩ := lock_overtaken hs hfree (by decide) ho (.inl ht)
  refine ⟨s, hs, order, hfair, ?_⟩
  intro n
  obtain ⟨-, howns, htaken, m, hm, hback, -⟩ := hall n
  exact ⟨howns, htaken, m, hm, hback⟩

end LowLatency.LockFree
