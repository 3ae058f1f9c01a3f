import LowLatency.Lib.Fairness
import LowLatency.LockFree.Counter

/-!
# `SpinLockTest` comes to its end

`SpinLock` is not fair to its threads: one that waits can be overtaken again and again. But each thread of
`SpinLockTest` takes the lock only so many times, and so every thread gets through in the end, as long as the
scheduler gives each of them a turn again and again (`spinLockTest_terminates`).

* While a thread owns the lock, nobody else changes that, and its own turns bring it to the store of `unlock()`
  (`released`); one iteration less is left then.
* While nobody owns it, the turns of a thread that waits bring it to its exchange, unless another thread is
  faster (`acquired`).
-/

namespace LowLatency.LockFree

open Fairness

/-- `lock()` has returned, and the store of `unlock()` is not done. -/
def Phase.inside : Phase → Bool
  | .read | .write _ | .unlock | .unlocking => true
  | .start | .locking => false

/-- The turns that an owner needs until the lock is free again. -/
def Phase.toRelease : Phase → Nat
  | .start => 0
  | .locking => 5
  | .read => 4
  | .write _ => 3
  | .unlock => 2
  | .unlocking => 1

/-- The turns that a thread needs until its exchange is done, if the lock stays free. -/
def Worker.toAcquire (w : Worker) (th : Thread) : Nat :=
  match w.phase, th.pc with
  | .start, _ => 3
  | .locking, .lockLoad | .locking, .spinLoad => 2
  | .locking, .lockExchange | .locking, .retryExchange => 1
  | _, _ => 0

variable {T : Type*} [DecidableEq T]

/-! ## One step -/

/-- What a step of `t` changes: the thread, and the lock through what this thread does. An iteration ends with the store of
`unlock()`. -/
structure Bench.Moves (s : Bench T) (t : T) (s' : Bench T) : Prop where
  workers : s'.workers = Function.update s.workers t (s'.workers t)
  lock : s'.lock = s.lock ∨ ∃ a b th, s.lock.step a = some s'.lock ∧ s'.lock = s.lock.set t b th
  left : (s.workers t).phase ≠ .unlocking → (s'.workers t).left = (s.workers t).left

section
variable {s s' : Bench T} {t u : T}

theorem step_set {lock lock' : State T} {a : Act T} (ha : a = .lock t ∨ a = .unlock t ∨ a = .step t)
    (h : lock.step a = some lock') : ∃ b th, lock' = lock.set t b th := by
  rcases ha with rfl | rfl | rfl
  all_goals
    obtain ⟨r, -, rfl⟩ := Option.map_eq_some_iff.1 h
    exact ⟨_, _, rfl⟩

/-- A step in which the thread does `a` to the lock. -/
theorem moves_lock {lock : State T} {a : Act T} {phase : Phase} {left : Nat} (ha : a = .lock t ∨ a = .unlock t ∨ a = .step t)
    (h : s.lock.step a = some lock) (hleft : (s.workers t).phase ≠ .unlocking → left = (s.workers t).left) :
    s.Moves t { s.setWorker t phase left with lock } := by
  obtain ⟨b, th, hset⟩ := step_set ha h
  exact ⟨by simp [Bench.setWorker], .inr ⟨a, b, th, h, hset⟩, by simpa [Bench.setWorker] using hleft⟩

theorem step_moves (h : s.step t = some s') : s.Moves t s' := by
  cases hphase : (s.workers t).phase with
  | start =>
    simp only [Bench.step, hphase] at h
    split at h
    · cases h
    · obtain ⟨lock, hlock, rfl⟩ := Option.map_eq_some_iff.1 h
      exact moves_lock (.inl rfl) hlock fun _ => rfl
  | locking =>
    simp only [Bench.step, hphase] at h
    obtain ⟨lock, hlock, rfl⟩ := Option.map_eq_some_iff.1 h
    exact moves_lock (.inr (.inr rfl)) hlock fun _ => rfl
  | read =>
    simp only [Bench.step, hphase] at h
    obtain rfl := Option.some.inj h
    exact ⟨by simp [Bench.setWorker], .inl rfl, by simp [Bench.setWorker]⟩
  | write value =>
    simp only [Bench.step, hphase] at h
    obtain ⟨counter, -, rfl⟩ := Option.map_eq_some_iff.1 h
    exact ⟨by simp [Bench.setWorker], .inl rfl, by simp [Bench.setWorker]⟩
  | unlock =>
    simp only [Bench.step, hphase] at h
    obtain ⟨lock, hlock, rfl⟩ := Option.map_eq_some_iff.1 h
    exact moves_lock (.inr (.inl rfl)) hlock fun _ => rfl
  | unlocking =>
    simp only [Bench.step, hphase] at h
    obtain ⟨lock, hlock, rfl⟩ := Option.map_eq_some_iff.1 h
    exact moves_lock (.inr (.inr rfl)) hlock fun hne => absurd hphase hne

theorem Bench.Moves.worker_of_ne (h : s.Moves t s') (hut : u ≠ t) : s'.workers u = s.workers u := by
  rw [h.workers, Function.update_of_ne hut]

theorem Bench.Moves.thread_of_ne (h : s.Moves t s') (hut : u ≠ t) : s'.lock.threads u = s.lock.threads u := by
  obtain hsame | ⟨a, b, th, -, hset⟩ := h.lock
  · rw [hsame]
  · rw [hset]
    exact Function.update_of_ne hut _ _

theorem Bench.Moves.owner (h : s.Moves t s') {o : Option T} (ho : Owner s.lock o) :
    ∃ o', Mutex.Step o o' ∧ Owner s'.lock o' := by
  obtain hsame | ⟨a, b, th, hlock, -⟩ := h.lock
  · exact ⟨o, .stay o, hsame ▸ ho⟩
  · exact step_mutex ho hlock

/-- Another thread cannot take the lock away. -/
theorem Bench.Moves.keeps (h : s.Moves t s') {o : T} (ho : Owner s.lock (some o)) (hot : o ≠ t) :
    Owner s'.lock (some o) := by
  obtain ⟨o', -, ho'⟩ := h.owner ho
  have howns : (s'.lock.threads o).owns = true := by
    rw [h.thread_of_ne hot, ho.owns]
  obtain rfl := (ho'.owns o).1 howns
  exact ho'

/-! ## What the owner knows -/

/-- Inside, the thread owns the lock. -/
theorem Worker.Ok.owns {c : Int} {th : Thread} {w : Worker} (h : w.Ok c th) (hin : w.phase.inside = true) : th.owns = true := by
  unfold Worker.Ok at h
  split at h
  case h_6 => simp [Thread.owns, th.unlocking h.2]
  case h_4 => simp [Thread.owns, h.2.2.1]
  case h_3 => simp [Thread.owns, h.2.2]
  case h_5 => simp [Thread.owns, h.2.2]
  all_goals simp_all [Phase.inside]

/-- A thread that owns the lock is inside, or about to return from `lock()`. -/
theorem Worker.Ok.of_owns {c : Int} {th : Thread} {w : Worker} (h : w.Ok c th) (howns : th.owns = true) :
    w.phase.inside = true ∨ w.phase = .locking ∧ th.pc = .lockRet := by
  unfold Worker.Ok at h
  split at h
  case h_1 hphase => simp [Thread.owns, h.1, h.2, PC.won] at howns
  case h_2 hphase =>
    refine .inr ⟨hphase, ?_⟩
    rw [Thread.owns, h.2.2, Bool.false_or] at howns
    have hin := h.2.1
    cases hpc : th.pc <;> simp_all [PC.won, PC.inLock]
  all_goals exact .inl (by simp_all [Phase.inside])

end

variable [Fintype T]

/-- The iterations that are left to all threads. -/
def Bench.left (s : Bench T) : Nat := ∑ t, (s.workers t).left

section
variable {iterations : T → Nat} {s s' : Bench T} {t : T}

theorem Bench.Moves.sum_left (h : s.Moves t s') : s'.left + (s.workers t).left = s.left + (s'.workers t).left := by
  have hsum := Runs.sum_update Worker.left s.workers t (s'.workers t)
  rw [← h.workers] at hsum
  exact hsum

/-- The others end no iteration. -/
theorem Bench.Inv.left_eq (hi : s.Inv iterations) (h : s.Moves t s') (hnot : (s.lock.threads t).owns = false) : s'.left = s.left := by
  have hphase : (s.workers t).phase ≠ .unlocking := by
    intro hphase
    have howns := (hi.workers t).owns (by rw [hphase]; rfl)
    rw [hnot] at howns
    cases howns
  have hsum := h.sum_left
  rw [h.left hphase] at hsum
  omega

/-- A turn of the owner: it comes nearer to the store of `unlock()`, or has made it. -/
theorem Bench.Inv.owner_next (hi : s.Inv iterations) (ho : (s.lock.threads t).owns = true) (h : s.step t = some s') :
    (s'.workers t).phase.inside = true ∧ (s'.workers t).phase.toRelease < (s.workers t).phase.toRelease ∧
        (s'.workers t).left = (s.workers t).left ∨
      (s'.workers t).left < (s.workers t).left := by
  have hw := hi.workers t
  cases hphase : (s.workers t).phase with
  | start =>
    have hcases := hw.of_owns ho
    simp [hphase, Phase.inside] at hcases
  | locking =>
    have hpc : (s.lock.threads t).pc = .lockRet := by
      have hcases := hw.of_owns ho
      simpa [hphase, Phase.inside] using hcases
    have hlock : s.lock.step (.step t) = some (s.lock.set t s.lock.lock (.ret true)) := by
      simp [State.step, Thread.step, hpc]
    have hidle : (Thread.ret true).pc = .idle := rfl
    simp only [Bench.step, hphase, hlock, Option.map_some, returned_set, if_pos hidle] at h
    obtain rfl := Option.some.inj h
    simp [Bench.setWorker, Phase.inside, Phase.toRelease]
  | read =>
    simp only [Bench.step, hphase] at h
    obtain rfl := Option.some.inj h
    simp [Bench.setWorker, Phase.inside, Phase.toRelease]
  | write value =>
    simp only [Bench.step, hphase] at h
    obtain ⟨counter, -, rfl⟩ := Option.map_eq_some_iff.1 h
    simp [Bench.setWorker, Phase.inside, Phase.toRelease]
  | unlock =>
    simp only [Bench.step, hphase] at h
    obtain ⟨lock, -, rfl⟩ := Option.map_eq_some_iff.1 h
    simp [Bench.setWorker, Phase.inside, Phase.toRelease]
  | unlocking =>
    simp only [Worker.Ok, hphase] at hw
    have hlock : s.lock.step (.step t) = some (s.lock.set t false (.ret false)) := by
      simp [State.step, Thread.step, hw.2]
    have hidle : (Thread.ret false).pc = .idle := rfl
    simp only [Bench.step, hphase, hlock, Option.map_some, returned_set, if_pos hidle] at h
    obtain rfl := Option.some.inj h
    refine .inr ?_
    show (Function.update s.workers t ⟨.start, (s.workers t).left - 1⟩ t).left < (s.workers t).left
    rw [Function.update_self]
    exact Nat.sub_lt hw.1 Nat.one_pos

/-- A turn of a thread that waits, while the lock is free: it comes nearer to its exchange, or has made it. -/
theorem Bench.Inv.waiting_next (hi : s.Inv iterations) (hfree : s.lock.lock = false) (hnot : (s.lock.threads t).owns = false)
    (h : s.step t = some s') :
    s'.lock.lock = true ∨ ¬(s'.workers t).finished ∧
      (s'.workers t).toAcquire (s'.lock.threads t) < (s.workers t).toAcquire (s.lock.threads t) := by
  have hw := hi.workers t
  cases hphase : (s.workers t).phase with
  | start =>
    simp only [Worker.Ok, hphase] at hw
    have hlock : s.lock.step (.lock t) =
        some (s.lock.set t s.lock.lock ((s.lock.threads t).goto .lockLoad (by simp))) := by
      simp [State.step, Thread.lock, hw.1]
    simp only [Bench.step, hphase] at h
    split at h
    · cases h
    · rw [hlock, Option.map_some] at h
      obtain rfl := Option.some.inj h
      refine .inr ⟨by simp [Bench.setWorker, Worker.finished], ?_⟩
      simp [Bench.setWorker, State.set, Thread.goto, Worker.toAcquire, hphase]
  | locking =>
    simp only [Worker.Ok, hphase] at hw
    simp only [Bench.step, hphase] at h
    obtain ⟨lock, hlock, rfl⟩ := Option.map_eq_some_iff.1 h
    obtain ⟨⟨b, th⟩, hth, rfl⟩ := Option.map_eq_some_iff.1 hlock
    simp only [returned_set]
    cases hpc : (s.lock.threads t).pc with
    | lockRet => simp [Thread.owns, hpc, PC.won] at hnot
    | lockLoad =>
      simp only [Thread.step, hpc, hfree] at hth
      cases hth
      refine .inr ⟨by simp [Bench.setWorker, Worker.finished, Thread.goto], ?_⟩
      simp [Bench.setWorker, State.set, Thread.goto, Worker.toAcquire, hphase, hpc]
    | spinLoad =>
      simp only [Thread.step, hpc, hfree] at hth
      cases hth
      refine .inr ⟨by simp [Bench.setWorker, Worker.finished, Thread.goto], ?_⟩
      simp [Bench.setWorker, State.set, Thread.goto, Worker.toAcquire, hphase, hpc]
    | lockExchange =>
      simp only [Thread.step, hpc] at hth
      cases hth
      exact .inl rfl
    | retryExchange =>
      simp only [Thread.step, hpc] at hth
      cases hth
      exact .inl rfl
    | _ => simp [hpc, PC.inLock] at hw
  | _ =>
    have howns := hw.owns (by rw [hphase]; rfl)
    rw [hnot] at howns
    cases howns

theorem Bench.Inv.of_step (hi : s.Inv iterations) (htotal : ∑ t, iterations t < 2 ^ 31) (h : s.step t = some s') :
    s'.Inv iterations := by
  have hleft : ¬(s.workers t).finished := by
    intro hfin
    rw [Bench.step_finished hfin] at h
    cases h
  obtain ⟨u, hu, hi'⟩ := hi.step htotal hleft
  obtain rfl : u = s' := Option.some.inj (hu.symm.trans h)
  exact hi'

/-! ## The turns of a fair schedule -/

variable {order : Nat → T}

/-- An owner gives the lock back, with one iteration less to go. -/
theorem released (htotal : ∑ t, iterations t < 2 ^ 31) {o : T} (hfair : Recurs order o) (L : Nat) :
    Leads Bench.step order s (fun u => u.Inv iterations ∧ Owner u.lock (some o) ∧ u.left = L)
      (fun u => u.Inv iterations ∧ u.left < L) := by
  refine Leads.progress (fun u => (u.workers o).phase.toRelease) (fun _ => o) (fun _ _ => hfair) ?_ ?_
  · rintro u i u' hother ⟨hi, ho, rfl⟩ hstep
    have hmoves := step_moves hstep
    have hleft := hi.left_eq hmoves (ho.not_owns fun h => hother (Option.some.inj h).symm)
    exact .inr ⟨⟨hi.of_step htotal hstep, hmoves.keeps ho hother.symm, hleft⟩,
      .inr ⟨by rw [hmoves.worker_of_ne hother.symm], rfl⟩⟩
  · rintro u ⟨hi, ho, rfl⟩
    have howns := (ho.owns o).2 rfl
    have hleft : ¬(u.workers o).finished := by
      intro hfin
      have hcases := (hi.workers o).of_owns howns
      simp [hfin.1, Phase.inside] at hcases
    obtain ⟨u', hstep, hi'⟩ := hi.step htotal hleft
    refine ⟨u', hstep, ?_⟩
    have hmoves := step_moves hstep
    have hsum := hmoves.sum_left
    obtain ⟨hin, hrank, hsame⟩ | hless := hi.owner_next howns hstep
    · obtain ⟨o', -, ho'⟩ := hmoves.owner ho
      obtain rfl := (ho'.owns o).1 ((hi'.workers o).owns hin)
      exact .inr ⟨⟨hi', ho', by omega⟩, hrank⟩
    · exact .inl ⟨hi', by omega⟩

/-- While a thread waits for a free lock, some thread takes it. -/
theorem acquired (htotal : ∑ t, iterations t < 2 ^ 31) (hfair : Recurs order t) (L : Nat) :
    Leads Bench.step order s (fun u => u.Inv iterations ∧ Owner u.lock none ∧ ¬(u.workers t).finished ∧ u.left = L)
      (fun u => u.Inv iterations ∧ (∃ o, Owner u.lock (some o)) ∧ u.left = L) := by
  refine Leads.progress (fun u => (u.workers t).toAcquire (u.lock.threads t)) (fun _ => t) (fun _ _ => hfair) ?_ ?_
  · rintro u i u' hother ⟨hi, ho, hwaits, rfl⟩ hstep
    have hmoves := step_moves hstep
    have hi' := hi.of_step htotal hstep
    have hleft := hi.left_eq hmoves (ho.not_owns (by simp))
    obtain ⟨o', -, ho'⟩ := hmoves.owner ho
    cases o' with
    | none =>
      refine .inr ⟨⟨hi', ho', ?_, hleft⟩, .inr ⟨?_, rfl⟩⟩
      · rw [hmoves.worker_of_ne hother.symm]
        exact hwaits
      · rw [hmoves.worker_of_ne hother.symm, hmoves.thread_of_ne hother.symm]
    | some o => exact .inl ⟨hi', ⟨o, ho'⟩, hleft⟩
  · rintro u ⟨hi, ho, hwaits, rfl⟩
    obtain ⟨u', hstep, hi'⟩ := hi.step htotal hwaits
    refine ⟨u', hstep, ?_⟩
    have hmoves := step_moves hstep
    have hnot := ho.not_owns (t := t) (by simp)
    have hleft := hi.left_eq hmoves hnot
    obtain ⟨o', -, ho'⟩ := hmoves.owner ho
    cases o' with
    | none =>
      obtain hlock | ⟨hwaits', hrank⟩ := hi.waiting_next ho.lock hnot hstep
      · rw [ho'.lock] at hlock
        cases hlock
      · exact .inr ⟨⟨hi', ho', hwaits', hleft⟩, hrank⟩
    | some o => exact .inl ⟨hi', ⟨o, ho'⟩, hleft⟩

/-- Every thread comes to its end. -/
theorem all_finish (htotal : ∑ t, iterations t < 2 ^ 31) (hfair : ∀ t, Recurs order t) :
    Leads Bench.step order s (Bench.Inv iterations) (fun u => u.Inv iterations ∧ ∀ t, (u.workers t).finished) := by
  refine Leads.descend Bench.left ?_
  rintro L n ⟨hi, hL⟩
  have hheld : Leads Bench.step order s (fun u => u.Inv iterations ∧ (∃ o, Owner u.lock (some o)) ∧ u.left = L)
      (fun u => u.Inv iterations ∧ u.left < L) := by
    rintro n ⟨hi, ⟨o, ho⟩, hL⟩
    exact released htotal (hfair o) L n ⟨hi, ho, hL⟩
  by_cases hall : ∀ t, ((states Bench.step order s n).workers t).finished
  · exact ⟨n, Nat.le_refl n, .inr ⟨hi, hall⟩⟩
  · obtain ⟨t, hwaits⟩ := not_forall.1 hall
    obtain ⟨_ | o, ho⟩ := hi.owner
    · obtain ⟨m, hm, hless⟩ := (acquired htotal (hfair t) L).trans hheld n ⟨hi, ho, hwaits, hL⟩
      exact ⟨m, hm, .inl hless⟩
    · obtain ⟨m, hm, hless⟩ := hheld n ⟨hi, ⟨o, ho⟩, hL⟩
      exact ⟨m, hm, .inl hless⟩

omit [DecidableEq T] in
/-- When all threads have finished, every iteration has been counted. -/
theorem Bench.Inv.counter_eq (hi : s.Inv iterations) (hall : ∀ t, (s.workers t).finished) : s.counter = ∑ t, iterations t := by
  have hpending : ∑ t, (s.workers t).pending = 0 := by
    refine Finset.sum_eq_zero ?_
    intro t _
    simp [Worker.pending, (hall t).1, (hall t).2]
  have hwritten := hi.written
  rw [hpending, Nat.add_zero] at hwritten
  rw [hi.counter, hwritten]

end

/-- **`SpinLockTest` terminates** in every schedule in which the turn of each thread comes again and again: from some time on
all threads have finished their iterations, and `counter` is their number. -/
theorem spinLockTest_terminates (iterations : T → Nat) (htotal : ∑ t, iterations t < 2 ^ 31) (order : Nat → T)
    (hfair : ∀ t, Recurs order t) :
    ∃ n, ∀ m ≥ n, (∀ t, ((states Bench.step order (Bench.init iterations) m).workers t).finished) ∧
      (states Bench.step order (Bench.init iterations) m).counter = ∑ t, iterations t := by
  obtain ⟨n, -, hi, hall⟩ := all_finish (s := Bench.init iterations) htotal hfair 0 (Bench.inv_init iterations)
  refine ⟨n, ?_⟩
  intro m hm
  obtain ⟨k, rfl⟩ := Nat.exists_eq_add_of_le hm
  rw [states_stuck (fun t => Bench.step_finished (hall t)) k]
  exact ⟨hall, hi.counter_eq hall⟩

/-- Two threads take turns, for three iterations each. -/
theorem spinLockTest_terminates_alternating :
    ∃ n, (states Bench.step (fun i => Fin.ofNat 2 i) (Bench.init fun _ => 3) n).counter = 6 := by
  have hfair : ∀ t : Fin 2, Recurs (fun i => Fin.ofNat 2 i) t := by
    intro t n
    have hlt := t.isLt
    refine ⟨2 * n + t, by omega, Fin.ext ?_⟩
    show (2 * n + t) % 2 = t
    omega
  obtain ⟨n, hn⟩ := spinLockTest_terminates (fun _ => 3) (by decide) _ hfair
  exact ⟨n, (hn n (Nat.le_refl n)).2.trans (by decide)⟩

end LowLatency.LockFree
