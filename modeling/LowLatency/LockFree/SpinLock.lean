import Mathlib.Logic.Function.Basic
import LowLatency.Lib.Runs

/-!
# `SpinLock`: mutual exclusion at every atomic step

| here | there |
| --- | --- |
| `State.lock`           | `std::atomic<bool> lock_` (`lock_free.cc:124`) |
| `PC`                   | the atomic access a thread is about to make in `lock` (`:162-187`), `try_lock` (`:219-220`), `unlock` (`:204`) |
| `Thread.step`          | that access and the branch taken on its result |
| `Thread.holds`         | the thread has returned from `lock()`, or from `try_lock()` with true, and has not stored false since |
| `Act`                  | a thread calls one of the three functions, or takes its next step |

Threads are the elements of an arbitrary type; every interleaving of loads, exchanges and stores
is a run. A thread may call `lock()` or `try_lock()` at any time, also while it holds the lock, and
`unlock()` only while it holds it.

What the lock is for is `Mutex`: one optional owner. `step_mutex` is the refinement: each atomic
step leaves the owner alone, takes a free lock, or gives it back. A losing exchange writes `true`
over `true`, so it is a step of the first kind whatever the load before it saw.
-/

namespace LowLatency.LockFree

/-! ## The code of one thread -/

/-- The next atomic access of a thread. -/
inductive PC where
  /-- in no call -/
  | idle
  /-- `!lock_.load(relaxed)` of the fast path of `lock` -/
  | lockLoad
  /-- `!lock_.exchange(true, acquire)` of the fast path -/
  | lockExchange
  /-- `while (lock_.load(relaxed))` -/
  | spinLoad
  /-- `if (!lock_.exchange(true, acquire)) break;` -/
  | retryExchange
  /-- an exchange of `lock` has returned false; `lock` returns -/
  | lockRet
  /-- `!lock_.load(relaxed)` of `try_lock` -/
  | tryLoad
  /-- `!lock_.exchange(true, acquire)` of `try_lock` -/
  | tryExchange
  /-- `try_lock` returns `b` -/
  | tryRet (b : Bool)
  /-- `lock_.store(false, release)` -/
  | unlockStore
deriving DecidableEq

/-- The exchange that wins the lock is done, the call has not returned yet. -/
def PC.won : PC → Bool
  | .lockRet => true
  | .tryRet b => b
  | _ => false

/-- The next access is an exchange. -/
def PC.exchanges : PC → Bool
  | .lockExchange | .retryExchange | .tryExchange => true
  | _ => false

/-- A thread; only one that holds the lock is inside `unlock`. -/
structure Thread where
  pc : PC
  holds : Bool
  unlocking : pc = .unlockStore → holds = true
deriving DecidableEq

/-- The thread holds the lock or has won it. -/
def Thread.owns (th : Thread) : Bool := th.holds || th.pc.won

def Thread.new : Thread := ⟨.idle, false, by simp⟩

/-- The thread moves on inside a call. -/
def Thread.goto (th : Thread) (pc : PC) (h : pc ≠ .unlockStore) : Thread :=
  ⟨pc, th.holds, fun e => absurd e h⟩

/-- The call returns and the thread holds the lock, or does not. -/
def Thread.ret (holds : Bool) : Thread := ⟨.idle, holds, by simp⟩

/-- `lock()` is called. -/
def Thread.lock (th : Thread) : Option Thread :=
  match th.pc with
  | .idle => some (th.goto .lockLoad (by simp))
  | _ => none

/-- `try_lock()` is called. -/
def Thread.tryLock (th : Thread) : Option Thread :=
  match th.pc with
  | .idle => some (th.goto .tryLoad (by simp))
  | _ => none

/-- `unlock()` is called, by a thread that holds the lock. -/
def Thread.unlock (th : Thread) : Option Thread :=
  match th.pc with
  | .idle => if th.holds then some ⟨.unlockStore, true, fun _ => rfl⟩ else none
  | _ => none

/-- One atomic access: the value left in `lock_` and the thread after it. -/
def Thread.step (lock : Bool) (th : Thread) : Option (Bool × Thread) :=
  match th.pc with
  | .idle => none
  | .lockLoad => some (lock, th.goto (if lock then .spinLoad else .lockExchange) (by split <;> simp))
  | .lockExchange => some (true, th.goto (if lock then .spinLoad else .lockRet) (by split <;> simp))
  | .spinLoad => some (lock, th.goto (if lock then .spinLoad else .retryExchange) (by split <;> simp))
  | .retryExchange => some (true, th.goto (if lock then .spinLoad else .lockRet) (by split <;> simp))
  | .lockRet => some (lock, .ret true)
  | .tryLoad => some (lock, th.goto (if lock then .tryRet false else .tryExchange) (by split <;> simp))
  | .tryExchange => some (true, th.goto (.tryRet !lock) (by simp))
  | .tryRet b => some (lock, .ret (th.holds || b))
  | .unlockStore => some (false, .ret false)

/-! ## All threads -/

structure State (T : Type*) where
  lock : Bool
  threads : T → Thread

inductive Act (T : Type*) where
  | lock (t : T)
  | tryLock (t : T)
  | unlock (t : T)
  /-- the next atomic access of the call in progress -/
  | step (t : T)
deriving DecidableEq

variable {T : Type*}

/-- `lock_ = {false}`, no thread in a call. -/
def State.init : State T := ⟨false, fun _ => .new⟩

variable [DecidableEq T]

/-- Thread `t` becomes `th`, and `lock_` is left with `lock`. -/
def State.set (s : State T) (t : T) (lock : Bool) (th : Thread) : State T :=
  ⟨lock, Function.update s.threads t th⟩

def State.step (s : State T) : Act T → Option (State T)
  | .lock t => (s.threads t).lock.map (s.set t s.lock)
  | .tryLock t => (s.threads t).tryLock.map (s.set t s.lock)
  | .unlock t => (s.threads t).unlock.map (s.set t s.lock)
  | .step t => ((s.threads t).step s.lock).map fun r => s.set t r.1 r.2

def State.exec (acts : List (Act T)) : Option (State T) := Runs.run State.step State.init acts

/-! ## What each step can do -/

section
variable {th th' : Thread} {lock lock' : Bool}

@[simp] theorem goto_owns (pc : PC) (h : pc ≠ .unlockStore) : (th.goto pc h).owns = (th.holds || pc.won) := rfl

@[simp] theorem ret_owns (b : Bool) : (Thread.ret b).owns = b := by simp [Thread.ret, Thread.owns, PC.won]

/-- A thread that is not past a winning exchange owns the lock if it holds it. -/
theorem owns_eq_holds (h : th.pc.won = false) : th.owns = th.holds := by simp [Thread.owns, h]

/-- Moving on before any winning exchange. -/
theorem goto_owns_eq {pc : PC} {h : pc ≠ .unlockStore} (hpc : th.pc.won = false) (hwon : pc.won = false) :
    (th.goto pc h).owns = th.owns := by
  rw [owns_eq_holds hpc]
  simp [hwon]

theorem lock_owns (h : th.lock = some th') : th'.owns = th.owns := by
  unfold Thread.lock at h
  split at h
  · rename_i hpc
    cases h
    exact goto_owns_eq (by rw [hpc]; rfl) rfl
  · cases h

theorem tryLock_owns (h : th.tryLock = some th') : th'.owns = th.owns := by
  unfold Thread.tryLock at h
  split at h
  · rename_i hpc
    cases h
    exact goto_owns_eq (by rw [hpc]; rfl) rfl
  · cases h

theorem unlock_owns (h : th.unlock = some th') : th'.owns = th.owns := by
  unfold Thread.unlock at h
  split at h
  · split at h
    · rename_i hholds
      cases h
      simp [Thread.owns, hholds]
    · cases h
  · cases h

/-- What an atomic access does to `lock_` and to the thread's ownership. -/
inductive Effect (lock : Bool) (th : Thread) : Bool → Thread → Prop where
  | stay (th' : Thread) (h : th'.owns = th.owns) : Effect lock th lock th'
  | acquire (th' : Thread) (hfree : lock = false) (h : th'.owns = true) : Effect lock th true th'
  | release (th' : Thread) (h : th.owns = true) (h' : th'.owns = false) : Effect lock th false th'

/-- An exchange finds the lock free and takes it, or finds it taken and changes nothing. -/
theorem exchange_effect {pc : PC} {h : pc ≠ .unlockStore} (hpc : th.pc.won = false) (hwon : pc.won = !lock) :
    Effect lock th true (th.goto pc h) := by
  cases lock with
  | false => exact .acquire _ rfl (by simp [hwon])
  | true => exact .stay _ (by simp [hwon, owns_eq_holds hpc])

theorem step_effect (h : th.step lock = some (lock', th')) : Effect lock th lock' th' := by
  unfold Thread.step at h
  cases hpc : th.pc <;> simp only [hpc] at h
  case idle => cases h
  case lockLoad =>
    cases h
    exact .stay _ (goto_owns_eq (by rw [hpc]; rfl) (by cases lock <;> rfl))
  case lockExchange =>
    cases h
    exact exchange_effect (by rw [hpc]; rfl) (by cases lock <;> rfl)
  case spinLoad =>
    cases h
    exact .stay _ (goto_owns_eq (by rw [hpc]; rfl) (by cases lock <;> rfl))
  case retryExchange =>
    cases h
    exact exchange_effect (by rw [hpc]; rfl) (by cases lock <;> rfl)
  case lockRet =>
    cases h
    refine .stay _ ?_
    rw [ret_owns]
    simp [Thread.owns, hpc, PC.won]
  case tryLoad =>
    cases h
    exact .stay _ (goto_owns_eq (by rw [hpc]; rfl) (by cases lock <;> rfl))
  case tryExchange =>
    cases h
    exact exchange_effect (by rw [hpc]; rfl) rfl
  case tryRet b =>
    cases h
    refine .stay _ ?_
    rw [ret_owns]
    simp [Thread.owns, hpc, PC.won]
  case unlockStore =>
    cases h
    exact .release _ (by simp [Thread.owns, th.unlocking hpc]) (ret_owns false)

/-- A losing exchange changes neither `lock_` nor what its thread owns or holds. -/
theorem losing_exchange (hpc : th.pc.exchanges = true) (h : th.step true = some (lock', th')) :
    lock' = true ∧ th'.owns = th.owns ∧ th'.holds = th.holds := by
  unfold Thread.step at h
  cases hpc' : th.pc <;> simp only [hpc'] at h hpc <;> simp only [PC.exchanges, Bool.false_eq_true] at hpc
  all_goals
    cases h
    exact ⟨rfl, goto_owns_eq (by rw [hpc']; rfl) rfl, rfl⟩

end

/-- Each step changes one thread, by one of the effects. -/
theorem step_some {s s' : State T} {a : Act T} (h : s.step a = some s') :
    ∃ t lock th, s' = s.set t lock th ∧ Effect s.lock (s.threads t) lock th := by
  cases a with
  | lock t =>
    obtain ⟨th, hth, rfl⟩ := Option.map_eq_some_iff.1 h
    exact ⟨t, s.lock, th, rfl, .stay th (lock_owns hth)⟩
  | tryLock t =>
    obtain ⟨th, hth, rfl⟩ := Option.map_eq_some_iff.1 h
    exact ⟨t, s.lock, th, rfl, .stay th (tryLock_owns hth)⟩
  | unlock t =>
    obtain ⟨th, hth, rfl⟩ := Option.map_eq_some_iff.1 h
    exact ⟨t, s.lock, th, rfl, .stay th (unlock_owns hth)⟩
  | step t =>
    obtain ⟨⟨lock, th⟩, hth, rfl⟩ := Option.map_eq_some_iff.1 h
    exact ⟨t, lock, th, rfl, step_effect hth⟩

/-! ## The lock as a mutex -/

/-- A mutex is its owner. -/
inductive Mutex.Step : Option T → Option T → Prop where
  | stay (o : Option T) : Step o o
  | acquire (t : T) : Step none (some t)
  | release (t : T) : Step (some t) none

/-- The spin lock in this state is a mutex owned by `o`. -/
structure Owner (s : State T) (o : Option T) : Prop where
  lock : s.lock = o.isSome
  owns : ∀ t, (s.threads t).owns = true ↔ o = some t

omit [DecidableEq T] in
theorem owner_init : Owner (State.init : State T) none where
  lock := rfl
  owns := by simp [State.init, Thread.new, Thread.owns, PC.won]

omit [DecidableEq T] in
theorem Owner.not_owns {s : State T} {o : Option T} (h : Owner s o) {t : T} (hne : o ≠ some t) : (s.threads t).owns = false := by
  rw [Bool.eq_false_iff, Ne, h.owns]
  exact hne

/-- **Refinement**: every step of the spin lock is a step of the mutex. -/
theorem step_mutex {s s' : State T} {a : Act T} {o : Option T} (hs : Owner s o) (h : s.step a = some s') :
    ∃ o', Mutex.Step o o' ∧ Owner s' o' := by
  obtain ⟨t, lock, th, rfl, heff⟩ := step_some h
  have hupd : ∀ u, ((s.set t lock th).threads u).owns = if u = t then th.owns else (s.threads u).owns := by
    intro u
    by_cases hut : u = t
    · subst hut; simp [State.set]
    · simp [State.set, hut]
  cases heff with
  | stay _ howns =>
    refine ⟨o, .stay o, hs.lock, ?_⟩
    intro u
    rw [hupd u, howns, ← hs.owns u]
    by_cases hut : u = t
    · subst hut; simp
    · simp [hut]
  | acquire _ hfree howns =>
    -- a free lock has no owner
    obtain rfl : o = none := by simpa [hs.lock] using hfree
    refine ⟨some t, .acquire t, rfl, ?_⟩
    intro u
    have hnone := hs.owns u
    rw [hupd u, howns]
    by_cases hut : u = t
    · subst hut; simp
    · simpa [hut, Ne.symm hut] using hnone
  | release _ howns hlost =>
    obtain rfl : o = some t := (hs.owns t).1 howns
    refine ⟨none, .release t, rfl, ?_⟩
    intro u
    have hsome := hs.owns u
    rw [hupd u, hlost]
    by_cases hut : u = t
    · subst hut; simp
    · simpa [hut, Ne.symm hut] using hsome

theorem owner_of_exec {acts : List (Act T)} {s : State T} (h : State.exec acts = some s) : ∃ o, Owner s o := by
  refine Runs.run_inv (I := fun s => ∃ o, Owner s o) ?_ ⟨none, owner_init⟩ Runs.meets_true h
  rintro s a s' ⟨o, ho⟩ - hst
  obtain ⟨o', -, ho'⟩ := step_mutex ho hst
  exact ⟨o', ho'⟩

/-- **Mutual exclusion**, in every reachable state: at most one thread holds the lock or has won it,
`lock_` is true exactly when there is such a thread, and an exchange that finds `lock_` true changes
neither `lock_` nor who owns or holds the lock. -/
theorem spinLock_mutual_exclusion {acts : List (Act T)} {s : State T} (h : State.exec acts = some s) :
    (∀ t u, (s.threads t).owns = true → (s.threads u).owns = true → t = u) ∧
    (s.lock = true ↔ ∃ t, (s.threads t).owns = true) ∧
    ∀ t s', (s.threads t).pc.exchanges = true → s.lock = true → s.step (.step t) = some s' →
      s'.lock = s.lock ∧
        ∀ u, (s'.threads u).owns = (s.threads u).owns ∧ (s'.threads u).holds = (s.threads u).holds := by
  obtain ⟨o, ho⟩ := owner_of_exec h
  refine ⟨?_, ?_, ?_⟩
  · intro t u ht hu
    have := ((ho.owns t).1 ht).symm.trans ((ho.owns u).1 hu)
    exact Option.some.inj this
  · rw [ho.lock, Option.isSome_iff_exists]
    exact exists_congr fun t => (ho.owns t).symm
  · intro t s' hpc hlock hst
    obtain ⟨⟨lock', th⟩, hth, rfl⟩ := Option.map_eq_some_iff.1 hst
    rw [hlock] at hth
    obtain ⟨rfl, howns, hholds⟩ := losing_exchange hpc hth
    refine ⟨hlock.symm, ?_⟩
    intro u
    by_cases hut : u = t
    · subst hut
      simpa [State.set] using ⟨howns, hholds⟩
    · simp [State.set, hut]

/-- Both threads load `lock_` as false; thread 0 exchanges first. -/
def contended : List (Act (Fin 2)) := [.lock 0, .tryLock 1, .step 0, .step 1, .step 0]

/-- Thread 1, whose load is stale by now, loses its exchange, and thread 0 stays the owner. -/
theorem spinLock_mutual_exclusion_contended :
    ∃ s s', State.exec contended = some s ∧ s.step (.step 1) = some s' ∧ s'.lock = s.lock ∧
      (s'.threads 0).owns = true ∧ (s'.threads 1).owns = false := by
  obtain ⟨s, hs, hx⟩ := Option.map_eq_some_iff.1 (by decide : (State.exec contended).map (fun s =>
    (s.lock, (s.threads 1).pc, (s.threads 0).owns, (s.threads 1).owns, (s.step (.step 1)).isSome)) =
      some (true, .tryExchange, true, false, true))
  simp only [Prod.mk.injEq] at hx
  obtain ⟨hlock, hpc, h0, h1, hsome⟩ := hx
  obtain ⟨s', hs'⟩ := Option.isSome_iff_exists.1 hsome
  obtain ⟨-, -, hlose⟩ := spinLock_mutual_exclusion hs
  obtain ⟨hl, ho⟩ := hlose 1 s' (by rw [hpc]; rfl) hlock hs'
  exact ⟨s, s', hs, hs', hl, (ho 0).1.trans h0, (ho 1).1.trans h1⟩

end LowLatency.LockFree
