import Mathlib.Algebra.BigOperators.Ring.Finset
import LowLatency.Lib.Fairness

/-!
# Rounds of forked and joined workers

A control thread repeats a round: it prepares the shared state, spawns `n` workers one by one, and
joins them one by one. The workers run the same program; their steps interleave with each other and
with the spawns and joins of the control thread in any order.

`Rounds` is the proof rule. A property `between` of the shared state holds from one round to the
next, a property `inside` of the shared state and of where each worker is holds during a round. What
has to be shown is one obligation for each kind of step; `Rounds.reach` gives the properties in every
reachable state, and with `Good.all_joined` what holds when the last worker has been joined.

That the last worker is joined at all is `Rounds.joins`: a worker that has not finished can go on, and each of its
steps lowers a rank (`Terminates`). Then every step of a round is one less to its end.
-/

namespace ForkJoin

/-- What the workers do, and what the control thread does to the shared state. -/
structure Program (n : Nat) (σ W : Type*) where
  /-- before the first round -/
  initial : σ
  /-- at the beginning of each round -/
  prepare : σ → σ
  /-- a worker just spawned -/
  start : W
  step : Fin n → σ → W → Option (σ × W)
  finished : W → Bool

/-- A worker in this round. -/
inductive Slot (W : Type*) where
  | unspawned
  | running (w : W)
  | joined
deriving DecidableEq

inductive Control where
  | prepare
  /-- worker `i` is to be spawned next -/
  | spawn (i : Nat)
  /-- worker `i` is to be joined next -/
  | join (i : Nat)
deriving DecidableEq

structure State (n : Nat) (σ W : Type*) where
  control : Control
  shared : σ
  slots : Fin n → Slot W

inductive Act (n : Nat) where
  | control
  | worker (i : Fin n)
deriving DecidableEq

variable {n : Nat} {σ W : Type*} {p : Program n σ W}

def Program.init (p : Program n σ W) : State n σ W := ⟨.prepare, p.initial, fun _ => .unspawned⟩

def Program.controlStep (p : Program n σ W) (s : State n σ W) : Option (State n σ W) :=
  match s.control with
  | .prepare => some ⟨.spawn 0, p.prepare s.shared, fun _ => .unspawned⟩
  | .spawn i =>
    if h : i < n then some ⟨.spawn (i + 1), s.shared, Function.update s.slots ⟨i, h⟩ (.running p.start)⟩
    else some ⟨.join 0, s.shared, s.slots⟩
  | .join i =>
    if h : i < n then
      match s.slots ⟨i, h⟩ with
      | .running w =>
        if p.finished w then some ⟨.join (i + 1), s.shared, Function.update s.slots ⟨i, h⟩ .joined⟩ else none
      | _ => none
    else some ⟨.prepare, s.shared, s.slots⟩

def Program.workerStep (p : Program n σ W) (s : State n σ W) (i : Fin n) : Option (State n σ W) :=
  match s.slots i with
  | .running w => (p.step i s.shared w).map fun r => ⟨s.control, r.1, Function.update s.slots i (.running r.2)⟩
  | _ => none

def Program.next (p : Program n σ W) (s : State n σ W) : Act n → Option (State n σ W)
  | .control => p.controlStep s
  | .worker i => p.workerStep s i

def Program.exec (p : Program n σ W) (acts : List (Act n)) : Option (State n σ W) := Runs.run p.next p.init acts

/-! ## What a step can do -/

variable {s s' : State n σ W}

/-- The control thread's steps. -/
inductive ControlStep (p : Program n σ W) (s : State n σ W) : State n σ W → Prop where
  | prepare (hc : s.control = .prepare) : ControlStep p s ⟨.spawn 0, p.prepare s.shared, fun _ => .unspawned⟩
  | spawn (i : Fin n) (hc : s.control = .spawn i) :
      ControlStep p s ⟨.spawn (i + 1), s.shared, Function.update s.slots i (.running p.start)⟩
  | spawned (k : Nat) (hk : n ≤ k) (hc : s.control = .spawn k) : ControlStep p s ⟨.join 0, s.shared, s.slots⟩
  | join (i : Fin n) (w : W) (hc : s.control = .join i) (hw : s.slots i = .running w) (hfin : p.finished w = true) :
      ControlStep p s ⟨.join (i + 1), s.shared, Function.update s.slots i .joined⟩
  | joined (k : Nat) (hk : n ≤ k) (hc : s.control = .join k) : ControlStep p s ⟨.prepare, s.shared, s.slots⟩

theorem controlStep_cases (hstep : p.controlStep s = some s') : ControlStep p s s' := by
  unfold Program.controlStep at hstep
  split at hstep
  · rename_i hc
    obtain rfl := Option.some.inj hstep
    exact .prepare hc
  · rename_i k hc
    split at hstep
    · rename_i hk
      obtain rfl := Option.some.inj hstep
      exact .spawn ⟨k, hk⟩ hc
    · rename_i hk
      obtain rfl := Option.some.inj hstep
      exact .spawned k (Nat.le_of_not_lt hk) hc
  · rename_i k hc
    split at hstep
    · rename_i hk
      split at hstep
      · rename_i w hw
        split at hstep
        · rename_i hfin
          obtain rfl := Option.some.inj hstep
          exact .join ⟨k, hk⟩ w hc hw hfin
        · cases hstep
      · cases hstep
    · rename_i hk
      obtain rfl := Option.some.inj hstep
      exact .joined k (Nat.le_of_not_lt hk) hc

theorem workerStep_cases {i : Fin n} (hstep : p.workerStep s i = some s') :
    ∃ w shared' w', s.slots i = .running w ∧ p.step i s.shared w = some (shared', w') ∧
      s' = ⟨s.control, shared', Function.update s.slots i (.running w')⟩ := by
  unfold Program.workerStep at hstep
  split at hstep
  · rename_i w hw
    obtain ⟨⟨shared', w'⟩, hp, rfl⟩ := Option.map_eq_some_iff.1 hstep
    exact ⟨w, shared', w', hw, hp, rfl⟩
  · cases hstep

/-- A worker's own step is the step of its program. -/
theorem next_worker {i : Fin n} {w w' : W} {shared' : σ} (hw : s.slots i = .running w)
    (hstep : p.step i s.shared w = some (shared', w')) :
    p.next s (.worker i) = some ⟨s.control, shared', Function.update s.slots i (.running w')⟩ := by
  simp [Program.next, Program.workerStep, hw, hstep]

/-! ## The rule -/

/-- The obligations. -/
structure Rounds (p : Program n σ W) (between : σ → Prop) (inside : σ → (Fin n → Slot W) → Prop) : Prop where
  initial : between p.initial
  prepare : ∀ {shared}, between shared → inside (p.prepare shared) fun _ => .unspawned
  spawn : ∀ {shared slots i}, inside shared slots → slots i = .unspawned →
    inside shared (Function.update slots i (.running p.start))
  step : ∀ {shared slots i w shared' w'}, inside shared slots → slots i = .running w →
    p.step i shared w = some (shared', w') → inside shared' (Function.update slots i (.running w'))
  join : ∀ {shared slots i w}, inside shared slots → slots i = .running w → p.finished w = true →
    inside shared (Function.update slots i .joined)
  finish : ∀ {shared slots}, inside shared slots → (∀ i, slots i = .joined) → between shared

/-- The properties, with what the position of the control thread says about the workers. -/
def Good (between : σ → Prop) (inside : σ → (Fin n → Slot W) → Prop) (s : State n σ W) : Prop :=
  match s.control with
  | .prepare => between s.shared ∧ ∀ i w, s.slots i ≠ .running w
  | .spawn k => inside s.shared s.slots ∧ (∀ i : Fin n, k ≤ i.val → s.slots i = .unspawned) ∧
      ∀ i : Fin n, i.val < k → ∃ w, s.slots i = .running w
  | .join k => inside s.shared s.slots ∧ (∀ i : Fin n, i.val < k → s.slots i = .joined) ∧
      (∀ i : Fin n, k ≤ i.val → ∃ w, s.slots i = .running w) ∧ k ≤ n

variable {between : σ → Prop} {inside : σ → (Fin n → Slot W) → Prop}

section
variable {slots : Fin n → Slot W} {i : Fin n} {slot : Slot W} {P : Slot W → Prop}

theorem update_below (h : ∀ j : Fin n, j.val < i.val → P (slots j)) (hi : P slot) (j : Fin n) (hj : j.val < i.val + 1) :
    P (Function.update slots i slot j) := by
  by_cases heq : j = i
  · subst heq
    rwa [Function.update_self]
  · have hne : j.val ≠ i.val := fun hval => heq (Fin.ext hval)
    rw [Function.update_of_ne heq]
    exact h j (by omega)

theorem update_above (h : ∀ j : Fin n, i.val ≤ j.val → P (slots j)) (j : Fin n) (hj : i.val + 1 ≤ j.val) :
    P (Function.update slots i slot j) := by
  have hne : j ≠ i := by
    rintro rfl
    exact absurd hj (Nat.not_succ_le_self _)
  rw [Function.update_of_ne hne]
  exact h j (Nat.le_of_succ_le hj)

end

theorem Rounds.controlStep (h : Rounds p between inside) (hs : Good between inside s)
    (hstep : p.controlStep s = some s') : Good between inside s' := by
  unfold Good at hs
  cases controlStep_cases hstep with
  | prepare hc =>
    rw [hc] at hs
    exact ⟨h.prepare hs.1, fun _ _ => rfl, fun i hi => absurd hi (Nat.not_lt_zero _)⟩
  | spawn i hc =>
    rw [hc] at hs
    obtain ⟨hi, hunspawned, hrunning⟩ := hs
    refine ⟨h.spawn hi (hunspawned i (Nat.le_refl _)), ?_, ?_⟩
    · exact update_above (P := fun slot => slot = .unspawned) hunspawned
    · exact update_below (P := fun slot => ∃ w, slot = .running w) hrunning ⟨_, rfl⟩
  | spawned k hk hc =>
    rw [hc] at hs
    obtain ⟨hi, -, hrunning⟩ := hs
    exact ⟨hi, fun i hlt => absurd hlt (Nat.not_lt_zero _), fun i _ => hrunning i (by omega), Nat.zero_le n⟩
  | join i w hc hw hfin =>
    rw [hc] at hs
    obtain ⟨hi, hjoined, hrunning, -⟩ := hs
    refine ⟨h.join hi hw hfin, ?_, ?_, i.isLt⟩
    · exact update_below (P := fun slot => slot = .joined) hjoined rfl
    · exact update_above (P := fun slot => ∃ w, slot = .running w) hrunning
  | joined k hk hc =>
    rw [hc] at hs
    obtain ⟨hi, hjoined, -, -⟩ := hs
    have hall : ∀ i, s.slots i = .joined := fun i => hjoined i (by omega)
    refine ⟨h.finish hi hall, ?_⟩
    intro i w
    rw [hall i]
    exact nofun

theorem Rounds.workerStep (h : Rounds p between inside) (hs : Good between inside s) {i : Fin n}
    (hstep : p.workerStep s i = some s') : Good between inside s' := by
  obtain ⟨w, shared', w', hw, hp, rfl⟩ := workerStep_cases hstep
  -- a slot that the control thread knows to be unspawned or joined is not the one that moved
  have hother : ∀ j slot, s.slots j = slot → slot ≠ .running w →
      Function.update s.slots i (.running w') j = slot := by
    intro j slot hj hne
    rw [Function.update_of_ne, hj]
    rintro rfl
    exact hne (hj.symm.trans hw)
  have hruns : ∀ j, (∃ v, s.slots j = .running v) → ∃ v, Function.update s.slots i (.running w') j = .running v := by
    rintro j ⟨v, hv⟩
    by_cases hji : j = i
    · subst hji
      exact ⟨w', Function.update_self _ _ _⟩
    · exact ⟨v, (Function.update_of_ne hji _ _).trans hv⟩
  unfold Good at hs ⊢
  cases hc : s.control with
  | prepare =>
    rw [hc] at hs
    exact absurd hw (hs.2 i w)
  | spawn k =>
    rw [hc] at hs
    obtain ⟨hi, hunspawned, hrunning⟩ := hs
    exact ⟨h.step hi hw hp, fun j hj => hother j _ (hunspawned j hj) nofun, fun j hj => hruns j (hrunning j hj)⟩
  | join k =>
    rw [hc] at hs
    obtain ⟨hi, hjoined, hrunning, hkn⟩ := hs
    exact ⟨h.step hi hw hp, fun j hj => hother j _ (hjoined j hj) nofun, fun j hj => hruns j (hrunning j hj), hkn⟩

theorem Rounds.init (h : Rounds p between inside) : Good between inside p.init := ⟨h.initial, fun _ _ => nofun⟩

theorem Rounds.next (h : Rounds p between inside) (hs : Good between inside s) {a : Act n} (hstep : p.next s a = some s') :
    Good between inside s' := by
  cases a with
  | control => exact h.controlStep hs hstep
  | worker i => exact h.workerStep hs hstep

/-- **The rule for rounds**: the properties hold in every reachable state. -/
theorem Rounds.reach (h : Rounds p between inside) {acts : List (Act n)} (hexec : p.exec acts = some s) :
    Good between inside s :=
  Runs.run_inv (fun _ _ _ hs _ hstep => h.next hs hstep) h.init Runs.meets_true hexec

/-- When the last worker is joined, all are. -/
theorem Good.all_joined (hs : Good between inside s) (hc : s.control = .join n) :
    inside s.shared s.slots ∧ ∀ i, s.slots i = .joined := by
  unfold Good at hs
  rw [hc] at hs
  exact ⟨hs.1, fun i => hs.2.1 i i.isLt⟩

/-- A worker runs only within a round. -/
theorem Good.of_running (hs : Good between inside s) {i : Fin n} {w : W} (hw : s.slots i = .running w) :
    inside s.shared s.slots := by
  unfold Good at hs
  split at hs
  · exact absurd hw (hs.2 i w)
  · exact hs.1
  · exact hs.1

/-! ## Every round comes to its end -/

open Fairness

/-- What the workers do for it. -/
structure Terminates (p : Program n σ W) (inside : σ → (Fin n → Slot W) → Prop) (rank : W → Nat) : Prop where
  live : ∀ {shared slots i w}, inside shared slots → slots i = .running w → p.finished w = false →
    ∃ r, p.step i shared w = some r
  lowers : ∀ {i shared w shared' w'}, p.step i shared w = some (shared', w') → rank w' < rank w

/-- The last worker is joined again and again, if no thread is left out for ever. -/
def Program.Joins (p : Program n σ W) : Prop :=
  ∀ order, (∀ a, Recurs order a) → ∀ i, ∃ j ≥ i, (states p.next order p.init j).control = .join n

/-- A worker's share of the steps to the end of the round. -/
def Slot.left (p : Program n σ W) (rank : W → Nat) : Slot W → Nat
  | .unspawned => rank p.start
  | .running w => rank w
  | .joined => 0

@[simp] theorem left_unspawned (rank : W → Nat) : Slot.left p rank .unspawned = rank p.start := rfl

@[simp] theorem left_running (rank : W → Nat) (w : W) : Slot.left p rank (.running w) = rank w := rfl

@[simp] theorem left_joined (rank : W → Nat) : Slot.left p rank .joined = 0 := rfl

/-- The steps to the last join. -/
def State.left (p : Program n σ W) (rank : W → Nat) (s : State n σ W) : Nat :=
  match s.control with
  | .prepare => 2 * n + 2 + n * rank p.start
  | .spawn i => (n - i) + 1 + n + ∑ t, (s.slots t).left p rank
  | .join i => (n - i) + ∑ t, (s.slots t).left p rank

variable {rank : W → Nat}

theorem left_controlStep (hs : Good between inside s) (hc : s.control ≠ .join n) (hstep : p.controlStep s = some s') :
    s'.left p rank < s.left p rank := by
  unfold Good at hs
  cases controlStep_cases hstep with
  | prepare hprepare =>
    have hsum : ∑ _t : Fin n, Slot.left p rank .unspawned = n * rank p.start := by simp
    simp only [State.left, hprepare, hsum]
    omega
  | spawn i hspawn =>
    rw [hspawn] at hs
    have hsum := Runs.sum_update (Slot.left p rank) s.slots i (.running p.start)
    rw [hs.2.1 i (Nat.le_refl _), left_running, left_unspawned] at hsum
    simp only [State.left, hspawn]
    omega
  | spawned k hk hspawn =>
    simp only [State.left, hspawn]
    omega
  | join i w hjoin hw hfin =>
    have hsum := Runs.sum_update (Slot.left p rank) s.slots i .joined
    rw [left_joined] at hsum
    simp only [State.left, hjoin]
    omega
  | joined k hk hjoin =>
    rw [hjoin] at hs hc
    exact absurd (congrArg Control.join (Nat.le_antisymm hs.2.2.2 hk)) hc

theorem left_workerStep (ht : Terminates p inside rank) (hs : Good between inside s) {i : Fin n}
    (hstep : p.workerStep s i = some s') : s'.left p rank < s.left p rank := by
  obtain ⟨w, shared', w', hw, hp, rfl⟩ := workerStep_cases hstep
  have hlower := ht.lowers hp
  have hsum := Runs.sum_update (Slot.left p rank) s.slots i (.running w')
  rw [hw, left_running, left_running] at hsum
  unfold Good at hs
  cases hc : s.control with
  | prepare =>
    rw [hc] at hs
    exact absurd hw (hs.2 i w)
  | spawn k =>
    simp only [State.left, hc]
    omega
  | join k =>
    simp only [State.left, hc]
    omega

/-- The control thread can go on, or the worker that it waits for. -/
theorem Terminates.enabled (ht : Terminates p inside rank) (hs : Good between inside s) :
    ∃ a, (p.next s a).isSome = true := by
  unfold Good at hs
  cases hc : s.control with
  | prepare => exact ⟨.control, by simp [Program.next, Program.controlStep, hc]⟩
  | spawn k =>
    refine ⟨.control, ?_⟩
    simp only [Program.next, Program.controlStep, hc]
    split <;> rfl
  | join k =>
    rw [hc] at hs
    by_cases hk : k < n
    · obtain ⟨w, hw⟩ := hs.2.2.1 ⟨k, hk⟩ (Nat.le_refl k)
      cases hfin : p.finished w with
      | true => exact ⟨.control, by simp [Program.next, Program.controlStep, hc, hk, hw, hfin]⟩
      | false =>
        obtain ⟨r, hr⟩ := ht.live hs.1 hw hfin
        exact ⟨.worker ⟨k, hk⟩, by simp [next_worker hw hr]⟩
    · exact ⟨.control, by simp [Program.next, Program.controlStep, hc, hk]⟩

/-- **Every round is joined.** -/
theorem Rounds.joins (h : Rounds p between inside) (ht : Terminates p inside rank) : p.Joins := by
  intro order hfair i
  have hgood : Good between inside (states p.next order p.init i) :=
    states_inv (fun _ _ _ hs hstep => h.next hs hstep) h.init i
  have hleads : Leads p.next order p.init (fun u => Good between inside u ∧ u.control ≠ .join n)
      (fun u => u.control = .join n) := by
    refine Leads.lowers (State.left p rank) hfair ?_ ?_
    · rintro u a u' ⟨hu, hc⟩ hstep
      by_cases hend : u'.control = .join n
      · exact .inl hend
      · refine .inr ⟨⟨h.next hu hstep, hend⟩, ?_⟩
        cases a with
        | control => exact left_controlStep hu hc hstep
        | worker t => exact left_workerStep ht hu hstep
    · rintro u ⟨hu, -⟩
      obtain ⟨a, ha⟩ := ht.enabled hu
      exact ⟨a, Option.isSome_iff_exists.1 ha⟩
  by_cases hend : (states p.next order p.init i).control = .join n
  · exact ⟨i, Nat.le_refl i, hend⟩
  · exact hleads i ⟨hgood, hend⟩

end ForkJoin
