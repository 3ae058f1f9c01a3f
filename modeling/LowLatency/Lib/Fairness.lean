import LowLatency.Lib.Runs

/-!
# Fair schedules

`Runs` is about finite runs, whatever the scheduler does. That something happens in the end depends on the
scheduler: an infinite schedule says whose turn it is at each time, and a turn that the state does not allow
is skipped. Fairness to `a` is that its turn comes again and again; it says nothing about when.

`Leads.ensures` is the rule for one such turn: a condition that the others leave alone, or turn into the goal,
and that `a` turns into the goal. `Leads.descend` repeats it along a rank, and `Leads.progress` puts the two together
for a thread that can always go on. `Leads.lowers` is for programs in which every step counts.
-/

namespace Fairness

variable {σ α : Type*} {step : σ → α → Option σ} {order : Nat → α} {s : σ} {P Q : σ → Prop}

/-- The turn of `a`. -/
def turn (step : σ → α → Option σ) (s : σ) (a : α) : σ := (step s a).getD s

/-- The state at each time. -/
def states (step : σ → α → Option σ) (order : Nat → α) (s : σ) : Nat → σ
  | 0 => s
  | n + 1 => turn step (states step order s n) (order n)

/-- The turn of `a` comes again and again. -/
def Recurs (order : Nat → α) (a : α) : Prop := ∀ n, ∃ m ≥ n, order m = a

theorem turn_of_some {u : σ} {a : α} (h : step s a = some u) : turn step s a = u := by rw [turn, h, Option.getD_some]

theorem turn_of_none {a : α} (h : step s a = none) : turn step s a = s := by rw [turn, h, Option.getD_none]

/-- A turn is a step or nothing. -/
theorem turn_cases (step : σ → α → Option σ) (s : σ) (a : α) :
    step s a = none ∧ turn step s a = s ∨ ∃ u, step s a = some u ∧ turn step s a = u := by
  cases h : step s a with
  | none => exact .inl ⟨rfl, turn_of_none h⟩
  | some u => exact .inr ⟨u, rfl, turn_of_some h⟩

/-- What the steps of the schedule keep holds at every time. -/
theorem states_inv {I : σ → Prop} (hstep : ∀ s n u, I s → step s (order n) = some u → I u) (h : I s) (n : Nat) :
    I (states step order s n) := by
  induction n with
  | zero => exact h
  | succ n ih =>
    obtain ⟨-, hsame⟩ | ⟨u, hu, hturn⟩ := turn_cases step (states step order s n) (order n)
    · rw [states, hsame]
      exact ih
    · rw [states, hturn]
      exact hstep _ _ _ ih hu

/-- Where no turn is a step, nothing changes any more. -/
theorem states_stuck {n : Nat} (h : ∀ a, step (states step order s n) a = none) (k : Nat) :
    states step order s (n + k) = states step order s n := by
  induction k with
  | zero => rfl
  | succ k ih => rw [← Nat.add_assoc, states, ih, turn_of_none (h _)]

/-- The states of a schedule are those of a run. -/
theorem states_run (step : σ → α → Option σ) (order : Nat → α) (s : σ) (n : Nat) :
    ∃ as, Runs.run step s as = some (states step order s n) := by
  induction n with
  | zero => exact ⟨[], rfl⟩
  | succ n ih =>
    obtain ⟨as, has⟩ := ih
    obtain ⟨-, hsame⟩ | ⟨u, hu, hturn⟩ := turn_cases step (states step order s n) (order n)
    · rw [states, hsame]
      exact ⟨as, has⟩
    · rw [states, hturn]
      exact ⟨as ++ [order n], Runs.run_append.2 ⟨_, has, Runs.run_cons.2 ⟨u, hu, rfl⟩⟩⟩

/-- From every time at which `P` holds there is a later one, or the same, at which `Q` does. -/
def Leads (step : σ → α → Option σ) (order : Nat → α) (s : σ) (P Q : σ → Prop) : Prop :=
  ∀ n, P (states step order s n) → ∃ m ≥ n, Q (states step order s m)

theorem Leads.trans {R : σ → Prop} (hPQ : Leads step order s P Q) (hQR : Leads step order s Q R) : Leads step order s P R := by
  intro n hn
  obtain ⟨m, hm, hQ⟩ := hPQ n hn
  obtain ⟨l, hl, hR⟩ := hQR m hQ
  exact ⟨l, Nat.le_trans hm hl, hR⟩

/-- **One turn**: no other turn breaks `P` without reaching `Q`, and the turn of `a` does reach it. -/
theorem Leads.ensures {a : α} (ha : Recurs order a)
    (hstay : ∀ u n, order n ≠ a → P u → P (turn step u (order n)) ∨ Q (turn step u (order n)))
    (hgo : ∀ u, P u → Q (turn step u a)) : Leads step order s P Q := by
  intro n hn
  obtain ⟨m, hm, hturn⟩ := ha n
  -- on the time until the turn of `a`
  generalize hd : m - n = d
  induction d generalizing n with
  | zero =>
    obtain rfl : m = n := by omega
    refine ⟨m + 1, Nat.le_succ m, ?_⟩
    rw [states, hturn]
    exact hgo _ hn
  | succ d ih =>
    have hnext : P (states step order s (n + 1)) ∨ Q (states step order s (n + 1)) := by
      by_cases hfirst : order n = a
      · rw [states, hfirst]
        exact .inr (hgo _ hn)
      · exact hstay _ n hfirst hn
    rcases hnext with hP | hQ
    · obtain ⟨l, hl, hQ⟩ := ih (n + 1) hP (by omega) (by omega)
      exact ⟨l, by omega, hQ⟩
    · exact ⟨n + 1, Nat.le_succ n, hQ⟩

/-- **Many turns**: where `P` leads to `Q` or to `P` with a smaller rank, it leads to `Q`. -/
theorem Leads.descend (rank : σ → Nat)
    (h : ∀ r, Leads step order s (fun u => P u ∧ rank u = r) (fun u => P u ∧ rank u < r ∨ Q u)) :
    Leads step order s P Q := by
  intro n hn
  generalize hr : rank (states step order s n) = r
  induction r using Nat.strong_induction_on generalizing n with
  | _ r ih =>
    obtain ⟨m, hm, ⟨hP, hlt⟩ | hQ⟩ := h r n ⟨hn, hr⟩
    · obtain ⟨l, hl, hQ⟩ := ih _ hlt m hP rfl
      exact ⟨l, Nat.le_trans hm hl, hQ⟩
    · exact ⟨m, hm, hQ⟩

/-- **One thread's work**: in `P` the thread of `next` can go on, and comes nearer to `Q` by it. The others may help, but they
leave alone what it does next. -/
theorem Leads.progress (rank : σ → Nat) (next : σ → α) (hfair : ∀ u, P u → Recurs order (next u))
    (hothers : ∀ u n u', order n ≠ next u → P u → step u (order n) = some u' →
      Q u' ∨ P u' ∧ (rank u' < rank u ∨ rank u' = rank u ∧ next u' = next u))
    (hnext : ∀ u, P u → ∃ u', step u (next u) = some u' ∧ (Q u' ∨ P u' ∧ rank u' < rank u)) : Leads step order s P Q := by
  refine Leads.descend rank ?_
  rintro r n ⟨hP, hr⟩
  generalize ha : next (states step order s n) = a
  have hturn : Leads step order s (fun u => (P u ∧ rank u = r) ∧ next u = a) (fun u => P u ∧ rank u < r ∨ Q u) := by
    refine Leads.ensures (a := a) ?_ ?_ ?_
    · rw [← ha]
      exact hfair _ hP
    · rintro u i hne ⟨⟨hu, rfl⟩, rfl⟩
      obtain ⟨-, hsame⟩ | ⟨u', hstep, hturn⟩ := turn_cases step u (order i)
      · rw [hsame]
        exact .inl ⟨⟨hu, rfl⟩, rfl⟩
      · rw [hturn]
        obtain hQ | ⟨hP', hless | ⟨hrank, hsame⟩⟩ := hothers u i u' hne hu hstep
        · exact .inr (.inr hQ)
        · exact .inr (.inl ⟨hP', hless⟩)
        · exact .inl ⟨⟨hP', hrank⟩, hsame⟩
    · rintro u ⟨⟨hu, rfl⟩, rfl⟩
      obtain ⟨u', hstep, hQ | hless⟩ := hnext u hu
      · rw [turn_of_some hstep]
        exact .inr hQ
      · rw [turn_of_some hstep]
        exact .inl hless
  exact hturn n ⟨⟨hP, hr⟩, ha⟩

/-- **Bounded work**: while every step comes nearer to `Q` and some step is possible, it does not matter whose turn it is. -/
theorem Leads.lowers (rank : σ → Nat) (hfair : ∀ a, Recurs order a)
    (hstep : ∀ u a u', P u → step u a = some u' → Q u' ∨ P u' ∧ rank u' < rank u)
    (hlive : ∀ u, P u → ∃ a u', step u a = some u') : Leads step order s P Q := by
  refine Leads.descend rank ?_
  rintro r n ⟨hP, rfl⟩
  generalize hu : states step order s n = u at hP
  obtain ⟨a, u', hu'⟩ := hlive u hP
  have hgo : ∀ {b w}, step u b = some w → P w ∧ rank w < rank u ∨ Q w := fun hw => (hstep u _ _ hP hw).symm
  -- until some step is made, the state is `u`
  have hturn : Leads step order s (fun v => v = u) (fun v => P v ∧ rank v < rank u ∨ Q v) := by
    refine Leads.ensures (hfair a) ?_ ?_
    · rintro v i - rfl
      obtain ⟨-, hsame⟩ | ⟨w, hw, hturn⟩ := turn_cases step v (order i)
      · exact .inl hsame
      · rw [hturn]
        exact .inr (hgo hw)
    · rintro v rfl
      rw [turn_of_some hu']
      exact hgo hu'
  exact hturn n hu

end Fairness
