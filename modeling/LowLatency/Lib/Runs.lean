import Mathlib.Algebra.BigOperators.Group.Finset.Basic
import Mathlib.Data.Fintype.Basic

/-!
# Runs of a partial step function, and properties of their histories

A system of threads is a partial step function `step : σ → α → Option σ`: an action names the
thread and what it does, `none` means that the action is not enabled. A *run* is a list of
actions, one interleaving; all interleavings are all lists.

* `run_inv` is the invariant rule, relative to a condition `G` that every step of the run meets
  in the state it is taken from (`Meets`); `G` is trivial for a plain invariant. `run_length_le` bounds
  the length of a run by a rank.
* A history property is given event by event: `Always P log` says that each event of the log
  satisfies `P` together with the part of the log before it. `run_exact` is the rule for the
  *exact* condition under which a property of the reached state holds: if one step keeps the
  property exactly when it meets `G`, a run does so exactly when all its steps meet `G`.
* Where the state has a component for each thread and a step changes one of them, `sum_update` keeps
  the books for a quantity summed over all threads.
-/

namespace Runs

-- The threads of a concrete run are literals of `Fin 1` or `Fin 2`; with the instances named here a
-- literal is one term in every module, over the `Zero Nat` of `Fin.instOfNat`.
instance neZero_one : @NeZero Nat Zero.ofOfNat0 1 := ⟨Nat.one_ne_zero⟩

instance neZero_two : @NeZero Nat Zero.ofOfNat0 2 := ⟨Nat.succ_ne_zero 1⟩

variable {σ α ε : Type*}

/-- The state after the actions of a list; `none` if one of them was not enabled. -/
def run (step : σ → α → Option σ) : σ → List α → Option σ
  | s, [] => some s
  | s, a :: as => (step s a).bind fun s' => run step s' as

@[simp] theorem run_nil (step : σ → α → Option σ) (s : σ) : run step s [] = some s := rfl

theorem run_cons {step : σ → α → Option σ} {s s' : σ} {a : α} {as : List α} :
    run step s (a :: as) = some s' ↔ ∃ u, step s a = some u ∧ run step u as = some s' := by
  simp [run, Option.bind_eq_some_iff]

theorem run_append {step : σ → α → Option σ} {s s' : σ} {as bs : List α} :
    run step s (as ++ bs) = some s' ↔ ∃ u, run step s as = some u ∧ run step u bs = some s' := by
  induction as generalizing s with
  | nil => simp
  | cons a as ih =>
    rw [List.cons_append, run_cons]
    constructor
    · rintro ⟨u, hu, h⟩
      obtain ⟨v, hv, h'⟩ := ih.1 h
      exact ⟨v, run_cons.2 ⟨u, hu, hv⟩, h'⟩
    · rintro ⟨v, hv, h'⟩
      obtain ⟨u, hu, h⟩ := run_cons.1 hv
      exact ⟨u, hu, ih.2 ⟨v, h, h'⟩⟩

/-! ## Conditions on the steps of a run -/

/-- Every step of the run meets `G` in the state it is taken from. -/
def Meets (step : σ → α → Option σ) (G : σ → α → Prop) : σ → List α → Prop
  | _, [] => True
  | s, a :: as => G s a ∧ match step s a with
    | some s' => Meets step G s' as
    | none => True

instance Meets.decidable (step : σ → α → Option σ) (G : σ → α → Prop) [∀ s a, Decidable (G s a)] :
    ∀ (s : σ) (as : List α), Decidable (Meets step G s as)
  | _, [] => .isTrue trivial
  | s, a :: as =>
    match h : step s a with
    | some s' =>
      have := Meets.decidable step G s' as
      decidable_of_iff (G s a ∧ Meets step G s' as) (by simp only [Meets, h])
    | none => decidable_of_iff (G s a) (by simp only [Meets, h, and_true])

theorem meets_cons {step : σ → α → Option σ} {G : σ → α → Prop} {s u : σ} {a : α} {as : List α}
    (h : step s a = some u) : Meets step G s (a :: as) ↔ G s a ∧ Meets step G u as := by
  simp only [Meets, h]

/-- `Meets` in terms of the points of the run: each action, in the state the actions before it lead to. -/
theorem meets_iff {step : σ → α → Option σ} {G : σ → α → Prop} {s : σ} {l : List α} :
    Meets step G s l ↔ ∀ as a bs u, l = as ++ a :: bs → run step s as = some u → G u a := by
  induction l generalizing s with
  | nil => simp [Meets]
  | cons b l ih =>
    constructor
    · rintro ⟨hg, hm⟩ as a bs u hl hu
      cases as with
      | nil =>
        obtain ⟨rfl, rfl⟩ := List.cons.inj hl
        exact Option.some.inj hu ▸ hg
      | cons a' as =>
        obtain ⟨rfl, rfl⟩ := List.cons.inj hl
        obtain ⟨w, hw, hu'⟩ := run_cons.1 hu
        rw [hw] at hm
        exact ih.1 hm as a bs u rfl hu'
    · intro h
      refine ⟨h [] b l s rfl rfl, ?_⟩
      cases hb : step s b with
      | none => trivial
      | some w =>
        refine ih.2 ?_
        intro as a bs u hl hu
        exact h (b :: as) a bs u (by rw [hl]; rfl) (run_cons.2 ⟨w, hb, hu⟩)

theorem meets_true {step : σ → α → Option σ} {s : σ} {l : List α} : Meets step (fun _ _ => True) s l :=
  meets_iff.2 fun _ _ _ _ _ _ => trivial

theorem meets_and {step : σ → α → Option σ} {G H : σ → α → Prop} {s : σ} {l : List α}
    (hg : Meets step G s l) (hh : Meets step H s l) : Meets step (fun s a => G s a ∧ H s a) s l :=
  meets_iff.2 fun as a bs u hl hu => ⟨meets_iff.1 hg as a bs u hl hu, meets_iff.1 hh as a bs u hl hu⟩

/-- A condition on the actions alone. -/
theorem meets_of_forall {step : σ → α → Option σ} {Q : α → Prop} {s : σ} {l : List α}
    (h : ∀ a ∈ l, Q a) : Meets step (fun _ a => Q a) s l :=
  meets_iff.2 fun as a bs _ hl _ => h a (by simp [hl])

/-- **Invariant rule**: what holds at the start and is kept by every step that meets `G` holds
after every run all of whose steps meet `G`. -/
theorem run_inv {step : σ → α → Option σ} {G : σ → α → Prop} {I : σ → Prop}
    (hstep : ∀ s a s', I s → G s a → step s a = some s' → I s')
    {s s' : σ} {as : List α} (hi : I s) (hm : Meets step G s as) (h : run step s as = some s') : I s' := by
  induction as generalizing s with
  | nil =>
    simp only [run_nil, Option.some.injEq] at h
    exact h ▸ hi
  | cons a as ih =>
    obtain ⟨u, hu, h'⟩ := run_cons.1 h
    obtain ⟨hg, hm'⟩ := (meets_cons hu).1 hm
    exact ih (hstep s a u hi hg hu) hm' h'

/-- **Ranking rule**: a run is not longer than what a rank that every step lowers has lost. -/
theorem run_length_le {step : σ → α → Option σ} {G : σ → α → Prop} {I : σ → Prop} {rank : σ → Nat}
    (hstep : ∀ s a s', I s → G s a → step s a = some s' → I s' ∧ rank s' < rank s)
    {s s' : σ} {as : List α} (hi : I s) (hm : Meets step G s as) (h : run step s as = some s') :
    as.length + rank s' ≤ rank s := by
  induction as generalizing s with
  | nil =>
    simp only [run_nil, Option.some.injEq] at h
    simp [h]
  | cons a as ih =>
    obtain ⟨u, hu, h'⟩ := run_cons.1 h
    obtain ⟨hg, hm'⟩ := (meets_cons hu).1 hm
    obtain ⟨hi', hlt⟩ := hstep s a u hi hg hu
    have hle := ih hi' hm' h'
    rw [List.length_cons]
    omega

/-- **Exact condition of a run**: under an invariant, a property that each single step keeps
exactly when it meets `G` holds at the end of a run exactly when every step meets `G`. -/
theorem run_exact {step : σ → α → Option σ} {A G : σ → α → Prop} {I P : σ → Prop}
    (hinv : ∀ s a s', I s → A s a → step s a = some s' → I s')
    (hstep : ∀ s a s', I s → A s a → step s a = some s' → (P s' ↔ P s ∧ G s a))
    {s s' : σ} {as : List α} (hi : I s) (hm : Meets step A s as) (h : run step s as = some s') :
    P s' ↔ P s ∧ Meets step G s as := by
  induction as generalizing s with
  | nil =>
    simp only [run_nil, Option.some.injEq] at h
    simp [h, Meets]
  | cons a as ih =>
    obtain ⟨u, hu, h'⟩ := run_cons.1 h
    obtain ⟨ha, hm'⟩ := (meets_cons hu).1 hm
    rw [ih (hinv s a u hi ha hu) hm' h', hstep s a u hi ha hu, meets_cons hu, and_assoc]

/-! ## History properties -/

/-- `P e past` for every event `e` of `l`, `past` being everything before it. -/
def AlwaysFrom (P : ε → List ε → Prop) : List ε → List ε → Prop
  | _, [] => True
  | past, e :: l => P e past ∧ AlwaysFrom P (past ++ [e]) l

/-- Each event of the log satisfies `P` together with the log before it. -/
def Always (P : ε → List ε → Prop) (log : List ε) : Prop := AlwaysFrom P [] log

instance AlwaysFrom.decidable (P : ε → List ε → Prop) [∀ e past, Decidable (P e past)] :
    ∀ past l, Decidable (AlwaysFrom P past l)
  | _, [] => .isTrue trivial
  | past, e :: l =>
    have := AlwaysFrom.decidable P (past ++ [e]) l
    inferInstanceAs (Decidable (P e past ∧ AlwaysFrom P (past ++ [e]) l))

instance (P : ε → List ε → Prop) [∀ e past, Decidable (P e past)] (l : List ε) :
    Decidable (Always P l) := AlwaysFrom.decidable P [] l

theorem alwaysFrom_append {P : ε → List ε → Prop} {past l m : List ε} :
    AlwaysFrom P past (l ++ m) ↔ AlwaysFrom P past l ∧ AlwaysFrom P (past ++ l) m := by
  induction l generalizing past with
  | nil => simp [AlwaysFrom]
  | cons e l ih => simp [AlwaysFrom, ih, and_assoc]

@[simp] theorem always_nil (P : ε → List ε → Prop) : Always P [] := trivial

/-- Appending one event adds one obligation. -/
theorem always_snoc {P : ε → List ε → Prop} {l : List ε} {e : ε} :
    Always P (l ++ [e]) ↔ Always P l ∧ P e l := by
  simp [Always, alwaysFrom_append, AlwaysFrom]

/-! ## One component for each thread -/

/-- A sum over all threads after one of them has changed. -/
theorem sum_update {T W M : Type*} [Fintype T] [DecidableEq T] [AddCommMonoid M] (f : W → M) (w : T → W) (t : T)
    (x : W) : ∑ u, f (Function.update w t x u) + f (w t) = ∑ u, f (w u) + f x := by
  have hrest : ∑ u ∈ Finset.univ.erase t, f (Function.update w t x u) = ∑ u ∈ Finset.univ.erase t, f (w u) := by
    refine Finset.sum_congr rfl ?_
    intro u hu
    rw [Function.update_of_ne (Finset.ne_of_mem_erase hu)]
  rw [← Finset.add_sum_erase _ _ (Finset.mem_univ t), hrest, Function.update_self,
    ← Finset.add_sum_erase _ (fun u => f (w u)) (Finset.mem_univ t)]
  ac_rfl

end Runs
