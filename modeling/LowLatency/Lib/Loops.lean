import Mathlib.Data.Fin.Basic

/-!
# Counted loops

`forLoop` is `for (; cond i; i = next i) body`, with an index that may overflow and a body that may
be undefined. A run is described by the indices it goes through and by what holds before each
iteration: `forLoop_inv` has an invariant for each index, `forLoop_track` the exact state. Both say
that the loop ends, and where.

`forEach` is `for (i = 0; i < n; ++i)` over indices that are in range by their type, with a body that
is always defined. Two loops over the same indices can be one (`forEach_fission`) as soon as the
second body at an index commutes with the first body at every later index.
-/

namespace Loops

variable {ι σ τ : Type*}

/-! ## Loops with a condition and a step -/

/-- The index and the state at the end; `none` if an iteration is undefined or the fuel runs out. -/
def forLoop (cond : ι → Prop) [DecidablePred cond] (next : ι → Option ι) (body : ι → σ → Option σ) :
    Nat → ι → σ → Option (ι × σ)
  | 0, _, _ => none
  | fuel + 1, i, s =>
    if cond i then (body i s).bind fun s => (next i).bind fun i => forLoop cond next body fuel i s
    else some (i, s)

/-- The loop goes through `index 0, …, index k` and stops at the last of them. -/
structure Indices (cond : ι → Prop) (next : ι → Option ι) (index : Nat → ι) (k : Nat) : Prop where
  inside : ∀ j < k, cond (index j)
  stop : ¬cond (index k)
  next : ∀ j < k, next (index j) = some (index (j + 1))

section
variable {cond : ι → Prop} {next : ι → Option ι} {body : ι → σ → Option σ} {index : Nat → ι} {k : Nat}

theorem Indices.tail (h : Indices cond next index (k + 1)) : Indices cond next (fun j => index (j + 1)) k :=
  ⟨fun j hj => h.inside (j + 1) (Nat.succ_lt_succ hj), h.stop, fun j hj => h.next (j + 1) (Nat.succ_lt_succ hj)⟩

variable [DecidablePred cond]

/-- **Invariants**, one for each iteration. -/
theorem forLoop_inv (h : Indices cond next index k) (Inv : Nat → σ → Prop)
    (hbody : ∀ j < k, ∀ s, Inv j s → ∃ s', body (index j) s = some s' ∧ Inv (j + 1) s')
    {fuel : Nat} (hfuel : k < fuel) {s : σ} (hs : Inv 0 s) :
    ∃ s', forLoop cond next body fuel (index 0) s = some (index k, s') ∧ Inv k s' := by
  induction k generalizing fuel index Inv s with
  | zero =>
    obtain ⟨fuel, rfl⟩ := Nat.exists_eq_succ_of_ne_zero (Nat.ne_of_gt hfuel)
    refine ⟨s, ?_, hs⟩
    rw [forLoop, if_neg h.stop]
  | succ k ih =>
    obtain ⟨fuel, rfl⟩ := Nat.exists_eq_succ_of_ne_zero (Nat.ne_of_gt (Nat.zero_lt_of_lt hfuel))
    obtain ⟨s₁, hs₁, hinv⟩ := hbody 0 (Nat.succ_pos k) s hs
    obtain ⟨s', hs', hinv'⟩ := ih h.tail (fun j => Inv (j + 1)) (fun j hj => hbody (j + 1) (Nat.succ_lt_succ hj))
      (Nat.lt_of_succ_lt_succ hfuel) hinv
    refine ⟨s', ?_, hinv'⟩
    rw [forLoop, if_pos (h.inside 0 (Nat.succ_pos k)), hs₁, Option.bind_some, h.next 0 (Nat.succ_pos k),
      Option.bind_some]
    exact hs'

/-- The exact state before each iteration. -/
theorem forLoop_track (h : Indices cond next index k) (S : Nat → σ)
    (hbody : ∀ j < k, body (index j) (S j) = some (S (j + 1))) {fuel : Nat} (hfuel : k < fuel) :
    forLoop cond next body fuel (index 0) (S 0) = some (index k, S k) := by
  obtain ⟨s', hs', rfl⟩ := forLoop_inv h (fun j s => s = S j) (by
    rintro j hj s rfl
    exact ⟨_, hbody j hj, rfl⟩) hfuel rfl
  exact hs'

end

/-! ## Loops over the indices of an array -/

/-- `body` at `0, …, n - 1`. -/
def forEach (n : Nat) (body : Fin n → σ → σ) (s : σ) : σ := Fin.foldl n (fun s i => body i s) s

theorem forEach_succ {n : Nat} (body : Fin (n + 1) → σ → σ) (s : σ) :
    forEach (n + 1) body s = body (Fin.last n) (forEach n (fun i => body i.castSucc) s) := by
  rw [forEach, Fin.foldl_succ_last]
  rfl

/-- A simulation: `h` takes each iteration of one loop to an iteration of the other. -/
theorem forEach_map {n : Nat} {f : Fin n → σ → σ} {g : Fin n → τ → τ} (h : σ → τ)
    (hstep : ∀ i s, h (f i s) = g i (h s)) (s : σ) : h (forEach n f s) = forEach n g (h s) := by
  induction n with
  | zero => rfl
  | succ n ih => rw [forEach_succ, forEach_succ, hstep, ih fun i s => hstep i.castSucc s]

/-- **Fission**: where the second part of an iteration commutes with the first part of all later ones,
the two parts may have a loop each. -/
theorem forEach_fission {n : Nat} {f g : Fin n → σ → σ}
    (hcomm : ∀ i j, i < j → ∀ s, f j (g i s) = g i (f j s)) (s : σ) :
    forEach n (fun i s => g i (f i s)) s = forEach n g (forEach n f s) := by
  induction n with
  | zero => rfl
  | succ n ih =>
    have hinit := ih (f := fun i => f i.castSucc) (g := fun i => g i.castSucc)
      fun i j hij => hcomm i.castSucc j.castSucc (Fin.castSucc_lt_castSucc_iff.2 hij)
    -- the last first part moves in front of all earlier second parts
    have hlast := forEach_map (f := fun i : Fin n => g i.castSucc) (f (Fin.last n))
      fun i => hcomm i.castSucc (Fin.last n) (Fin.castSucc_lt_last i)
    rw [forEach_succ, forEach_succ, forEach_succ, hinit, hlast]

end Loops
