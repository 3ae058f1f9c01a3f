import LowLatency.RawHashSet.GroupPortable
import LowLatency.RawHashSet.Iteration

/-!
# A run of operations on a table

What a `raw_hash_set` is for is a finite set: an operation changes it (`Op.apply`) and is answered
(`Answer`). Every run of operations on a table that starts without elements returns, with the answers of
such a set (`run_refines`). No assertion of the implementation fails on the way, no access is outside an
array and no slot is read that holds no element; whatever the hash function, the addresses of the arrays
and the random seeds.

The bounds of `Fits` are those of the address space: a slot takes 8 bytes at least.
-/

namespace LowLatency.RawHashSet

variable {K : Type} [DecidableEq K]

inductive Op (K : Type) where
  | insert (k : K)
  | contains (k : K)
  | erase (k : K)
  | clear
  | rehash (count : Nat)
  | reserve (count : Nat)
  | elements
  | copy

inductive Response (K : Type) where
  | inserted (b : Bool)
  | contained (b : Bool)
  | erased (count : Nat)
  | listed (ks : List K)
  | done

def step (E : Env K) (t : Table K) : Op K → Option (Response K × Table K)
  | .insert k => (emplace E t k).map fun r => (.inserted r.1.2, r.2)
  | .contains k => (contains E t k).map fun b => (.contained b, t)
  | .erase k => (erase E t k).map fun r => (.erased r.1, r.2)
  | .clear => (clear E t).map fun t => (.done, t)
  | .rehash count => (rehash E t count).map fun t => (.done, t)
  | .reserve count => (reserve E t count).map fun t => (.done, t)
  | .elements => (elements E t).map fun ks => (.listed ks, t)
  | .copy => (copy E t t.allocations t.draws).map fun t => (.done, t)

def run (E : Env K) : Table K → List (Op K) → Option (List (Response K) × Table K)
  | t, [] => some ([], t)
  | t, op :: ops => do
    let (r, t) ← step E t op
    let (rs, t) ← run E t ops
    some (r :: rs, t)

/-! ## Sets -/

def Op.apply (S : Finset K) : Op K → Finset K
  | .insert k => Insert.insert k S
  | .erase k => S.erase k
  | .clear => ∅
  | .contains _ | .rehash _ | .reserve _ | .elements | .copy => S

/-- What a set answers. In which order its elements are listed is left open. -/
inductive Answer (S : Finset K) : Op K → Response K → Prop where
  | insert (k : K) : Answer S (.insert k) (.inserted (decide (k ∉ S)))
  | contains (k : K) : Answer S (.contains k) (.contained (decide (k ∈ S)))
  | erase (k : K) : Answer S (.erase k) (.erased (if k ∈ S then 1 else 0))
  | clear : Answer S .clear .done
  | rehash (count : Nat) : Answer S (.rehash count) .done
  | reserve (count : Nat) : Answer S (.reserve count) .done
  | elements (ks : List K) (h : (ks : Multiset K) = S.val) : Answer S .elements (.listed ks)
  | copy : Answer S .copy .done

def Answers : Finset K → List (Op K) → List (Response K) → Prop
  | _, [], rs => rs = []
  | _, _ :: _, [] => False
  | S, op :: ops, r :: rs => Answer S op r ∧ Answers (op.apply S) ops rs

/-- The set after a run. -/
def after (S : Finset K) (ops : List (Op K)) : Finset K := ops.foldl Op.apply S

/-- Arguments that an allocation can serve. -/
def Op.Bounded : Op K → Prop
  | .rehash count | .reserve count => count < 2 ^ 58
  | _ => True

/-- Every set on the way, and every argument, is of a size that an allocation can serve. -/
def Fits : Finset K → List (Op K) → Prop
  | S, [] => S.card < 2 ^ 58
  | S, op :: ops => S.card < 2 ^ 58 ∧ op.Bounded ∧ Fits (op.apply S) ops

section
variable {E : Env K} {t : Table K} {n : Nat} {S : Finset K}

theorem step_refines (h : Inv E n t S) (hcard : S.card < 2 ^ 58) {op : Op K} (hop : op.Bounded) :
    ∃ r t' m, step E t op = some (r, t') ∧ Answer S op r ∧ Inv E m t' (op.apply S) := by
  cases op with
  | insert k =>
    obtain ⟨m, i, t', hemplace, hinv, -⟩ := emplace_spec h k hcard
    exact ⟨_, t', m, by rw [step, hemplace, Option.map_some], .insert k, hinv⟩
  | contains k => exact ⟨_, t, n, by rw [step, contains_spec h k, Option.map_some], .contains k, h⟩
  | erase k =>
    obtain ⟨t', herase, hinv⟩ := erase_spec h k
    exact ⟨_, t', n, by rw [step, herase, Option.map_some], .erase k, hinv⟩
  | clear =>
    obtain ⟨m, t', hclear, hinv⟩ := clear_spec h
    exact ⟨_, t', m, by rw [step, hclear, Option.map_some], .clear, hinv⟩
  | rehash count =>
    obtain ⟨m, t', hrehash, hinv⟩ := rehash_spec h hcard (show count < 2 ^ 58 from hop)
    exact ⟨_, t', m, by rw [step, hrehash, Option.map_some], .rehash count, hinv⟩
  | reserve count =>
    obtain ⟨m, t', hreserve, hinv, -, -⟩ := reserve_spec h (show count < 2 ^ 58 from hop)
    exact ⟨_, t', m, by rw [step, hreserve, Option.map_some], .reserve count, hinv⟩
  | elements =>
    obtain ⟨ks, hks, hmem⟩ := elements_spec h
    exact ⟨_, t, n, by rw [step, hks, Option.map_some], .elements ks hmem, h⟩
  | copy =>
    obtain ⟨m, t', hcopy, hinv⟩ := copy_spec h hcard t.allocations t.draws
    exact ⟨_, t', m, by rw [step, hcopy, Option.map_some], .copy, hinv⟩

theorem run_refines_from (ops : List (Op K)) (h : Inv E n t S) (hfits : Fits S ops) :
    ∃ rs t' m, run E t ops = some (rs, t') ∧ Answers S ops rs ∧ Inv E m t' (after S ops) := by
  induction ops generalizing n t S with
  | nil => exact ⟨[], t, n, rfl, rfl, h⟩
  | cons op ops ih =>
    obtain ⟨hcard, hop, hfits⟩ := hfits
    obtain ⟨r, t₁, m, hstep, hanswer, hinv⟩ := step_refines h hcard hop
    obtain ⟨rs, t', m', hrun, hanswers, hinv'⟩ := ih hinv hfits
    refine ⟨r :: rs, t', m', ?_, ⟨hanswer, hanswers⟩, hinv'⟩
    simp only [run, hstep, hrun, Option.bind_eq_bind, Option.bind_some]

theorem Fits.card_after {ops : List (Op K)} (h : Fits S ops) : (after S ops).card < 2 ^ 58 := by
  induction ops generalizing S with
  | nil => exact h
  | cons op ops ih => exact ih h.2.2

/-- The table that a run has reached. -/
theorem inv_of_run {allocations draws : Nat} {ops : List (Op K)} {rs : List (Response K)}
    (hrun : run E (Table.empty E allocations draws) ops = some (rs, t)) (hfits : Fits ∅ ops) :
    ∃ n, Inv E n t (after ∅ ops) := by
  obtain ⟨rs', t', n, hrun', -, hinv⟩ := run_refines_from ops (inv_empty E allocations draws) hfits
  rw [hrun, Option.some.injEq, Prod.mk.injEq] at hrun'
  exact ⟨n, hrun'.2 ▸ hinv⟩

end

/-- **Every run returns, with the answers of a set.** -/
theorem run_refines (E : Env K) (allocations draws : Nat) (ops : List (Op K)) (hfits : Fits ∅ ops) :
    ∃ rs t n, run E (Table.empty E allocations draws) ops = some (rs, t) ∧ Answers ∅ ops rs ∧
      Inv E n t (after ∅ ops) :=
  run_refines_from ops (inv_empty E allocations draws) hfits

/-- All keys have one hash, so that every search goes over the elements before it. -/
def colliding : Env Nat := ⟨groupPortable, fun _ => 0, 0, fun _ => 0, fun _ => 0⟩

theorem run_refines_colliding :
    ∃ t, run colliding (Table.empty colliding 0 0) [.insert 1, .insert 2, .erase 1, .contains 2, .insert 2] =
      some ([.inserted true, .inserted true, .erased 1, .contained true, .inserted false], t) := by
  obtain ⟨rs, t, n, hrun, hanswers, -⟩ := run_refines colliding 0 0
    [.insert 1, .insert 2, .erase 1, .contains 2, .insert 2] (by simp [Fits, Op.Bounded, Op.apply])
  match rs, hanswers with
  | [_, _, _, _, _], ⟨.insert _, .insert _, .erase _, .contains _, .insert _, _⟩ =>
    exact ⟨t, hrun⟩

/-- **Two tables are equal** if and only if the runs that made them leave the same set, and a copy is equal to its original:
neither the order of the operations nor the capacities and tombstones that they leave matter. -/
theorem equal_of_runs {E : Env K} {ops₁ ops₂ : List (Op K)} {rs₁ rs₂ : List (Response K)} {t₁ t₂ : Table K} {a₁ a₂ d₁ d₂ : Nat}
    (hrun₁ : run E (Table.empty E a₁ d₁) ops₁ = some (rs₁, t₁)) (hfits₁ : Fits ∅ ops₁)
    (hrun₂ : run E (Table.empty E a₂ d₂) ops₂ = some (rs₂, t₂)) (hfits₂ : Fits ∅ ops₂) :
    equal E t₁ t₂ = some (decide (after ∅ ops₁ = after ∅ ops₂)) ∧
      ∀ a d, ∃ t', copy E t₁ a d = some t' ∧ equal E t₁ t' = some true := by
  obtain ⟨n₁, h₁⟩ := inv_of_run hrun₁ hfits₁
  obtain ⟨n₂, h₂⟩ := inv_of_run hrun₂ hfits₂
  refine ⟨equal_spec h₁ h₂, fun a d => ?_⟩
  obtain ⟨m, t', hcopy, hinv⟩ := copy_spec h₁ hfits₁.card_after a d
  exact ⟨t', hcopy, by rw [equal_spec h₁ hinv, decide_eq_true rfl]⟩

theorem equal_of_runs_colliding :
    ∃ rs₁ rs₂ t₁ t₂, run colliding (Table.empty colliding 0 0) [.insert 1, .insert 2] = some (rs₁, t₁) ∧
      run colliding (Table.empty colliding 1 0) [.reserve 10, .insert 2, .insert 3, .insert 1, .erase 3] = some (rs₂, t₂) ∧
      equal colliding t₁ t₂ = some true := by
  have hfits₁ : Fits ∅ [Op.insert 1, .insert 2] := by simp [Fits, Op.Bounded, Op.apply]
  have hfits₂ : Fits ∅ [Op.reserve 10, .insert 2, .insert 3, .insert 1, .erase 3] := by simp [Fits, Op.Bounded, Op.apply]
  obtain ⟨rs₁, t₁, -, hrun₁, -, -⟩ := run_refines_from _ (inv_empty colliding 0 0) hfits₁
  obtain ⟨rs₂, t₂, -, hrun₂, -, -⟩ := run_refines_from _ (inv_empty colliding 1 0) hfits₂
  exact ⟨rs₁, rs₂, t₁, t₂, hrun₁, hrun₂, (equal_of_runs hrun₁ hfits₁ hrun₂ hfits₂).1⟩

end LowLatency.RawHashSet
