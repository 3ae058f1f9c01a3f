import LowLatency.RawHashSet.Refinement

/-!
# Erasing on the way through a table

| here | there (`raw_hash_set.h`) |
| --- | --- |
| `eraseLoop`          | the loops of `EraseIf` and `merge` |
| `eraseIf`            | `EraseIf` (lines 2725-2738) |
| `insertSlot`, `merge` | `InsertSlot` (lines 2390-2406), `merge` (lines 2129-2143) |

Both loops advance the iterator before they erase the element it was at. What is erased then is behind
the iterator, and the slots ahead are as they were (`eraseLoop_spec`).
-/

namespace LowLatency.RawHashSet

open QuadraticProbing Probing

variable {K σ : Type}

/-- The loop from the iterator at `pos` to the end. `visit` is told of an element and says if it is to be erased; what else it
changes is in `σ`. -/
def eraseLoop (E : Env K) (visit : σ → K → Option (Bool × σ)) : Nat → Nat → Table K → σ → Option (Table K × σ)
  | 0, _, _, _ => none
  | fuel + 1, pos, t, s =>
    if t.ctrlAt pos = .sentinel then some (t, s)
    else if (t.ctrlAt pos).isFull then do
      let k ← t.slotAt pos
      let next ← skipEmptyOrDeleted E.group t.control (t.capacity + 1) (pos + 1)
      let (gone, s) ← visit s k
      if gone then do
        let t ← eraseAt E t pos
        eraseLoop E visit fuel next t s
      else eraseLoop E visit fuel next t s
    else none

/-- From `begin()`. -/
def eraseAll (E : Env K) (visit : σ → K → Option (Bool × σ)) (t : Table K) (s : σ) : Option (Table K × σ) := do
  let first ← skipEmptyOrDeleted E.group t.control (t.capacity + 1) 0
  eraseLoop E visit (t.capacity + 1) first t s

/-- How many elements were erased, and the table. -/
def eraseIf (E : Env K) (pred : K → Bool) (t : Table K) : Option (Nat × Table K) := do
  let (t', _) ← eraseAll E (fun _ k => some (pred k, ())) t ()
  some (sizeTSub t.size t'.size, t')

section
variable [DecidableEq K]

/-- Whether the slot was moved into the table. -/
def insertSlot (E : Env K) (t : Table K) (k : K) : Option (Bool × Table K) := do
  let ((i, inserted), t) ← findOrPrepareInsert E t k
  some (inserted, if inserted then t.setSlot i (some k) else t)

/-- `src`, then the table that it was merged into. The two can have different hash functions. -/
def merge (E E' : Env K) (t src : Table K) : Option (Table K × Table K) := eraseAll E' (insertSlot E) src t

end

/-! ## The loop -/

/-- What is ahead does not change when an element behind is erased. -/
theorem ahead_update {t t' : Table K} {i pos : Nat} (hcap : t'.capacity = t.capacity)
    (hslot : t'.slotAt = Function.update t.slotAt i none) (hi : i < pos) :
    ahead t' pos = ahead t pos ∧ (Pointed t pos → Pointed t' pos) := by
  have hsame : ∀ x, pos ≤ x → t'.slotAt x = t.slotAt x := fun x hx => by rw [hslot, Function.update_of_ne (by omega)]
  constructor
  · rw [ahead, ahead, hcap]
    refine List.filterMap_congr fun x hx => ?_
    rw [List.mem_range'_1] at hx
    exact hsame x hx.1
  · rw [Pointed, Pointed, hcap, hsame pos (Nat.le_refl _)]
    exact id

section
variable [DecidableEq K] {E : Env K} {t : Table K} {n : Nat} {S : Finset K}

/-- The rule for the loop: `R` is about the state of `visit`, the elements still ahead and the set. -/
theorem eraseLoop_spec {visit : σ → K → Option (Bool × σ)} (R : σ → List K → Finset K → Prop)
    (hvisit : ∀ s k ks S, R s (k :: ks) S → ∃ gone s', visit s k = some (gone, s') ∧ R s' ks (if gone then S.erase k else S))
    (fuel pos : Nat) {s : σ} (h : Inv E n t S) (hpos : Pointed t pos) (hfuel : t.capacity - pos < fuel)
    (hR : R s (ahead t pos) S) :
    ∃ t' s' S', eraseLoop E visit fuel pos t s = some (t', s') ∧ Inv E n t' S' ∧ R s' [] S' := by
  induction fuel generalizing pos t s S with
  | zero => omega
  | succ fuel ih =>
    rw [eraseLoop]
    rcases hpos with rfl | ⟨hlt, k, hk⟩
    · rw [if_pos h.stored.shaped.ctrlAt_capacity]
      exact ⟨t, s, S, rfl, h, by rwa [ahead_capacity] at hR⟩
    · obtain ⟨hsent, hfull⟩ := h.stored.isFull_of_slotAt hlt hk
      obtain ⟨next, hskip, hnext, hpoint, hahead⟩ := ahead_skip h.stored (show pos + 1 ≤ t.capacity from hlt)
      rw [ahead_cons hlt hk, ← hahead] at hR
      obtain ⟨gone, s', hgone, hR'⟩ := hvisit s k _ S hR
      rw [if_neg hsent, if_pos hfull, hk, Option.bind_eq_bind, Option.bind_some, hskip, Option.bind_eq_bind, Option.bind_some,
        hgone, Option.bind_eq_bind, Option.bind_some]
      cases gone with
      | false => exact ih next h hpoint (by omega) hR'
      | true =>
        obtain ⟨t₁, herase, hinv, hslot⟩ := eraseAt_spec h hlt hk
        have hcap : t₁.capacity = t.capacity := by
          have := h.stored.shaped.capacity
          have := hinv.stored.shaped.capacity
          omega
        obtain ⟨hahead', hpoint'⟩ := ahead_update hcap hslot (show pos < next by omega)
        simp only [if_true, herase, Option.bind_eq_bind, Option.bind_some]
        exact ih next hinv (hpoint' hpoint) (by omega) (by rw [hahead']; exact hR')

theorem eraseAll_spec (visit : σ → K → Option (Bool × σ)) (R : σ → List K → Finset K → Prop)
    (hvisit : ∀ s k ks S, R s (k :: ks) S → ∃ gone s', visit s k = some (gone, s') ∧ R s' ks (if gone then S.erase k else S))
    {s : σ} (h : Inv E n t S) (hR : ∀ ks : List K, (ks : Multiset K) = S.val → R s ks S) :
    ∃ t' s' S', eraseAll E visit t s = some (t', s') ∧ Inv E n t' S' ∧ R s' [] S' := by
  obtain ⟨first, hskip, -, hpoint, hahead⟩ := ahead_skip h.stored (Nat.zero_le t.capacity)
  rw [eraseAll, hskip, Option.bind_eq_bind, Option.bind_some]
  obtain ⟨ks, hks, hmem⟩ := elements_spec h
  rw [elements, elementsLoop_spec h.stored _ 0 (Nat.zero_le _) (by omega), Option.some.injEq] at hks
  refine eraseLoop_spec R hvisit (t.capacity + 1) first h hpoint (by omega) ?_
  rw [hahead, hks]
  exact hR ks hmem

/-! ## `EraseIf` -/

/-- The elements that are to be erased are gone, except for those ahead. -/
def ErasedIf (S : Finset K) (pred : K → Bool) (_ : Unit) (ks : List K) (S' : Finset K) : Prop :=
  ks.Nodup ∧ S' = S.filter fun k => k ∈ ks ∨ pred k = false

theorem ErasedIf.step {pred : K → Bool} {s : Unit} {k : K} {ks : List K} {S' : Finset K} (h : ErasedIf S pred s (k :: ks) S') :
    ErasedIf S pred s ks (if pred k then S'.erase k else S') := by
  obtain ⟨hnodup, rfl⟩ := h
  rw [List.nodup_cons] at hnodup
  refine ⟨hnodup.2, ?_⟩
  ext k'
  by_cases hk' : k' = k
  · subst hk'
    cases hp : pred k' <;> simp [hp, hnodup.1]
  · cases hp : pred k <;> simp [hk']

theorem eraseIf_spec (h : Inv E n t S) (pred : K → Bool) :
    ∃ t', eraseIf E pred t = some ((S.filter fun k => pred k = true).card, t') ∧ Inv E n t' (S.filter fun k => pred k = false) := by
  have hstart : ∀ ks : List K, (ks : Multiset K) = S.val → ErasedIf S pred () ks S := by
    intro ks hks
    obtain ⟨hnodup, hmem⟩ := mem_of_coe_eq hks
    refine ⟨hnodup, ?_⟩
    ext k
    rw [Finset.mem_filter, hmem]
    exact ⟨fun hk => ⟨hk, Or.inl hk⟩, fun hk => hk.1⟩
  obtain ⟨t', s', S', hall, hinv, -, rfl⟩ := eraseAll_spec (fun _ k => some (pred k, ())) (ErasedIf S pred)
    (fun s k ks S' hR => ⟨pred k, (), rfl, hR.step⟩) h hstart
  have hsplit := Finset.card_filter_add_card_filter_not (s := S) fun k => pred k = true
  have hrest : (S.filter fun k => k ∈ ([] : List K) ∨ pred k = false) = S.filter fun k => ¬ pred k = true := by simp
  have hle := h.card_le_growth
  have hle' := growth_le E.group t.capacity
  have hcap := h.stored.shaped.capacity
  have hpow := pow_lt_of_le h.stored.shaped.bound
  have hcount : sizeTSub t.size t'.size = (S.filter fun k => pred k = true).card := by
    rw [hinv.size, h.size, hrest, sizeTSub_of_le (by omega) (by omega)]
    omega
  refine ⟨t', ?_, by simpa using hinv⟩
  rw [eraseIf, hall, Option.bind_eq_bind, Option.bind_some]
  show some (sizeTSub t.size t'.size, t') = _
  rw [hcount]

/-! ## `merge` -/

theorem insertSlot_spec (h : Inv E n t S) (k : K) (hcard : S.card < 2 ^ 58) :
    ∃ m t', insertSlot E t k = some (decide (k ∉ S), t') ∧ Inv E m t' (insert k S) := by
  by_cases hk : k ∈ S
  · obtain ⟨i, -, -, hfind⟩ := find_of_mem h hk
    refine ⟨n, t, ?_, by rwa [Finset.insert_eq_of_mem hk]⟩
    simp [insertSlot, findOrPrepareInsert, hfind, hk]
  · obtain ⟨m, i, t', hprepare, hinv, -⟩ := prepareInsert_spec h hk hcard
    refine ⟨m, t'.setSlot i (some k), ?_, hinv⟩
    simp [insertSlot, findOrPrepareInsert, find_of_notMem h hk, hprepare, hk]

/-- What is behind is in the table, and is left in the source if it was there before. -/
def Merged (E : Env K) (D S : Finset K) (t : Table K) (ks : List K) (S' : Finset K) : Prop :=
  ks.Nodup ∧ (∀ k ∈ ks, k ∈ S) ∧ (∃ m, Inv E m t (D ∪ S.filter fun k => k ∉ ks)) ∧ S' = S.filter fun k => k ∈ ks ∨ k ∈ D

theorem Merged.step {D : Finset K} (hcard : (D ∪ S).card < 2 ^ 58) {k : K} {ks : List K} {S' : Finset K}
    (h : Merged E D S t (k :: ks) S') :
    ∃ gone t', insertSlot E t k = some (gone, t') ∧ Merged E D S t' ks (if gone then S'.erase k else S') := by
  obtain ⟨hnodup, hmem, ⟨m, hinv⟩, rfl⟩ := h
  rw [List.nodup_cons] at hnodup
  have hkS := hmem k List.mem_cons_self
  have hsub : (D ∪ S.filter fun k' => k' ∉ k :: ks) ⊆ D ∪ S := Finset.union_subset_union_right (Finset.filter_subset _ _)
  obtain ⟨m', t', hslot, hinv'⟩ := insertSlot_spec hinv k (Nat.lt_of_le_of_lt (Finset.card_le_card hsub) hcard)
  have hnew : k ∉ (D ∪ S.filter fun k' => k' ∉ k :: ks) ↔ k ∉ D := by simp
  have hset : insert k (D ∪ S.filter fun k' => k' ∉ k :: ks) = D ∪ S.filter fun k' => k' ∉ ks := by
    ext k'
    by_cases hk' : k' = k
    · subst hk'
      simp [hkS, hnodup.1]
    · simp [hk']
  refine ⟨_, t', hslot, hnodup.2, fun k' hk' => hmem k' (List.mem_cons_of_mem k hk'), ⟨m', hset ▸ hinv'⟩, ?_⟩
  ext k'
  by_cases hkD : k ∈ D
  · by_cases hk' : k' = k
    · subst hk'
      simp [hkD]
    · simp [hkD, hk']
  · by_cases hk' : k' = k
    · subst hk'
      simp [hkD, hnodup.1]
    · simp [hkD, hk']

/-- **`merge`**: the elements that both have stay in the source. -/
theorem merge_spec {E' : Env K} {n' : Nat} {D : Finset K} {src : Table K} (h : Inv E n t D) (hsrc : Inv E' n' src S)
    (hcard : (D ∪ S).card < 2 ^ 58) :
    ∃ m t' src', merge E E' t src = some (src', t') ∧ Inv E m t' (D ∪ S) ∧ Inv E' n' src' (S ∩ D) := by
  have hstart : ∀ ks : List K, (ks : Multiset K) = S.val → Merged E D S t ks S := by
    intro ks hks
    obtain ⟨hnodup, hmem⟩ := mem_of_coe_eq hks
    refine ⟨hnodup, fun k hk => (hmem k).1 hk, ⟨n, ?_⟩, ?_⟩
    · have hnone : (S.filter fun k => k ∉ ks) = ∅ := Finset.filter_eq_empty_iff.2 fun k hk hno => hno ((hmem k).2 hk)
      rwa [hnone, Finset.union_empty]
    · ext k
      rw [Finset.mem_filter, hmem]
      exact ⟨fun hk => ⟨hk, Or.inl hk⟩, fun hk => hk.1⟩
  obtain ⟨src', t', S', hall, hinv', -, -, ⟨m, hinv⟩, rfl⟩ := eraseAll_spec (insertSlot E) (Merged E D S)
    (fun s k ks S' hR => hR.step hcard) hsrc hstart
  refine ⟨m, t', src', hall, by simpa using hinv, ?_⟩
  have hinter : (S.filter fun k => k ∈ ([] : List K) ∨ k ∈ D) = S ∩ D := by
    ext k
    simp
  exact hinter ▸ hinv'

end

/-! ## Tables that runs have reached -/

section
variable [DecidableEq K] {E E' : Env K} {t src : Table K} {allocations allocations' draws draws' : Nat}
  {ops ops' : List (Op K)} {rs rs' : List (Response K)}

/-- **`EraseIf`** erases the elements that satisfy the predicate and no others, and returns how many, though it erases
under the iterator. -/
theorem eraseIf_of_run (hrun : run E (Table.empty E allocations draws) ops = some (rs, t)) (hfits : Fits ∅ ops) (pred : K → Bool) :
    ∃ t', eraseIf E pred t = some (((after ∅ ops).filter fun k => pred k = true).card, t') ∧
      (∀ k, contains E t' k = some (decide (k ∈ after ∅ ops) && !pred k)) ∧ t'.capacity = t.capacity := by
  obtain ⟨n, h⟩ := inv_of_run hrun hfits
  obtain ⟨t', herase, hinv⟩ := eraseIf_spec h pred
  refine ⟨t', herase, fun k => ?_, ?_⟩
  · rw [contains_spec hinv k]
    cases hp : pred k <;> simp [hp]
  · have := h.stored.shaped.capacity
    have := hinv.stored.shaped.capacity
    omega

theorem eraseIf_of_run_colliding :
    ∃ rs t t', run colliding (Table.empty colliding 0 0) [.insert 1, .insert 2, .insert 3] = some (rs, t) ∧
      eraseIf colliding (fun k => decide (k % 2 = 1)) t = some (2, t') ∧ contains colliding t' 2 = some true ∧
      contains colliding t' 3 = some false := by
  have hfits : Fits ∅ [Op.insert 1, .insert 2, .insert 3] := by simp [Fits, Op.Bounded, Op.apply]
  obtain ⟨rs, t, n, hrun, -, -⟩ := run_refines_from _ (inv_empty colliding 0 0) hfits
  obtain ⟨t', herase, hfind, -⟩ := eraseIf_of_run hrun hfits fun k => decide (k % 2 = 1)
  exact ⟨rs, t, t', hrun, herase, hfind 2, hfind 3⟩

/-- **`merge`** takes every element that the table does not have from the source and leaves the others there: none is lost or
is in both that was not before. -/
theorem merge_of_runs (hrun : run E (Table.empty E allocations draws) ops = some (rs, t)) (hfits : Fits ∅ ops)
    (hrun' : run E' (Table.empty E' allocations' draws') ops' = some (rs', src)) (hfits' : Fits ∅ ops')
    (hcard : (after ∅ ops ∪ after ∅ ops').card < 2 ^ 58) :
    ∃ t' src', merge E E' t src = some (src', t') ∧
      (∀ k, contains E t' k = some (decide (k ∈ after ∅ ops ∨ k ∈ after ∅ ops'))) ∧
      (∀ k, contains E' src' k = some (decide (k ∈ after ∅ ops ∧ k ∈ after ∅ ops'))) ∧
      t'.size + src'.size = t.size + src.size := by
  obtain ⟨n, h⟩ := inv_of_run hrun hfits
  obtain ⟨n', h'⟩ := inv_of_run hrun' hfits'
  obtain ⟨m, t', src', hmerge, hinv, hinv'⟩ := merge_spec h h' hcard
  refine ⟨t', src', hmerge, fun k => ?_, fun k => ?_, ?_⟩
  · rw [contains_spec hinv k]
    simp
  · rw [contains_spec hinv' k]
    simp [and_comm]
  · rw [hinv.size, hinv'.size, h.size, h'.size, Finset.inter_comm, Finset.card_union_add_card_inter]

theorem merge_of_runs_colliding :
    ∃ rs rs' t src t' src', run colliding (Table.empty colliding 0 0) [.insert 1, .insert 2] = some (rs, t) ∧
      run colliding (Table.empty colliding 1 0) [.insert 2, .insert 3] = some (rs', src) ∧
      merge colliding colliding t src = some (src', t') ∧ contains colliding t' 3 = some true ∧
      contains colliding src' 3 = some false ∧ contains colliding src' 2 = some true := by
  have hfits : Fits ∅ [Op.insert 1, .insert 2] := by simp [Fits, Op.Bounded, Op.apply]
  have hfits' : Fits ∅ [Op.insert 2, .insert 3] := by simp [Fits, Op.Bounded, Op.apply]
  obtain ⟨rs, t, n, hrun, -, -⟩ := run_refines_from _ (inv_empty colliding 0 0) hfits
  obtain ⟨rs', src, n', hrun', -, -⟩ := run_refines_from _ (inv_empty colliding 1 0) hfits'
  obtain ⟨t', src', hmerge, hfind, hfind', -⟩ := merge_of_runs hrun hfits hrun' hfits' (by decide)
  exact ⟨rs, rs', t, src, t', src', hrun, hrun', hmerge, hfind 3, hfind' 3, hfind' 2⟩

end

end LowLatency.RawHashSet
