import LowLatency.RawHashSet.Placement

/-!
# `resize`

`Inv` ties a table to the finite set it stands for. `resize` fills a new array from the old one: it keeps
the elements and leaves no slot marked as deleted (`resize_spec`).
-/

namespace LowLatency.RawHashSet

open QuadraticProbing Probing

variable {K : Type} {E : Env K} {t : Table K} {n : Nat}

/-- The slots that count against the growth: those that are or were full. -/
def used (t : Table K) : Nat := ((Finset.range t.capacity).filter fun i => t.ctrlAt i ≠ .empty).card

/-- The table stands for the set `S`. In a table smaller than a group no slot is ever marked as deleted. -/
structure Inv (E : Env K) (n : Nat) (t : Table K) (S : Finset K) : Prop where
  stored : Stored E n t
  contents : contents t.capacity t.slotAt = S.val
  size : t.size = S.card
  growth : t.growthLeft + used t = growth E.group t.capacity
  clean : n < E.group.logWidth → ∀ i < t.capacity, t.ctrlAt i ≠ .deleted

section
variable {S : Finset K}

theorem Inv.card_eq (h : Inv E n t S) :
    S.card = ((Finset.range t.capacity).filter fun i => (t.slotAt i).isSome = true).card := by
  rw [← card_contents, h.contents]
  rfl

theorem Inv.card_le_used (h : Inv E n t S) : S.card ≤ used t := by
  rw [h.card_eq]
  refine Finset.card_le_card fun i hi => ?_
  rw [Finset.mem_filter, Finset.mem_range] at hi ⊢
  refine ⟨hi.1, fun hempty => ?_⟩
  have := (h.stored.vacant i hi.1).2 (by rw [hempty]; rfl)
  simp [this] at hi

theorem Inv.card_le_growth (h : Inv E n t S) : S.card ≤ RawHashSet.growth E.group t.capacity := by
  have := h.growth
  have := h.card_le_used
  omega

end

/-! ## New arrays -/

theorem getD_fresh {width cap p : Nat} (hp : p < cap + width) (hw : 0 < width) :
    ((List.replicate (cap + 1 + (width - 1)) Ctrl.empty).set cap .sentinel).getD p .sentinel =
      if p = cap then .sentinel else .empty := by
  rw [getD_set _ _ _ _ _ (by rw [List.length_replicate]; omega), List.getD_eq_getElem?_getD, List.getElem?_replicate,
    if_pos (show p < cap + 1 + (width - 1) by omega), Option.getD_some]

theorem mirrored_fresh {width : Nat} (cap : Nat) (hw : 0 < width) :
    Mirrored width cap ((List.replicate (cap + 1 + (width - 1)) Ctrl.empty).set cap .sentinel) := by
  refine ⟨by simp; omega, fun i hi => ?_, fun i hi hiw => ?_, fun p hp hdummy => ?_⟩
  · rw [getD_fresh (by omega) hw]
    by_cases hic : i = cap <;> simp [hic]
  · rw [getD_fresh (by omega) hw, getD_fresh (by omega) hw, if_neg (by omega), if_neg (by omega)]
  · rw [getD_fresh hp hw, if_neg (by omega)]

/-- An array without elements. -/
structure Blank (E : Env K) (n : Nat) (t : Table K) : Prop where
  placing : Placing E n t
  empty : ∀ i < t.capacity, t.ctrlAt i = .empty
  contents : contents t.capacity t.slotAt = 0

theorem blank_of_slots (hshaped : Shaped E n t) (hempty : ∀ i < t.capacity, t.ctrlAt i = .empty)
    (hslots : ∀ i < t.capacity, t.slotAt i = none) : Blank E n t := by
  refine ⟨⟨hshaped, fun i hi => ?_, fun i hi k hk => ?_⟩, hempty, ?_⟩
  · simp [hempty i hi, hslots i hi]
  · rw [hslots i hi] at hk
    cases hk
  · rw [contents_congr hslots, contents_none]

theorem sizeTSub_of_le {a b : Nat} (hba : b ≤ a) (ha : a < 2 ^ 64) : sizeTSub a b = a - b := by
  rw [sizeTSub, sizeT]
  omega

theorem pow_lt_of_le {m : Nat} (hm : m ≤ 59) : 2 ^ m ≤ 2 ^ 59 := Nat.pow_le_pow_right (by decide) hm

/-- `ResetCtrl` on an array whose slots hold nothing. -/
theorem resetCtrl_spec {m : Nat} (hm : 1 ≤ m) (hm' : m ≤ 59) (hcap : t.capacity + 1 = 2 ^ m)
    (hslots : t.slots.length = t.capacity) (hnone : ∀ i < t.capacity, t.slotAt i = none)
    (hsize : t.size ≤ growth E.group t.capacity) :
    ∃ t', resetCtrl E t = some t' ∧ Blank E m t' ∧ t'.growthLeft = growth E.group t.capacity - t.size ∧
      t'.size = t.size ∧ t'.capacity = t.capacity ∧ t'.address = t.address ∧ t'.allocations = t.allocations := by
  have hW := width_pos E
  have hpow := pow_lt_of_le hm'
  have hle := growth_le E.group t.capacity
  have hgrowth := capacityToGrowth_eq (G := E.group) hm (by omega) hcap
  have hreset : resetCtrl E t = some { t with
      control := (List.replicate (t.capacity + 1 + (E.width - 1)) .empty).set t.capacity .sentinel
      growthLeft := sizeTSub (growth E.group t.capacity) t.size } := by
    simp only [resetCtrl, resetGrowthLeft, hgrowth, Option.bind_eq_bind, Option.bind_some, Env.numClonedBytes]
  refine ⟨_, hreset, ?_, sizeTSub_of_le hsize (by omega), rfl, rfl, rfl, rfl⟩
  refine blank_of_slots ⟨hcap, hm', mirrored_fresh t.capacity hW, hslots⟩ (fun i hi => ?_) hnone
  exact (getD_fresh (Nat.lt_add_right _ hi) hW).trans (if_neg (Nat.ne_of_lt hi))

theorem initializeSlots_spec {m : Nat} (hm : 1 ≤ m) (hm' : m ≤ 59) (hcap : t.capacity + 1 = 2 ^ m)
    (hsize : t.size ≤ growth E.group t.capacity) :
    ∃ t', initializeSlots E t = some t' ∧ Blank E m t' ∧ t'.growthLeft = growth E.group t.capacity - t.size ∧
      t'.size = t.size ∧ t'.capacity = t.capacity ∧ t'.allocations = t.allocations + 1 := by
  have hne : t.capacity ≠ 0 := by
    have : 2 ^ 1 ≤ 2 ^ m := Nat.pow_le_pow_right (by decide) hm
    omega
  obtain ⟨t', hreset, hblank, hgrowth, hsize', hcap', -, halloc⟩ := resetCtrl_spec (E := E) (t := { t with
      slots := List.replicate t.capacity none
      address := E.allocate t.allocations
      allocations := t.allocations + 1 }) hm hm' hcap List.length_replicate
    (fun i hi => by simp only at hi; simp [Table.slotAt, hi]) hsize
  exact ⟨t', by rw [initializeSlots, if_pos hne, hreset], hblank, hgrowth, hsize', hcap', halloc⟩

/-! ## `resize` -/

/-- A slot without an element, if there are fewer elements than slots. -/
theorem exists_slot_none (h : (contents t.capacity t.slotAt).card < t.capacity) :
    ∃ i < t.capacity, t.slotAt i = none := by
  by_contra hno
  push Not at hno
  rw [card_contents, Finset.filter_true_of_mem, Finset.card_range] at h
  · omega
  · intro i hi
    exact Option.isSome_iff_ne_none.2 (hno i (Finset.mem_range.1 hi))

/-- What the loop of `resize` has after the elements counted in `elems`. -/
structure Filling (E : Env K) (m : Nat) (new t : Table K) (elems : Multiset K) : Prop where
  placing : Placing E m t
  noDeleted : ∀ i < t.capacity, t.ctrlAt i ≠ .deleted
  contents : contents t.capacity t.slotAt = elems
  header : SameHeader new t

theorem eq_empty_of_ne_deleted {c : Ctrl} (hnf : c.isEmptyOrDeleted = true) (hne : c ≠ .deleted) : c = .empty := by
  cases c <;> simp_all [Ctrl.isEmptyOrDeleted]

/-- One element of the old array. -/
theorem Filling.insert {m : Nat} {new : Table K} {elems : Multiset K} (h : Filling E m new t elems)
    (hroom : elems.card < t.capacity) (k : K) :
    ∃ info t₁ t₂, findFirstNonFull E t (E.hasher k) = some (info, t₁) ∧
      setCtrl E t₁ info.offset (.full (H2 (E.hasher k))) = some t₂ ∧
      (t₂.setSlot info.offset (some k)).slotAt info.offset = some k ∧
      Filling E m new (t₂.setSlot info.offset (some k)) (k ::ₘ elems) := by
  have hs := h.placing.shaped
  obtain ⟨i, hi, hnone⟩ := exists_slot_none (h.contents ▸ hroom)
  have hempty := (h.placing.vacant i hi).1 hnone
  obtain ⟨info, draws, hfind, htarget⟩ := findFirstNonFull_spec hs (E.hasher k) (hs.lt_pow hi) (by rw [hempty]; rfl)
  obtain ⟨t₂, hset, hwrites⟩ := setCtrl_spec (hs.draws draws) htarget.lt (c := .full (H2 (E.hasher k))) (by simp)
  obtain ⟨hshaped, hslot, hheader⟩ := hwrites.of_draws.setSlot hs htarget.lt (some k)
  have hctrl : ∀ j < 2 ^ m, (t₂.setSlot info.offset (some k)).ctrlAt j =
      if j = info.offset then .full (H2 (E.hasher k)) else t.ctrlAt j := hwrites.ctrlAt
  have htnone := (h.placing.vacant _ htarget.lt).2 (eq_empty_of_ne_deleted htarget.nonFull (h.noDeleted _ htarget.lt))
  refine ⟨info, _, _, hfind, hset, by rw [hslot, Function.update_self], ⟨?_, ?_, ?_, h.header.trans hheader⟩⟩
  · refine h.placing.step hshaped hheader.address (fun j hj hfull => ?_) fun j hj hnf => ?_
    · have hne : j ≠ info.offset := by
        rintro rfl
        rw [htarget.nonFull] at hfull
        cases hfull
      rw [hctrl j hj, if_neg hne, hslot, Function.update_of_ne hne]
      exact ⟨rfl, rfl⟩
    · have hcj := hctrl j (hs.lt_pow hj)
      by_cases hjt : j = info.offset
      · subst hjt
        exact .placed k (by rw [hcj, if_pos rfl]) (by rw [hslot, Function.update_self]) htarget.reaches
      · have hempty := eq_empty_of_ne_deleted hnf (h.noDeleted j hj)
        refine .empty (by rw [hcj, if_neg hjt, hempty]) ?_
        rw [hslot, Function.update_of_ne hjt, (h.placing.vacant j hj).2 hempty]
  · intro j hj
    rw [hheader.capacity] at hj
    rw [hctrl j (hs.lt_pow hj)]
    split
    · simp
    · exact h.noDeleted j hj
  · rw [hheader.capacity, hslot, contents_update htarget.lt htnone k, h.contents]

/-- The loop of `resize`, from the old slot `i` on. -/
theorem transferLoop_spec {m : Nat} {old new : Table K} (hold : Stored E n old)
    (hroom : (contents old.capacity old.slotAt).card ≤ new.capacity) (d i : Nat) (hd : i + d = old.capacity)
    (h : Filling E m new t (contents i old.slotAt)) :
    ∃ t', transferLoop E old (List.range' i d) t = some t' ∧
      Filling E m new t' (contents old.capacity old.slotAt) := by
  induction d generalizing i t with
  | zero =>
    obtain rfl : i = old.capacity := by omega
    exact ⟨t, rfl, h⟩
  | succ d ih =>
    have hi : i < old.capacity := by omega
    have hvacant := hold.vacant i hi
    rw [List.range'_succ, transferLoop]
    cases hslot : old.slotAt i with
    | none =>
      have hnf := hvacant.1 hslot
      have hfull : (old.ctrlAt i).isFull = false := by
        generalize old.ctrlAt i = c at hnf ⊢
        cases c <;> simp_all [Ctrl.isEmptyOrDeleted, Ctrl.isFull]
      rw [if_neg (by simp [hfull])]
      have hsucc : contents (i + 1) old.slotAt = contents i old.slotAt := by
        rw [contents_succ, hslot]
        simp
      exact ih (i + 1) (by omega) (hsucc ▸ h)
    | some k =>
      have hctrl := (hold.hashed i hi k hslot).1
      have hsucc : contents (i + 1) old.slotAt = k ::ₘ contents i old.slotAt := by
        rw [contents_succ, hslot]
        simp
      have hcard : (contents i old.slotAt).card < t.capacity := by
        have := card_contents_mono (f := old.slotAt) (show i + 1 ≤ old.capacity by omega)
        rw [hsucc, Multiset.card_cons] at this
        rw [h.header.capacity]
        omega
      obtain ⟨info, t₁, t₂, hfind, hset, -, hfill⟩ := h.insert hcard k
      rw [if_pos (by rw [hctrl]; rfl)]
      simp only [hfind, hset, Option.bind_eq_bind, Option.bind_some]
      exact ih (i + 1) (by omega) (hsucc ▸ hfill)

/-- As many slots count as there are elements. -/
theorem Placing.used_eq (h : Placing E n t) : used t = (contents t.capacity t.slotAt).card := by
  rw [used, card_contents]
  congr 1
  refine Finset.filter_congr fun i hi => ?_
  rw [Option.isSome_iff_ne_none]
  exact (h.vacant i (Finset.mem_range.1 hi)).not.symm

/-- **`resize`** keeps the elements. -/
theorem resize_spec {m : Nat} {S : Finset K} (h : Stored E n t) (hcontents : contents t.capacity t.slotAt = S.val)
    (hsize : t.size = S.card) {newCapacity : Nat} (hm : 1 ≤ m) (hm' : m ≤ 59) (hcap : newCapacity + 1 = 2 ^ m)
    (hroom : S.card ≤ growth E.group newCapacity) :
    ∃ t', resize E t newCapacity = some t' ∧ Inv E m t' S ∧ t'.growthLeft + S.card = growth E.group newCapacity ∧
      t'.capacity = newCapacity ∧ t'.allocations = t.allocations + 1 := by
  obtain ⟨new, hinit, hblank, hgrowth, hsize', hcap', halloc⟩ :=
    initializeSlots_spec (E := E) (t := { t with capacity := newCapacity }) hm hm' hcap (hsize ▸ hroom)
  have hstart : Filling E m new new (contents 0 t.slotAt) :=
    ⟨hblank.placing, fun i hi => by rw [hblank.empty i hi]; simp, hblank.contents, .refl new⟩
  have hle := growth_le E.group newCapacity
  simp only at hgrowth hsize' hcap' halloc
  obtain ⟨t', hloop, hfill⟩ := transferLoop_spec h (by rw [hcontents, hcap']; exact Nat.le_trans hroom hle) t.capacity 0
    (Nat.zero_add _) hstart
  have hcapacity : t'.capacity = newCapacity := hfill.header.capacity.trans hcap'
  have hleft : t'.growthLeft + S.card = growth E.group newCapacity := by
    rw [hfill.header.growthLeft, hgrowth, hsize]
    exact Nat.sub_add_cancel hroom
  refine ⟨t', ?_, ⟨hfill.placing.stored hfill.noDeleted, ?_, ?_, ?_, fun _ => hfill.noDeleted⟩, hleft, hcapacity,
    hfill.header.allocations.trans halloc⟩
  · rw [resize, if_pos (isValidCapacity_of_pow hm (by omega) hcap), hinit, Option.bind_eq_bind, Option.bind_some,
      List.range_eq_range', hloop]
  · rw [hfill.contents, hcontents]
  · rw [hfill.header.size, hsize', hsize]
  · rw [hfill.placing.used_eq, hfill.contents, hcontents, hcapacity]
    exact hleft

end LowLatency.RawHashSet
