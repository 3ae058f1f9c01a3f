import LowLatency.RawHashSet.Erase

/-!
# Clearing, reserving and constructing

`clear` and `rehash(0)` leave a table without elements, `rehash` and `reserve` keep the elements
(`clear_spec`, `rehash_spec`, `reserve_spec`). After `reserve(n)` no array is allocated before the table
has more than `n` elements (`insertRange_spec`), and so none is after the constructor over a range whose
length is known (`ofRange_spec`).
-/

namespace LowLatency.RawHashSet

open QuadraticProbing Probing

variable {K : Type} {E : Env K} {t : Table K} {n : Nat} {S : Finset K}

/-! ## Tables without elements -/

theorem getD_kEmptyGroup {p : Nat} (hp : p < 16) : kEmptyGroup.getD p .sentinel = if p = 0 then .sentinel else .empty := by
  have hall : ∀ p < 16, kEmptyGroup.getD p .sentinel = if p = 0 then Ctrl.sentinel else .empty := by decide
  exact hall p hp

theorem inv_empty (E : Env K) (allocations draws : Nat) : Inv E 0 (Table.empty E allocations draws) ∅ := by
  have hW := width_le_sixteen E
  have hcap : (Table.empty E allocations draws).capacity = 0 := rfl
  refine ⟨⟨⟨rfl, by decide, ⟨?_, ?_, ?_, ?_⟩, rfl⟩, ?_, ?_⟩, rfl, rfl, ?_,
    fun _ i hi => absurd hi (Nat.not_lt_zero i)⟩
  · show 0 + E.width ≤ 16
    omega
  · intro i hi
    obtain rfl : i = 0 := Nat.le_zero.1 hi
    exact ⟨fun _ => rfl, fun _ => rfl⟩
  · exact fun i hi => absurd hi (Nat.not_lt_zero i)
  · intro p hp hdummy
    rw [hcap] at hp hdummy
    exact (getD_kEmptyGroup (by omega)).trans (if_neg (by omega))
  · exact fun i hi => absurd hi (Nat.not_lt_zero i)
  · exact fun i hi => absurd hi (Nat.not_lt_zero i)
  · have hused : used (Table.empty E allocations draws) = 0 := rfl
    rw [hused, hcap]
    simp [growth, Table.empty]

theorem Blank.inv (h : Blank E n t) (hsize : t.size = 0) (hleft : t.growthLeft = growth E.group t.capacity) :
    Inv E n t ∅ := by
  have hused : used t = 0 := by
    rw [h.placing.used_eq, h.contents]
    rfl
  have hnone : ∀ i < t.capacity, t.ctrlAt i ≠ .deleted := by
    intro i hi
    rw [h.empty i hi]
    simp
  exact ⟨h.placing.stored hnone, h.contents, hsize, by rw [hused, hleft, Nat.add_zero], fun _ => hnone⟩

/-- The loop of `destroy_slots`, from slot `i` on. -/
theorem destroyLoop_spec (d i : Nat) (hd : i + d = t.capacity) (hlen : t.slots.length = t.capacity)
    (hcon : ∀ j < t.capacity, i ≤ j → (t.slotAt j = none ↔ (t.ctrlAt j).isFull = false)) (hnone : ∀ j < i, t.slotAt j = none) :
    ∃ t', destroyLoop (List.range' i d) t = some t' ∧ t'.slots.length = t.capacity ∧
      (∀ j < t.capacity, t'.slotAt j = none) ∧ SameHeader t t' := by
  induction d generalizing i t with
  | zero =>
    obtain rfl : i = t.capacity := by omega
    exact ⟨t, rfl, hlen, hnone, .refl t⟩
  | succ d ih =>
    have hi : i < t.capacity := by omega
    rw [List.range'_succ, destroyLoop]
    have hci := hcon i hi (Nat.le_refl i)
    cases hslot : t.slotAt i with
    | none =>
      have hnf : (t.ctrlAt i).isFull = false := hci.1 hslot
      rw [if_neg (by simp [hnf])]
      refine ih (i + 1) (by omega) hlen (fun j hj hij => hcon j hj (by omega)) fun j hj => ?_
      rcases Nat.lt_succ_iff_lt_or_eq.1 hj with hj | rfl
      · exact hnone j hj
      · exact hslot
    | some k =>
      have hfull : (t.ctrlAt i).isFull = true := by
        by_contra hno
        have := hci.2 (by simpa using hno)
        rw [hslot] at this
        cases this
      have hget := slotAt_setSlot (t := t) (by rw [hlen]; exact hi) none
      rw [if_pos hfull]
      have hcon' : ∀ j < t.capacity, i + 1 ≤ j → ((t.setSlot i none).slotAt j = none ↔ (t.ctrlAt j).isFull = false) := by
        intro j hj hij
        rw [hget, if_neg (by omega)]
        exact hcon j hj (by omega)
      have hnone' : ∀ j < i + 1, (t.setSlot i none).slotAt j = none := by
        intro j hj
        rw [hget]
        split
        · rfl
        · exact hnone j (by omega)
      obtain ⟨t', hloop, hlen', hdone, hheader⟩ := ih (t := t.setSlot i none) (i + 1)
        (show i + 1 + d = t.capacity by omega) (List.length_set.trans hlen) hcon' hnone'
      exact ⟨t', hloop, hlen', hdone, (SameHeader.setSlot t i none).trans hheader⟩

/-- **`clear`** leaves no element. -/
theorem clear_spec (h : Inv E n t S) : ∃ m t', clear E t = some t' ∧ Inv E m t' ∅ := by
  have hs := h.stored.shaped
  have hcap := hs.capacity
  rw [clear]
  by_cases hzero : t.capacity = 0
  · have hempty : S = ∅ := by
      have := h.card_le_growth
      have hle := growth_le E.group t.capacity
      exact Finset.card_eq_zero.1 (by omega)
    exact ⟨n, t, if_pos hzero, hempty ▸ h⟩
  · have hn : 1 ≤ n := by
      by_contra hlt
      obtain rfl : n = 0 := by omega
      rw [Nat.pow_zero] at hcap
      omega
    obtain ⟨t₁, hdestroy, hlen, hnone, hheader⟩ := destroyLoop_spec t.capacity 0 (Nat.zero_add _) hs.slots
      (fun j hj _ => by
        have hne := hs.ctrlAt_ne_sentinel hj
        rw [h.stored.vacant j hj]
        generalize t.ctrlAt j = c at hne ⊢
        cases c <;> simp_all [Ctrl.isEmptyOrDeleted, Ctrl.isFull])
      fun j hj => absurd hj (Nat.not_lt_zero j)
    have hdestroy' : destroySlots t = some t₁ := by rw [destroySlots, List.range_eq_range', hdestroy]
    rw [if_neg hzero, hdestroy', Option.bind_eq_bind, Option.bind_some, clearBackingArray]
    by_cases hreuse : t.capacity < 128
    · obtain ⟨t₂, hreset, hblank, hleft, hsize₂, hcap₂, -, -⟩ := resetCtrl_spec (E := E) (t := { t₁ with size := 0 }) hn
        hs.bound (by simp only [hheader.capacity]; exact hcap) (by simp only [hheader.capacity]; exact hlen)
        (by simp only [hheader.capacity]; exact hnone) (Nat.zero_le _)
      refine ⟨n, t₂, by rw [decide_eq_true hreuse, if_pos rfl, hreset], hblank.inv hsize₂ ?_⟩
      rw [hleft, hcap₂]
      rfl
    · refine ⟨0, Table.empty E t₁.allocations t₁.draws, ?_, inv_empty E _ _⟩
      rw [decide_eq_false hreuse, if_neg (by simp)]

/-! ## Reserving -/

/-- The capacity for `g` elements or more. -/
theorem exists_capacity {g x : Nat} (hg : g < 2 ^ 58) (hx : growthToLowerboundCapacity E.group g ≤ x) (hx' : x < 2 ^ 59) :
    ∃ m, 1 ≤ m ∧ m ≤ 59 ∧ normalizeCapacity x + 1 = 2 ^ m ∧ g ≤ growth E.group (normalizeCapacity x) := by
  have hcap := normalizeCapacity_add_one (n := x) (by omega)
  have hm : max 1 x.size ≤ 59 := Nat.max_le.2 ⟨by decide, Nat.size_le.2 hx'⟩
  refine ⟨max 1 x.size, Nat.le_max_left _ _, hm, hcap, ?_⟩
  exact (lowerbound_le_iff (Nat.le_max_left _ _) hcap (by omega)).1 (Nat.le_trans hx (le_normalizeCapacity (by omega)))

theorem lowerbound_lt {g : Nat} (hg : g < 2 ^ 58) : growthToLowerboundCapacity E.group g < 2 ^ 59 := by
  rw [growthToLowerboundCapacity_eq (by omega)]
  split <;> omega

/-- **`rehash`** keeps the elements. -/
theorem rehash_spec (h : Inv E n t S) (hcard : S.card < 2 ^ 58) {count : Nat} (hcount : count < 2 ^ 58) :
    ∃ m t', rehash E t count = some t' ∧ Inv E m t' S := by
  rw [rehash]
  by_cases hnothing : count = 0 ∧ t.capacity = 0
  · exact ⟨n, t, if_pos hnothing, h⟩
  · rw [if_neg hnothing]
    by_cases hclear : count = 0 ∧ t.size = 0
    · have hempty : S = ∅ := Finset.card_eq_zero.1 (h.size ▸ hclear.2)
      refine ⟨0, _, by rw [if_pos hclear, clearBackingArray, if_neg (by simp)], ?_⟩
      rw [hempty]
      exact inv_empty E _ _
    · rw [if_neg hclear, h.size]
      by_cases hgrow : count = 0 ∨ t.capacity < normalizeCapacity (count ||| growthToLowerboundCapacity E.group S.card)
      · obtain ⟨m, hm, hm', hcap, hroom⟩ := exists_capacity (E := E) hcard
          (show _ ≤ count ||| growthToLowerboundCapacity E.group S.card from Nat.right_le_or)
          (Nat.or_lt_two_pow (by omega) (lowerbound_lt hcard))
        obtain ⟨t', hresize, hinv, -⟩ := resize_spec h.stored h.contents h.size hm hm' hcap hroom
        exact ⟨m, t', by simp only [if_pos hgrow, hresize], hinv⟩
      · exact ⟨n, t, by simp only [if_neg hgrow], h⟩

/-- **`reserve`** keeps the elements and makes room. -/
theorem reserve_spec (h : Inv E n t S) {count : Nat} (hcount : count < 2 ^ 58) :
    ∃ m t', reserve E t count = some t' ∧ Inv E m t' S ∧ count ≤ S.card + t'.growthLeft ∧
      (t' = t ∨ t'.growthLeft + S.card = growth E.group t'.capacity) := by
  have hs := h.stored.shaped
  have hcap := hs.capacity
  have hpow := pow_lt_of_le hs.bound
  have hle := h.card_le_growth
  have hle' := growth_le E.group t.capacity
  have hgrowth := h.growth
  rw [reserve, h.size, sizeT_of_lt (by omega)]
  by_cases hmore : S.card + t.growthLeft < count
  · obtain ⟨m, hm, hm', hcap', hroom⟩ := exists_capacity (E := E) hcount (Nat.le_refl _) (lowerbound_lt hcount)
    obtain ⟨t', hresize, hinv, hleft, hcapacity, -⟩ := resize_spec h.stored h.contents h.size hm hm' hcap' (by omega)
    exact ⟨m, t', by rw [if_pos hmore, hresize], hinv, by omega, Or.inr (by rw [hleft, hcapacity])⟩
  · exact ⟨n, t, if_neg hmore, h, by omega, Or.inl rfl⟩

/-! ## Construction -/

/-- Inserting a range, which allocates nothing if there is room for it. -/
theorem insertRange_spec [DecidableEq K] (h : Inv E n t S) (ks : List K) (hcard : (S ∪ ks.toFinset).card < 2 ^ 58) :
    ∃ m t', insertRange E t ks = some t' ∧ Inv E m t' (S ∪ ks.toFinset) ∧
      ((S ∪ ks.toFinset).card ≤ S.card + t.growthLeft → Steady t t') := by
  induction ks generalizing n t S with
  | nil => exact ⟨n, t, rfl, by simpa using h, fun _ => .refl t⟩
  | cons k ks ih =>
    have hunion : S ∪ (k :: ks).toFinset = insert k S ∪ ks.toFinset := by
      rw [List.toFinset_cons, Finset.union_insert, ← Finset.insert_union]
    rw [hunion] at hcard ⊢
    have hsub : (insert k S).card ≤ (insert k S ∪ ks.toFinset).card := Finset.card_le_card Finset.subset_union_left
    have hle : S.card ≤ (insert k S).card := Finset.card_le_card (Finset.subset_insert k S)
    obtain ⟨m, i, t₁, hemplace, hinv, -, -, halloc⟩ := emplace_spec h k (by omega)
    obtain ⟨m', t', hrange, hinv', halloc'⟩ := ih hinv hcard
    refine ⟨m', t', ?_, hinv', fun hroom => ?_⟩
    · rw [insertRange, hemplace, Option.bind_eq_bind, Option.bind_some]
      exact hrange
    · obtain ⟨hsteady, hleft⟩ := halloc (by omega)
      exact hsteady.trans (halloc' (by omega))

/-- A table for a given number of elements. -/
theorem new_spec {count : Nat} (hcount : count < 2 ^ 58) (allocations draws : Nat) :
    ∃ m t, Table.new E allocations draws (growthToLowerboundCapacity E.group count) = some t ∧ Inv E m t ∅ ∧
      count ≤ t.growthLeft ∧ t.allocations = allocations + if count = 0 then 0 else 1 := by
  have hzero : growthToLowerboundCapacity E.group count = 0 ↔ count = 0 := by
    rw [growthToLowerboundCapacity_eq (by omega)]
    split <;> omega
  rw [Table.new]
  by_cases hc : count = 0
  · refine ⟨0, Table.empty E allocations draws, ?_, inv_empty E _ _, by omega, by rw [if_pos hc]; rfl⟩
    rw [if_neg (by rw [not_not, hzero]; exact hc)]
  · obtain ⟨m, hm, hm', hcap, hroom⟩ := exists_capacity (E := E) hcount (Nat.le_refl _) (lowerbound_lt hcount)
    obtain ⟨t, hinit, hblank, hleft, hsize, hcap', halloc⟩ := initializeSlots_spec (E := E) (t :=
      { Table.empty E allocations draws with capacity := normalizeCapacity (growthToLowerboundCapacity E.group count) })
      hm hm' hcap (Nat.zero_le _)
    refine ⟨m, t, ?_, hblank.inv hsize ?_, ?_, by rw [halloc, if_neg hc]; rfl⟩
    · rw [if_pos (fun h0 => hc (hzero.1 h0)), hinit]
    · rw [hleft, hcap']
      rfl
    · rw [hleft]
      exact hroom

/-- **The constructor over a range**: it allocates one array, if the length of the range is known. -/
theorem ofRange_spec [DecidableEq K] (E : Env K) (allocations draws : Nat) (randomAccess : Bool) (ks : List K)
    (hlen : ks.length < 2 ^ 58) :
    ∃ m t, Table.ofRange E allocations draws randomAccess ks = some t ∧ Inv E m t ks.toFinset ∧
      (randomAccess = true → t.allocations = allocations + if ks = [] then 0 else 1) := by
  have hcard : (∅ ∪ ks.toFinset).card ≤ ks.length := by
    rw [Finset.empty_union]
    exact List.toFinset_card_le ks
  rw [Table.ofRange, selectBucketCountForIterRange, if_neg (by simp)]
  cases randomAccess with
  | true =>
    obtain ⟨m, t₁, hnew, hinv, hroom, halloc⟩ := new_spec (E := E) hlen allocations draws
    obtain ⟨m', t₂, hrange, hinv', halloc'⟩ := insertRange_spec hinv ks (by omega)
    refine ⟨m', t₂, ?_, by rwa [Finset.empty_union] at hinv', fun _ => ?_⟩
    · rw [if_pos rfl, hnew, Option.bind_eq_bind, Option.bind_some, hrange]
    · have hle : (∅ ∪ ks.toFinset).card ≤ (∅ : Finset K).card + t₁.growthLeft := by
        rw [Finset.card_empty]
        omega
      rw [(halloc' hle).allocations, halloc]
      simp
  | false =>
    obtain ⟨m', t₂, hrange, hinv', -⟩ := insertRange_spec (inv_empty E allocations draws) ks (by omega)
    refine ⟨m', t₂, ?_, by rwa [Finset.empty_union] at hinv', nofun⟩
    rw [if_neg (by simp), Table.new, if_neg (by simp), Option.bind_eq_bind, Option.bind_some, hrange]

end LowLatency.RawHashSet
