import LowLatency.RawHashSet.DropDeletes

/-!
# Lookup and insertion

In a table that stands for a set, `find` decides membership (`find_of_mem`, `find_of_notMem`), and
`emplace` adds the element, after a rehash if there is no room (`emplace_spec`). Without tombstones the
number of elements that the table can take before it is resized is known (`insertRange_spec`).
-/

namespace LowLatency.RawHashSet

open QuadraticProbing Probing

variable {K : Type} {E : Env K} {t : Table K} {n : Nat} {S : Finset K}

/-! ## Lookup -/

theorem Inv.mem_iff (h : Inv E n t S) {k : K} : k ∈ S ↔ ∃ i < t.capacity, t.slotAt i = some k := by
  rw [← mem_contents, h.contents]
  rfl

theorem Inv.unique (h : Inv E n t S) {k : K} {i j : Nat} (hi : i < t.capacity) (hj : j < t.capacity)
    (hsi : t.slotAt i = some k) (hsj : t.slotAt j = some k) : j = i :=
  slot_unique (h.contents ▸ S.nodup) hi hj hsi hsj

theorem Shaped.lt_of_slotAt (hs : Shaped E n t) {k : K} {i : Nat} (hi : t.slotAt i = some k) : i < t.capacity := by
  by_contra hge
  rw [Table.slotAt, List.getD_eq_getElem?_getD, List.getElem?_eq_none (by rw [hs.slots]; omega)] at hi
  cases hi

/-- An empty slot, as long as not all of the growth is used or the table is not small. -/
theorem exists_empty_of_used (h : used t < t.capacity) : ∃ i < t.capacity, t.ctrlAt i = .empty := by
  by_contra hno
  push Not at hno
  rw [used, Finset.filter_true_of_mem fun i hi => hno i (Finset.mem_range.1 hi), Finset.card_range] at h
  omega

theorem Inv.stops (h : Inv E n t S) : n < E.group.logWidth ∨ ∃ i < 2 ^ n, t.ctrlAt i = .empty := by
  by_cases hn : n < E.group.logWidth
  · exact Or.inl hn
  · have hs := h.stored.shaped
    have hlt : RawHashSet.growth E.group t.capacity < t.capacity := by
      refine growth_lt ?_
      rw [hs.capacity]
      exact width_le_pow (E := E) (Nat.le_of_not_lt hn)
    have := h.growth
    obtain ⟨i, hi, hempty⟩ := exists_empty_of_used (t := t) (by omega)
    exact Or.inr ⟨i, hs.lt_pow hi, hempty⟩

section
variable [DecidableEq K] {key : K}

theorem find_of_mem (h : Inv E n t S) (hkey : key ∈ S) :
    ∃ i < t.capacity, t.slotAt i = some key ∧ find E t key = some (some i) := by
  obtain ⟨i, hi, hslot⟩ := h.mem_iff.1 hkey
  have hs := h.stored.shaped
  obtain ⟨hctrl, hreach⟩ := h.stored.hashed i hi key hslot
  refine ⟨i, hi, hslot, find_eq_some hs h.stored.constructed hctrl hslot hreach fun j _ hj => ?_⟩
  exact h.unique hi (hs.lt_of_slotAt hj) hslot hj

theorem find_of_notMem (h : Inv E n t S) (hkey : key ∉ S) : find E t key = some none := by
  have hs := h.stored.shaped
  refine find_eq_none hs h.stored.constructed h.stops fun i _ hslot => hkey ?_
  exact h.mem_iff.2 ⟨i, hs.lt_of_slotAt hslot, hslot⟩

/-- **`contains`** is membership. -/
theorem contains_spec (h : Inv E n t S) (key : K) : contains E t key = some (decide (key ∈ S)) := by
  by_cases hkey : key ∈ S
  · obtain ⟨i, -, -, hfind⟩ := find_of_mem h hkey
    simp [contains, hfind, hkey]
  · simp [contains, find_of_notMem h hkey, hkey]

end

/-! ## Where to insert -/

/-- No rehash: the elements stay in their slots of the same array. -/
structure Steady (t t' : Table K) : Prop where
  allocations : t'.allocations = t.allocations
  address : t'.address = t.address
  capacity : t'.capacity = t.capacity
  slots : ∀ i k, t.slotAt i = some k → t'.slotAt i = some k

theorem Steady.refl (t : Table K) : Steady t t := ⟨rfl, rfl, rfl, fun _ _ h => h⟩

theorem Steady.trans {t₁ t₂ t₃ : Table K} (h : Steady t₁ t₂) (h' : Steady t₂ t₃) : Steady t₁ t₃ :=
  ⟨h'.allocations.trans h.allocations, h'.address.trans h.address, h'.capacity.trans h.capacity,
    fun i k hk => h'.slots i k (h.slots i k hk)⟩

theorem Inv.draws (h : Inv E n t S) (draws : Nat) : Inv E n { t with draws := draws } S :=
  ⟨⟨h.stored.shaped.draws draws, h.stored.vacant, h.stored.hashed⟩, h.contents, h.size, h.growth, h.clean⟩

theorem Target.draws {hash : UInt64} {i : Nat} (h : Target E n t hash i) (draws : Nat) :
    Target E n { t with draws := draws } hash i := ⟨h.lt, h.nonFull, h.reaches⟩

/-- A slot that can take an element. -/
structure Room (E : Env K) (n : Nat) (t : Table K) (S : Finset K) (hash : UInt64) (i : Nat) : Prop where
  inv : Inv E n t S
  target : Target E n t hash i
  room : 0 < t.growthLeft ∨ t.ctrlAt i = .deleted

/-- With growth left there is an empty slot. -/
theorem Inv.target (h : Inv E n t S) (hash : UInt64) (hleft : 0 < t.growthLeft) :
    ∃ info t₁, findFirstNonFull E t hash = some (info, t₁) ∧ Room E n t₁ S hash info.offset ∧
      t₁.capacity = t.capacity := by
  have hs := h.stored.shaped
  have hgrowth := h.growth
  have hle := growth_le E.group t.capacity
  obtain ⟨i, hi, hempty⟩ := exists_empty_of_used (show used t < t.capacity by omega)
  obtain ⟨info, draws, hfind, htarget⟩ := findFirstNonFull_spec hs hash (hs.lt_pow hi) (by rw [hempty]; rfl)
  exact ⟨info, _, hfind, ⟨h.draws draws, htarget.draws draws, Or.inl hleft⟩, rfl⟩

/-- The first search of `prepare_insert` returns, also from a table without a slot that is not full. -/
theorem Inv.first (h : Inv E n t S) (hash : UInt64) :
    ∃ info draws, findFirstNonFull E t hash = some (info, { t with draws := draws }) ∧ info.offset < 2 ^ n ∧
      ((∃ i < 2 ^ n, (t.ctrlAt i).isEmptyOrDeleted = true) → Target E n t hash info.offset) := by
  have hs := h.stored.shaped
  by_cases hex : ∃ i < 2 ^ n, (t.ctrlAt i).isEmptyOrDeleted = true
  · obtain ⟨i, hi, hnf⟩ := hex
    obtain ⟨info, draws, hfind, htarget⟩ := findFirstNonFull_spec hs hash hi hnf
    exact ⟨info, draws, hfind, hs.lt_pow htarget.lt, fun _ => htarget⟩
  · have hn : n < E.group.logWidth := by
      rcases h.stops with hn | ⟨i, hi, hempty⟩
      · exact hn
      · exact absurd ⟨i, hi, by rw [hempty]; rfl⟩ hex
    obtain ⟨info, draws, hfind, hlt⟩ := findFirstNonFull_small hs hash hn
    exact ⟨info, draws, hfind, hlt, fun hex' => absurd hex' hex⟩

theorem prepareTarget_spec (h : Inv E n t S) (hash : UInt64) (hcard : S.card < 2 ^ 58) :
    ∃ m info t₁, prepareTarget E t hash = some (info, t₁) ∧ Room E m t₁ S hash info.offset ∧
      (0 < t.growthLeft → ∃ draws, t₁ = { t with draws := draws }) ∧ Grows E t t₁ := by
  obtain ⟨info, draws, hfind, hlt, htarget⟩ := h.first hash
  have hctrl₀ : Table.ctrlAt { t with draws := draws } info.offset = t.ctrlAt info.offset := rfl
  rw [prepareTarget, hfind, Option.bind_eq_bind, Option.bind_some]
  simp only [hctrl₀]
  by_cases hfull : t.growthLeft = 0 ∧ (t.ctrlAt info.offset).isDeleted = false
  · obtain ⟨m, t₁, hrehash, hinv, hleft, hgrows⟩ := rehashAndGrow_spec (h.draws draws) hcard
    obtain ⟨info', t₂, hfind', hroom, hcap⟩ := hinv.target hash hleft
    refine ⟨m, info', t₂, ?_, hroom, fun hpos => by omega, ?_⟩
    swap
    · rw [Grows, hcap]
      exact hgrows
    rw [if_pos hfull, hrehash, Option.bind_eq_bind, Option.bind_some, hfind']
  · refine ⟨n, info, { t with draws := draws }, by rw [if_neg hfull], ?_, fun _ => ⟨draws, rfl⟩, Or.inl rfl⟩
    by_cases hleft : t.growthLeft = 0
    · have hdel : t.ctrlAt info.offset = .deleted := by
        by_contra hne
        exact hfull ⟨hleft, by simpa [Ctrl.isDeleted] using hne⟩
      exact ⟨h.draws draws, (htarget ⟨_, hlt, by rw [hdel]; rfl⟩).draws draws, Or.inr hdel⟩
    · obtain ⟨info', t₁, hfind', hroom, -⟩ := h.target hash (Nat.pos_of_ne_zero hleft)
      rw [hfind, Option.some.injEq, Prod.mk.injEq] at hfind'
      obtain ⟨rfl, rfl⟩ := hfind'
      exact hroom

/-! ## Insertion -/

/-- The effect of one control byte on the slots that count. -/
theorem used_update {t' : Table K} {i : Nat} (hcap : t'.capacity = t.capacity) (hi : i < t.capacity)
    (hsame : ∀ j < t.capacity, j ≠ i → t'.ctrlAt j = t.ctrlAt j) :
    used t' + (if t.ctrlAt i = .empty then 0 else 1) = used t + (if t'.ctrlAt i = .empty then 0 else 1) := by
  have hsplit : ∀ t₀ : Table K, ((Finset.range t.capacity).filter fun j => t₀.ctrlAt j ≠ .empty).card =
      (if t₀.ctrlAt i = .empty then 0 else 1) +
        (((Finset.range t.capacity).erase i).filter fun j => t₀.ctrlAt j ≠ .empty).card := by
    intro t₀
    conv_lhs => rw [← Finset.insert_erase (Finset.mem_range.2 hi)]
    rw [Finset.filter_insert]
    by_cases hempty : t₀.ctrlAt i = .empty
    · simp [hempty]
    · rw [if_pos hempty, if_neg hempty, Finset.card_insert_of_notMem (by simp), Nat.add_comm]
  have hrest : (((Finset.range t.capacity).erase i).filter fun j => t'.ctrlAt j ≠ .empty) =
      (((Finset.range t.capacity).erase i).filter fun j => t.ctrlAt j ≠ .empty) := by
    refine Finset.filter_congr fun j hj => ?_
    rw [Finset.mem_erase, Finset.mem_range] at hj
    rw [hsame j hj.2 hj.1]
  rw [used, used, hcap, hsplit t', hsplit t, hrest]
  omega

section
variable {i : Nat} {key : K}

/-- An element written to the slot found for it. -/
theorem Room.insert [DecidableEq K] (h : Room E n t S (E.hasher key) i) (hkey : key ∉ S) {t' : Table K}
    (hs' : Shaped E n t') (hcap : t'.capacity = t.capacity) (haddr : t'.address = t.address)
    (hctrl : ∀ j < 2 ^ n, t'.ctrlAt j = if j = i then .full (H2 (E.hasher key)) else t.ctrlAt j)
    (hslot : t'.slotAt = Function.update t.slotAt i (some key)) (hsize : t'.size = t.size + 1)
    (hleft : t'.growthLeft + (if t.ctrlAt i = .empty then 1 else 0) = t.growthLeft) : Inv E n t' (insert key S) := by
  have hs := h.inv.stored.shaped
  have hi := h.target.lt
  have hnone : t.slotAt i = none := (h.inv.stored.vacant i hi).2 h.target.nonFull
  have hci : t'.ctrlAt i = .full (H2 (E.hasher key)) := by rw [hctrl i (hs.lt_pow hi), if_pos rfl]
  -- full and deleted slots are not empty afterwards either
  have hreach : ∀ hash j, Reachable E n t hash j → Reachable E n t' hash j := by
    intro hash j hr
    unfold Reachable home at hr ⊢
    rw [haddr]
    refine hr.mono fun x hx hne => ?_
    rw [hctrl x hx]
    split
    · simp
    · exact hne
  have hnew : Reachable E n t (E.hasher key) i := h.target.reaches.mono fun x _ hfull hempty => by
    rw [hempty] at hfull
    cases hfull
  refine ⟨⟨hs', fun j hj => ?_, fun j hj k hk => ?_⟩, ?_, ?_, ?_, fun hn j hj => ?_⟩
  · rw [hcap] at hj
    rw [hslot, hctrl j (hs.lt_pow hj)]
    by_cases hji : j = i
    · simp [hji, Ctrl.isEmptyOrDeleted]
    · rw [Function.update_of_ne hji, if_neg hji]
      exact h.inv.stored.vacant j hj
  · rw [hcap] at hj
    rw [hslot] at hk
    by_cases hji : j = i
    · subst hji
      rw [Function.update_self, Option.some.injEq] at hk
      subst hk
      exact ⟨hci, hreach _ _ hnew⟩
    · rw [Function.update_of_ne hji] at hk
      obtain ⟨hcj, hrj⟩ := h.inv.stored.hashed j hj k hk
      exact ⟨by rw [hctrl j (hs.lt_pow hj), if_neg hji, hcj], hreach _ _ hrj⟩
  · rw [hcap, hslot, contents_update hi hnone, h.inv.contents, Finset.insert_val_of_notMem hkey]
  · rw [hsize, h.inv.size, Finset.card_insert_of_notMem hkey]
  · have hused := used_update hcap hi fun j hj hne => by rw [hctrl j (hs.lt_pow hj), if_neg hne]
    have hgrowth := h.inv.growth
    have hne : t'.ctrlAt i ≠ .empty := by
      rw [hci]
      simp
    rw [if_neg hne] at hused
    rw [hcap]
    by_cases hempty : t.ctrlAt i = .empty
    · rw [if_pos hempty] at hused hleft
      omega
    · rw [if_neg hempty] at hused hleft
      omega
  · rw [hcap] at hj
    rw [hctrl j (hs.lt_pow hj)]
    split
    · simp
    · exact h.inv.clean hn j hj

theorem prepareInsert_spec [DecidableEq K] (h : Inv E n t S) (hkey : key ∉ S) (hcard : S.card < 2 ^ 58) :
    ∃ m i t', prepareInsert E t (E.hasher key) = some (i, t') ∧ Inv E m (t'.setSlot i (some key)) (insert key S) ∧
      i < t'.capacity ∧ i < t'.slots.length ∧
      (0 < t.growthLeft → Steady t (t'.setSlot i (some key)) ∧ t.growthLeft ≤ t'.growthLeft + 1) ∧ Grows E t t' := by
  obtain ⟨m, info, t₁, hprepare, hroom, halloc, hgrows⟩ := prepareTarget_spec h (E.hasher key) hcard
  have hs := hroom.inv.stored.shaped
  have hi := hroom.target.lt
  have hsize : sizeT (t₁.size + 1) = t₁.size + 1 := sizeT_of_lt (by rw [hroom.inv.size]; omega)
  have hleft : sizeTSub t₁.growthLeft (if (t₁.ctrlAt info.offset).isEmpty then 1 else 0) +
      (if t₁.ctrlAt info.offset = .empty then 1 else 0) = t₁.growthLeft := by
    have hpow := pow_lt_of_le hs.bound
    have hcap := hs.capacity
    have hgrowth := hroom.inv.growth
    have hle := growth_le E.group t₁.capacity
    by_cases hempty : t₁.ctrlAt info.offset = .empty
    · have hpos : 0 < t₁.growthLeft := by
        rcases hroom.room with hpos | hdel
        · exact hpos
        · rw [hempty] at hdel
          cases hdel
      rw [if_pos (by simp [hempty, Ctrl.isEmpty]), if_pos hempty, sizeTSub_of_le hpos (by omega)]
      omega
    · rw [if_neg (by simpa [Ctrl.isEmpty] using hempty), if_neg hempty, sizeTSub_of_le (Nat.zero_le _) (by omega)]
      omega
  generalize hleft' : sizeTSub t₁.growthLeft (if (t₁.ctrlAt info.offset).isEmpty then 1 else 0) = left at hleft
  have hs₁ : Shaped E m { t₁ with size := t₁.size + 1, growthLeft := left } :=
    ⟨hs.capacity, hs.bound, hs.mirrored, hs.slots⟩
  obtain ⟨t₂, hset, hw⟩ := setCtrl_spec hs₁ hi (c := .full (H2 (E.hasher key))) (by simp)
  obtain ⟨hs₂, hslot₂, hheader₂⟩ := hw.setSlot hs₁ hi (some key)
  refine ⟨m, info.offset, t₂, ?_, ?_, ?_, ?_, fun hpos => ?_, ?_⟩
  · rw [prepareInsert, hprepare, Option.bind_eq_bind, Option.bind_some]
    simp only [hsize, hleft']
    rw [hset, Option.bind_eq_bind, Option.bind_some]
  · exact hroom.insert hkey hs₂ hheader₂.capacity hheader₂.address hw.ctrlAt hslot₂ hheader₂.size
      (by rw [hheader₂.growthLeft]; exact hleft)
  · rw [hw.header.capacity]
    exact hi
  · rw [hw.slots]
    show info.offset < t₁.slots.length
    rw [hs.slots]
    exact hi
  · obtain ⟨draws, rfl⟩ := halloc hpos
    refine ⟨⟨hheader₂.allocations, hheader₂.address, hheader₂.capacity, fun j k hj => ?_⟩, ?_⟩
    · have hnone : t.slotAt info.offset = none := (hroom.inv.stored.vacant _ hi).2 hroom.target.nonFull
      have hne : j ≠ info.offset := by
        rintro rfl
        rw [hnone] at hj
        cases hj
      rw [hslot₂, Function.update_of_ne hne]
      exact hj
    · rw [hw.header.growthLeft, ← hleft]
      show left + _ ≤ left + 1
      split <;> omega
  · rw [Grows, hw.header.capacity]
    exact hgrows

/-- **`emplace`** adds the element, and finds it again. There is no rehash as long as the growth left is
enough for it. -/
theorem emplace_spec [DecidableEq K] (h : Inv E n t S) (key : K) (hcard : S.card < 2 ^ 58) :
    ∃ m i t', emplace E t key = some ((i, decide (key ∉ S)), t') ∧ Inv E m t' (insert key S) ∧
      t'.slotAt i = some key ∧ Grows E t t' ∧
      ((insert key S).card ≤ S.card + t.growthLeft →
        Steady t t' ∧ S.card + t.growthLeft ≤ (insert key S).card + t'.growthLeft) := by
  by_cases hkey : key ∈ S
  · obtain ⟨i, -, hslot, hfind⟩ := find_of_mem h hkey
    rw [Finset.insert_eq_of_mem hkey]
    refine ⟨n, i, t, ?_, h, hslot, Or.inl rfl, fun _ => ⟨.refl t, Nat.le_refl _⟩⟩
    simp [emplace, findOrPrepareInsert, hfind, hkey]
  · obtain ⟨m, i, t₁, hprepare, hinv, hi, hlen, halloc, hgrows⟩ := prepareInsert_spec h hkey hcard
    have hslot : (t₁.setSlot i (some key)).slotAt i = some key := by rw [slotAt_setSlot hlen, if_pos rfl]
    have hfind : find E (t₁.setSlot i (some key)) key = some (some i) := by
      obtain ⟨j, hj, hslot', hfind⟩ := find_of_mem hinv (Finset.mem_insert_self key S)
      rw [hfind, hinv.unique hi hj hslot hslot']
    have hat : emplaceAt E t₁ i key = some (t₁.setSlot i (some key)) := if_pos hfind
    refine ⟨m, i, t₁.setSlot i (some key), ?_, hinv, hslot, hgrows, fun hroom => ?_⟩
    · simp [emplace, findOrPrepareInsert, find_of_notMem h hkey, hprepare, hat, hkey]
    · rw [Finset.card_insert_of_notMem hkey] at hroom ⊢
      obtain ⟨hsteady, hleft⟩ := halloc (by omega)
      refine ⟨hsteady, ?_⟩
      show S.card + t.growthLeft ≤ S.card + 1 + t₁.growthLeft
      omega

end

end LowLatency.RawHashSet
