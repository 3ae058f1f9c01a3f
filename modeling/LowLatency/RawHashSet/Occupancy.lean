import LowLatency.RawHashSet.Refinement

/-!
# What the slots of a table are used for

A slot is empty, holds an element, or is marked as deleted: a tombstone, left by an element that was
erased from a group that was full. `growth_left` counts down to the next rehash, and a tombstone does not
give it back (`occupancy_of_run`). So that tombstones alone do not make the table grow, the table is
rehashed in place while it has few elements (`dropDeletes_of_run`), and the capacity stays within a
factor of the number of elements, however many are inserted and erased (`capacity_of_run`).

All of this is about the tables that a run of operations reaches.
-/

namespace LowLatency.RawHashSet

open QuadraticProbing Probing

variable {K : Type} {E : Env K} {t : Table K} {n : Nat} {S : Finset K}

/-- The slots marked as deleted. -/
def tombstones (t : Table K) : Nat := ((Finset.range t.capacity).filter fun i => t.ctrlAt i = .deleted).card

theorem Inv.used_eq (h : Inv E n t S) : used t = S.card + tombstones t := by
  have hs := h.stored.shaped
  have hsplit : ((Finset.range t.capacity).filter fun i => t.ctrlAt i ≠ .empty) =
      ((Finset.range t.capacity).filter fun i => (t.slotAt i).isSome = true) ∪
        ((Finset.range t.capacity).filter fun i => t.ctrlAt i = .deleted) := by
    ext i
    simp only [Finset.mem_union, Finset.mem_filter, Finset.mem_range, ← and_or_left]
    refine and_congr_right fun hi => ?_
    have hvacant := h.stored.vacant i hi
    have hne := hs.ctrlAt_ne_sentinel hi
    rw [← Option.ne_none_iff_isSome, ne_eq (t.slotAt i), hvacant]
    generalize t.ctrlAt i = c at hne ⊢
    cases c <;> simp_all [Ctrl.isEmptyOrDeleted]
  have hdisjoint : Disjoint ((Finset.range t.capacity).filter fun i => (t.slotAt i).isSome = true)
      ((Finset.range t.capacity).filter fun i => t.ctrlAt i = .deleted) := by
    rw [Finset.disjoint_filter]
    intro i hi hsome hdel
    have hvacant := (h.stored.vacant i (Finset.mem_range.1 hi)).2 (by rw [hdel]; rfl)
    rw [hvacant] at hsome
    cases hsome
  rw [used, hsplit, Finset.card_union_of_disjoint hdisjoint, ← h.card_eq, tombstones]

theorem Inv.accounting (h : Inv E n t S) : t.growthLeft + S.card + tombstones t = RawHashSet.growth E.group t.capacity := by
  rw [← h.growth, h.used_eq, Nat.add_assoc]

/-- What the capacity can be when there were at most `N` elements. -/
def CapacityFor (E : Env K) (N capacity : Nat) : Prop := capacity ≤ 2 * E.width + 1 ∨ 25 * capacity < 64 * N + 25

theorem CapacityFor.grows {N : Nat} {t' : Table K} (h : CapacityFor E N t.capacity) (hsize : t.size ≤ N) (hg : Grows E t t') :
    CapacityFor E N t'.capacity := by
  unfold CapacityFor at h ⊢
  rcases hg with hcap | ⟨hcap, hsmall | hmany⟩
  · rwa [hcap]
  · omega
  · omega

section
variable [DecidableEq K] {allocations draws : Nat} {ops : List (Op K)} {rs : List (Response K)}

/-- **The slots of a table.** Those in use and those left for elements to come are all that the load factor allows.
A table smaller than a group has no tombstones; in any other there is an empty slot, where searches end. -/
theorem occupancy_of_run (hrun : run E (Table.empty E allocations draws) ops = some (rs, t)) (hfits : Fits ∅ ops) :
    t.size = (after ∅ ops).card ∧ t.growthLeft + t.size + tombstones t = growth E.group t.capacity ∧
      (isSmall E.group t.capacity = true → tombstones t = 0) ∧
      (isSmall E.group t.capacity = false → ∃ i < t.capacity, t.ctrlAt i = .empty) := by
  obtain ⟨n, h⟩ := inv_of_run hrun hfits
  have hs := h.stored.shaped
  refine ⟨h.size, h.size ▸ h.accounting, fun hsmall => ?_, fun hsmall => ?_⟩
  · have hclean := h.clean (hs.isSmall_iff.1 hsmall)
    rw [tombstones, Finset.card_eq_zero, Finset.filter_eq_empty_iff]
    exact fun i hi => hclean i (Finset.mem_range.1 hi)
  · rcases h.stops with hn | ⟨i, hi, hempty⟩
    · rw [hs.isSmall_iff.2 hn] at hsmall
      cases hsmall
    · exact ⟨i, hs.lt_capacity hi (by rw [hempty]; simp), hempty⟩

/-- All keys have one hash, and every search starts at slot 8 of 15 and goes around. -/
def wrapping : Env Nat := ⟨groupPortable, fun _ => 1024, 0, fun _ => 0, fun _ => 0⟩

/-- Ten elements do not fit in a group, and the one that is erased leaves a tombstone among them. -/
def tenKeys : List (Op Nat) := (List.range 10).map .insert ++ [.erase 0]

theorem tenKeys_fits : Fits ∅ tenKeys := by simp [tenKeys, List.range, List.range.loop, Fits, Op.Bounded, Op.apply]

theorem tenKeys_run :
    ∃ rs t, run wrapping (Table.empty wrapping 0 0) tenKeys = some (rs, t) ∧ t.capacity = 15 ∧ tombstones t = 1 ∧
      t.slotAt 13 = some 4 ∧ t.slotAt 14 = some 5 := by
  obtain ⟨⟨rs, t⟩, hrun, heval⟩ := Option.map_eq_some_iff.1 (by decide +kernel :
    (run wrapping (Table.empty wrapping 0 0) tenKeys).map
      (fun r => (r.2.capacity, tombstones r.2, r.2.slotAt 13, r.2.slotAt 14)) = some (15, 1, some 4, some 5))
  simp only [Prod.mk.injEq] at heval
  exact ⟨rs, t, hrun, heval⟩

theorem occupancy_of_run_tenKeys :
    ∃ rs t, run wrapping (Table.empty wrapping 0 0) tenKeys = some (rs, t) ∧ t.size = 9 ∧ tombstones t = 1 ∧ t.growthLeft = 4 ∧
      ∃ i < t.capacity, t.ctrlAt i = .empty := by
  obtain ⟨rs, t, hrun, hcap, htomb, -, -⟩ := tenKeys_run
  obtain ⟨hsize, hgrowth, -, hempty⟩ := occupancy_of_run hrun tenKeys_fits
  replace hsize : t.size = 9 := hsize.trans (by decide)
  rw [hcap, hsize, htomb] at hgrowth
  replace hgrowth : t.growthLeft + 9 + 1 = 14 := hgrowth
  exact ⟨rs, t, hrun, hsize, htomb, by omega, hempty (by rw [hcap]; decide)⟩

/-! ## Rehashing in place -/

/-- **`DropDeletesWithoutResize`** gives all tombstones back, in the same array, and every element is found as before. -/
theorem dropDeletes_of_run (hrun : run E (Table.empty E allocations draws) ops = some (rs, t)) (hfits : Fits ∅ ops)
    (hcap : E.width < t.capacity) :
    ∃ t', dropDeletesWithoutResize E t = some t' ∧ tombstones t' = 0 ∧ t'.capacity = t.capacity ∧
      t'.allocations = t.allocations ∧ t'.growthLeft + t'.size = growth E.group t.capacity ∧
      ∀ k, contains E t' k = contains E t k := by
  obtain ⟨n, h⟩ := inv_of_run hrun hfits
  have hn : E.group.logWidth ≤ n := by
    by_contra hlt
    have hpow := pow_le_width (E := E) (Nat.lt_of_not_le hlt)
    have := h.stored.shaped.capacity
    omega
  obtain ⟨t', hdrop, h', hleft, hcap', halloc⟩ := dropDeletes_spec h hn
  have haccount := h'.accounting
  rw [hcap'] at haccount
  refine ⟨t', hdrop, by omega, hcap', halloc, by rw [h'.size, hleft], fun k => ?_⟩
  rw [contains_spec h' k, contains_spec h k]

/-- One swap after the other: 9 takes the place of 5, 5 that of 4, and so on to the slot that the tombstone had. -/
theorem dropDeletes_of_run_tenKeys :
    ∃ rs t t', run wrapping (Table.empty wrapping 0 0) tenKeys = some (rs, t) ∧ tombstones t = 1 ∧
      dropDeletesWithoutResize wrapping t = some t' ∧ tombstones t' = 0 ∧ t'.growthLeft + t'.size = 14 ∧
      contains wrapping t' 9 = contains wrapping t 9 ∧ t.slotAt 14 = some 5 ∧ t'.slotAt 14 = some 9 ∧
      t.slotAt 13 = some 4 ∧ t'.slotAt 13 = some 5 := by
  obtain ⟨rs, t, hrun, hcap, htomb, hfour, hfive⟩ := tenKeys_run
  obtain ⟨t', hdrop, hnone, -, -, hleft, hfind⟩ := dropDeletes_of_run hrun tenKeys_fits (show 8 < t.capacity by omega)
  have hslots : ((run wrapping (Table.empty wrapping 0 0) tenKeys).bind fun r => dropDeletesWithoutResize wrapping r.2).map
      (fun t => (t.slotAt 14, t.slotAt 13)) = some (some 9, some 5) := by decide +kernel
  rw [hrun, Option.bind_some, hdrop, Option.map_some, Option.some.injEq, Prod.mk.injEq] at hslots
  exact ⟨rs, t, t', hrun, htomb, hdrop, hnone, by rw [hleft, hcap]; rfl, hfind 9, hfive, hslots.1, hfour, hslots.2⟩

/-! ## The capacity -/

/-- The operations that do not ask for a capacity. -/
def Op.Plain : Op K → Prop
  | .insert _ | .contains _ | .erase _ | .elements => True
  | .clear | .rehash _ | .reserve _ | .copy => False

theorem step_grows (h : Inv E n t S) (hcard : S.card < 2 ^ 58) {op : Op K} (hop : op.Plain) :
    ∃ r t' m, step E t op = some (r, t') ∧ Inv E m t' (op.apply S) ∧ Grows E t t' := by
  cases op with
  | insert k =>
    obtain ⟨m, i, t', hemplace, hinv, -, hgrows, -⟩ := emplace_spec h k hcard
    exact ⟨_, t', m, by rw [step, hemplace, Option.map_some], hinv, hgrows⟩
  | contains k => exact ⟨_, t, n, by rw [step, contains_spec h k, Option.map_some], h, Or.inl rfl⟩
  | erase k =>
    obtain ⟨t', herase, hinv⟩ := erase_spec h k
    have hcap := h.stored.shaped.capacity
    have hcap' := hinv.stored.shaped.capacity
    exact ⟨_, t', n, by rw [step, herase, Option.map_some], hinv, Or.inl (by omega)⟩
  | elements =>
    obtain ⟨ks, hks, -⟩ := elements_spec h
    exact ⟨_, t, n, by rw [step, hks, Option.map_some], h, Or.inl rfl⟩
  | clear | rehash _ | reserve _ | copy => exact hop.elim

theorem capacity_of_run_from {N : Nat} (ops : List (Op K)) (h : Inv E n t S) (hN : N < 2 ^ 58) (hcap : CapacityFor E N t.capacity)
    (hops : ∀ op ∈ ops, op.Plain) (hsizes : ∀ i ≤ ops.length, (after S (ops.take i)).card ≤ N) :
    ∃ rs t', run E t ops = some (rs, t') ∧ CapacityFor E N t'.capacity := by
  induction ops generalizing n t S with
  | nil => exact ⟨[], t, rfl, hcap⟩
  | cons op ops ih =>
    have hS : S.card ≤ N := hsizes 0 (Nat.zero_le _)
    obtain ⟨r, t₁, m, hstep, hinv, hgrows⟩ := step_grows h (by omega) (hops op List.mem_cons_self)
    obtain ⟨rs, t', hrun, hcap'⟩ := ih hinv (hcap.grows (by rw [h.size]; exact hS) hgrows)
      (fun op' hop' => hops op' (List.mem_cons_of_mem op hop'))
      fun i hi => hsizes (i + 1) (Nat.succ_le_succ hi)
    refine ⟨r :: rs, t', ?_, hcap'⟩
    simp only [run, hstep, hrun, Option.bind_eq_bind, Option.bind_some]

/-- **The capacity follows the number of elements**: as long as there are never more than `N` of them, it stays below
`2.56 * N + 1` or about two groups, in a run of any length. -/
theorem capacity_of_run (E : Env K) (allocations draws N : Nat) (hN : N < 2 ^ 58) (ops : List (Op K))
    (hops : ∀ op ∈ ops, op.Plain) (hsizes : ∀ i ≤ ops.length, (after ∅ (ops.take i)).card ≤ N) :
    ∃ rs t, run E (Table.empty E allocations draws) ops = some (rs, t) ∧
      (t.capacity ≤ 2 * E.width + 1 ∨ 25 * t.capacity < 64 * N + 25) :=
  capacity_of_run_from ops (inv_empty E allocations draws) hN (Or.inl (Nat.zero_le _)) hops hsizes

/-- Fifteen elements, for which the table has grown five times. -/
def fifteenKeys : List (Op Nat) := (List.range 15).map .insert ++ [.erase 5, .insert 15]

theorem capacity_of_run_fifteenKeys :
    ∃ rs t, run wrapping (Table.empty wrapping 0 0) fifteenKeys = some (rs, t) ∧ t.capacity = 31 ∧
      25 * t.capacity < 64 * 15 + 25 := by
  have hplain : ∀ op ∈ fifteenKeys, op.Plain := by simp [fifteenKeys, List.range, List.range.loop, Op.Plain]
  obtain ⟨rs, t, hrun, hbound⟩ := capacity_of_run wrapping 0 0 15 (by decide) fifteenKeys hplain (by decide +kernel)
  have hcap : (run wrapping (Table.empty wrapping 0 0) fifteenKeys).map (fun r => r.2.capacity) = some 31 := by decide +kernel
  rw [hrun, Option.map_some, Option.some.injEq] at hcap
  replace hcap : t.capacity = 31 := hcap
  refine ⟨rs, t, hrun, hcap, hbound.resolve_left ?_⟩
  show ¬ t.capacity ≤ 17
  omega

/-! ## Reserving -/

/-- **`reserve(n)`**: until there are more than `n` elements there is no rehash. The array and its capacity stay, and no
element moves. -/
theorem reserve_of_run (hrun : run E (Table.empty E allocations draws) ops = some (rs, t)) (hfits : Fits ∅ ops)
    {count : Nat} (hcount : count < 2 ^ 58) (ks : List K) (hks : (after ∅ ops ∪ ks.toFinset).card ≤ count) :
    ∃ t' t'', reserve E t count = some t' ∧ insertRange E t' ks = some t'' ∧ Steady t' t'' ∧
      ∀ k, contains E t'' k = some (decide (k ∈ after ∅ ops ∨ k ∈ ks)) := by
  obtain ⟨n, h⟩ := inv_of_run hrun hfits
  obtain ⟨m, t', hreserve, h', hroom, -⟩ := reserve_spec h hcount
  obtain ⟨m', t'', hrange, h'', hsteady⟩ := insertRange_spec h' ks (by omega)
  refine ⟨t', t'', hreserve, hrange, hsteady (by omega), fun k => ?_⟩
  rw [contains_spec h'' k]
  simp

theorem reserve_of_run_colliding :
    ∃ rs t t' t'', run colliding (Table.empty colliding 0 0) [.insert 1] = some (rs, t) ∧ reserve colliding t 10 = some t' ∧
      insertRange colliding t' [1, 2, 3] = some t'' ∧ t''.allocations = t'.allocations ∧ t''.capacity = t'.capacity := by
  have hfits : Fits ∅ [Op.insert 1] := by simp [Fits, Op.Bounded, Op.apply]
  obtain ⟨rs, t, n, hrun, -, -⟩ := run_refines_from _ (inv_empty colliding 0 0) hfits
  obtain ⟨t', t'', hreserve, hrange, hsteady, -⟩ := reserve_of_run hrun hfits (show 10 < 2 ^ 58 by decide) [1, 2, 3] (by decide)
  exact ⟨rs, t, t', t'', hrun, hreserve, hrange, hsteady.allocations, hsteady.capacity⟩

end

end LowLatency.RawHashSet
