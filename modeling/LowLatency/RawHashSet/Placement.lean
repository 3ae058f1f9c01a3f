import LowLatency.RawHashSet.Lookup

/-!
# Writing to the table

`SetCtrl` writes a control byte and its clone (`setCtrl_spec`). `Placed` is what holds while elements are
put into their slots, in `resize` and in `DropDeletesWithoutResize`: every element is either still to be
placed, its slot marked as deleted, or it is in a slot with its hash and only full slots in the windows
before it. A change that leaves the full slots as they are keeps it (`Placed.step`).
-/

namespace LowLatency.RawHashSet

open QuadraticProbing

variable {K : Type} {E : Env K} {t : Table K} {n : Nat}

/-! ## Wrapping subtraction -/

/-- `(a - b) & mask` is the number that leads from `b` to `a` around the table. -/
theorem sizeTSub_and {a b y : Nat} (hb : b ≤ 2 ^ 64) (hn : n ≤ 64) (hy : y < 2 ^ n) (h : (y + b) % 2 ^ n = a % 2 ^ n) :
    sizeTSub a b &&& (2 ^ n - 1) = y := by
  have hdvd : 2 ^ n ∣ 2 ^ 64 := Nat.pow_dvd_pow 2 hn
  rw [and_mask, sizeTSub, sizeT, Nat.mod_mod_of_dvd _ hdvd]
  have hmod : Nat.ModEq (2 ^ n) (a + 2 ^ 64 - b + b) (y + b) := by
    rw [Nat.sub_add_cancel (by omega)]
    show (a + 2 ^ 64) % 2 ^ n = (y + b) % 2 ^ n
    rw [h, Nat.add_mod, Nat.mod_eq_zero_of_dvd hdvd, Nat.add_zero, Nat.mod_mod]
  rw [Nat.ModEq.add_right_cancel' b hmod, Nat.mod_eq_of_lt hy]

theorem width_le_sixteen (E : Env K) : E.width ≤ 16 := by
  have := kWidth_eq E.group
  simp only [Env.width]
  omega

/-- The second write is to the clone, if there is one. -/
theorem cloneIndex_eq {cap i : Nat} (hcap : cap + 1 = 2 ^ n) (hn : n ≤ 59) (hi : i < cap) :
    cloneIndex E cap i = if i < E.width - 1 then cap + 1 + i else i := by
  have hmask : cap = 2 ^ n - 1 := by omega
  have hW := width_pos E
  have hle := width_le_sixteen E
  unfold cloneIndex Env.numClonedBytes
  by_cases hsmall : n < E.group.logWidth
  · have hdbl := pow_le_width (E := E) hsmall
    obtain ⟨q, hq⟩ : 2 ^ n ∣ E.width := Nat.pow_dvd_pow 2 (Nat.le_of_lt hsmall)
    have hones : E.width - 1 &&& cap = cap := by
      rw [hmask, and_mask, ← hmask]
      have hpred : E.width - 1 = cap + 2 ^ n * (q - 1) := by
        have : 0 < q := Nat.pos_of_ne_zero fun h0 => by rw [h0] at hq; omega
        rw [Nat.mul_sub, ← hq]
        omega
      rw [hpred, Nat.add_mul_mod_self_left, Nat.mod_eq_of_lt (by omega)]
    have hback : sizeTSub i (E.width - 1) &&& cap = i + 1 := by
      rw [hmask]
      refine sizeTSub_and (by omega) (by omega) (by omega) ?_
      rw [show i + 1 + (E.width - 1) = i + 2 ^ n * q by omega, Nat.add_mul_mod_self_left]
    rw [hones, hback, if_pos (by omega)]
    omega
  · have hWn := width_le_pow (E := E) (Nat.le_of_not_lt hsmall)
    have hones : E.width - 1 &&& cap = E.width - 1 := by
      rw [hmask, and_mask, Nat.mod_eq_of_lt (by omega)]
    rw [hones]
    by_cases hclone : i < E.width - 1
    · have hback : sizeTSub i (E.width - 1) &&& cap = i + 2 ^ n - (E.width - 1) := by
        rw [hmask]
        refine sizeTSub_and (by omega) (by omega) (by omega) ?_
        rw [Nat.sub_add_cancel (by omega), Nat.add_mod_right]
      rw [hback, if_pos hclone]
      omega
    · have hback : sizeTSub i (E.width - 1) &&& cap = i - (E.width - 1) := by
        rw [hmask]
        refine sizeTSub_and (by omega) (by omega) (by omega) ?_
        rw [Nat.sub_add_cancel (by omega)]
      rw [hback, if_neg hclone]
      omega

/-! ## Control bytes -/

theorem getD_set {α : Type} (l : List α) (i j : Nat) (a d : α) (hi : i < l.length) :
    (l.set i a).getD j d = if j = i then a else l.getD j d := by
  rw [List.getD_eq_getElem?_getD, List.getElem?_set, List.getD_eq_getElem?_getD]
  by_cases hij : i = j
  · subst hij
    simp [hi]
  · simp [hij, Ne.symm hij]

/-- The fields that writing to slots and control bytes leaves alone. -/
structure SameHeader (t t' : Table K) : Prop where
  size : t'.size = t.size
  capacity : t'.capacity = t.capacity
  growthLeft : t'.growthLeft = t.growthLeft
  address : t'.address = t.address
  allocations : t'.allocations = t.allocations

theorem SameHeader.refl (t : Table K) : SameHeader t t := ⟨rfl, rfl, rfl, rfl, rfl⟩

theorem SameHeader.trans {t₁ t₂ t₃ : Table K} (h : SameHeader t₁ t₂) (h' : SameHeader t₂ t₃) : SameHeader t₁ t₃ :=
  ⟨h'.size.trans h.size, h'.capacity.trans h.capacity, h'.growthLeft.trans h.growthLeft, h'.address.trans h.address,
    h'.allocations.trans h.allocations⟩

theorem SameHeader.setSlot (t : Table K) (i : Nat) (x : Option K) : SameHeader t (t.setSlot i x) :=
  ⟨rfl, rfl, rfl, rfl, rfl⟩

/-- A table with one control byte changed. -/
structure Writes (E : Env K) (n : Nat) (t : Table K) (i : Nat) (c : Ctrl) (t' : Table K) : Prop where
  shaped : Shaped E n t'
  ctrlAt : ∀ j < 2 ^ n, t'.ctrlAt j = if j = i then c else t.ctrlAt j
  slots : t'.slots = t.slots
  header : SameHeader t t'

theorem setCtrl_spec (h : Shaped E n t) {i : Nat} (hi : i < t.capacity) {c : Ctrl} (hc : c ≠ .sentinel) :
    ∃ t', setCtrl E t i c = some t' ∧ Writes E n t i c t' := by
  have hcap := h.capacity
  have hlen := h.mirrored.length
  have hW := width_pos E
  have hi' : i < t.control.length := by omega
  obtain ⟨ci, hci⟩ : ∃ ci, ci = if i < E.width - 1 then t.capacity + 1 + i else i := ⟨_, rfl⟩
  have hci' : ci < (t.control.set i c).length := by
    rw [List.length_set, hci]
    split <;> omega
  have hget : ∀ j, ((t.control.set i c).set ci c).getD j .sentinel = if j = ci ∨ j = i then c else t.ctrlAt j := by
    intro j
    rw [getD_set _ _ _ _ _ hci', getD_set _ _ _ _ _ hi', Table.ctrlAt]
    by_cases h1 : j = ci <;> by_cases h2 : j = i <;> simp [h1, h2]
  refine ⟨{ t with control := (t.control.set i c).set ci c }, ?_,
    ⟨h.capacity, h.bound, ⟨?_, ?_, ?_, ?_⟩, h.slots⟩, ?_, rfl, ⟨rfl, rfl, rfl, rfl, rfl⟩⟩
  · simp only [setCtrl, if_pos hi, storeCtrl, cloneIndex_eq h.capacity h.bound hi, ← hci, if_pos hi', if_pos hci',
      Option.bind_eq_bind, Option.bind_some]
  · simpa using h.mirrored.length
  · intro j hj
    have hsent := h.mirrored.sentinel j hj
    rw [hget]
    by_cases hij : j = ci ∨ j = i
    · have hne : j ≠ t.capacity := by
        rw [hci] at hij
        split_ifs at hij <;> simp only at hj <;> omega
      rw [if_pos hij]
      exact ⟨fun h => absurd h hc, fun h => absurd h hne⟩
    · rw [if_neg hij]
      exact hsent
  · intro j hj hjW
    have hclone := h.mirrored.clone j hj hjW
    simp only at hj ⊢
    rw [hget, hget]
    by_cases hij : j = i
    · have : t.capacity + 1 + j = ci := by rw [hci, if_pos (hij ▸ hjW), hij]
      rw [if_pos (Or.inl this), if_pos (Or.inr hij)]
    · rw [if_neg (by rw [hci]; split_ifs <;> omega), if_neg (by rw [hci]; split_ifs <;> omega)]
      exact hclone
  · intro p hp hdummy
    have := h.mirrored.dummy p hp hdummy
    simp only at hp hdummy ⊢
    rw [hget, if_neg (by rw [hci]; split_ifs <;> omega)]
    exact this
  · intro j hj
    refine (hget j).trans ?_
    by_cases hij : j = i
    · simp [hij]
    · rw [if_neg hij, if_neg (by rw [hci]; split_ifs <;> omega)]

/-- The seeds drawn do not matter. -/
theorem Writes.of_draws {i draws : Nat} {c : Ctrl} {t' : Table K} (h : Writes E n { t with draws := draws } i c t') :
    Writes E n t i c t' :=
  ⟨h.shaped, h.ctrlAt, h.slots, h.header.size, h.header.capacity, h.header.growthLeft, h.header.address,
    h.header.allocations⟩

theorem Writes.slotAt {i : Nat} {c : Ctrl} {t' : Table K} (h : Writes E n t i c t') : t'.slotAt = t.slotAt := by
  funext j
  rw [Table.slotAt, Table.slotAt, h.slots]

/-! ## Slots -/

theorem slotAt_setSlot {i : Nat} (hi : i < t.slots.length) (x : Option K) (j : Nat) :
    (t.setSlot i x).slotAt j = if j = i then x else t.slotAt j := getD_set _ _ _ _ _ hi

theorem slotAt_setSlot_eq {i : Nat} (hi : i < t.slots.length) (x : Option K) :
    (t.setSlot i x).slotAt = Function.update t.slotAt i x := by
  funext j
  rw [slotAt_setSlot hi, Function.update_apply]

theorem Shaped.setSlot (h : Shaped E n t) (i : Nat) (x : Option K) : Shaped E n (t.setSlot i x) :=
  ⟨h.capacity, h.bound, h.mirrored, List.length_set.trans h.slots⟩

theorem Shaped.draws (h : Shaped E n t) (draws : Nat) : Shaped E n { t with draws := draws } :=
  ⟨h.capacity, h.bound, h.mirrored, h.slots⟩

theorem Shaped.lt_pow (h : Shaped E n t) {i : Nat} (hi : i < t.capacity) : i < 2 ^ n := by
  have := h.capacity
  omega

theorem Shaped.ctrlAt_ne_sentinel (h : Shaped E n t) {i : Nat} (hi : i < t.capacity) : t.ctrlAt i ≠ .sentinel := by
  intro hs
  have := (h.mirrored.sentinel i (by omega)).1 hs
  omega

theorem Shaped.ctrlAt_capacity (h : Shaped E n t) : t.ctrlAt t.capacity = .sentinel :=
  (h.mirrored.sentinel t.capacity (Nat.le_refl _)).2 rfl

/-- A control byte and the slot that goes with it. -/
theorem Writes.setSlot {i : Nat} {c : Ctrl} {t' : Table K} (h : Writes E n t i c t') (hs : Shaped E n t)
    (hi : i < t.capacity) (x : Option K) :
    Shaped E n (t'.setSlot i x) ∧ (t'.setSlot i x).slotAt = Function.update t.slotAt i x ∧
      SameHeader t (t'.setSlot i x) := by
  have hlen : i < t'.slots.length := by
    rw [h.slots, hs.slots]
    exact hi
  refine ⟨h.shaped.setSlot i x, ?_, h.header.trans (.setSlot t' i x)⟩
  rw [slotAt_setSlot_eq hlen, h.slotAt]

/-! ## Elements on their way to their slots -/

/-- All windows of the probe sequence before the one with slot `i` are full. -/
def Packed (E : Env K) (n : Nat) (t : Table K) (hash : UInt64) (i : Nat) : Prop :=
  Reaches n E.group.logWidth (home t hash) (fun i' => (t.ctrlAt i').isEmptyOrDeleted = false) i

structure Placing (E : Env K) (n : Nat) (t : Table K) : Prop where
  shaped : Shaped E n t
  vacant : ∀ i < t.capacity, t.slotAt i = none ↔ t.ctrlAt i = .empty
  placed : ∀ i < t.capacity, ∀ k, t.slotAt i = some k →
    t.ctrlAt i = .deleted ∨ t.ctrlAt i = .full (H2 (E.hasher k)) ∧ Packed E n t (E.hasher k) i

/-- What may become of a slot that is not full: it is emptied, it waits, or an element is placed in it. -/
inductive Fresh (E : Env K) (n : Nat) (t t' : Table K) (i : Nat) : Prop where
  | empty (hc : t'.ctrlAt i = .empty) (hs : t'.slotAt i = none)
  | waiting (hc : t'.ctrlAt i = .deleted) (hs : t'.slotAt i ≠ none)
  | placed (k : K) (hc : t'.ctrlAt i = .full (H2 (E.hasher k))) (hs : t'.slotAt i = some k)
      (hp : Packed E n t (E.hasher k) i)

/-- A slot that is not touched. -/
theorem Placing.unchanged (h : Placing E n t) {t' : Table K} {i : Nat} (hi : i < t.capacity)
    (hnf : (t.ctrlAt i).isEmptyOrDeleted = true) (hc : t'.ctrlAt i = t.ctrlAt i) (hs : t'.slotAt i = t.slotAt i) :
    Fresh E n t t' i := by
  have hvacant := h.vacant i hi
  rw [← hs, ← hc] at hvacant
  rw [← hc] at hnf
  cases hc' : t'.ctrlAt i with
  | empty => exact .empty hc' (hvacant.2 hc')
  | deleted => exact .waiting hc' fun hnone => by simp [hvacant.1 hnone] at hc'
  | sentinel => simp [hc', Ctrl.isEmptyOrDeleted] at hnf
  | full h2 => simp [hc', Ctrl.isEmptyOrDeleted] at hnf

/-- **A step** that leaves the full slots as they are. -/
theorem Placing.step (h : Placing E n t) {t' : Table K} (hshaped : Shaped E n t') (haddr : t'.address = t.address)
    (hkeep : ∀ i < 2 ^ n, (t.ctrlAt i).isEmptyOrDeleted = false → t'.ctrlAt i = t.ctrlAt i ∧ t'.slotAt i = t.slotAt i)
    (hfresh : ∀ i < t.capacity, (t.ctrlAt i).isEmptyOrDeleted = true → Fresh E n t t' i) : Placing E n t' := by
  have hcap : t'.capacity = t.capacity := by
    have := h.shaped.capacity
    have := hshaped.capacity
    omega
  have hpacked : ∀ hash i, Packed E n t hash i → Packed E n t' hash i := by
    intro hash i hp
    unfold Packed home at hp ⊢
    rw [haddr]
    refine hp.mono fun i' hi' hfull => ?_
    rw [(hkeep i' hi' hfull).1, hfull]
  have hcase : ∀ i < t.capacity, (t'.slotAt i = none ↔ t'.ctrlAt i = .empty) ∧ ∀ k, t'.slotAt i = some k →
      t'.ctrlAt i = .deleted ∨ t'.ctrlAt i = .full (H2 (E.hasher k)) ∧ Packed E n t' (E.hasher k) i := by
    intro i hi
    cases hc : (t.ctrlAt i).isEmptyOrDeleted with
    | false =>
      obtain ⟨hctrl, hslot⟩ := hkeep i (h.shaped.lt_pow hi) hc
      rw [hctrl, hslot]
      refine ⟨h.vacant i hi, fun k hk => ?_⟩
      rcases h.placed i hi k hk with hdel | ⟨hfull, hp⟩
      · exact Or.inl hdel
      · exact Or.inr ⟨hfull, hpacked _ _ hp⟩
    | true =>
      rcases hfresh i hi hc with ⟨hc', hs⟩ | ⟨hc', hs⟩ | ⟨k, hc', hs, hp⟩
      · simp [hc', hs]
      · simp [hc', hs]
      · refine ⟨by simp [hc', hs], fun k' hk' => ?_⟩
        obtain rfl : k = k' := Option.some.inj (hs.symm.trans hk')
        exact Or.inr ⟨hc', hpacked _ _ hp⟩
  exact ⟨hshaped, fun i hi => (hcase i (hcap ▸ hi)).1, fun i hi => (hcase i (hcap ▸ hi)).2⟩

/-! ## The table at rest -/

/-- Between two operations: the full slots are those that hold an element, with its hash, and no search
for the element ends before it. -/
structure Stored (E : Env K) (n : Nat) (t : Table K) : Prop where
  shaped : Shaped E n t
  vacant : ∀ i < t.capacity, t.slotAt i = none ↔ (t.ctrlAt i).isEmptyOrDeleted = true
  hashed : ∀ i < t.capacity, ∀ k, t.slotAt i = some k →
    t.ctrlAt i = .full (H2 (E.hasher k)) ∧ Reachable E n t (E.hasher k) i

/-- With no slot waiting, all elements are placed. -/
theorem Placing.stored (h : Placing E n t) (hnone : ∀ i < t.capacity, t.ctrlAt i ≠ .deleted) : Stored E n t := by
  refine ⟨h.shaped, fun i hi => ?_, fun i hi k hk => ?_⟩
  · have hne := hnone i hi
    rw [h.vacant i hi]
    generalize t.ctrlAt i = c at hne ⊢
    cases c <;> simp_all [Ctrl.isEmptyOrDeleted]
  · rcases h.placed i hi k hk with hdel | ⟨hfull, hp⟩
    · exact absurd hdel (hnone i hi)
    · refine ⟨hfull, Reaches.mono hp fun i' _ hfull' hempty => ?_⟩
      rw [hempty] at hfull'
      cases hfull'

theorem Stored.constructed (h : Stored E n t) : Constructed n t := by
  intro i hi h2 hc
  have hlt := h.shaped.lt_capacity hi (by rw [hc]; simp)
  have := (h.vacant i hlt).not
  rw [hc] at this
  exact Option.ne_none_iff_exists'.1 (this.2 (by simp [Ctrl.isEmptyOrDeleted]))

end LowLatency.RawHashSet
