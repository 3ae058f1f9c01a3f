import LowLatency.RawHashSet.Resize

/-!
# Rehashing in place

`DropDeletesWithoutResize` moves the elements within the array they are in. It marks all full slots as
deleted and goes through them: an element stays where it is if a search for it gets there, moves to an
empty slot, or changes places with one that is still to be placed, and then the slot is done again.

The loop ends because each round goes on to the next slot or leaves one slot less marked (`dropLoop_spec`).
It keeps the elements and no slot is left marked (`dropDeletes_spec`), so that
`rehash_and_grow_if_necessary` makes room (`rehashAndGrow_spec`).
-/

namespace LowLatency.RawHashSet

open QuadraticProbing Probing

variable {K : Type} {E : Env K} {t : Table K} {n : Nat}

/-! ## Marking -/

theorem getD_splice {control : List Ctrl} {width pos : Nat} (hfit : pos + width ≤ control.length) (f : Ctrl → Ctrl) (p : Nat) :
    (control.take pos ++ ((control.drop pos).take width).map f ++ control.drop (pos + width)).getD p .sentinel =
      if pos ≤ p ∧ p < pos + width then f (control.getD p .sentinel) else control.getD p .sentinel := by
  simp only [List.getD_eq_getElem?_getD]
  have htake : (control.take pos).length = pos := by
    rw [List.length_take]
    omega
  have hmid : (((control.drop pos).take width).map f).length = width := by
    rw [List.length_map, List.length_take, List.length_drop]
    omega
  rcases Nat.lt_or_ge p pos with hlt | hge
  · rw [List.append_assoc, List.getElem?_append_left (by omega), List.getElem?_take_of_lt hlt, if_neg (by omega)]
  · rcases Nat.lt_or_ge p (pos + width) with hlt | hge'
    · rw [List.getElem?_append_left (by rw [List.length_append]; omega), List.getElem?_append_right (by omega), htake,
        List.getElem?_map, List.getElem?_take_of_lt (by omega), List.getElem?_drop, Nat.add_sub_cancel' hge,
        List.getElem?_eq_getElem (by omega), if_pos ⟨hge, hlt⟩]
      rfl
    · rw [List.getElem?_append_right (by rw [List.length_append]; omega), List.length_append, htake, hmid,
        List.getElem?_drop, Nat.add_sub_cancel' hge', if_neg (by omega)]

/-- The loop over the groups, with `d` of them left. -/
theorem convertLoop_spec {G : Group} {cap : Nat} (hcap : cap + 1 = 2 ^ n) (d pos fuel : Nat) {control : List Ctrl}
    (hpos : pos + G.kWidth * d = 2 ^ n) (hlen : 2 ^ n ≤ control.length) (hfuel : d < fuel) :
    ∃ control', convertLoop G cap fuel pos control = some control' ∧ control'.length = control.length ∧
      ∀ p, control'.getD p .sentinel =
        if pos ≤ p ∧ p < 2 ^ n then (control.getD p .sentinel).specialToEmptyAndFullToDeleted
        else control.getD p .sentinel := by
  have hW := kWidth_eq G
  induction d generalizing pos fuel control with
  | zero =>
    obtain ⟨fuel, rfl⟩ := Nat.exists_eq_succ_of_ne_zero (Nat.ne_of_gt hfuel)
    refine ⟨control, ?_, rfl, fun p => ?_⟩
    · rw [convertLoop, if_neg (by omega)]
    · rw [if_neg (by omega)]
  | succ d ih =>
    obtain ⟨fuel, rfl⟩ := Nat.exists_eq_succ_of_ne_zero (show fuel ≠ 0 by omega)
    rw [Nat.mul_succ] at hpos
    have hfit : pos + G.kWidth ≤ control.length := by omega
    have hg : ((control.drop pos).take G.kWidth).length = 2 ^ G.logWidth := by
      rw [List.length_take, List.length_drop, Nat.min_eq_left (by omega)]
      rfl
    rw [convertLoop, if_pos (by omega), loadGroup, if_pos hfit, Option.bind_eq_bind, Option.bind_some,
      G.convert_spec _ hg]
    have hlen' : (control.take pos ++ ((control.drop pos).take G.kWidth).map Ctrl.specialToEmptyAndFullToDeleted ++
        control.drop (pos + G.kWidth)).length = control.length := by
      simp only [List.length_append, List.length_take, List.length_map, List.length_drop]
      omega
    obtain ⟨control', hloop, hlength, hget⟩ := ih (pos + G.kWidth) fuel (by omega) (by rw [hlen']; exact hlen) (by omega)
    refine ⟨control', hloop, hlength.trans hlen', fun p => ?_⟩
    rw [hget, getD_splice hfit]
    by_cases h1 : pos ≤ p <;> by_cases h2 : p < 2 ^ n <;> by_cases h3 : pos + G.kWidth ≤ p <;>
      by_cases h4 : p < pos + G.kWidth <;> simp [h1, h2, h3, h4] <;> omega

/-- Full slots are marked as deleted, deleted ones as empty. -/
theorem convert_spec (h : Shaped E n t) (hn : E.group.logWidth ≤ n) :
    ∃ t', convertDeletedToEmptyAndFullToDeleted E t = some t' ∧ Shaped E n t' ∧
      (∀ i < t.capacity, t'.ctrlAt i = (t.ctrlAt i).specialToEmptyAndFullToDeleted) ∧ t'.slots = t.slots ∧
      SameHeader t t' := by
  have hcap := h.capacity
  have hlen := h.mirrored.length
  have hW := width_pos E
  have hWn := width_le_pow (E := E) hn
  have hWle := kWidth_eq E.group
  have hlog : 1 ≤ n := by have := E.group.logWidth_eq; omega
  have hbound := h.bound
  have hgroups : 0 + E.group.kWidth * windows n E.group.logWidth = 2 ^ n := by
    rw [windows, Group.kWidth, Nat.zero_add, ← Nat.pow_add, Nat.add_sub_cancel' hn]
  have hfuel : windows n E.group.logWidth < t.capacity + 1 := by
    have hpos : 0 < windows n E.group.logWidth := Nat.two_pow_pos _
    have : 8 * windows n E.group.logWidth ≤ E.group.kWidth * windows n E.group.logWidth :=
      Nat.mul_le_mul_right _ (by omega)
    omega
  obtain ⟨control, hloop, hlength, hget⟩ := convertLoop_spec (G := E.group) hcap _ 0 (t.capacity + 1) hgroups
    (show 2 ^ n ≤ t.control.length by omega) hfuel
  have hlength' : t.capacity < (control.take (t.capacity + 1) ++ control.take E.numClonedBytes).length := by
    simp only [List.length_append, List.length_take, hlength]
    omega
  have hnew : ∀ p < t.capacity + E.width,
      ((control.take (t.capacity + 1) ++ control.take E.numClonedBytes).set t.capacity .sentinel).getD p .sentinel =
        if p = t.capacity then .sentinel
        else if p < t.capacity then (t.ctrlAt p).specialToEmptyAndFullToDeleted
        else (t.ctrlAt (p - (t.capacity + 1))).specialToEmptyAndFullToDeleted := by
    intro p hp
    rw [getD_set _ _ _ _ _ hlength']
    by_cases hpc : p = t.capacity
    · rw [if_pos hpc, if_pos hpc]
    · rw [if_neg hpc, if_neg hpc]
      have htake : (control.take (t.capacity + 1)).length = t.capacity + 1 := by
        rw [List.length_take, hlength]
        omega
      have hgetD : ∀ q < t.capacity, control[q]?.getD .sentinel = (t.ctrlAt q).specialToEmptyAndFullToDeleted := by
        intro q hq
        rw [← List.getD_eq_getElem?_getD, hget, if_pos ⟨Nat.zero_le q, by omega⟩]
        rfl
      rw [List.getD_eq_getElem?_getD]
      by_cases hlt : p < t.capacity
      · rw [if_pos hlt, List.getElem?_append_left (by omega), List.getElem?_take_of_lt (by omega), hgetD p hlt]
      · rw [if_neg hlt, List.getElem?_append_right (by omega), htake,
          List.getElem?_take_of_lt (by simp only [Env.numClonedBytes]; omega), hgetD _ (by omega)]
  have hspecial : ∀ c : Ctrl, c.specialToEmptyAndFullToDeleted ≠ .sentinel := by
    intro c
    cases c <;> simp [Ctrl.specialToEmptyAndFullToDeleted]
  refine ⟨{ t with control := (control.take (t.capacity + 1) ++ control.take E.numClonedBytes).set t.capacity .sentinel },
    ?_, ⟨hcap, hbound, ⟨?_, ?_, ?_, ?_⟩, h.slots⟩, ?_, rfl, ⟨rfl, rfl, rfl, rfl, rfl⟩⟩
  · rw [convertDeletedToEmptyAndFullToDeleted, if_pos ⟨h.ctrlAt_capacity, isValidCapacity_of_pow hlog (by omega) hcap⟩, hloop,
      Option.bind_eq_bind, Option.bind_some]
  · simp only [List.length_set, List.length_append, List.length_take, hlength, Env.numClonedBytes]
    omega
  · intro i hi
    simp only at hi ⊢
    rw [hnew i (by omega)]
    by_cases hic : i = t.capacity
    · simp [hic]
    · simp [hic, show i < t.capacity by omega, hspecial]
  · intro i hi hiW
    simp only at hi ⊢
    rw [hnew _ (by omega), hnew i (by omega), if_neg (by omega), if_neg (by omega), if_neg (by omega), if_pos hi,
      Nat.add_sub_cancel_left]
  · intro p hp hdummy
    simp only at hp hdummy
    omega
  · intro i hi
    refine (hnew i (by omega)).trans ?_
    rw [if_neg (by omega), if_pos hi]

/-! ## One slot -/

/-- `probe_index` is the number of whole windows between the start of the probing and the slot. -/
theorem probeIndex_spec {h pos : Nat} (hn : n ≤ 59) (hpos : pos < 2 ^ n) :
    ∃ d < 2 ^ n, (h + d) % 2 ^ n = pos ∧ probeIndex E (seqAt E n h 0) pos = d / 2 ^ E.group.logWidth := by
  obtain ⟨d, hd, hdpos⟩ := exists_distance h hpos
  refine ⟨d, hd, hdpos, ?_⟩
  have hlt : h % 2 ^ n < 2 ^ n := Nat.mod_lt _ (Nat.two_pow_pos n)
  have hpow := pow_lt_of_le hn
  rw [probeIndex, seqAt, offset_zero]
  simp only
  rw [sizeTSub_and (y := d) (by omega) (by omega) hd]
  · rfl
  · rw [Nat.add_mod_mod, Nat.add_comm, hdpos, Nat.mod_eq_of_lt hpos]

/-- Two slots with the same `probe_index` are in the same window. -/
theorem Target.same_window {hash : UInt64} {i j : Nat} (hs : Shaped E n t) (hn : E.group.logWidth ≤ n) (hi : i < 2 ^ n)
    (h : Target E n t hash j)
    (hsame : probeIndex E (seqAt E n (home t hash) 0) j = probeIndex E (seqAt E n (home t hash) 0) i) :
    Packed E n t hash i := by
  obtain ⟨d, hd, rfl, hdj⟩ := probeIndex_spec (E := E) (h := home t hash) hs.bound (hs.lt_pow h.lt)
  obtain ⟨e, he, rfl, hei⟩ := probeIndex_spec (E := E) (h := home t hash) hs.bound hi
  exact h.reaches.of_same_window hn hd he (by rw [← hdj, ← hei, hsame])

/-- The slots still to be placed. -/
def waiting (t : Table K) : Nat := ((Finset.range t.capacity).filter fun i => t.ctrlAt i = .deleted).card

/-- One round at slot `i`. -/
structure Drops (E : Env K) (n : Nat) (t : Table K) (i : Nat) (t' : Table K) (again : Bool) : Prop where
  placing : Placing E n t'
  contents : contents t'.capacity t'.slotAt = contents t.capacity t.slotAt
  header : SameHeader t t'
  settled : ∀ j < t.capacity, t.ctrlAt j ≠ .deleted → t'.ctrlAt j ≠ .deleted
  done : again = false → t'.ctrlAt i ≠ .deleted
  fewer : again = true → ∃ j < t.capacity, t.ctrlAt j = .deleted ∧ t'.ctrlAt j ≠ .deleted

theorem dropStep_eq {i : Nat} {k : K} {info : FindInfo} {t₁ : Table K} {seq : ProbeSeq} (hk : t.slotAt i = some k)
    (hfind : findFirstNonFull E t (E.hasher k) = some (info, t₁)) (hprobe : probe t₁ (E.hasher k) = some seq) :
    dropStep E t i = dropPlace E t₁ i k info seq := by
  rw [dropStep, hk, Option.bind_eq_bind, Option.bind_some, hfind, Option.bind_eq_bind, Option.bind_some]
  show (probe t₁ (E.hasher k) >>= _) = _
  rw [hprobe, Option.bind_eq_bind, Option.bind_some]

section
variable {i : Nat} {k : K} (h : Placing E n t) (hi : i < t.capacity) (hdel : t.ctrlAt i = .deleted) (hk : t.slotAt i = some k)
include h hi hdel hk

/-- The element stays. -/
theorem drops_stay {t' : Table K} (hpacked : Packed E n t (E.hasher k) i)
    (hw : Writes E n t i (.full (H2 (E.hasher k))) t') : Drops E n t i t' false := by
  have hs := h.shaped
  refine ⟨?_, ?_, hw.header, fun j hj hne => ?_, fun _ => ?_, nofun⟩
  · refine h.step hw.shaped hw.header.address (fun j hj hfull => ?_) fun j hj hnf => ?_
    · have hne : j ≠ i := by
        rintro rfl
        simp [hdel, Ctrl.isEmptyOrDeleted] at hfull
      exact ⟨(hw.ctrlAt j hj).trans (if_neg hne), by rw [hw.slotAt]⟩
    · by_cases hji : j = i
      · subst hji
        exact .placed k ((hw.ctrlAt _ (hs.lt_pow hj)).trans (if_pos rfl)) (by rw [hw.slotAt, hk]) hpacked
      · exact h.unchanged hj hnf ((hw.ctrlAt j (hs.lt_pow hj)).trans (if_neg hji)) (by rw [hw.slotAt])
  · rw [hw.header.capacity, hw.slotAt]
  · rw [hw.ctrlAt j (hs.lt_pow hj)]
    split
    · simp
    · exact hne
  · rw [hw.ctrlAt i (hs.lt_pow hi), if_pos rfl]
    simp

/-- The element moves to an empty slot. -/
theorem drops_move {j : Nat} {t' : Table K} (hij : i ≠ j) (htarget : Target E n t (E.hasher k) j)
    (hempty : t.ctrlAt j = .empty) (hs' : Shaped E n t') (hheader : SameHeader t t')
    (hctrl : ∀ x < 2 ^ n, t'.ctrlAt x = if x = i then .empty else if x = j then .full (H2 (E.hasher k)) else t.ctrlAt x)
    (hslot : t'.slotAt = Function.update (Function.update t.slotAt j (some k)) i none) : Drops E n t i t' false := by
  have hs := h.shaped
  refine ⟨?_, ?_, hheader, fun x hx hne => ?_, fun _ => ?_, nofun⟩
  · refine h.step hs' hheader.address (fun x hx hfull => ?_) fun x hx hnf => ?_
    · have hxi : x ≠ i := by
        rintro rfl
        simp [hdel, Ctrl.isEmptyOrDeleted] at hfull
      have hxj : x ≠ j := by
        rintro rfl
        simp [hempty, Ctrl.isEmptyOrDeleted] at hfull
      rw [hctrl x hx, hslot]
      simp [hxi, hxj]
    · have hcx := hctrl x (hs.lt_pow hx)
      by_cases hxi : x = i
      · exact .empty (by rw [hcx, if_pos hxi]) (by rw [hslot, hxi, Function.update_self])
      · by_cases hxj : x = j
        · subst hxj
          exact .placed k (by rw [hcx, if_neg hxi, if_pos rfl])
            (by rw [hslot, Function.update_of_ne hxi, Function.update_self]) htarget.reaches
        · refine h.unchanged hx hnf (by rw [hcx, if_neg hxi, if_neg hxj]) ?_
          rw [hslot, Function.update_of_ne hxi, Function.update_of_ne hxj]
  · have hjnone : Function.update t.slotAt i none j = none := by
      rw [Function.update_of_ne (Ne.symm hij)]
      exact (h.vacant j htarget.lt).2 hempty
    rw [hheader.capacity, hslot, Function.update_comm (Ne.symm hij), contents_update htarget.lt hjnone,
      contents_remove hi hk]
  · rw [hctrl x (hs.lt_pow hx)]
    split
    · simp
    · split
      · simp
      · exact hne
  · rw [hctrl i (hs.lt_pow hi), if_pos rfl]
    simp

/-- The element changes places with one that waits. -/
theorem drops_swap {j : Nat} {k' : K} {t' : Table K} (hij : i ≠ j) (htarget : Target E n t (E.hasher k) j)
    (hdel' : t.ctrlAt j = .deleted) (hk' : t.slotAt j = some k') (hs' : Shaped E n t') (hheader : SameHeader t t')
    (hctrl : ∀ x < 2 ^ n, t'.ctrlAt x = if x = j then .full (H2 (E.hasher k)) else t.ctrlAt x)
    (hslot : t'.slotAt = Function.update (Function.update t.slotAt j (some k)) i (some k')) : Drops E n t i t' true := by
  have hs := h.shaped
  refine ⟨?_, ?_, hheader, fun x hx hne => ?_, nofun, fun _ => ⟨j, htarget.lt, hdel', ?_⟩⟩
  · refine h.step hs' hheader.address (fun x hx hfull => ?_) fun x hx hnf => ?_
    · have hxi : x ≠ i := by
        rintro rfl
        simp [hdel, Ctrl.isEmptyOrDeleted] at hfull
      have hxj : x ≠ j := by
        rintro rfl
        simp [hdel', Ctrl.isEmptyOrDeleted] at hfull
      rw [hctrl x hx, hslot]
      simp [hxi, hxj]
    · have hcx := hctrl x (hs.lt_pow hx)
      by_cases hxi : x = i
      · subst hxi
        exact .waiting (by rw [hcx, if_neg hij, hdel]) (by rw [hslot, Function.update_self]; simp)
      · by_cases hxj : x = j
        · subst hxj
          exact .placed k (by rw [hcx, if_pos rfl])
            (by rw [hslot, Function.update_of_ne hxi, Function.update_self]) htarget.reaches
        · refine h.unchanged hx hnf (by rw [hcx, if_neg hxj]) ?_
          rw [hslot, Function.update_of_ne hxi, Function.update_of_ne hxj]
  · -- take both elements out, and put them back the other way round
    have hrest : contents t.capacity t.slotAt =
        k ::ₘ k' ::ₘ contents t.capacity (Function.update (Function.update t.slotAt i none) j none) := by
      rw [contents_remove hi hk, contents_remove htarget.lt (by rw [Function.update_of_ne (Ne.symm hij), hk'])]
    have hback : t'.slotAt = Function.update (Function.update (Function.update (Function.update t.slotAt i none) j none)
        j (some k)) i (some k') := by
      rw [hslot, Function.update_idem, Function.update_comm hij, Function.update_idem]
    have hinone : Function.update (Function.update (Function.update t.slotAt i none) j none) j (some k) i = none := by
      rw [Function.update_of_ne hij, Function.update_of_ne hij, Function.update_self]
    rw [hheader.capacity, hback, contents_update hi hinone, contents_update htarget.lt (Function.update_self _ _ _),
      hrest, Multiset.cons_swap]
  · rw [hctrl x (hs.lt_pow hx)]
    split
    · simp
    · exact hne
  · rw [hctrl j (hs.lt_pow htarget.lt), if_pos rfl]
    simp

/-- **A round**: the element stays, moves or changes places. -/
theorem dropStep_spec (hn : E.group.logWidth ≤ n) : ∃ t' again, dropStep E t i = some (t', again) ∧ Drops E n t i t' again := by
  have hs := h.shaped
  have hi' := hs.lt_pow hi
  obtain ⟨info, draws, hfind, htarget⟩ := findFirstNonFull_spec hs (E.hasher k) hi' (by rw [hdel]; rfl)
  have hlt := htarget.lt
  have hprobe : probe { t with draws := draws } (E.hasher k) = some (seqAt E n (home t (E.hasher k)) 0) :=
    (hs.draws draws).probe_eq (E.hasher k)
  rw [dropStep_eq hk hfind hprobe, dropPlace]
  by_cases hsame : probeIndex E (seqAt E n (home t (E.hasher k)) 0) info.offset =
      probeIndex E (seqAt E n (home t (E.hasher k)) 0) i
  · obtain ⟨t', hset, hw⟩ := setCtrl_spec (hs.draws draws) hi (c := .full (H2 (E.hasher k))) (by simp)
    refine ⟨t', false, ?_, drops_stay h hi hdel hk (htarget.same_window hs hn hi' hsame) hw.of_draws⟩
    rw [if_pos hsame, hset, Option.map_some]
  · have hij : i ≠ info.offset := fun hij => hsame (by rw [← hij])
    obtain ⟨t₁, hset, hw⟩ := setCtrl_spec (hs.draws draws) hlt (c := .full (H2 (E.hasher k))) (by simp)
    obtain ⟨hs₂, hslot₂, hheader₂⟩ := hw.of_draws.setSlot hs hlt (some k)
    have hlen₂ : i < (t₁.setSlot info.offset (some k)).slots.length := by
      rw [hs₂.slots, hheader₂.capacity]
      exact hi
    have hctrl₁ : ∀ x < 2 ^ n, t₁.ctrlAt x = if x = info.offset then .full (H2 (E.hasher k)) else t.ctrlAt x := hw.ctrlAt
    have hctrl₀ : Table.ctrlAt { t with draws := draws } info.offset = t.ctrlAt info.offset := rfl
    rw [if_neg hsame, hctrl₀]
    rcases Bool.eq_false_or_eq_true (t.ctrlAt info.offset).isEmpty with hempty | hempty
    · have hempty' : t.ctrlAt info.offset = .empty := by simpa [Ctrl.isEmpty] using hempty
      have hheader₃ : SameHeader t ((t₁.setSlot info.offset (some k)).setSlot i none) :=
        hheader₂.trans (.setSlot _ i none)
      obtain ⟨t₄, hset₄, hw₄⟩ := setCtrl_spec (hs₂.setSlot i none) (by rw [hheader₃.capacity]; exact hi) (c := .empty)
        (by simp)
      refine ⟨t₄, false, ?_, drops_move h hi hdel hk hij htarget hempty' hw₄.shaped (hheader₃.trans hw₄.header)
        (fun x hx => ?_) ?_⟩
      · rw [if_pos hempty, hset, Option.bind_eq_bind, Option.bind_some, hset₄, Option.bind_some]
      · rw [hw₄.ctrlAt x hx]
        exact if_congr Iff.rfl rfl (hctrl₁ x hx)
      · rw [hw₄.slotAt, slotAt_setSlot_eq hlen₂, hslot₂]
    · have hdel' : t.ctrlAt info.offset = .deleted := by
        have hnf := htarget.nonFull
        generalize t.ctrlAt info.offset = c at hnf hempty ⊢
        cases c <;> simp_all [Ctrl.isEmptyOrDeleted, Ctrl.isEmpty]
      have hdelb : (t.ctrlAt info.offset).isDeleted = true := by simp [hdel', Ctrl.isDeleted]
      have hne : ¬ (t.ctrlAt info.offset).isEmpty = true := by simp [hempty]
      obtain ⟨k', hk'⟩ : ∃ k', t.slotAt info.offset = some k' := by
        rw [← Option.ne_none_iff_exists']
        intro hnone
        rw [(h.vacant _ hlt).1 hnone] at hdel'
        cases hdel'
      have hk₁ : Table.slotAt { t with draws := draws } info.offset = some k' := hk'
      refine ⟨(t₁.setSlot info.offset (some k)).setSlot i (some k'), true, ?_,
        drops_swap h hi hdel hk hij htarget hdel' hk' (hs₂.setSlot _ _)
          (hheader₂.trans (.setSlot _ _ _)) hctrl₁ ?_⟩
      · rw [if_neg hne, if_pos hdelb, hk₁, Option.bind_eq_bind, Option.bind_some, hset, Option.bind_eq_bind,
          Option.bind_some]
      · rw [slotAt_setSlot_eq hlen₂, hslot₂]

end

/-! ## The loop -/

theorem Drops.waiting_le {i : Nat} {t' : Table K} {again : Bool} (h : Drops E n t i t' again) : waiting t' ≤ waiting t := by
  refine Finset.card_le_card fun j hj => ?_
  rw [Finset.mem_filter, Finset.mem_range, h.header.capacity] at hj
  rw [Finset.mem_filter, Finset.mem_range]
  exact ⟨hj.1, by_contra fun hne => h.settled j hj.1 hne hj.2⟩

theorem Drops.waiting_lt {i : Nat} {t' : Table K} (h : Drops E n t i t' true) : waiting t' < waiting t := by
  obtain ⟨j, hj, hdel, hne⟩ := h.fewer rfl
  refine Finset.card_lt_card ⟨fun x hx => ?_, fun hsub => ?_⟩
  · rw [Finset.mem_filter, Finset.mem_range, h.header.capacity] at hx
    rw [Finset.mem_filter, Finset.mem_range]
    exact ⟨hx.1, by_contra fun hne' => h.settled x hx.1 hne' hx.2⟩
  · exact hne (Finset.mem_filter.1 (hsub (Finset.mem_filter.2 ⟨Finset.mem_range.2 hj, hdel⟩))).2

/-- The loop from slot `i` on, with the slots before it settled. -/
theorem dropLoop_spec (hn : E.group.logWidth ≤ n) (fuel i : Nat) (h : Placing E n t) (hi : i ≤ t.capacity)
    (hsettled : ∀ j < i, t.ctrlAt j ≠ .deleted) (hfuel : t.capacity - i + waiting t < fuel) :
    ∃ t', dropLoop E fuel i t = some t' ∧ Placing E n t' ∧ (∀ j < t'.capacity, t'.ctrlAt j ≠ .deleted) ∧
      contents t'.capacity t'.slotAt = contents t.capacity t.slotAt ∧ SameHeader t t' := by
  induction fuel generalizing i t with
  | zero => omega
  | succ fuel ih =>
    rw [dropLoop]
    rcases Nat.lt_or_eq_of_le hi with hlt | rfl
    · rw [if_pos (Nat.ne_of_lt hlt)]
      by_cases hdel : t.ctrlAt i = .deleted
      · obtain ⟨k, hk⟩ : ∃ k, t.slotAt i = some k := by
          rw [← Option.ne_none_iff_exists']
          intro hnone
          rw [(h.vacant i hlt).1 hnone] at hdel
          cases hdel
        obtain ⟨t₁, again, hstep, hdrops⟩ := dropStep_spec h hlt hdel hk hn
        have hcap := hdrops.header.capacity
        have hbefore : ∀ j < i, t₁.ctrlAt j ≠ .deleted := fun j hj => hdrops.settled j (by omega) (hsettled j hj)
        rw [if_pos (by simp [hdel, Ctrl.isDeleted]), hstep, Option.bind_eq_bind, Option.bind_some]
        have hrest : ∃ t', dropLoop E fuel (if again then i else i + 1) t₁ = some t' ∧ Placing E n t' ∧
            (∀ j < t'.capacity, t'.ctrlAt j ≠ .deleted) ∧
            contents t'.capacity t'.slotAt = contents t₁.capacity t₁.slotAt ∧ SameHeader t₁ t' := by
          cases again with
          | true =>
            have := hdrops.waiting_lt
            exact ih i hdrops.placing (by omega) hbefore (by omega)
          | false =>
            have := hdrops.waiting_le
            refine ih (i + 1) hdrops.placing (by omega) (fun j hj => ?_) (by omega)
            rcases Nat.lt_succ_iff_lt_or_eq.1 hj with hj | rfl
            · exact hbefore j hj
            · exact hdrops.done rfl
        obtain ⟨t', hloop, hplacing, hnone, hcontents, hheader⟩ := hrest
        exact ⟨t', hloop, hplacing, hnone, hcontents.trans hdrops.contents, hdrops.header.trans hheader⟩
      · rw [if_neg (by simpa [Ctrl.isDeleted] using hdel)]
        refine ih (i + 1) h hlt (fun j hj => ?_) (by omega)
        rcases Nat.lt_succ_iff_lt_or_eq.1 hj with hj | rfl
        · exact hsettled j hj
        · exact hdel
    · rw [if_neg (by simp)]
      exact ⟨t, rfl, h, hsettled, rfl, .refl t⟩

theorem waiting_le_capacity (t : Table K) : waiting t ≤ t.capacity := by
  have := Finset.card_filter_le (Finset.range t.capacity) fun i => t.ctrlAt i = .deleted
  rwa [Finset.card_range] at this

theorem placing_of_convert (h : Stored E n t) {t' : Table K} (hs : Shaped E n t')
    (hctrl : ∀ i < t.capacity, t'.ctrlAt i = (t.ctrlAt i).specialToEmptyAndFullToDeleted) (hslots : t'.slots = t.slots)
    (hcap : t'.capacity = t.capacity) : Placing E n t' := by
  have hslot : t'.slotAt = t.slotAt := by
    funext j
    rw [Table.slotAt, Table.slotAt, hslots]
  refine ⟨hs, fun i hi => ?_, fun i hi k hk => Or.inl ?_⟩
  · rw [hcap] at hi
    have hne := h.shaped.ctrlAt_ne_sentinel hi
    rw [hslot, hctrl i hi, h.vacant i hi]
    generalize t.ctrlAt i = c at hne ⊢
    cases c <;> simp_all [Ctrl.isEmptyOrDeleted, Ctrl.specialToEmptyAndFullToDeleted]
  · rw [hcap] at hi
    rw [hslot] at hk
    rw [hctrl i hi, (h.hashed i hi k hk).1]
    rfl

/-- **`DropDeletesWithoutResize`** keeps the elements, and all slots that hold none can be used again. -/
theorem dropDeletes_spec {S : Finset K} (h : Inv E n t S) (hn : E.group.logWidth ≤ n) :
    ∃ t', dropDeletesWithoutResize E t = some t' ∧ Inv E n t' S ∧ t'.growthLeft + S.card = growth E.group t.capacity ∧
      t'.capacity = t.capacity ∧ t'.allocations = t.allocations := by
  have hs := h.stored.shaped
  have hlog : 1 ≤ n := by have := E.group.logWidth_eq; omega
  have hbound := hs.bound
  have hpow := pow_lt_of_le hbound
  have hcap := hs.capacity
  have hle := growth_le E.group t.capacity
  have hsmall : isSmall E.group t.capacity = false := by
    rw [← Bool.not_eq_true, hs.isSmall_iff]
    omega
  obtain ⟨t₁, hconv, hs₁, hctrl₁, hslots₁, hheader₁⟩ := convert_spec hs hn
  have hplacing₁ := placing_of_convert h.stored hs₁ hctrl₁ hslots₁ hheader₁.capacity
  have hwaiting := waiting_le_capacity t₁
  obtain ⟨t₂, hloop, hplacing₂, hnone₂, hcontents₂, hheader₂⟩ := dropLoop_spec hn (2 * t₁.capacity + 1) 0 hplacing₁
    (Nat.zero_le _) (fun j hj => absurd hj (Nat.not_lt_zero j)) (by omega)
  have hcap₂ : t₂.capacity = t.capacity := hheader₂.capacity.trans hheader₁.capacity
  have hsize₂ : t₂.size = S.card := (hheader₂.size.trans hheader₁.size).trans h.size
  have hslot₁ : t₁.slotAt = t.slotAt := by
    funext j
    rw [Table.slotAt, Table.slotAt, hslots₁]
  have hcontents : contents t₂.capacity t₂.slotAt = S.val := by
    rw [hcontents₂, hheader₁.capacity, hslot₁, h.contents]
  have hused : used t₂ = S.card := by rw [hplacing₂.used_eq, hcontents]; rfl
  have hroom := h.card_le_growth
  refine ⟨{ t₂ with growthLeft := growth E.group t.capacity - S.card }, ?_, ⟨?_, hcontents, hsize₂, ?_, fun _ => hnone₂⟩,
    Nat.sub_add_cancel hroom, hcap₂,
    hheader₂.allocations.trans hheader₁.allocations⟩
  · rw [dropDeletesWithoutResize, if_pos ⟨isValidCapacity_of_pow hlog (by omega) hcap, hsmall⟩, hconv, Option.bind_eq_bind,
      Option.bind_some, hloop, Option.bind_some, resetGrowthLeft, hcap₂, capacityToGrowth_eq hlog (by omega) hcap,
      Option.bind_eq_bind, Option.bind_some, hsize₂, sizeTSub_of_le hroom (by omega)]
  · have hst := hplacing₂.stored hnone₂
    exact ⟨⟨hst.shaped.capacity, hst.shaped.bound, hst.shaped.mirrored, hst.shaped.slots⟩, hst.vacant, hst.hashed⟩
  · show growth E.group t.capacity - S.card + used t₂ = growth E.group t₂.capacity
    rw [hused, hcap₂]
    omega

/-- The capacity stays, or it is doubled because the table is small or has many elements. -/
def Grows (E : Env K) (t t' : Table K) : Prop :=
  t'.capacity = t.capacity ∨
    t'.capacity = 2 * t.capacity + 1 ∧ (t.capacity ≤ E.width ∨ t.capacity * 25 < t.size * 32)

/-- **`rehash_and_grow_if_necessary`** makes room for another element. -/
theorem rehashAndGrow_spec {S : Finset K} (h : Inv E n t S) (hcard : S.card < 2 ^ 58) :
    ∃ m t', rehashAndGrowIfNecessary E t = some t' ∧ Inv E m t' S ∧ 0 < t'.growthLeft ∧ Grows E t t' := by
  have hs := h.stored.shaped
  have hcap := hs.capacity
  have hpow := pow_lt_of_le hs.bound
  have hsize := h.size
  have hle := h.card_le_growth
  have hle' := growth_le E.group t.capacity
  have hW := kWidth_eq E.group
  have h32 : sizeT (t.size * 32) = t.size * 32 := sizeT_of_lt (by omega)
  have h25 : sizeT (t.capacity * 25) = t.capacity * 25 := sizeT_of_lt (by omega)
  rw [rehashAndGrowIfNecessary, h32, h25]
  by_cases hdrop : E.width < t.capacity ∧ t.size * 32 ≤ t.capacity * 25
  · have hn : E.group.logWidth ≤ n := by
      by_contra hlt
      have := pow_le_width (E := E) (Nat.lt_of_not_le hlt)
      omega
    obtain ⟨t', hdrops, hinv, hleft, hcap', -⟩ := dropDeletes_spec h hn
    refine ⟨n, t', by rw [if_pos hdrop, hdrops], hinv, ?_, Or.inl hcap'⟩
    simp only [Env.width] at hdrop
    have hgrowth : growth E.group t.capacity = t.capacity - t.capacity / 8 := if_neg (by omega)
    omega
  · have hn : n ≤ 58 := by
      by_contra hlt
      have : 2 ^ 59 ≤ 2 ^ n := Nat.pow_le_pow_right (by decide) (by omega)
      simp only [Env.width] at hdrop
      omega
    have hcap' : 2 ^ (n + 1) - 1 + 1 = 2 ^ (n + 1) := Nat.sub_add_cancel (Nat.two_pow_pos _)
    have hroom : t.capacity < growth E.group (2 ^ (n + 1) - 1) := by
      unfold growth
      rw [Nat.pow_succ]
      split <;> omega
    obtain ⟨t', hresize, hinv, hleft, hcap'', -⟩ := resize_spec h.stored h.contents hsize (Nat.le_add_left 1 n) (by omega)
      hcap' (by omega)
    refine ⟨n + 1, t', ?_, hinv, by omega, Or.inr ⟨?_, by omega⟩⟩
    · rw [if_neg hdrop, nextCapacity_eq (by omega) hcap, Option.bind_eq_bind, Option.bind_some, hresize]
    · rw [hcap'', Nat.pow_succ]
      omega

end LowLatency.RawHashSet
