import LowLatency.RawHashSet.Insertion

/-!
# Erasing

`EraseMetaOnly` marks the slot as deleted, or as empty if no search can have passed it: if every group
that has the slot also has another empty one (`wasNeverFull_spec`). A search for another element that
goes through such a group would have ended there before.
-/

namespace LowLatency.RawHashSet

open QuadraticProbing Probing

variable {K : Type} {E : Env K} {t : Table K} {n : Nat} {S : Finset K} {i : Nat}

/-- The bytes of the two groups next to a slot, the first of them from the slot on. -/
structure Neighbours (E : Env K) (n : Nat) (t : Table K) (i : Nat) (before after : List Ctrl) : Prop where
  load_after : loadGroup E.group t.control i = some after
  load_before : loadGroup E.group t.control (sizeTSub i E.width &&& t.capacity) = some before
  windows : ∃ b, (b + E.width) % 2 ^ n = i ∧ Window E n t b before ∧ Window E n t i after

theorem Shaped.neighbours (hs : Shaped E n t) (hi : i < t.capacity) : ∃ before after, Neighbours E n t i before after := by
  have hpos := hs.lt_pow hi
  have hW := width_le_sixteen E
  obtain ⟨b, hb, hbi⟩ := exists_distance E.width hpos
  rw [Nat.add_comm] at hbi
  obtain ⟨after, hload, hafter⟩ := hs.load hpos
  obtain ⟨before, hload', hbefore⟩ := hs.load hb
  refine ⟨before, after, hload, ?_, b, hbi, hbefore, hafter⟩
  rw [hs.capacity_eq, sizeTSub_and (y := b) (by omega) (by have := hs.bound; omega) hb]
  · exact hload'
  · rw [hbi, Nat.mod_eq_of_lt hpos]

/-- **No search passes the slot** if the table takes it for empty. -/
theorem wasNeverFull_spec (hn : E.group.logWidth ≤ n) {before after : List Ctrl} (h : Neighbours E n t i before after)
    (hnever : wasNeverFull E (E.group.maskEmpty before) (E.group.maskEmpty after) = true) {o : Nat}
    (ho : InWindow n E.group.logWidth o i) : ∃ x, InWindow n E.group.logWidth o x ∧ t.ctrlAt x = .empty := by
  obtain ⟨b, hbi, hbefore, hafter⟩ := h.windows
  simp only [wasNeverFull, Bool.and_eq_true, bne_iff_ne, decide_eq_true_eq] at hnever
  obtain ⟨⟨hne, hne'⟩, hlt⟩ := hnever
  have hrep := E.group.maskEmpty_spec before hbefore.length
  have hrep' := E.group.maskEmpty_spec after hafter.length
  obtain ⟨l, hl⟩ := hrep.ne_zero_iff.1 hne
  obtain ⟨l', hl'⟩ := hrep'.ne_zero_iff.1 hne'
  obtain ⟨hhigh, -⟩ := hrep.highest hl
  obtain ⟨hlow, -⟩ := hrep'.lowest hl'
  have hlanes : ∀ l : Nat, before[l]? = some .empty → l < E.width := fun l hl => hbefore.lane_lt hl
  have hzeros : leadingZeros E.group.bits E.width E.group.shift (E.group.maskEmpty before) =
      E.width - 1 - highestBitSet E.group.shift (E.group.maskEmpty before) :=
    hrep.leadingZeros E.group.significant_le hlanes hne
  rw [hzeros] at hlt
  have hhighlt := hlanes _ hhigh
  -- lanes are slots here
  have hslot : ∀ {o : Nat} {g : List Ctrl}, Window E n t o g → ∀ l, g[l]? = some .empty → t.ctrlAt ((o + l) % 2 ^ n) = .empty := by
    intro o g hg l hl
    rcases hg.any l _ hl with heq | ⟨-, hsmall⟩
    · exact heq.symm
    · omega
  have hx : ((b + highestBitSet E.group.shift (E.group.maskEmpty before)) % 2 ^ n +
      (E.width - 1 - highestBitSet E.group.shift (E.group.maskEmpty before) + 1)) % 2 ^ n = i := by
    rw [Nat.mod_add_mod, ← hbi]
    congr 1
    omega
  rcases ho.neighbour hlt hx (Nat.mod_lt _ (Nat.two_pow_pos n)) with hin | hin
  · exact ⟨_, hin, hslot hafter _ hlow⟩
  · exact ⟨_, hin, hslot hbefore _ hhigh⟩

/-- In a small table the last lane is a dummy, so the slot is always taken for empty. -/
theorem wasNeverFull_small (hn : n < E.group.logWidth) {before after : List Ctrl} (h : Neighbours E n t i before after) :
    wasNeverFull E (E.group.maskEmpty before) (E.group.maskEmpty after) = true := by
  obtain ⟨b, -, hbefore, hafter⟩ := h.windows
  have hW := width_pos E
  have hrep := E.group.maskEmpty_spec before hbefore.length
  have hrep' := E.group.maskEmpty_spec after hafter.length
  have hne := hrep.ne_zero_iff.2 ⟨_, hbefore.dummy hn⟩
  have hne' := hrep'.ne_zero_iff.2 ⟨_, hafter.dummy hn⟩
  have hlast := (hrep.highest (hbefore.dummy hn)).2
  have hlow := hafter.lane_lt (hrep'.lowest (hafter.dummy hn)).1
  have hzeros : leadingZeros E.group.bits E.width E.group.shift (E.group.maskEmpty before) =
      E.width - 1 - highestBitSet E.group.shift (E.group.maskEmpty before) :=
    hrep.leadingZeros E.group.significant_le (fun l hl => hbefore.lane_lt hl) hne
  have hpow : E.width = 2 ^ E.group.logWidth := rfl
  simp only [wasNeverFull, Bool.and_eq_true, bne_iff_ne, decide_eq_true_eq, hzeros]
  exact ⟨⟨hne, hne'⟩, by omega⟩

/-- A search for another element gets to it afterwards too. -/
theorem Reachable.erase {hash : UInt64} {j : Nat} {t' : Table K} {c : Ctrl} (hr : Reachable E n t hash j)
    (haddr : t'.address = t.address) (hctrl : ∀ x < 2 ^ n, t'.ctrlAt x = if x = i then c else t.ctrlAt x)
    (hc : c = .empty → E.group.logWidth ≤ n → ∀ o, InWindow n E.group.logWidth o i →
      ∃ x, InWindow n E.group.logWidth o x ∧ t.ctrlAt x = .empty) : Reachable E n t' hash j := by
  unfold Reachable home at hr ⊢
  rw [haddr]
  obtain ⟨m, hm, hj, hbefore⟩ := hr
  refine ⟨m, hm, hj, fun k hk x hx => ?_⟩
  show t'.ctrlAt x ≠ .empty
  rw [hctrl x hx.lt]
  by_cases hxi : x = i
  · subst hxi
    rw [if_pos rfl]
    intro hempty
    have hn : E.group.logWidth ≤ n := by
      by_contra hlt
      have := eq_zero_of_lt_windows (Nat.lt_of_not_le hlt) hm
      omega
    obtain ⟨y, hy, hyempty⟩ := hc hempty hn _ hx
    exact hbefore k hk y hy hyempty
  · rw [if_neg hxi]
    exact hbefore k hk x hx

/-- An element taken out of its slot. -/
theorem Inv.erase [DecidableEq K] {key : K} {c : Ctrl} {t' : Table K} (h : Inv E n t S) (hi : i < t.capacity)
    (hkey : t.slotAt i = some key) (hs' : Shaped E n t') (hcap : t'.capacity = t.capacity)
    (haddr : t'.address = t.address) (hnf : c.isEmptyOrDeleted = true)
    (hctrl : ∀ x < 2 ^ n, t'.ctrlAt x = if x = i then c else t.ctrlAt x)
    (hslot : t'.slotAt = Function.update t.slotAt i none) (hsize : t'.size = t.size - 1)
    (hleft : t'.growthLeft = t.growthLeft + if c = .empty then 1 else 0)
    (hc : c = .empty → E.group.logWidth ≤ n → ∀ o, InWindow n E.group.logWidth o i →
      ∃ x, InWindow n E.group.logWidth o x ∧ t.ctrlAt x = .empty)
    (hsmall : n < E.group.logWidth → c = .empty) : Inv E n t' (S.erase key) := by
  have hs := h.stored.shaped
  have hmem : key ∈ S := h.mem_iff.2 ⟨i, hi, hkey⟩
  have hci : t'.ctrlAt i = c := by rw [hctrl i (hs.lt_pow hi), if_pos rfl]
  have hold := (h.stored.hashed i hi key hkey).1
  refine ⟨⟨hs', fun j hj => ?_, fun j hj k hk => ?_⟩, ?_, ?_, ?_, fun hn j hj => ?_⟩
  · rw [hcap] at hj
    rw [hslot, hctrl j (hs.lt_pow hj)]
    by_cases hji : j = i
    · simp [hji, hnf]
    · rw [Function.update_of_ne hji, if_neg hji]
      exact h.stored.vacant j hj
  · rw [hcap] at hj
    rw [hslot] at hk
    have hji : j ≠ i := by
      rintro rfl
      rw [Function.update_self] at hk
      cases hk
    rw [Function.update_of_ne hji] at hk
    obtain ⟨hcj, hrj⟩ := h.stored.hashed j hj k hk
    exact ⟨by rw [hctrl j (hs.lt_pow hj), if_neg hji, hcj], hrj.erase haddr hctrl hc⟩
  · have hcons := contents_remove hi hkey
    rw [h.contents] at hcons
    rw [hcap, hslot, Finset.erase_val, hcons, Multiset.erase_cons_head]
  · rw [hsize, h.size, Finset.card_erase_of_mem hmem]
  · have hused := used_update hcap hi fun j hj hne => by rw [hctrl j (hs.lt_pow hj), if_neg hne]
    have hgrowth := h.growth
    have hne : t.ctrlAt i ≠ .empty := by
      rw [hold]
      simp
    rw [if_neg hne, hci] at hused
    rw [hleft, hcap]
    by_cases hempty : c = .empty
    · rw [if_pos hempty] at hused ⊢
      omega
    · rw [if_neg hempty] at hused ⊢
      omega
  · rw [hcap] at hj
    rw [hctrl j (hs.lt_pow hj), hsmall hn]
    split
    · simp
    · exact h.clean hn j hj

theorem eraseAt_spec [DecidableEq K] {key : K} (h : Inv E n t S) (hi : i < t.capacity) (hkey : t.slotAt i = some key) :
    ∃ t', eraseAt E t i = some t' ∧ Inv E n t' (S.erase key) ∧ t'.slotAt = Function.update t.slotAt i none := by
  have hs := h.stored.shaped
  have hmem : key ∈ S := h.mem_iff.2 ⟨i, hi, hkey⟩
  have hpos : 0 < S.card := Finset.card_pos.2 ⟨key, hmem⟩
  have hpow := pow_lt_of_le hs.bound
  have hcap := hs.capacity
  have hle := h.card_le_growth
  have hle' := growth_le E.group t.capacity
  have hgrowth := h.growth
  have hfull : (t.ctrlAt i).isFull = true := by
    rw [(h.stored.hashed i hi key hkey).1]
    rfl
  have hsize : sizeTSub t.size 1 = t.size - 1 := sizeTSub_of_le (by rw [h.size]; exact hpos) (by rw [h.size]; omega)
  have hs₀ := hs.setSlot i none
  obtain ⟨before, after, hnb⟩ := hs₀.neighbours hi
  obtain ⟨c, hcdef⟩ : ∃ c : Ctrl, c = if wasNeverFull E (E.group.maskEmpty before) (E.group.maskEmpty after) then .empty
      else .deleted := ⟨_, rfl⟩
  have hsent : c ≠ .sentinel := by
    rw [hcdef]
    split <;> simp
  have hnf : c.isEmptyOrDeleted = true := by
    rw [hcdef]
    split <;> rfl
  have hnever : wasNeverFull E (E.group.maskEmpty before) (E.group.maskEmpty after) = true ↔ c = .empty := by
    rw [hcdef]
    split <;> simp_all
  have hs₁ : Shaped E n { t.setSlot i none with size := t.size - 1 } :=
    ⟨hs₀.capacity, hs₀.bound, hs₀.mirrored, hs₀.slots⟩
  obtain ⟨t₂, hset, hw⟩ := setCtrl_spec hs₁ hi hsent
  have hleft : sizeT (t₂.growthLeft + if wasNeverFull E (E.group.maskEmpty before) (E.group.maskEmpty after) then 1 else 0) =
      t.growthLeft + if c = .empty then 1 else 0 := by
    have hleft₂ : t₂.growthLeft = t.growthLeft := hw.header.growthLeft
    rw [hleft₂, if_congr hnever rfl rfl]
    refine sizeT_of_lt ?_
    split <;> omega
  generalize hleft' : sizeT (t₂.growthLeft +
    if wasNeverFull E (E.group.maskEmpty before) (E.group.maskEmpty after) then 1 else 0) = left at hleft
  have hslot₂ : t₂.slotAt = Function.update t.slotAt i none :=
    (show t₂.slotAt = (t.setSlot i none).slotAt from hw.slotAt).trans (slotAt_setSlot_eq (by rw [hs.slots]; exact hi) none)
  refine ⟨{ t₂ with growthLeft := left }, ?_, ?_, hslot₂⟩
  · have hmeta : eraseMetaOnly E (t.setSlot i none) i = some { t₂ with growthLeft := left } := by
      have hsize₀ : sizeTSub (t.setSlot i none).size 1 = t.size - 1 := hsize
      rw [eraseMetaOnly, if_pos (show ((t.setSlot i none).ctrlAt i).isFull = true from hfull), hnb.load_after,
        Option.bind_eq_bind, Option.bind_some, hnb.load_before, Option.bind_some]
      simp only [hsize₀, ← hcdef]
      rw [hset, Option.bind_eq_bind, Option.bind_some, hleft']
    rw [eraseAt, if_pos hfull, hkey, Option.bind_eq_bind, Option.bind_some, hmeta]
  · exact h.erase hi hkey (c := c) ⟨hw.shaped.capacity, hw.shaped.bound, hw.shaped.mirrored, hw.shaped.slots⟩
      hw.header.capacity hw.header.address hnf hw.ctrlAt hslot₂ hw.header.size hleft
      (fun hempty hn o ho => wasNeverFull_spec hn hnb (hnever.2 hempty) ho) fun hn => hnever.1 (wasNeverFull_small hn hnb)

/-- **`erase`** takes the element away. -/
theorem erase_spec [DecidableEq K] (h : Inv E n t S) (key : K) :
    ∃ t', erase E t key = some (if key ∈ S then 1 else 0, t') ∧ Inv E n t' (S.erase key) := by
  by_cases hkey : key ∈ S
  · obtain ⟨i, hi, hslot, hfind⟩ := find_of_mem h hkey
    obtain ⟨t', herase, hinv, -⟩ := eraseAt_spec h hi hslot
    refine ⟨t', ?_, hinv⟩
    simp [erase, hfind, herase, hkey]
  · refine ⟨t, ?_, by rwa [Finset.erase_eq_of_notMem hkey]⟩
    simp [erase, find_of_notMem h hkey, hkey]

end LowLatency.RawHashSet
