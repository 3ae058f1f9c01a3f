import LowLatency.RawHashSet.Clear

/-!
# Iteration, equality and copies

| here | there (`raw_hash_set.h`) |
| --- | --- |
| `skipEmptyOrDeleted` | `iterator::skip_empty_or_deleted` (lines 1577-1585) |
| `elements`           | a loop from `begin()` to `end()` (lines 1534-1541, 1826-1834) |
| `hasElement`, `equal` | `has_element` (lines 2531-2547), `operator==` (lines 2308-2317) |
| `copy`               | the copy constructor (lines 1753-1770) |

An iterator is the position of its control byte. It skips the slots that are not full a group at a time
and stops at the sentinel, so a loop over the table sees every element once (`elements_spec`).
-/

namespace LowLatency.RawHashSet

open QuadraticProbing Probing

variable {K : Type} {E : Env K} {t : Table K} {n : Nat} {S : Finset K}

/-- The next position with a full slot, or that of the sentinel. -/
def skipEmptyOrDeleted (G : Group) (control : List Ctrl) : Nat → Nat → Option Nat
  | 0, _ => none
  | fuel + 1, pos =>
    match control[pos]? with
    | none => none
    | some c =>
      if c.isEmptyOrDeleted then do
        let g ← loadGroup G control pos
        skipEmptyOrDeleted G control fuel (pos + G.countLeadingEmptyOrDeleted g)
      else some pos

/-- The elements from `pos` on; `operator*` and `operator++` check that the slot is full. -/
def elementsLoop (E : Env K) (t : Table K) : Nat → Nat → Option (List K)
  | 0, _ => none
  | fuel + 1, pos => do
    let pos ← skipEmptyOrDeleted E.group t.control (t.capacity + 1) pos
    if t.ctrlAt pos = .sentinel then some []
    else if (t.ctrlAt pos).isFull then do
      let k ← t.slotAt pos
      let ks ← elementsLoop E t fuel (pos + 1)
      some (k :: ks)
    else none

def elements (E : Env K) (t : Table K) : Option (List K) := elementsLoop E t (t.capacity + 1) 0

/-- The loop of `has_element` is that of `find`, with the comparison of elements for that of keys. -/
def hasElement [DecidableEq K] (E : Env K) (t : Table K) (elem : K) : Option Bool := contains E t elem

def allIn [DecidableEq K] (E : Env K) (inner : Table K) : List K → Option Bool
  | [] => some true
  | k :: ks => do if ← hasElement E inner k then allIn E inner ks else some false

def equal [DecidableEq K] (E : Env K) (a b : Table K) : Option Bool :=
  if a.size ≠ b.size then some false
  else do
    let (outer, inner) := if b.capacity < a.capacity then (b, a) else (a, b)
    let ks ← elements E outer
    allIn E inner ks

def copyLoop [DecidableEq K] (E : Env K) : List K → Table K → Option (Table K)
  | [], t => some t
  | k :: ks, t => do
    let (target, t) ← findFirstNonFull E t (E.hasher k)
    let t ← setCtrl E t target.offset (.full (H2 (E.hasher k)))
    let t ← emplaceAt E t target.offset k
    copyLoop E ks t

def copy [DecidableEq K] (E : Env K) (that : Table K) (allocations draws : Nat) : Option (Table K) := do
  let t ← reserve E (Table.empty E allocations draws) that.size
  let ks ← elements E that
  let t ← copyLoop E ks t
  some { t with size := that.size, growthLeft := sizeTSub t.growthLeft that.size }

/-! ## Iteration -/

theorem Shaped.getElem?_control (hs : Shaped E n t) {i : Nat} (hi : i ≤ t.capacity) :
    t.control[i]? = some (t.ctrlAt i) := by
  have hlen := hs.mirrored.length
  have hW := width_pos E
  rw [Table.ctrlAt, List.getD_eq_getElem?_getD, List.getElem?_eq_getElem (by omega), Option.getD_some]

/-- One step over a group: it skips at least one slot, and none that is full. -/
theorem Shaped.countLeading (hs : Shaped E n t) {pos : Nat} (hpos : pos < t.capacity)
    (hskip : (t.ctrlAt pos).isEmptyOrDeleted = true) :
    ∃ g, loadGroup E.group t.control pos = some g ∧ 0 < E.group.countLeadingEmptyOrDeleted g ∧
      pos + E.group.countLeadingEmptyOrDeleted g ≤ t.capacity ∧
      ∀ x, pos ≤ x → x < pos + E.group.countLeadingEmptyOrDeleted g → (t.ctrlAt x).isEmptyOrDeleted = true := by
  have hcap := hs.capacity
  have hW := width_pos E
  obtain ⟨g, hload, hg⟩ := hs.load (hs.lt_pow hpos)
  have hget : ∀ l < E.width, pos + l ≤ t.capacity → g[l]? = some (t.ctrlAt (pos + l)) := by
    intro l hl hle
    rw [hg.real l hl (by omega), Nat.mod_eq_of_lt (by omega)]
  obtain ⟨hle, hbefore, hend⟩ := E.group.countLeading_spec g hg.length
  refine ⟨g, hload, ?_⟩
  generalize E.group.countLeadingEmptyOrDeleted g = shift at hle hbefore hend ⊢
  have hshift : shift ≤ E.width := Nat.le_trans hle hg.length.le
  have hshift' : pos + shift ≤ t.capacity := by
    -- the sentinel is not skipped
    by_contra hlt
    obtain ⟨c, hc, hed⟩ := hbefore (t.capacity - pos) (by omega)
    rw [hget (t.capacity - pos) (by omega) (by omega), Nat.add_sub_cancel' (Nat.le_of_lt hpos), hs.ctrlAt_capacity] at hc
    cases hc
    cases hed
  refine ⟨?_, hshift', fun x hx hlt => ?_⟩
  · by_contra hzero
    obtain rfl : shift = 0 := by omega
    have := hend _ (hget 0 hW (by omega))
    rw [Nat.add_zero, hskip] at this
    cases this
  · obtain ⟨c, hc, hed⟩ := hbefore (x - pos) (by omega)
    rw [hget (x - pos) (by omega) (by omega), Nat.add_sub_cancel' hx, Option.some.injEq] at hc
    exact hc ▸ hed

theorem skip_spec (hs : Shaped E n t) (fuel pos : Nat) (hpos : pos ≤ t.capacity) (hfuel : t.capacity - pos < fuel) :
    ∃ q, skipEmptyOrDeleted E.group t.control fuel pos = some q ∧ pos ≤ q ∧ q ≤ t.capacity ∧
      (t.ctrlAt q).isEmptyOrDeleted = false ∧ ∀ x, pos ≤ x → x < q → (t.ctrlAt x).isEmptyOrDeleted = true := by
  induction fuel generalizing pos with
  | zero => omega
  | succ fuel ih =>
    simp only [skipEmptyOrDeleted, hs.getElem?_control hpos]
    cases hskip : (t.ctrlAt pos).isEmptyOrDeleted with
    | false => exact ⟨pos, by simp, Nat.le_refl _, hpos, hskip, fun x hx hlt => by omega⟩
    | true =>
      have hlt : pos < t.capacity := by
        refine Nat.lt_of_le_of_ne hpos fun heq => ?_
        rw [heq, hs.ctrlAt_capacity] at hskip
        cases hskip
      obtain ⟨g, hload, hshift, hle, hall⟩ := hs.countLeading hlt hskip
      obtain ⟨q, hq, hposq, hqcap, hend, hskipped⟩ := ih (pos + E.group.countLeadingEmptyOrDeleted g) hle (by omega)
      refine ⟨q, ?_, by omega, hqcap, hend, fun x hx hlt => ?_⟩
      · rw [if_pos rfl, hload, Option.bind_eq_bind, Option.bind_some, hq]
      · by_cases hx' : x < pos + E.group.countLeadingEmptyOrDeleted g
        · exact hall x hx hx'
        · exact hskipped x (by omega) hlt

/-- The elements from `pos` on. -/
def ahead (t : Table K) (pos : Nat) : List K := (List.range' pos (t.capacity - pos)).filterMap t.slotAt

/-- Where an iterator can be: at the end, or at an element. -/
def Pointed (t : Table K) (pos : Nat) : Prop := pos = t.capacity ∨ pos < t.capacity ∧ ∃ k, t.slotAt pos = some k

@[simp] theorem ahead_capacity (t : Table K) : ahead t t.capacity = [] := by
  rw [ahead, Nat.sub_self]
  rfl

theorem ahead_cons {pos : Nat} {k : K} (hpos : pos < t.capacity) (hk : t.slotAt pos = some k) :
    ahead t pos = k :: ahead t (pos + 1) := by
  rw [ahead, ahead, show t.capacity - pos = t.capacity - (pos + 1) + 1 by omega, List.range'_succ, List.filterMap_cons, hk]

/-- The control byte of an element. -/
theorem Stored.isFull_of_slotAt (h : Stored E n t) {pos : Nat} {k : K} (hpos : pos < t.capacity) (hk : t.slotAt pos = some k) :
    t.ctrlAt pos ≠ .sentinel ∧ (t.ctrlAt pos).isFull = true := by
  rw [(h.hashed pos hpos k hk).1]
  exact ⟨by simp, rfl⟩

/-- What is skipped holds nothing. -/
theorem ahead_skip (h : Stored E n t) {pos : Nat} (hpos : pos ≤ t.capacity) :
    ∃ q, skipEmptyOrDeleted E.group t.control (t.capacity + 1) pos = some q ∧ pos ≤ q ∧ Pointed t q ∧ ahead t q = ahead t pos := by
  have hs := h.shaped
  obtain ⟨q, hq, hposq, hqcap, hend, hskipped⟩ := skip_spec hs (t.capacity + 1) pos hpos (by omega)
  refine ⟨q, hq, hposq, ?_, ?_⟩
  · rcases Nat.lt_or_eq_of_le hqcap with hlt | heq
    · refine Or.inr ⟨hlt, ?_⟩
      rw [← Option.ne_none_iff_exists', ne_eq, h.vacant q hlt, hend]
      simp
    · exact Or.inl heq
  · have hsplit : List.range' pos (t.capacity - pos) = List.range' pos (q - pos) ++ List.range' q (t.capacity - q) := by
      have := List.range'_append_1 (s := pos) (m := q - pos) (n := t.capacity - q)
      rw [Nat.add_sub_cancel' hposq] at this
      rw [this]
      congr 1
      omega
    have hfront : (List.range' pos (q - pos)).filterMap t.slotAt = [] := by
      rw [List.filterMap_eq_nil_iff]
      intro x hx
      rw [List.mem_range'_1] at hx
      exact (h.vacant x (by omega)).2 (hskipped x hx.1 (by omega))
    rw [ahead, ahead, hsplit, List.filterMap_append, hfront, List.nil_append]

theorem elementsLoop_spec (h : Stored E n t) (fuel pos : Nat) (hpos : pos ≤ t.capacity) (hfuel : t.capacity - pos < fuel) :
    elementsLoop E t fuel pos = some (ahead t pos) := by
  have hs := h.shaped
  induction fuel generalizing pos with
  | zero => omega
  | succ fuel ih =>
    obtain ⟨q, hq, hposq, hpoint, hahead⟩ := ahead_skip h hpos
    rw [elementsLoop, hq, Option.bind_eq_bind, Option.bind_some, ← hahead]
    rcases hpoint with rfl | ⟨hlt, k, hk⟩
    · rw [if_pos hs.ctrlAt_capacity, ahead_capacity]
    · obtain ⟨hsent, hfull⟩ := h.isFull_of_slotAt hlt hk
      rw [if_neg hsent, if_pos hfull, hk, Option.bind_eq_bind, Option.bind_some, ih (q + 1) hlt (by omega),
        Option.bind_eq_bind, Option.bind_some, ahead_cons hlt hk]

/-- **A loop over the table** sees every element once. -/
theorem elements_spec (h : Inv E n t S) : ∃ ks, elements E t = some ks ∧ (ks : Multiset K) = S.val := by
  refine ⟨_, elementsLoop_spec h.stored (t.capacity + 1) 0 (Nat.zero_le _) (by omega), ?_⟩
  rw [← h.contents, contents, ahead, Nat.sub_zero, ← List.range_eq_range']
  rfl

/-- A list of the elements. -/
theorem mem_of_coe_eq {ks : List K} (hks : (ks : Multiset K) = S.val) : ks.Nodup ∧ ∀ k, k ∈ ks ↔ k ∈ S := by
  refine ⟨Multiset.coe_nodup.1 (hks ▸ S.nodup), fun k => ?_⟩
  rw [← Multiset.mem_coe, hks]
  rfl

/-- A table for no elements with all of its growth left has no slot in use. -/
theorem Inv.filling (h : Inv E n t ∅) (hleft : t.growthLeft = RawHashSet.growth E.group t.capacity) : Filling E n t t 0 := by
  have hs := h.stored.shaped
  have hempty : ∀ i < t.capacity, t.ctrlAt i = .empty := by
    intro i hi
    by_contra hne
    have hpos : 0 < used t := Finset.card_pos.2 ⟨i, Finset.mem_filter.2 ⟨Finset.mem_range.2 hi, hne⟩⟩
    have := h.growth
    omega
  have hnone : ∀ i < t.capacity, t.slotAt i = none := fun i hi => (h.stored.vacant i hi).2 (by rw [hempty i hi]; rfl)
  have hblank := blank_of_slots hs hempty hnone
  exact ⟨hblank.placing, fun i hi => by rw [hempty i hi]; simp, hblank.contents, .refl t⟩

/-! ## Equality -/

section
variable [DecidableEq K]

theorem allIn_spec {T : Finset K} (h : Inv E n t T) (ks : List K) :
    allIn E t ks = some (decide (∀ k ∈ ks, k ∈ T)) := by
  induction ks with
  | nil => simp [allIn]
  | cons k ks ih =>
    rw [allIn, hasElement, contains_spec h k, Option.bind_eq_bind, Option.bind_some]
    by_cases hk : k ∈ T
    · simp [hk, ih]
    · simp [hk]

/-- **`operator==`** compares the sets, whatever the capacities and the order of the elements. -/
theorem equal_spec {m : Nat} {a b : Table K} {T : Finset K} (ha : Inv E n a S) (hb : Inv E m b T) :
    equal E a b = some (decide (S = T)) := by
  have hloop : ∀ {n m : Nat} {a b : Table K} {S T : Finset K}, Inv E n a S → Inv E m b T → S.card = T.card →
      (elements E a >>= allIn E b) = some (decide (S = T)) := by
    intro n m a b S T ha hb hcard
    obtain ⟨ks, hks, hmem⟩ := elements_spec ha
    rw [hks, Option.bind_eq_bind, Option.bind_some, allIn_spec hb]
    have hsub : (∀ k ∈ ks, k ∈ T) ↔ S = T := by
      have hks' := (mem_of_coe_eq hmem).2
      constructor
      · intro hall
        exact Finset.eq_of_subset_of_card_le (fun k hk => hall k ((hks' k).2 hk)) hcard.ge
      · rintro rfl k hk
        exact (hks' k).1 hk
    rw [decide_eq_decide.2 hsub]
  rw [equal, ha.size, hb.size]
  by_cases hcard : S.card = T.card
  · rw [if_neg (by simp [hcard])]
    by_cases hcap : b.capacity < a.capacity
    · simp only [if_pos hcap]
      rw [hloop hb ha hcard.symm, decide_eq_decide.2 eq_comm]
    · simp only [if_neg hcap]
      exact hloop ha hb hcard
  · rw [if_pos hcard]
    have hne : S ≠ T := fun heq => hcard (by rw [heq])
    simp [hne]

/-! ## Copies -/

/-- One element of the original: it is placed and found there. -/
theorem Filling.emplace {m : Nat} {new : Table K} {elems : Multiset K} (h : Filling E m new t elems)
    (hroom : elems.card < t.capacity) {k : K} (hnodup : (k ::ₘ elems).Nodup) :
    ∃ info t₁ t₂ t₃, findFirstNonFull E t (E.hasher k) = some (info, t₁) ∧
      setCtrl E t₁ info.offset (.full (H2 (E.hasher k))) = some t₂ ∧ emplaceAt E t₂ info.offset k = some t₃ ∧
      Filling E m new t₃ (k ::ₘ elems) := by
  obtain ⟨info, t₁, t₂, hfind, hset, hslot, hfill⟩ := h.insert hroom k
  refine ⟨info, t₁, t₂, t₂.setSlot info.offset (some k), hfind, hset, if_pos ?_, hfill⟩
  have hst := hfill.placing.stored hfill.noDeleted
  have hlt := hst.shaped.lt_of_slotAt hslot
  obtain ⟨hctrl, hreach⟩ := hst.hashed _ hlt k hslot
  refine find_eq_some hst.shaped hst.constructed hctrl hslot hreach fun j _ hj => ?_
  exact slot_unique (hfill.contents ▸ hnodup) hlt (hst.shaped.lt_of_slotAt hj) hslot hj

theorem copyLoop_spec {m : Nat} {new : Table K} (ks : List K) {elems : Multiset K} (h : Filling E m new t elems)
    (hnodup : (elems + ks).Nodup) (hroom : elems.card + ks.length ≤ t.capacity) :
    ∃ t', copyLoop E ks t = some t' ∧ Filling E m new t' (elems + ks) := by
  induction ks generalizing t elems with
  | nil => exact ⟨t, rfl, by simpa using h⟩
  | cons k ks ih =>
    have hmove : elems + (k :: ks : List K) = k ::ₘ elems + (ks : Multiset K) := by
      rw [← Multiset.cons_coe, Multiset.add_cons, Multiset.cons_add]
    rw [List.length_cons] at hroom
    rw [hmove] at hnodup ⊢
    obtain ⟨info, t₁, t₂, t₃, hfind, hset, hemplace, hfill⟩ := h.emplace (k := k) (by omega) (Multiset.nodup_add.1 hnodup).1
    have hcap : t₃.capacity = t.capacity := hfill.header.capacity.trans h.header.capacity.symm
    obtain ⟨t', hloop, hfill'⟩ := ih hfill hnodup (by rw [Multiset.card_cons, hcap]; omega)
    refine ⟨t', ?_, hfill'⟩
    rw [copyLoop, hfind, Option.bind_eq_bind, Option.bind_some]
    simp only [hset, hemplace, Option.bind_eq_bind, Option.bind_some]
    exact hloop

/-- **The copy constructor** makes a table for the same set. -/
theorem copy_spec (h : Inv E n t S) (hcard : S.card < 2 ^ 58) (allocations draws : Nat) :
    ∃ m t', copy E t allocations draws = some t' ∧ Inv E m t' S := by
  obtain ⟨m, t₁, hreserve, hinv, hroom, hfresh⟩ := reserve_spec (inv_empty E allocations draws) hcard
  have hleft : t₁.growthLeft = growth E.group t₁.capacity := by
    rcases hfresh with rfl | hleft
    · simp [Table.empty, growth]
    · simpa using hleft
  obtain ⟨ks, hks, hmem⟩ := elements_spec h
  have hs := hinv.stored.shaped
  have hlen : ks.length = S.card := by
    rw [← Multiset.coe_card, hmem]
    rfl
  have hle := growth_le E.group t₁.capacity
  rw [Finset.card_empty] at hroom
  obtain ⟨t₂, hloop, hfill⟩ := copyLoop_spec ks (hinv.filling hleft) (by rw [Multiset.zero_add, hmem]; exact S.nodup)
    (by rw [Multiset.card_zero]; omega)
  rw [Multiset.zero_add, hmem] at hfill
  have hcap := hs.capacity
  have hpow := pow_lt_of_le hs.bound
  have hgrowth : sizeTSub t₂.growthLeft S.card = growth E.group t₁.capacity - S.card := by
    rw [hfill.header.growthLeft, hleft]
    exact sizeTSub_of_le (by omega) (by omega)
  have hst := hfill.placing.stored hfill.noDeleted
  refine ⟨m, { t₂ with size := t.size, growthLeft := growth E.group t₁.capacity - S.card }, ?_,
    ⟨⟨⟨hst.shaped.capacity, hst.shaped.bound, hst.shaped.mirrored, hst.shaped.slots⟩, hst.vacant, hst.hashed⟩,
      hfill.contents, h.size, ?_, fun _ => hfill.noDeleted⟩⟩
  · rw [copy, h.size, hreserve, Option.bind_eq_bind, Option.bind_some, hks, Option.bind_eq_bind, Option.bind_some, hloop,
      Option.bind_some, hgrowth]
  · have hused : used t₂ = S.card := by
      rw [hfill.placing.used_eq, hfill.contents]
      rfl
    show growth E.group t₁.capacity - S.card + used t₂ = growth E.group t₂.capacity
    rw [hused, hfill.header.capacity]
    omega

end

end LowLatency.RawHashSet
