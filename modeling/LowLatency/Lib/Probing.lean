import Mathlib.Data.Multiset.Filter
import Mathlib.Data.Finset.Card
import Mathlib.Data.Finset.Range
import Mathlib.Data.Int.ModEq
import Mathlib.Data.Nat.Find

/-!
# Linear probing in a cyclic table

A table of `N` slots is a function `f : ℕ → Option α`, read below `N` only; the probe sequence from
slot `i` is `i, i + 1, …` modulo `N`. Nothing here knows how an entry's home slot is computed.

* `Run N f i d`: the first `d` slots probed from `i` are occupied. Such a run is never longer than
  the number of entries (`Run.le_card`), so with fewer entries than slots there is a first empty
  slot (`exists_empty`).
* `Linked N home f`: each entry is reached from its home by a run. Writing an entry to the first
  empty slot from its home keeps this (`Linked.insert`), and every entry is found after fewer probes
  than there are entries (`Linked.find`).
-/

namespace Probing

variable {α : Type*} {N : Nat} {f : Nat → Option α}

/-! ## The probe sequence -/

/-- The slot probed after `d` steps from slot `i`. -/
def probe (N i d : Nat) : Nat := (i + d) % N

theorem probe_lt (hN : 0 < N) (i d : Nat) : probe N i d < N := Nat.mod_lt _ hN

theorem probe_zero {i : Nat} (hi : i < N) : probe N i 0 = i := Nat.mod_eq_of_lt hi

/-- One step, then `d` more. -/
theorem probe_next (i d : Nat) : probe N ((i + 1) % N) d = probe N i (d + 1) := by
  unfold probe
  rw [Nat.mod_add_mod, Nat.add_assoc, Nat.add_comm 1 d]

/-- The slots probed are the first one and those probed from the next. -/
theorem map_probe_succ {i : Nat} (hi : i < N) (d : Nat) :
    (List.range (d + 1)).map (probe N i) = i :: (List.range d).map (probe N ((i + 1) % N)) := by
  rw [List.range_succ_eq_map, List.map_cons, List.map_map, probe_zero hi]
  congr 1
  refine List.map_congr_left ?_
  intro e _
  exact (probe_next i e).symm

/-- The first `N` slots probed are distinct. -/
theorem probe_inj {i d e : Nat} (hd : d < N) (he : e < N) (h : probe N i d = probe N i e) : d = e := by
  have hmod : Nat.ModEq N d e := Nat.ModEq.add_left_cancel' i h
  exact hmod.eq_of_lt_of_lt hd he

/-! ## Entries -/

/-- The entries of the table, with multiplicity. -/
def contents (N : Nat) (f : Nat → Option α) : Multiset α := (Multiset.range N).filterMap f

theorem mem_contents {a : α} : a ∈ contents N f ↔ ∃ i < N, f i = some a := by
  simp [contents, Multiset.mem_filterMap]

theorem contents_none (N : Nat) : contents N (fun _ => (none : Option α)) = 0 := by
  rw [Multiset.eq_zero_iff_forall_notMem]
  intro a ha
  obtain ⟨i, -, hi⟩ := mem_contents.1 ha
  cases hi

theorem contents_succ (N : Nat) (f : Nat → Option α) :
    contents (N + 1) f = ((f N).map singleton).getD 0 + contents N f := by
  rw [contents, Multiset.range_succ, Multiset.filterMap_cons]
  rfl

theorem contents_congr {g : Nat → Option α} (h : ∀ i < N, f i = g i) : contents N f = contents N g := by
  induction N with
  | zero => rfl
  | succ N ih =>
    rw [contents_succ, contents_succ, h N (Nat.lt_succ_self N), ih fun i hi => h i (Nat.lt_succ_of_lt hi)]

/-- Filling an empty slot adds one entry. -/
theorem contents_update {i : Nat} (hi : i < N) (hf : f i = none) (a : α) :
    contents N (Function.update f i (some a)) = a ::ₘ contents N f := by
  induction N with
  | zero => exact absurd hi (Nat.not_lt_zero i)
  | succ N ih =>
    rw [contents_succ, contents_succ]
    rcases Nat.lt_succ_iff_lt_or_eq.1 hi with hlt | rfl
    · rw [Function.update_of_ne (Nat.ne_of_gt hlt), ih hlt, Multiset.add_cons]
    · have hrest : contents i (Function.update f i (some a)) = contents i f :=
        contents_congr fun j hj => Function.update_of_ne (Nat.ne_of_lt hj) _ _
      rw [Function.update_self, hrest, hf]
      simp

/-- Emptying a slot takes its entry away. -/
theorem contents_remove {i : Nat} (hi : i < N) {a : α} (hf : f i = some a) :
    contents N f = a ::ₘ contents N (Function.update f i none) := by
  have hback : Function.update (Function.update f i none) i (some a) = f := by
    rw [Function.update_idem, ← hf, Function.update_eq_self]
  rw [← contents_update hi (Function.update_self i none f) a, hback]

/-- Entries that do not repeat are in one slot each. -/
theorem slot_unique (hnodup : (contents N f).Nodup) {i j : Nat} (hi : i < N) (hj : j < N) {a : α} (hfi : f i = some a)
    (hfj : f j = some a) : j = i := by
  by_contra hne
  rw [contents_remove hi hfi, Multiset.nodup_cons] at hnodup
  exact hnodup.1 (mem_contents.2 ⟨j, hj, by rw [Function.update_of_ne hne, hfj]⟩)

theorem card_contents_mono {M : Nat} (h : M ≤ N) : (contents M f).card ≤ (contents N f).card := by
  induction N with
  | zero => rw [Nat.le_zero.1 h]
  | succ N ih =>
    rcases Nat.lt_or_eq_of_le h with hlt | rfl
    · rw [contents_succ, Multiset.card_add]
      exact Nat.le_trans (ih (Nat.le_of_lt_succ hlt)) (Nat.le_add_left _ _)
    · exact Nat.le_refl _

/-- The number of entries is the number of occupied slots. -/
theorem card_contents (N : Nat) (f : Nat → Option α) :
    (contents N f).card = ((Finset.range N).filter fun i => (f i).isSome = true).card := by
  induction N with
  | zero => rfl
  | succ N ih =>
    rw [contents_succ, Multiset.card_add, ih, Finset.range_add_one, Finset.filter_insert]
    cases h : f N with
    | none => simp
    | some a => simp [Nat.add_comm]

/-! ## Runs of occupied slots -/

/-- The first `d` slots probed from `i` are occupied. -/
def Run (N : Nat) (f : Nat → Option α) (i d : Nat) : Prop := ∀ k < d, (f (probe N i k)).isSome = true

theorem run_zero (i : Nat) : Run N f i 0 := fun _ hk => absurd hk (Nat.not_lt_zero _)

theorem run_snoc {i d : Nat} : Run N f i (d + 1) ↔ Run N f i d ∧ (f (probe N i d)).isSome = true :=
  Nat.forall_lt_succ_right

/-- A run is its first slot and the run from the next one. -/
theorem run_next {i d : Nat} (hi : i < N) :
    Run N f i (d + 1) ↔ (f i).isSome = true ∧ Run N f ((i + 1) % N) d := by
  unfold Run
  rw [Nat.forall_lt_succ_left, probe_zero hi]
  simp only [probe_next]

theorem Run.update {i d : Nat} (h : Run N f i d) (j : Nat) (a : α) : Run N (Function.update f j (some a)) i d := by
  intro k hk
  by_cases hj : probe N i k = j
  · rw [hj, Function.update_self]
    rfl
  · rw [Function.update_of_ne hj]
    exact h k hk

/-- A run that does not wrap onto itself is at most as long as the number of entries: its slots are
distinct and all occupied. -/
theorem Run.le_card {i d : Nat} (h : Run N f i d) (hd : d ≤ N) : d ≤ (contents N f).card := by
  rw [card_contents]
  have hmaps : ∀ k ∈ Finset.range d, probe N i k ∈ (Finset.range N).filter fun j => (f j).isSome = true := by
    intro k hk
    have hk' := Finset.mem_range.1 hk
    exact Finset.mem_filter.2 ⟨Finset.mem_range.2 (probe_lt (by omega) i k), h k hk'⟩
  have hinj : ∀ k ∈ Finset.range d, ∀ l ∈ Finset.range d, probe N i k = probe N i l → k = l := by
    intro k hk l hl hkl
    have hk' := Finset.mem_range.1 hk
    have hl' := Finset.mem_range.1 hl
    exact probe_inj (by omega) (by omega) hkl
  simpa using Finset.card_le_card_of_injOn (probe N i) hmaps hinj

/-- With fewer entries than slots, probing reaches an empty slot, past at most all entries. -/
theorem exists_empty (h : (contents N f).card < N) (i : Nat) :
    ∃ d ≤ (contents N f).card, f (probe N i d) = none ∧ Run N f i d := by
  classical
  have hex : ∃ d, f (probe N i d) = none := by
    by_contra hno
    have hrun : Run N f i N := by
      intro k _
      rw [Option.isSome_iff_ne_none]
      exact fun hk => hno ⟨k, hk⟩
    have := hrun.le_card (Nat.le_refl N)
    omega
  have hrun : Run N f i (Nat.find hex) := by
    intro k hk
    rw [Option.isSome_iff_ne_none]
    exact Nat.find_min hex hk
  have hle : ¬ N < Nat.find hex := by
    intro hlt
    have hN : Run N f i N := fun k hk => hrun k (Nat.lt_trans hk hlt)
    have := hN.le_card (Nat.le_refl N)
    omega
  exact ⟨Nat.find hex, hrun.le_card (Nat.le_of_not_lt hle), Nat.find_spec hex, hrun⟩

/-! ## The probing invariant -/

/-- Every entry is reached from its home by a run of occupied slots. -/
def Linked (N : Nat) (home : α → Nat) (f : Nat → Option α) : Prop :=
  ∀ i < N, ∀ a, f i = some a → ∃ d < N, probe N (home a) d = i ∧ Run N f (home a) d

theorem linked_empty (home : α → Nat) : Linked N home fun _ => none := fun _ _ _ h => by cases h

/-- **Insertion** at the first empty slot from the entry's home. -/
theorem Linked.insert {home : α → Nat} (h : Linked N home f) {a : α} {d : Nat} (hd : d < N)
    (hrun : Run N f (home a) d) : Linked N home (Function.update f (probe N (home a) d) (some a)) := by
  intro i hi b hb
  by_cases hij : i = probe N (home a) d
  · subst hij
    rw [Function.update_self] at hb
    obtain rfl : a = b := Option.some.inj hb
    exact ⟨d, hd, rfl, hrun.update _ _⟩
  · rw [Function.update_of_ne hij] at hb
    obtain ⟨e, he, hprobe, hrun'⟩ := h i hi b hb
    exact ⟨e, he, hprobe, hrun'.update _ _⟩

/-- **Search**: an entry is found from its home after fewer probes than there are entries. -/
theorem Linked.find {home : α → Nat} (h : Linked N home f) {a : α} (ha : a ∈ contents N f) :
    ∃ d < (contents N f).card, f (probe N (home a) d) = some a ∧ Run N f (home a) d := by
  obtain ⟨i, hi, hfi⟩ := mem_contents.1 ha
  obtain ⟨d, hd, rfl, hrun⟩ := h i hi a hfi
  have hrun' : Run N f (home a) (d + 1) := run_snoc.2 ⟨hrun, by rw [hfi]; rfl⟩
  exact ⟨d, hrun'.le_card hd, hfi, hrun⟩

end Probing
