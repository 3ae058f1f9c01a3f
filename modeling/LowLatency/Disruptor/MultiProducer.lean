import LowLatency.Disruptor.Accounting

/-!
# Several producers on one `Sequencer`

`claims_distinct_iff_in_order`: the sequences handed out over a run are pairwise distinct and the
cursor never decreases exactly when every `publish(sequence)` finds the cursor still at or below
`sequence`, i.e. when no other producer has claimed since. `publish` is a blind store, so two
overlapping `on_data` calls that publish out of order take the cursor back, and the next `next()`
hands out a sequence a second time (`overlap_claims_twice`).

`InRange` bounds every `long` of a run by the number of `next()` calls, for any number of
producers and any order: with fewer than `2^63` of them no `long` overflows, which is what lets
the model take `long` as `Int`.
-/

namespace LowLatency.Disruptor

variable {R : RingSize} {m n : Nat}

/-! ## Every `long` is bounded by the number of claims -/

/-- The number of `next()` calls so far. -/
def claimCount (log : List (Ev m n)) : Int := (claims log).length

theorem claimCount_snoc (log : List (Ev m n)) (e : Ev m n) :
    claimCount (log ++ [e]) = claimCount log + e.claimed?.toList.length := by
  simp [claimCount]

structure InRange (v : View R m n) : Prop where
  cursor : -1 ≤ v.cursor ∧ v.cursor < claimCount v.log
  held : ∀ p, ∀ q ∈ (v.calls p).sequence?, 0 ≤ q ∧ q < claimCount v.log
  next : ∀ c, 0 ≤ v.next c ∧ v.next c ≤ claimCount v.log
  body : ∀ c, v.phase c ≠ .outside → v.next c < claimCount v.log
  accesses : ∀ q ∈ accesses v.log, 0 ≤ q ∧ q < claimCount v.log

theorem inRange_init : InRange (Sys.init R m n).view where
  cursor := by simp [claimCount, claims]
  held := by simp [OnData.sequence?]
  next := by simp [claimCount]
  body := by simp
  accesses := by simp [accesses]

/-- Appending an event that claims nothing and accesses only sequences in range. -/
theorem InRange.emit {v : View R m n} (h : InRange v) {e : Ev m n} (he : e.claimed? = none)
    (ha : ∀ q ∈ e.access?, 0 ≤ q ∧ q < claimCount v.log) : InRange { v with log := v.log ++ [e] } := by
  have hcount : claimCount (v.log ++ [e]) = claimCount v.log := by simp [claimCount_snoc, he]
  refine ⟨hcount ▸ h.cursor, hcount ▸ h.held, hcount ▸ h.next, hcount ▸ h.body, ?_⟩
  simp only [hcount, accesses_snoc, List.mem_append, Option.mem_toList]
  rintro q (hq | hq)
  · exact h.accesses q hq
  · exact ha q hq

theorem InRange.setCall {v : View R m n} (h : InRange v) (p : Fin m) (call : OnData)
    (hc : ∀ q ∈ call.sequence?, 0 ≤ q ∧ q < claimCount v.log) :
    InRange { v with calls := Function.update v.calls p call } :=
  ⟨h.cursor, (Function.forall_update_iff v.calls fun _ call => ∀ q ∈ call.sequence?, 0 ≤ q ∧ q < claimCount v.log).2
    ⟨hc, fun p' _ => h.held p'⟩, h.next, h.body, h.accesses⟩

theorem InRange.setPhase {v : View R m n} (h : InRange v) (c : Fin n) (ph : Phase)
    (hc : ph ≠ .outside → v.next c < claimCount v.log) :
    InRange { v with phase := Function.update v.phase c ph } :=
  ⟨h.cursor, h.held, h.next, (Function.forall_update_iff v.phase fun c ph => ph ≠ .outside → v.next c < claimCount v.log).2
    ⟨hc, fun c' _ => h.body c'⟩, h.accesses⟩

theorem inRange_step {v v' : View R m n} {a : Act m n} (h : InRange v) (hs : View.Step v a v') : InRange v' := by
  cases hs with
  | next p data hc =>
    obtain ⟨⟨hl, hu⟩, hheld, hnext, hbody, hacc⟩ := h
    have hcount : claimCount (v.log ++ [.claim p (v.cursor + 1)]) = claimCount v.log + 1 := by
      simp [claimCount_snoc, Ev.claimed?]
    refine ⟨?_, ?_, ?_, ?_, ?_⟩ <;> simp only [hcount]
    · omega
    · refine (Function.forall_update_iff v.calls fun _ call =>
        ∀ q ∈ call.sequence?, 0 ≤ q ∧ q < claimCount v.log + 1).2 ⟨?_, ?_⟩
      · simp [OnData.sequence?]; omega
      · intro p' _ q hq
        have := hheld p' q hq; omega
    · intro c; have := hnext c; omega
    · intro c hc; have := hbody c hc; omega
    · intro q hq
      have := hacc q (by simpa [Ev.access?] using hq); omega
  | set p data q hc =>
    have hq := h.held p q (by simp [hc, OnData.sequence?])
    have h' := (h.setCall p (.written q) (by simpa [OnData.sequence?] using hq)).emit
      (e := .set p q data) rfl (by simpa [Ev.access?] using hq)
    exact ⟨h'.cursor, h'.held, h'.next, h'.body, h'.accesses⟩
  | publish p q hc =>
    have hq := h.held p q (by simp [hc, OnData.sequence?])
    have h' := (h.setCall p .idle (by simp [OnData.sequence?])).emit (e := .publish p q) rfl
      (by simp [Ev.access?])
    refine ⟨?_, h'.held, h'.next, h'.body, h'.accesses⟩
    simp only [claimCount_snoc, Ev.claimed?, Option.toList_none, List.length_nil]
    omega
  | enter c hc hle => exact h.setPhase c .body fun _ => by have := h.cursor; omega
  | read c hc =>
    have hb := h.body c (by simp [hc])
    exact (h.setPhase c .incr fun _ => hb).emit rfl
      (by simpa [Ev.access?] using ⟨(h.next c).1, hb⟩)
  | incr c hc =>
    have hb := h.body c (by simp [hc])
    have h' := (h.setPhase c .outside (by simp)).emit (e := .consume c (v.next c)) rfl (by simp [Ev.access?])
    have hcount : claimCount (v.log ++ [.consume c (v.next c)]) = claimCount v.log := by
      simp [claimCount_snoc, Ev.claimed?]
    refine ⟨h'.cursor, h'.held, ?_, ?_, h'.accesses⟩
    · simp only [hcount]
      exact (Function.forall_update_iff v.next fun _ k => 0 ≤ k ∧ k ≤ claimCount v.log).2
        ⟨by have := h.next c; omega, fun c' _ => h.next c'⟩
    · intro c' hp
      by_cases hcc : c' = c
      · subst hcc; simp at hp
      · simp only [ne_eq, hcc, not_false_eq_true, Function.update_of_ne, hcount] at hp ⊢
        exact h.body c' hp
  | quiet _ hsil => exact h
  | mark _ e hsil he =>
    obtain ⟨h1, -, -, -, h5⟩ := isControl_none he
    exact h.emit h1 (by simp [h5])

theorem inRange_of_exec {acts : List (Act m n)} {s : Sys R m n} (hc : .construct ∉ acts)
    (h : Sys.exec R m n acts = some s) : InRange s.view :=
  (view_inv (fun _ _ _ => inRange_step) inRange_init hc h).2.2

/-- With fewer than `2^63` calls of `next()`, no `long` leaves its range: neither the cursor, nor a
sequence handed to `RingBuffer::get`, nor a `next_sequence_`. -/
theorem long_in_range {acts : List (Act m n)} {s : Sys R m n} (hc : .construct ∉ acts)
    (h : Sys.exec R m n acts = some s) (hlt : claimCount s.log < 2 ^ 63) :
    (-1 ≤ s.cursor ∧ s.cursor < 2 ^ 63) ∧ (∀ q ∈ accesses s.log, 0 ≤ q ∧ q < 2 ^ 63) ∧
      ∀ c, 0 ≤ (s.processors c).nextSequence ∧ (s.processors c).nextSequence < 2 ^ 63 := by
  obtain ⟨⟨hl, hu⟩, -, hnext, -, hacc⟩ := inRange_of_exec hc h
  refine ⟨⟨hl, Int.lt_trans hu hlt⟩, ?_, ?_⟩
  · intro q hq
    exact ⟨(hacc q hq).1, Int.lt_trans (hacc q hq).2 hlt⟩
  · intro c
    exact ⟨(hnext c).1, Int.lt_of_le_of_lt (hnext c).2 hlt⟩

/-! ## Distinct claims -/

/-- `cursor()` never decreases: it is ordered the same way as any two points of the run. -/
def CursorNeverDecreases (R : RingSize) (m n : Nat) (acts : List (Act m n)) : Prop :=
  ∀ as bs cs u w, acts = as ++ bs ++ cs → Sys.exec R m n as = some u → Runs.run Sys.step u bs = some w →
    u.cursor ≤ w.cursor

/-- In order, the cursor only moves up. -/
theorem cursor_le_step {v v' : View R m n} {a : Act m n} (hg : InOrder v a) (hs : View.Step v a v') :
    v.cursor ≤ v'.cursor := by
  cases hs with
  | next p data hc => exact Int.le_add_one (Int.le_refl _)
  | publish p q hc => exact hg q (by simp [hc, OnData.sequence?])
  | _ => exact Int.le_refl _

theorem cursorNeverDecreases_of_inOrder {acts : List (Act m n)} (hc : .construct ∉ acts)
    (hm : RunMeets R m n InOrder acts) : CursorNeverDecreases R m n acts := by
  rintro as bs cs u w rfl hu hw
  have hc' : Act.construct ∉ as ∧ Act.construct ∉ bs := by
    simp only [List.mem_append, not_or] at hc; exact hc.1
  refine (Runs.run_inv (I := fun w => (Attached w ∧ Threads w) ∧ u.cursor ≤ w.cursor)
    (G := fun s a => a ≠ .construct ∧ InOrder s.view a) ?_ ⟨attached_of_exec hc'.1 hu, Int.le_refl _⟩ ?_ hw).2
  · rintro s a s' ⟨⟨hs, ht⟩, hle⟩ ⟨ha, hg⟩ hst
    obtain ⟨hs', hv⟩ := step_view hs ht ha hst
    exact ⟨⟨hs', threads_step ht hst⟩, Int.le_trans hle (cursor_le_step hg hv)⟩
  · refine Runs.meets_iff.2 fun bs₁ a bs₂ s hbs hs => ⟨?_, ?_⟩
    · rintro rfl
      exact hc'.2 (by simp [hbs])
    · exact Runs.meets_iff.1 hm (as ++ bs₁) a (bs₂ ++ cs) s (by simp [hbs]) (Runs.run_append.2 ⟨u, hu, hs⟩)

/-- **Claims of several producers**: over a whole run the claims are pairwise distinct and the cursor
never decreases, exactly when every `publish(sequence)` of the run is executed while the cursor has
not moved past `sequence`. -/
theorem claims_distinct_iff_in_order {acts : List (Act m n)} {s : Sys R m n} (hc : .construct ∉ acts)
    (h : Sys.exec R m n acts = some s) :
    ((claims s.log).Nodup ∧ CursorNeverDecreases R m n acts) ↔ RunMeets R m n InOrder acts := by
  constructor
  · rintro ⟨-, hmono⟩
    apply Runs.meets_iff.2
    intro as a bs u hacts hu
    subst hacts
    obtain ⟨u', hu', hrest⟩ := Runs.run_append.1 h
    obtain rfl : u' = u := Option.some.inj (hu'.symm.trans hu)
    obtain ⟨w, hw, -⟩ := Runs.run_cons.1 hrest
    cases a with
    | publish p =>
      intro q hq
      have hc' : Act.construct ∉ as := fun hmem => hc (by simp [hmem])
      obtain ⟨hatt, hthr⟩ := attached_of_exec hc' hu
      obtain ⟨q', hq', hcur⟩ := (step_view hatt hthr (by simp) hw).2.publish_cursor
      obtain rfl : q' = q := by simpa [hq', OnData.sequence?] using hq
      have := hmono as [.publish p] bs u' w (by simp) hu (Runs.run_cons.2 ⟨w, hw, rfl⟩)
      exact hcur ▸ this
    | _ => trivial
  · intro hm
    refine ⟨?_, cursorNeverDecreases_of_inOrder hc hm⟩
    have hA := (view_inv_of_meets (fun _ _ _ => acct_step) acct_init hc hm h).2.2
    rw [show claims s.log = _ from hA.claims]
    exact nodup_upto _

/-- Two producers that take turns. -/
def turns : List (Act 2 0) := [.next 0 [65], .set 0, .publish 0, .next 1 [66], .set 1, .publish 1]

theorem claims_distinct_turns :
    ∃ s, Sys.exec ring2 2 0 turns = some s ∧ (claims s.log).Nodup ∧ CursorNeverDecreases ring2 2 0 turns := by
  obtain ⟨s, hs⟩ := Option.isSome_iff_exists.1 (by decide : (Sys.exec ring2 2 0 turns).isSome = true)
  exact ⟨s, hs, (claims_distinct_iff_in_order (by decide) hs).2 (by decide)⟩

/-- Two overlapping calls: producer 1 claims after producer 0 and before its publish. -/
def overlap : List (Act 2 0) := [.next 0 [65], .next 1 [66], .set 0, .publish 0, .next 0 [67]]

/-- The publish of sequence 0 takes the cursor back from 1 to 0, and 1 is handed out again. -/
theorem overlap_claims_twice :
    ∃ s, Sys.exec ring2 2 0 overlap = some s ∧ claims s.log = [0, 1, 1] ∧
      ¬ CursorNeverDecreases ring2 2 0 overlap := by
  obtain ⟨s, hs, hcl⟩ := Option.map_eq_some_iff.1 (by decide :
    (Sys.exec ring2 2 0 overlap).map (fun s => claims s.log) = some [0, 1, 1])
  refine ⟨s, hs, hcl, ?_⟩
  intro hmono
  obtain ⟨u, hu, hcur⟩ := Option.map_eq_some_iff.1 (by decide : (Sys.exec ring2 2 0 (overlap.take 3)).map
    (fun u => (u.cursor, (u.step (.publish 0)).map Sys.cursor)) = some (1, some 0))
  rw [Prod.mk.injEq, Option.map_eq_some_iff] at hcur
  obtain ⟨hcu, w, hw, hcw⟩ := hcur
  have := hmono (overlap.take 3) [.publish 0] [.next 0 [67]] u w rfl hu (Runs.run_cons.2 ⟨w, hw, rfl⟩)
  omega

end LowLatency.Disruptor
