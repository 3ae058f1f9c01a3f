import LowLatency.Disruptor.Protocol

/-!
# Sequence accounting: what `next()` hands out and what processors consume

`next()` increments the cursor atomically, but `publish(sequence)` stores an older value blindly.
`Acct` is the bookkeeping that holds as long as no `publish` lowers the cursor (`InOrder`): the
claims so far are `0, 1, …, cursor`, and each processor has consumed exactly the sequences below
its `next_sequence_`, which never passes the cursor. With a single producer every `publish` is in
order (`Solo`), so `Acct` holds in every state. With two producers the order of the claims and
the publishes decides, and `claims_distinct_iff_in_order` says exactly how.
-/

namespace LowLatency.Disruptor

variable {R : RingSize} {m n : Nat}

/-- The sequence a call of `on_data` holds between `next()` and `publish`. -/
def OnData.sequence? : OnData → Option Int
  | .idle => none
  | .claimed _ q => some q
  | .written q => some q

/-- A `publish` is in order if it does not lower the cursor. -/
def InOrder (v : View R m n) : Act m n → Prop
  | .publish p => ∀ q ∈ (v.calls p).sequence?, v.cursor ≤ q
  | _ => True

instance (v : View R m n) : ∀ a : Act m n, Decidable (InOrder v a)
  | .publish p => inferInstanceAs (Decidable (∀ q ∈ (v.calls p).sequence?, v.cursor ≤ q))
  | .next _ _ | .set _ | .processor _ | .construct | .start | .halt | .control => .isTrue trivial

/-- The bookkeeping of sequences. -/
structure Acct (v : View R m n) : Prop where
  low : -1 ≤ v.cursor
  claims : claims v.log = upto (v.cursor + 1)
  held : ∀ p, ∀ q ∈ (v.calls p).sequence?, 0 ≤ q ∧ q ≤ v.cursor
  next : ∀ c, 0 ≤ v.next c ∧ v.next c ≤ v.cursor + 1
  body : ∀ c, v.phase c ≠ .outside → v.next c ≤ v.cursor
  consumed : ∀ c, consumed c v.log = upto (v.next c)

theorem acct_init : Acct (Sys.init R m n).view where
  low := by simp
  claims := rfl
  held := by simp [OnData.sequence?]
  next := by simp
  body := by simp
  consumed := fun _ => rfl

/-- A call that moves on with the sequence it holds, or with none, stays in range. -/
theorem held_update {v : View R m n} {p : Fin m} {call : OnData} {k : Int}
    (hv : ∀ p, ∀ q ∈ (v.calls p).sequence?, 0 ≤ q ∧ q ≤ k) (hc : ∀ q ∈ call.sequence?, 0 ≤ q ∧ q ≤ k)
    (p' : Fin m) : ∀ q ∈ (Function.update v.calls p call p').sequence?, 0 ≤ q ∧ q ≤ k :=
  (Function.forall_update_iff v.calls fun _ call => ∀ q ∈ call.sequence?, 0 ≤ q ∧ q ≤ k).2
    ⟨hc, fun p' _ => hv p'⟩ p'

theorem acct_step {v v' : View R m n} {a : Act m n} (h : Acct v) (hg : InOrder v a) (hs : View.Step v a v') :
    Acct v' := by
  obtain ⟨hlow, hcl, hheld, hnext, hbody, hcons⟩ := h
  cases hs with
  | next p data hc =>
    refine ⟨by dsimp; omega, ?_, ?_, ?_, ?_, ?_⟩
    · rw [claims_snoc, hcl]
      exact (upto_succ (by omega)).symm
    · refine held_update (k := v.cursor + 1) ?_ ?_
      · intro p q hq
        have := hheld p q hq; omega
      · simp [OnData.sequence?]; omega
    · intro c
      have := hnext c; dsimp; omega
    · intro c hp
      have := hbody c hp; dsimp; omega
    · intro c
      simpa [Ev.consumed?] using hcons c
  | set p data q hc =>
    have hq := hheld p q (by simp [hc, OnData.sequence?])
    refine ⟨hlow, by simpa [Ev.claimed?] using hcl, held_update hheld ?_, hnext, hbody, ?_⟩
    · simpa [OnData.sequence?] using hq
    · intro c
      simpa [Ev.consumed?] using hcons c
  | publish p q hc =>
    -- the cursor is already at `q`: it is not below, and a held sequence is never above it
    have hle : v.cursor ≤ q := hg q (by simp [hc, OnData.sequence?])
    have hq := hheld p q (by simp [hc, OnData.sequence?])
    obtain rfl : q = v.cursor := by omega
    refine ⟨hlow, by simpa [Ev.claimed?] using hcl, held_update hheld (by simp [OnData.sequence?]), hnext, hbody,
      ?_⟩
    intro c
    simpa [Ev.consumed?] using hcons c
  | enter c hc hle =>
    refine ⟨hlow, hcl, hheld, hnext, ?_, hcons⟩
    exact (Function.forall_update_iff v.phase fun c ph => ph ≠ .outside → v.next c ≤ v.cursor).2
      ⟨fun _ => hle, fun c' _ => hbody c'⟩
  | read c hc =>
    have hle := hbody c (by simp [hc])
    refine ⟨hlow, by simpa [Ev.claimed?] using hcl, hheld, hnext, ?_, ?_⟩
    · exact (Function.forall_update_iff v.phase fun c ph => ph ≠ .outside → v.next c ≤ v.cursor).2
        ⟨fun _ => hle, fun c' _ => hbody c'⟩
    · intro c'
      simpa [Ev.consumed?] using hcons c'
  | incr c hc =>
    have hle := hbody c (by simp [hc])
    have hn := hnext c
    refine ⟨hlow, by simpa [Ev.claimed?] using hcl, hheld, ?_, ?_, ?_⟩
    · exact (Function.forall_update_iff v.next fun _ k => 0 ≤ k ∧ k ≤ v.cursor + 1).2
        ⟨by omega, fun c' _ => hnext c'⟩
    · intro c' hp
      by_cases hcc : c' = c
      · subst hcc; simp at hp
      · simp only [ne_eq, hcc, not_false_eq_true, Function.update_of_ne] at hp ⊢
        exact hbody c' hp
    · intro c'
      by_cases hcc : c' = c
      · subst hcc
        simp [Ev.consumed?, hcons, upto_succ hn.1]
      · simp [Ev.consumed?, hcons, hcc, Ne.symm hcc]
  | quiet _ hsil => exact ⟨hlow, hcl, hheld, hnext, hbody, hcons⟩
  | mark _ e hsil he =>
    obtain ⟨h1, -, -, h4, -⟩ := isControl_none he
    exact ⟨hlow, by simpa [h1] using hcl, hheld, hnext, hbody, fun c => by simpa [h4 c] using hcons c⟩

/-! ## One producer -/

/-- How far the events are written: the claimed sequence is the only one still missing. -/
def OnData.setUpto (cursor : Int) : OnData → Int
  | .claimed _ q => q
  | _ => cursor + 1

/-- How far the events are published. -/
def OnData.publishUpto (cursor : Int) : OnData → Int
  | .idle => cursor + 1
  | .claimed _ q => q
  | .written q => q

/-- The bookkeeping with a single producer: the call in progress holds the last claim. -/
structure Solo (v : View R 1 n) : Prop extends Acct v where
  last : ∀ q ∈ (v.calls 0).sequence?, q = v.cursor
  set : setSeqs v.log = upto ((v.calls 0).setUpto v.cursor)
  publish : publishes v.log = upto ((v.calls 0).publishUpto v.cursor)

theorem solo_init : Solo (Sys.init R 1 n).view where
  toAcct := acct_init
  last := by simp [OnData.sequence?]
  set := rfl
  publish := rfl

/-- A single producer always publishes its last claim, which is the cursor. -/
theorem Solo.inOrder {v : View R 1 n} (h : Solo v) (a : Act 1 n) : InOrder v a := by
  cases a with
  | publish p =>
    rw [Subsingleton.elim p 0]
    exact fun q hq => Int.le_of_eq (h.last q hq).symm
  | _ => trivial

theorem solo_step {v v' : View R 1 n} {a : Act 1 n} (h : Solo v) (hs : View.Step v a v') : Solo v' := by
  have hA := acct_step h.toAcct (h.inOrder a) hs
  obtain ⟨⟨-, -, hheld, -, -, -⟩, hlast, hset, hpub⟩ := h
  cases hs with
  | next p data hc =>
    obtain rfl : p = 0 := Subsingleton.elim p 0
    refine ⟨hA, by simp [OnData.sequence?], ?_, ?_⟩
    · simpa [Ev.set?, hc, OnData.setUpto] using hset
    · simpa [Ev.published?, hc, OnData.publishUpto] using hpub
  | set p data q hc =>
    obtain rfl : p = 0 := Subsingleton.elim p 0
    obtain rfl : q = v.cursor := hlast q (by simp [hc, OnData.sequence?])
    have hq := hheld 0 v.cursor (by simp [hc, OnData.sequence?])
    refine ⟨hA, by simp [OnData.sequence?], ?_, ?_⟩
    · simp [Ev.set?, hset, hc, OnData.setUpto, upto_succ hq.1]
    · simpa [Ev.published?, hc, OnData.publishUpto] using hpub
  | publish p q hc =>
    obtain rfl : p = 0 := Subsingleton.elim p 0
    obtain rfl : q = v.cursor := hlast q (by simp [hc, OnData.sequence?])
    have hq := hheld 0 v.cursor (by simp [hc, OnData.sequence?])
    refine ⟨hA, by simp [OnData.sequence?], ?_, ?_⟩
    · simpa [Ev.set?, hc, OnData.setUpto] using hset
    · simp [Ev.published?, hpub, hc, OnData.publishUpto, upto_succ hq.1]
  | enter c hc hle => exact ⟨hA, hlast, hset, hpub⟩
  | read c hc => exact ⟨hA, hlast, by simpa [Ev.set?] using hset, by simpa [Ev.published?] using hpub⟩
  | incr c hc => exact ⟨hA, hlast, by simpa [Ev.set?] using hset, by simpa [Ev.published?] using hpub⟩
  | quiet _ hsil => exact ⟨hA, hlast, hset, hpub⟩
  | mark _ e hsil he =>
    obtain ⟨-, h2, h3, -, -⟩ := isControl_none he
    exact ⟨hA, hlast, by simpa [h2] using hset, by simpa [h3] using hpub⟩

theorem solo_of_exec {acts : List (Act 1 n)} {s : Sys R 1 n} (hc : .construct ∉ acts)
    (h : Sys.exec R 1 n acts = some s) : Attached s ∧ Threads s ∧ Solo s.view :=
  view_inv (fun _ _ _ => solo_step) solo_init hc h

/-- **Accounting with a single producer**, in every reachable state: the `k`-th `next()` returned
`k`, the cursor is the number of `next()` calls minus one and `publish` leaves it, and every
processor has consumed exactly `0, …, next_sequence_ - 1` in order and stays at most one past the
cursor, at the cursor at most while in the loop body. -/
theorem single_producer_accounting {acts : List (Act 1 n)} {s : Sys R 1 n} (hc : .construct ∉ acts)
    (h : Sys.exec R 1 n acts = some s) :
    (∀ (k : Nat) q, (claims s.log)[k]? = some q → q = k) ∧
    s.cursor = (claims s.log).length - 1 ∧
    (∀ p s', s.step (.publish p) = some s' → s'.cursor = s.cursor) ∧
    ∀ c, consumed c s.log = upto (s.processors c).nextSequence ∧ 0 ≤ (s.processors c).nextSequence ∧
      (s.processors c).nextSequence ≤ s.cursorOf c + 1 ∧
      ((s.processors c).pc.inBody = true → (s.processors c).nextSequence ≤ s.cursorOf c) := by
  obtain ⟨hatt, hthr, hsolo⟩ := solo_of_exec hc h
  refine ⟨?_, ?_, ?_, ?_⟩
  · intro k q hk
    rw [show claims s.log = _ from hsolo.claims] at hk
    exact eq_of_getElem?_upto hk
  · have hlen := congrArg List.length hsolo.claims
    have hlow := hsolo.low
    rw [length_upto] at hlen
    show s.view.cursor = ((claims s.view.log).length : Int) - 1
    omega
  · intro p s' hs
    obtain rfl : p = 0 := Subsingleton.elim p 0
    obtain ⟨q, hq, hcur⟩ := (step_view hatt hthr (by simp) hs).2.publish_cursor
    exact hcur.trans (hsolo.last q (by simp [hq, OnData.sequence?]))
  · intro c
    rw [hatt.cursorOf c]
    exact ⟨hsolo.consumed c, (hsolo.next c).1, (hsolo.next c).2, fun hb => hsolo.body c (phase_of_inBody hb)⟩

/-- Ring size for the concrete runs. -/
def ring2 : RingSize := ⟨2, by decide, by decide, by decide⟩

/-- One processor is started, one event is published and consumed. -/
def oneEvent : List (Act 1 1) :=
  [.start, .control, .control, .next 0 [65], .set 0, .publish 0, .processor 0, .processor 0, .processor 0,
   .processor 0]

theorem single_producer_accounting_oneEvent :
    ∃ s, Sys.exec ring2 1 1 oneEvent = some s ∧ s.cursor = 0 ∧ consumed 0 s.log = [0] := by
  obtain ⟨s, hs, hrun⟩ := Option.map_eq_some_iff.1 (by decide : (Sys.exec ring2 1 1 oneEvent).map
    (fun s => ((claims s.log).length, (s.processors 0).nextSequence)) = some (1, 1))
  rw [Prod.mk.injEq] at hrun
  obtain ⟨-, hcur, -, hproc⟩ := single_producer_accounting (by decide) hs
  refine ⟨s, hs, by rw [hcur, hrun.1]; rfl, ?_⟩
  rw [(hproc 0).1, hrun.2]; rfl

end LowLatency.Disruptor
