import LowLatency.Disruptor.MultiProducer

/-!
# Shutdown: what `halt()` leaves unconsumed

`Disruptor::halt` clears every `running_` and joins the threads. It does not wait for the
processors to catch up, and `run()` looks at `running_` only between two batches. So a processor
that is inside its outer loop when the flag is cleared still finishes the batch, down to a cursor
at least as new as the one at the call of `halt()`; one that is not (not yet scheduled, or just back
at the outer test) leaves at once with whatever it has consumed so far.

`halt_drains_iff` is that alternative, for every interleaving. The part before the call of `halt()`
needs no history (`Quiet`); from the call on, `Stopping` follows each processor from the moment its
flag is cleared.
-/

namespace LowLatency.Disruptor

variable {R : RingSize} {m n : Nat}

/-- Each time `running_` of processor `c` was cleared: where it stood, and its `next_sequence_`. -/
def clearings (c : Fin n) (log : List (Ev m n)) : List (RunPC × Int) :=
  log.filterMap fun
    | .cleared c' pc q => if c' = c then some (pc, q) else none
    | _ => none

theorem clearings_snoc {c : Fin n} {log : List (Ev m n)} {e : Ev m n} (h : ∀ pc q, e ≠ .cleared c pc q) :
    clearings c (log ++ [e]) = clearings c log := by
  unfold clearings
  rw [filterMap_snoc]
  cases e with
  | cleared c' pc q =>
    have hne : c' ≠ c := fun hcc => h pc q (by rw [hcc])
    simp [hne]
  | _ => simp

theorem clearings_cleared (c : Fin n) (log : List (Ev m n)) (pc : RunPC) (q : Int) :
    clearings c (log ++ [.cleared c pc q]) = clearings c log ++ [(pc, q)] := by
  unfold clearings
  rw [filterMap_snoc]
  simp

/-! ## Before `halt()` is called -/

/-- No call of `halt()` has been made. -/
structure Quiet (ctl : Control) (log : List (Ev m n)) : Prop where
  op : ∀ i, ctl.op ≠ some (.notify i) ∧ ctl.op ≠ some (.join i)
  clearings : ∀ c, clearings c log = []

theorem Quiet.emit {ctl : Control} {log : List (Ev m n)} (h : Quiet ctl log) {e : Ev m n}
    (he : ∀ c pc q, e ≠ .cleared c pc q) : Quiet ctl (log ++ [e]) :=
  ⟨h.op, fun c => (clearings_snoc (he c)).trans (h.clearings c)⟩

theorem quiet_step {s s' : Sys R m n} {a : Act m n} (hs : Quiet s.control s.log) (ha : a ≠ .halt)
    (h : s.step a = some s') : Quiet s'.control s'.log := by
  have hop : ∀ ctl : Control, (∀ i, ctl.op ≠ some (.notify i) ∧ ctl.op ≠ some (.join i)) → Quiet ctl s.log :=
    fun ctl hctl => ⟨hctl, hs.clearings⟩
  cases step_some h with
  | next p data q hc hq => exact hs.emit (e := .claim p q) (by simp)
  | set p data q hc => exact hs.emit (e := .set p q data) (by simp)
  | publish p q hc => exact hs.emit (e := .publish p q) (by simp)
  | run c hpc hr => exact hs
  | leave c hpc hr => exact hs
  | enter c hpc hle => exact hs
  | drained c hpc hlt => exact hs
  | read c hpc => exact hs.emit (e := .read c _ _) (by simp)
  | incr c hpc => exact hs.emit (e := .consume c _) (by simp)
  | construct started hctl => exact hop _ (by simp)
  | start hctl => exact hop _ (by simp)
  | halt hctl => exact absurd rfl ha
  | attachProcessor c started hctl => exact hop _ (by simp)
  | attachProducer p started i hi hctl => exact hop _ (by simp)
  | constructed started i hctl => exact hop _ (by simp)
  | spawn started c hctl => exact hop _ (by simp)
  | started started i hi hctl => exact hop _ (by simp)
  | clear started c hctl => exact absurd (congrArg Control.op hctl) (hs.op c).1
  | notified started i hi hctl => exact absurd (congrArg Control.op hctl) (hs.op i).1
  | join started c hctl hl => exact absurd (congrArg Control.op hctl) (hs.op c).2
  | halted started i hi hctl => exact absurd (congrArg Control.op hctl) (hs.op i).2

theorem quiet_of_exec {acts : List (Act m n)} {s : Sys R m n} (hh : .halt ∉ acts)
    (h : Sys.exec R m n acts = some s) : Quiet s.control s.log := by
  have hm : Runs.Meets Sys.step (fun _ a => a ≠ Act.halt) (Sys.init R m n) acts :=
    Runs.meets_of_forall fun a ha hah => hh (hah ▸ ha)
  refine Runs.run_inv (fun s a s' => quiet_step) ?_ hm h
  exact ⟨fun _ => by simp [Sys.init], fun _ => rfl⟩

/-! ## After `halt()` is called -/

/-- A processor whose `running_` was cleared when it stood at `pc` with `next_sequence_ = q`; `k` is
the cursor at the call of `halt()`. -/
structure Stopped (k : Int) (pc : RunPC) (q : Int) (e : EventProcessor) : Prop where
  running : e.running = false
  batch : pc.inLoop = true → e.pc.inLoop = true ∨ k < e.nextSequence
  frozen : pc.inLoop = false → e.pc.inLoop = false ∧ e.nextSequence = q

/-- `halt()` still has to come to processor `c`. -/
def Pending (ctl : Control) (c : Fin n) : Prop := ∃ i, ctl.op = some (.notify i) ∧ i ≤ c

theorem pending_notify {started : Bool} {i : Nat} {c : Fin n} :
    Pending ⟨started, some (.notify i)⟩ c ↔ i ≤ c := by
  constructor
  · rintro ⟨j, hj, hle⟩
    obtain rfl : i = j := by simpa using hj
    exact hle
  · intro h
    exact ⟨i, rfl, h⟩

/-- Either `halt()` still has to come to the processor, or it has cleared its flag, once. -/
def Halting (k : Int) (ctl : Control) (log : List (Ev m n)) (c : Fin n) (e : EventProcessor) : Prop :=
  (Pending ctl c ∧ clearings c log = []) ∨
    (¬ Pending ctl c ∧ ∃ pc q, clearings c log = [(pc, q)] ∧ Stopped k pc q e)

/-- The state of a run from the call of `halt()` on. -/
structure Stopping (k : Int) (ctl : Control) (log : List (Ev m n)) (processors : Fin n → EventProcessor) :
    Prop where
  started : ctl.started = false
  op : ∀ i, ctl.op ≠ some (.start i)
  halting : ∀ c, Halting k ctl log c (processors c)

section
variable {k : Int} {ctl : Control} {log : List (Ev m n)} {processors : Fin n → EventProcessor} {c : Fin n}

theorem Stopping.emit (h : Stopping k ctl log processors) {e : Ev m n} (he : ∀ c pc q, e ≠ .cleared c pc q) :
    Stopping k ctl (log ++ [e]) processors := by
  refine ⟨h.started, h.op, ?_⟩
  intro c
  unfold Halting
  rw [clearings_snoc (he c)]
  exact h.halting c

/-- A thread takes a step that keeps `Stopped`. -/
theorem Stopping.update (h : Stopping k ctl log processors) {e : EventProcessor}
    (he : ∀ pc q, Stopped k pc q (processors c) → Stopped k pc q e) :
    Stopping k ctl log (Function.update processors c e) := by
  refine ⟨h.started, h.op, ?_⟩
  refine (Function.forall_update_iff processors fun c e => Halting k ctl log c e).2 ⟨?_, fun c' _ => h.halting c'⟩
  rcases h.halting c with hpend | ⟨hnp, pc, q, hcl, hst⟩
  · exact Or.inl hpend
  · exact Or.inr ⟨hnp, pc, q, hcl, he pc q hst⟩

/-- The control thread moves on without clearing a flag. -/
theorem Stopping.setControl (h : Stopping k ctl log processors) {op : Option Op}
    (hctl : ∀ c : Fin n, ¬ Pending ctl c) (hop : ∀ i, op ≠ some (.start i) ∧ op ≠ some (.notify i)) :
    Stopping k ⟨false, op⟩ log processors := by
  refine ⟨rfl, fun i => (hop i).1, ?_⟩
  intro c
  rcases h.halting c with ⟨hpend, -⟩ | ⟨-, hst⟩
  · exact absurd hpend (hctl c)
  · refine Or.inr ⟨?_, hst⟩
    rintro ⟨i, hi, -⟩
    exact (hop i).2 hi

/-- A thread stays inside the outer loop, or stays outside. -/
theorem Stopped.goto {pc pc' : RunPC} {q : Int} {e : EventProcessor} (h : Stopped k pc q e)
    (hpc : pc'.inLoop = e.pc.inLoop) : Stopped k pc q (e.goto pc') :=
  ⟨h.running, by simpa [hpc] using h.batch, by simpa [hpc] using h.frozen⟩

/-- A thread found inside the outer loop was there when its flag was cleared. -/
theorem Stopped.cleared_inLoop {pc : RunPC} {q : Int} {e : EventProcessor} (h : Stopped k pc q e)
    (he : e.pc.inLoop = true) : pc.inLoop = true := by
  by_contra hpc
  have := (h.frozen (Bool.eq_false_of_not_eq_true hpc)).1
  rw [he] at this
  cases this

end

theorem stopping_step {k : Int} {s s' : Sys R m n} {a : Act m n} (hs : Stopping k s.control s.log s.processors)
    (hcur : ∀ c, k ≤ s.cursorOf c) (hop : ∀ i, s.control.op ≠ some (.ctor i)) (hc : a ≠ .construct)
    (ha : a ≠ .start) (h : s.step a = some s') : Stopping k s'.control s'.log s'.processors := by
  cases step_some h with
  | next p data q hc hq => exact hs.emit (e := .claim p q) (by simp)
  | set p data q hc => exact hs.emit (e := .set p q data) (by simp)
  | publish p q hc => exact hs.emit (e := .publish p q) (by simp)
  | run c hpc hr =>
    -- a cleared flag is not set again
    exact hs.update fun pc q hst => absurd (hst.running.symm.trans hr) (by simp)
  | leave c hpc hr => exact hs.update fun pc q hst => hst.goto (by rw [hpc]; rfl)
  | enter c hpc hle => exact hs.update fun pc q hst => hst.goto (by rw [hpc]; rfl)
  | drained c hpc hlt =>
    -- the batch ends here, at a cursor not older than `k`
    refine hs.update fun pc q hst => ⟨hst.running, fun _ => Or.inr ?_, ?_⟩
    · exact Int.lt_of_le_of_lt (hcur c) hlt
    · simp [hst.cleared_inLoop (by rw [hpc]; rfl)]
  | read c hpc =>
    exact (hs.update fun pc q hst => hst.goto (by rw [hpc]; rfl)).emit (e := .read c _ _) (by simp)
  | incr c hpc =>
    have hup : Stopping k s.control s.log (Function.update s.processors c (s.processors c).advance) := by
      refine hs.update fun pc q hst => ⟨hst.running, fun _ => Or.inl rfl, ?_⟩
      simp [hst.cleared_inLoop (by rw [hpc]; rfl)]
    exact hup.emit (e := .consume c _) (by simp)
  | construct started hctl => exact absurd rfl hc
  | start hctl => exact absurd rfl ha
  | halt hctl => exact absurd (hs.started.symm.trans (congrArg Control.started hctl)) (by simp)
  | attachProcessor c started hctl => exact absurd (congrArg Control.op hctl) (hop c)
  | attachProducer p started i hi hctl => exact absurd (congrArg Control.op hctl) (hop i)
  | constructed started i hctl => exact absurd (congrArg Control.op hctl) (hop i)
  | spawn started c hctl => exact absurd (congrArg Control.op hctl) (hs.op c)
  | started started i hi hctl => exact absurd (congrArg Control.op hctl) (hs.op i)
  | clear started c hctl =>
    have hpend : ∀ c' : Fin n, Pending s.control c' ↔ c.val ≤ c'.val := by
      intro c'
      rw [hctl]
      exact pending_notify
    have hpend' : ∀ c' : Fin n, Pending ⟨false, some (.notify (c + 1))⟩ c' ↔ c.val < c'.val := fun c' =>
      pending_notify
    refine ⟨rfl, by simp, ?_⟩
    intro c'
    show Halting k ⟨false, some (.notify (c + 1))⟩ (s.log ++ [.cleared c _ _]) c'
      (Function.update s.processors c (s.processors c).halt c')
    unfold Halting
    rw [hpend']
    by_cases hcc : c' = c
    · subst hcc
      rcases hs.halting c' with ⟨-, hcl⟩ | ⟨hnp, -⟩
      · refine Or.inr ⟨Nat.lt_irrefl _, (s.processors c').pc, (s.processors c').nextSequence, ?_, ?_⟩
        · rw [clearings_cleared, hcl, List.nil_append]
        · rw [Function.update_self]
          exact ⟨rfl, Or.inl, fun hpc => ⟨hpc, rfl⟩⟩
      · exact absurd ((hpend c').2 (Nat.le_refl _)) hnp
    · rw [Function.update_of_ne hcc, clearings_snoc (by simp [Ne.symm hcc])]
      have hlt : c.val < c'.val ↔ c.val ≤ c'.val := by have := Fin.val_ne_of_ne hcc; omega
      rw [hlt, ← hpend c']
      exact hs.halting c'
  | notified started i hi hctl =>
    refine hs.setControl ?_ (by simp)
    intro c hpend
    rw [hctl, pending_notify] at hpend
    omega
  | join started c hctl hl =>
    have hup : Stopping k s.control s.log (Function.update s.processors c ((s.processors c).goto .none)) :=
      hs.update fun pc q hst => hst.goto (by rw [hl]; rfl)
    exact hup.setControl (by simp [Pending, hctl]) (by simp)
  | halted started i hi hctl =>
    exact (hs.setControl (by simp [Pending, hctl]) (by simp)).emit (e := .halted) (by simp)

/-- One step of the system with a single producer does not lower the cursor. -/
theorem solo_cursor_step {s s' : Sys R 1 n} {a : Act 1 n} (hs : Attached s ∧ Threads s ∧ Solo s.view)
    (ha : a ≠ .construct) (h : s.step a = some s') :
    (Attached s' ∧ Threads s' ∧ Solo s'.view) ∧ s.cursor ≤ s'.cursor := by
  obtain ⟨hatt, hthr, hsolo⟩ := hs
  obtain ⟨hatt', hv⟩ := step_view hatt hthr ha h
  exact ⟨⟨hatt', threads_step hthr h, solo_step hsolo hv⟩, cursor_le_step (hsolo.inOrder a) hv⟩

/-- From the call of `halt()` on, in a run that has no second `start()`. -/
theorem stopping_of_run {bs : List (Act 1 n)} {u s : Sys R 1 n} (hu : Attached u ∧ Threads u ∧ Solo u.view)
    (hq : Quiet u.control u.log) (hc : .construct ∉ bs) (hs : .start ∉ bs)
    (h : Runs.run Sys.step u (.halt :: bs) = some s) :
    (Attached s ∧ Threads s ∧ Solo s.view) ∧ Stopping u.cursor s.control s.log s.processors := by
  obtain ⟨w, hw, hrun⟩ := Runs.run_cons.1 h
  have hst0 : Stopping u.cursor w.control w.log w.processors := by
    cases step_some hw with
    | halt hctl =>
      refine Stopping.emit (e := .halt) ⟨rfl, by simp, ?_⟩ (by simp)
      intro c
      exact Or.inl ⟨⟨0, rfl, Nat.zero_le _⟩, hq.clearings c⟩
  have hm : Runs.Meets Sys.step (fun _ a => a ≠ Act.construct ∧ a ≠ Act.start) w bs :=
    Runs.meets_of_forall fun a ha => ⟨fun h => hc (h ▸ ha), fun h => hs (h ▸ ha)⟩
  have hinv := Runs.run_inv (I := fun w : Sys R 1 n => ((Attached w ∧ Threads w ∧ Solo w.view) ∧
    u.cursor ≤ w.cursor) ∧ Stopping u.cursor w.control w.log w.processors) ?_
    ⟨solo_cursor_step hu (by simp) hw, hst0⟩ hm hrun
  · exact ⟨hinv.1.1, hinv.2⟩
  · rintro s a s' ⟨⟨hI, hcur⟩, hst⟩ ⟨hnc, hns⟩ hs'
    obtain ⟨hI', hcur'⟩ := solo_cursor_step hI hnc hs'
    refine ⟨⟨hI', Int.le_trans hcur hcur'⟩, stopping_step hst ?_ hI.1.op hnc hns hs'⟩
    intro c
    rw [hI.1.cursorOf c]
    exact hcur

/-- What is published is not ahead of the cursor. -/
theorem Solo.publish_le {v : View R 1 n} (h : Solo v) {q : Int} (hq : q ∈ publishes v.log) :
    0 ≤ q ∧ q ≤ v.cursor := by
  rw [h.publish, mem_upto] at hq
  have hlast := h.last
  cases hcall : v.calls 0 <;> simp [hcall, OnData.publishUpto, OnData.sequence?] at hq hlast <;> omega

/-- **What `halt()` drains**: in a run with one `start()` and one later call of `halt()` that has
returned, each processor's `running_` was cleared once, and the processor has consumed every
sequence published before the call if and only if at that moment it was inside its outer loop or
had consumed them all already. -/
theorem halt_drains_iff {as bs : List (Act 1 n)} {u s : Sys R 1 n} (hc : .construct ∉ as ++ bs)
    (has : .halt ∉ as) (hbs : .start ∉ bs) (hu : Sys.exec R 1 n as = some u)
    (h : Runs.run Sys.step u (.halt :: bs) = some s) (hret : s.control.op = none) (c : Fin n) :
    ∃ pc next, clearings c s.log = [(pc, next)] ∧
      ((∀ q ∈ publishes u.log, q ∈ consumed c s.log) ↔
        pc.inLoop = true ∨ ∀ q ∈ publishes u.log, q < next) := by
  rw [List.mem_append, not_or] at hc
  have hI := solo_of_exec hc.1 hu
  obtain ⟨⟨-, hthr, hsolo⟩, hstop⟩ := stopping_of_run hI (quiet_of_exec has hu) hc.2 hbs h
  have hleft : (s.processors c).pc = .none := by
    refine hthr c ?_
    rw [show s.control = ⟨false, none⟩ from Control.mk.injEq .. ▸ ⟨hstop.started, hret⟩]
    rfl
  have hcons : ∀ q, q ∈ consumed c s.log ↔ 0 ≤ q ∧ q < (s.processors c).nextSequence := fun q => by
    rw [show consumed c s.log = _ from hsolo.consumed c, mem_upto]
    rfl
  rcases hstop.halting c with ⟨⟨i, hi, -⟩, -⟩ | ⟨-, pc, next, hcl, hst⟩
  · exact absurd (hret.symm.trans hi) (by simp)
  · refine ⟨pc, next, hcl, ?_, fun hor q hq => (hcons q).2 ?_⟩
    · intro hall
      cases hpc : pc.inLoop with
      | true => exact Or.inl rfl
      | false =>
        right
        intro q hq
        have := ((hcons q).1 (hall q hq)).2
        rwa [(hst.frozen hpc).2] at this
    · have hpub := hI.2.2.publish_le hq
      refine ⟨hpub.1, ?_⟩
      cases hpc : pc.inLoop with
      | true =>
        rcases hst.batch hpc with hin | hlt
        · rw [hleft] at hin
          cases hin
        · exact Int.lt_of_le_of_lt hpub.2 hlt
      | false =>
        rw [(hst.frozen hpc).2]
        rcases hor with hin | hlt
        · exact absurd (hpc.symm.trans hin) (by simp)
        · exact hlt q hq

/-- The thread, inside its loop when its flag is cleared, sees the loop test fail and leaves. -/
def haltAfterOneEvent : List (Act 1 1) := [.control, .control, .processor 0, .processor 0, .control, .control]

theorem halt_drains_oneEvent :
    ∃ u s, Sys.exec ring2 1 1 oneEvent = some u ∧
      Runs.run Sys.step u (.halt :: haltAfterOneEvent) = some s ∧ publishes u.log = [0] ∧
      ∀ q ∈ publishes u.log, q ∈ consumed 0 s.log := by
  obtain ⟨u, hu, hx⟩ := Option.map_eq_some_iff.1 (by decide : (Sys.exec ring2 1 1 oneEvent).map (fun u =>
    (publishes u.log, (Runs.run Sys.step u (.halt :: haltAfterOneEvent)).map fun s =>
      (s.control.op, clearings 0 s.log))) = some ([0], some (none, [(.inner, 1)])))
  rw [Prod.mk.injEq, Option.map_eq_some_iff] at hx
  obtain ⟨hpub, s, hs, hy⟩ := hx
  rw [Prod.mk.injEq] at hy
  obtain ⟨pc, next, hcl, hiff⟩ := halt_drains_iff (by decide) (by decide) (by decide) hu hs hy.1 0
  obtain ⟨rfl, rfl⟩ : RunPC.inner = pc ∧ 1 = next := by simpa [hy.2] using hcl
  exact ⟨u, s, hu, hs, hpub, hiff.2 (Or.inl rfl)⟩

/-- An event is published before the processor's thread gets to run, then `halt()` is called. -/
def haltBeforeRun : List (Act 1 1) × List (Act 1 1) :=
  ([.start, .control, .control, .next 0 [65], .set 0, .publish 0],
   [.control, .control, .processor 0, .control, .control])

/-- `halt()` returns and the event has not been consumed. -/
theorem haltBeforeRun_loses :
    ∃ u s, Sys.exec ring2 1 1 haltBeforeRun.1 = some u ∧
      Runs.run Sys.step u (.halt :: haltBeforeRun.2) = some s ∧ .halted ∈ s.log ∧ 0 ∈ publishes u.log ∧
      0 ∉ consumed 0 s.log := by
  obtain ⟨u, hu, hx⟩ := Option.map_eq_some_iff.1 (by decide : (Sys.exec ring2 1 1 haltBeforeRun.1).map (fun u =>
    (publishes u.log, (Runs.run Sys.step u (.halt :: haltBeforeRun.2)).map fun s =>
      (decide (.halted ∈ s.log), consumed 0 s.log))) = some ([0], some (true, [])))
  rw [Prod.mk.injEq, Option.map_eq_some_iff] at hx
  obtain ⟨hpub, s, hs, hy⟩ := hx
  rw [Prod.mk.injEq, decide_eq_true_eq] at hy
  exact ⟨u, s, hu, hs, hy.1, by simp [hpub], by simp [hy.2]⟩

end LowLatency.Disruptor
