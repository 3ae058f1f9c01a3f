import LowLatency.Disruptor.Shutdown
import LowLatency.Lib.Fairness

/-!
# Every event arrives

A processor polls the cursor and never waits for anybody. As long as nobody calls `halt()` and no new Disruptor
is constructed, its thread stays in its loops (`Unhalted`), only its own turns move it, and with one producer the
cursor never goes back. So it comes past every published sequence, if its turn comes again and again, whatever the
producer and the other processors do in the meantime (`eventually_consumed`).
-/

namespace LowLatency.Disruptor

open Fairness

variable {R : RingSize} {m n : Nat}

/-! ## Before `halt()` -/

/-- No flag has been cleared, no thread has left `run()`, and `halt()` is not in progress. -/
structure Unhalted (s : Sys R m n) : Prop where
  running : ∀ c, (s.processors c).running = true ∧ (s.processors c).pc ≠ .left
  op : ∀ i, s.control.op ≠ some (.notify i) ∧ s.control.op ≠ some (.join i)

theorem unhalted_init : Unhalted (Sys.init R m n) := ⟨fun _ => ⟨rfl, nofun⟩, fun _ => ⟨nofun, nofun⟩⟩

section
variable {s s' : Sys R m n} {a : Act m n}

theorem Unhalted.setProcessor (hs : Unhalted s) {c : Fin n} {e : EventProcessor} (he : e.running = (s.processors c).running)
    (hpc : e.pc ≠ .left) : Unhalted (s.setProcessor c e) :=
  ⟨forall_processors (P := fun _ e => e.running = true ∧ e.pc ≠ .left) ⟨he.trans (hs.running c).1, hpc⟩
    fun c' _ => hs.running c', hs.op⟩

theorem Unhalted.setControl (hs : Unhalted s) {ctl : Control} (h : ∀ i, ctl.op ≠ some (.notify i) ∧ ctl.op ≠ some (.join i)) :
    Unhalted (s.setControl ctl) := ⟨hs.running, h⟩

theorem unhalted_step (hs : Unhalted s) (ha : a ≠ .halt) (h : s.step a = some s') : Unhalted s' := by
  cases step_some h with
  | next p data q hc hq => exact ⟨hs.running, hs.op⟩
  | set p data q hc => exact ⟨hs.running, hs.op⟩
  | publish p q hc => exact ⟨hs.running, hs.op⟩
  | run c hpc hr => exact hs.setProcessor rfl (by simp)
  | leave c hpc hr =>
    rw [(hs.running c).1] at hr
    cases hr
  | enter c hpc hle => exact hs.setProcessor rfl (by simp)
  | drained c hpc hlt => exact hs.setProcessor rfl (by simp)
  | read c hpc =>
    have hs' := hs.setProcessor (c := c) (e := (s.processors c).goto .incr) rfl (by simp)
    exact ⟨hs'.running, hs'.op⟩
  | incr c hpc =>
    have hs' := hs.setProcessor (c := c) (e := (s.processors c).advance) rfl (by simp)
    exact ⟨hs'.running, hs'.op⟩
  | construct started hctl => exact ⟨hs.running, fun _ => ⟨nofun, nofun⟩⟩
  | start hctl => exact hs.setControl fun _ => ⟨nofun, nofun⟩
  | halt hctl => exact absurd rfl ha
  | attachProcessor c started hctl =>
    have hs' := hs.setProcessor (c := c) (e := (s.processors c).setSequencer (s.fresh - 1)) rfl (hs.running c).2
    exact hs'.setControl fun _ => ⟨nofun, nofun⟩
  | attachProducer p started i hi hctl => exact ⟨hs.running, fun _ => ⟨nofun, nofun⟩⟩
  | constructed started i hctl => exact hs.setControl fun _ => ⟨nofun, nofun⟩
  | spawn started c hctl =>
    have hs' := hs.setProcessor (c := c) (e := (s.processors c).goto .outer) rfl (by simp)
    exact hs'.setControl fun _ => ⟨nofun, nofun⟩
  | started started i hi hctl => exact hs.setControl fun _ => ⟨nofun, nofun⟩
  | clear started c hctl => exact absurd (by rw [hctl]) (hs.op c).1
  | notified started i hi hctl => exact absurd (by rw [hctl]) (hs.op i).1
  | join started c hctl hl => exact absurd (by rw [hctl]) (hs.op c).2
  | halted started i hi hctl => exact absurd (by rw [hctl]) (hs.op i).2

/-- A thread that exists is moved by its own turns only. -/
theorem processor_of_ne (hs : Unhalted s) (hatt : Attached s) (hthr : Threads s) {c : Fin n} (hpc : (s.processors c).pc ≠ .none)
    (ha : a ≠ .processor c) (h : s.step a = some s') : s'.processors c = s.processors c := by
  have hother : ∀ {c' : Fin n} {e : EventProcessor}, c' ≠ c → (s.setProcessor c' e).processors c = s.processors c :=
    fun hne => Function.update_of_ne (Ne.symm hne) _ _
  have hturn : ∀ {c' : Fin n}, (.processor c' : Act m n) ≠ .processor c → c' ≠ c := by
    intro c' hne hcc
    exact hne (by rw [hcc])
  cases step_some h with
  | next p data q hc hq => rfl
  | set p data q hc => rfl
  | publish p q hc => rfl
  | run c' _ _ => exact hother (hturn ha)
  | leave c' _ _ => exact hother (hturn ha)
  | enter c' _ _ => exact hother (hturn ha)
  | drained c' _ _ => exact hother (hturn ha)
  | read c' _ => exact hother (hturn ha)
  | incr c' _ => exact hother (hturn ha)
  | construct started hctl => rfl
  | start hctl => rfl
  | halt hctl => rfl
  | attachProcessor c' started hctl => exact absurd (by rw [hctl]) (hatt.op c')
  | attachProducer p started i hi hctl => rfl
  | constructed started i hctl => rfl
  | spawn started c' hctl =>
    -- `start()` has not come to `c'`, so this is another thread
    refine hother fun hcc => hpc (hthr c ?_)
    rw [hctl, hcc]
    exact Nat.le_refl _
  | started started i hi hctl => rfl
  | clear started c' hctl => exact absurd (by rw [hctl]) (hs.op c').1
  | notified started i hi hctl => rfl
  | join started c' hctl hl => exact absurd (by rw [hctl]) (hs.op c').2
  | halted started i hi hctl => rfl

end

/-! ## One processor -/

section
variable {s s' : Sys R 1 n} {a : Act 1 n} {c : Fin n}

/-- The thread of processor `c` is at work, beside one producer. -/
structure Polling (c : Fin n) (s : Sys R 1 n) : Prop where
  protocol : Attached s ∧ Threads s ∧ Solo s.view
  unhalted : Unhalted s
  present : (s.processors c).pc ≠ .none

/-- The turns that a thread needs to the end of its round in the inner loop, when there is something to read. -/
def RunPC.toAdvance : RunPC → Nat
  | .outer => 4
  | .inner => 3
  | .body => 2
  | .incr => 1
  | .none | .left => 0

/-- Another turn: the thread stays, and the cursor does not go back. -/
theorem Polling.other (hs : Polling c s) (hh : a ≠ .halt) (hc : a ≠ .construct) (ha : a ≠ .processor c) (h : s.step a = some s') :
    Polling c s' ∧ s'.processors c = s.processors c ∧ s.cursor ≤ s'.cursor := by
  have hsame := processor_of_ne hs.unhalted hs.protocol.1 hs.protocol.2.1 hs.present ha h
  obtain ⟨hprotocol, hle⟩ := solo_cursor_step hs.protocol hc h
  refine ⟨⟨hprotocol, unhalted_step hs.unhalted hh h, ?_⟩, hsame, hle⟩
  rw [hsame]
  exact hs.present

/-- Its own turn: the thread may leave `run()`, but `join()` is not its own. -/
theorem present_of_turn (h : s.step (.processor c) = some s') : (s'.processors c).pc ≠ .none := by
  cases step_some h with
  | run _ hpc hr => simp [Sys.setProcessor]
  | leave _ hpc hr => simp [Sys.setProcessor]
  | enter _ hpc hle => simp [Sys.setProcessor]
  | drained _ hpc hlt => simp [Sys.setProcessor]
  | read _ hpc => simp [Sys.setProcessor, Sys.emit]
  | incr _ hpc => simp [Sys.setProcessor, Sys.emit]

theorem Polling.own (hs : Polling c s) (h : s.step (.processor c) = some s') : Polling c s' ∧ s.cursor ≤ s'.cursor := by
  obtain ⟨hprotocol, hle⟩ := solo_cursor_step hs.protocol (by simp) h
  exact ⟨⟨hprotocol, unhalted_step hs.unhalted (by simp) h, present_of_turn h⟩, hle⟩

/-- When there is something to read, its own turn ends a round, or comes one step nearer to its end. -/
theorem turn_effect (hrun : (s.processors c).running = true) (hnone : (s.processors c).pc ≠ .none)
    (hleft : (s.processors c).pc ≠ .left) (hle : (s.processors c).nextSequence ≤ s.cursorOf c) :
    ∃ s', s.step (.processor c) = some s' ∧
      ((s'.processors c).nextSequence = (s.processors c).nextSequence ∧
          (s'.processors c).pc.toAdvance < (s.processors c).pc.toAdvance ∨
        (s'.processors c).nextSequence = (s.processors c).nextSequence + 1 ∧ (s'.processors c).pc = .inner) := by
  cases hpc : (s.processors c).pc with
  | none => exact absurd hpc hnone
  | left => exact absurd hpc hleft
  | outer => simp [Sys.step, Sys.processor, hpc, hrun, Sys.setProcessor, RunPC.toAdvance]
  | inner => simp [Sys.step, Sys.processor, hpc, hle, Sys.setProcessor, RunPC.toAdvance]
  | body => simp [Sys.step, Sys.processor, hpc, Sys.setProcessor, Sys.emit, RunPC.toAdvance]
  | incr => simp [Sys.step, Sys.processor, hpc, Sys.setProcessor, Sys.emit]

/-! ## Fair schedules -/

variable {order : Nat → Act 1 n}

/-- A thread comes past every sequence that the cursor has reached. -/
theorem passes (hquiet : ∀ i, order i ≠ .halt ∧ order i ≠ .construct) (hfair : Recurs order (.processor c)) (q : Int) :
    Leads Sys.step order s (fun u => Polling c u ∧ q ≤ u.cursor ∧ (u.processors c).nextSequence ≤ q)
      (fun u => Polling c u ∧ q < (u.processors c).nextSequence) := by
  -- a round takes at most four turns, with the test of the outer loop
  refine Leads.progress (fun u => 4 * (q - (u.processors c).nextSequence).toNat + (u.processors c).pc.toAdvance)
    (fun _ => .processor c) (fun _ _ => hfair) ?_ ?_
  · rintro u i u' hother ⟨hu, hq, hnext⟩ hstep
    obtain ⟨hu', hsame, hle⟩ := hu.other (hquiet i).1 (hquiet i).2 hother hstep
    rw [hsame]
    exact .inr ⟨⟨hu', Int.le_trans hq hle, hnext⟩, .inr ⟨rfl, rfl⟩⟩
  · rintro u ⟨hu, hq, hnext⟩
    have hle : (u.processors c).nextSequence ≤ u.cursorOf c := by
      rw [hu.protocol.1.cursorOf c]
      exact Int.le_trans hnext hq
    obtain ⟨u', hstep, hrank⟩ := turn_effect (hu.unhalted.running c).1 hu.present (hu.unhalted.running c).2 hle
    refine ⟨u', hstep, ?_⟩
    obtain ⟨hu', hcursor⟩ := hu.own hstep
    by_cases hpast : q < (u'.processors c).nextSequence
    · exact .inl ⟨hu', hpast⟩
    · refine .inr ⟨⟨hu', Int.le_trans hq hcursor, Int.not_lt.1 hpast⟩, ?_⟩
      rcases hrank with ⟨hsame, hless⟩ | ⟨hsucc, hinner⟩
      · rw [hsame]
        omega
      · rw [hsucc] at hpast
        rw [hsucc, hinner]
        simp only [RunPC.toAdvance]
        omega

/-- The thread stays at work. -/
theorem Polling.states (hs : Polling c s) (hquiet : ∀ i, order i ≠ .halt ∧ order i ≠ .construct) (k : Nat) :
    Polling c (states Sys.step order s k) := by
  refine states_inv ?_ hs k
  intro u i u' hu hstep
  by_cases ha : order i = .processor c
  · rw [ha] at hstep
    exact (hu.own hstep).1
  · exact (hu.other (hquiet i).1 (hquiet i).2 ha hstep).1

theorem polling_of_exec {acts : List (Act 1 n)} (hc : .construct ∉ acts) (hh : .halt ∉ acts)
    (h : Sys.exec R 1 n acts = some s) (hpc : (s.processors c).pc ≠ .none) : Polling c s := by
  have hm : Runs.Meets Sys.step (fun _ a => a ≠ .halt) (Sys.init R 1 n) acts :=
    Runs.meets_of_forall fun a ha hah => hh (hah ▸ ha)
  exact ⟨solo_of_exec hc h, Runs.run_inv (fun _ _ _ => unhalted_step) unhalted_init hm h, hpc⟩

end

end LowLatency.Disruptor
