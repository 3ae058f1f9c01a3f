import LowLatency.Disruptor.Accounting

/-!
# Reuse: the same processors under a second `start()` or a second Disruptor

`halt()` clears `running_` and nothing sets it again: `start()` after `halt()` spawns threads that
leave at once. The constructor of a Disruptor attaches the processors to a fresh `Sequencer`, whose
cursor is `-1`, and leaves their `next_sequence_` where it was. Both are harmless only for
processors that have not been used yet; `reuse_of_fresh` says that with these two uses excluded
(and no `publish` that lowers a cursor), any number of Disruptors, starts and halts in any order
keeps the two invariants.

The proof follows two independent pieces of state: `Alive`, which flags are up while threads run,
and `Wired`, who points at which `Sequencer`.
-/

namespace LowLatency.Disruptor

variable {R : RingSize} {m n : Nat}

/-- The condition on one step: `start()` finds every `running_` set, `set_sequencer` finds a
processor that has consumed nothing and is not at an event, `publish` does not lower the cursor of
the `Sequencer` the producer is attached to. -/
def ReuseFresh (s : Sys R m n) : Act m n → Prop
  | .start => ∀ c, (s.processors c).running = true
  | .publish p => ∀ q ∈ (s.producers p).call.sequence?, (s.sequencers (s.producers p).sequencer).cursor ≤ q
  | .control => ∀ c : Fin n, s.control.op = some (.ctor c) →
      (s.processors c).nextSequence = 0 ∧ (s.processors c).pc.inBody = false
  | _ => True

instance (s : Sys R m n) : ∀ a : Act m n, Decidable (ReuseFresh s a)
  | .start => inferInstanceAs (Decidable (∀ c, (s.processors c).running = true))
  | .publish p => inferInstanceAs (Decidable (∀ q ∈ (s.producers p).call.sequence?,
      (s.sequencers (s.producers p).sequencer).cursor ≤ q))
  | .control => inferInstanceAs (Decidable (∀ c : Fin n, s.control.op = some (.ctor c) →
      (s.processors c).nextSequence = 0 ∧ (s.processors c).pc.inBody = false))
  | .next _ _ | .set _ | .processor _ | .construct | .halt => .isTrue trivial

/-! ## Flags -/

/-- Threads run, or are being started. -/
def Control.Up (ctl : Control) : Prop := ctl.started = true ∨ ∃ i, ctl.op = some (.start i)

/-- While threads run, every flag is set and no thread has left `run()`. -/
def Alive (ctl : Control) (processors : Fin n → EventProcessor) : Prop :=
  ctl.Up → ∀ c, (processors c).running = true ∧ (processors c).pc ≠ .left

theorem Alive.update {ctl : Control} {processors : Fin n → EventProcessor} (h : Alive ctl processors) {c : Fin n}
    {e : EventProcessor} (he : (processors c).running = true ∧ (processors c).pc ≠ .left →
      e.running = true ∧ e.pc ≠ .left) : Alive ctl (Function.update processors c e) := by
  intro hup
  exact (Function.forall_update_iff processors fun _ e => e.running = true ∧ e.pc ≠ .left).2
    ⟨he (h hup c), fun c' _ => h hup c'⟩

theorem Alive.setControl {ctl ctl' : Control} {processors : Fin n → EventProcessor} (h : Alive ctl processors)
    (hup : ctl'.Up → ctl.Up) : Alive ctl' processors := fun hup' => h (hup hup')

theorem alive_step {s s' : Sys R m n} {a : Act m n} (ht : Threads s) (hs : Alive s.control s.processors)
    (hg : ReuseFresh s a) (h : s.step a = some s') : Alive s'.control s'.processors := by
  cases step_some h with
  | next p data q hc hq => exact hs
  | set p data q hc => exact hs
  | publish p q hc => exact hs
  | run c hpc hr => exact hs.update fun he => ⟨he.1, by simp⟩
  | leave c hpc hr => exact hs.update fun he => absurd (he.1.symm.trans hr) (by simp)
  | enter c hpc hle => exact hs.update fun he => ⟨he.1, by simp⟩
  | drained c hpc hlt => exact hs.update fun he => ⟨he.1, by simp⟩
  | read c hpc => exact hs.update fun he => ⟨he.1, by simp⟩
  | incr c hpc => exact hs.update fun he => ⟨he.1, by simp⟩
  | construct started hctl => exact hs.setControl (by simp [Control.Up, hctl])
  | start hctl =>
    -- nothing is started, so no thread exists; the flags are up by the condition on the step
    intro _ c
    have hnone : (s.processors c).pc = .none := ht c (by rw [hctl]; rfl)
    have hne : (s.processors c).pc ≠ .left := by simp [hnone]
    exact ⟨hg c, hne⟩
  | halt hctl => rintro (hup | ⟨i, hup⟩) <;> simp at hup
  | attachProcessor c started hctl =>
    have hup : Alive ⟨started, some (.ctor (c + 1))⟩ s.processors := hs.setControl (by simp [Control.Up, hctl])
    exact hup.update id
  | attachProducer p started i hi hctl => exact hs.setControl (by simp [Control.Up, hctl])
  | constructed started i hctl => exact hs.setControl (by simp [Control.Up, hctl])
  | spawn started c hctl =>
    have hup : Alive ⟨false, some (.start (c + 1))⟩ s.processors := hs.setControl (by simp [Control.Up, hctl])
    exact hup.update fun he => ⟨he.1, by simp⟩
  | started started i hi hctl => exact hs.setControl fun _ => by simp [Control.Up, hctl]
  | clear started c hctl => rintro (hup | ⟨i, hup⟩) <;> simp at hup
  | notified started i hi hctl => rintro (hup | ⟨i, hup⟩) <;> simp at hup
  | join started c hctl hl => rintro (hup | ⟨i, hup⟩) <;> simp at hup
  | halted started i hi hctl => rintro (hup | ⟨i, hup⟩) <;> simp at hup

/-! ## Pointers -/

/-- A processor is not ahead of the cursor it reads. -/
def Tracks (cursor : Int) (e : EventProcessor) : Prop :=
  e.nextSequence ≤ cursor + 1 ∧ (e.pc.inBody = true → e.nextSequence ≤ cursor)

theorem Tracks.mono {cursor cursor' : Int} {e : EventProcessor} (h : Tracks cursor e) (hle : cursor ≤ cursor') :
    Tracks cursor' e :=
  ⟨by have := h.1; omega, fun hb => Int.le_trans (h.2 hb) hle⟩

/-- Who points at which `Sequencer`. -/
structure Wired (s : Sys R m n) : Prop where
  producers : ∀ p, (s.producers p).sequencer < s.fresh
  processors : ∀ c, (s.processors c).sequencer < s.fresh
  tracks : ∀ c, Tracks (s.cursorOf c) (s.processors c)
  /-- until all processors are attached, no producer uses the new `Sequencer` -/
  ctor : ∀ i ≤ n, s.control.op = some (.ctor i) →
    0 < s.fresh ∧ (s.sequencers (s.fresh - 1)).cursor = -1 ∧ ∀ p, (s.producers p).sequencer ≠ s.fresh - 1

theorem wired_init : Wired (Sys.init R m n) where
  producers := fun _ => Nat.one_pos
  processors := fun _ => Nat.one_pos
  tracks := fun _ => ⟨Int.le_refl _, by simp [Sys.init, EventProcessor.new, RunPC.inBody]⟩
  ctor := by simp [Sys.init]

section
variable {s : Sys R m n}

theorem Wired.emit (h : Wired s) (e : Ev m n) : Wired (s.emit e) := ⟨h.producers, h.processors, h.tracks, h.ctor⟩

theorem Wired.setRing (h : Wired s) (ring : Option (RingBuffer R)) : Wired (s.setRing ring) :=
  ⟨h.producers, h.processors, h.tracks, h.ctor⟩

/-- The control thread moves on, but not into a constructor. -/
theorem Wired.setControl (h : Wired s) {ctl : Control} (hop : ∀ i ≤ n, ctl.op ≠ some (.ctor i)) :
    Wired (s.setControl ctl) :=
  ⟨h.producers, h.processors, h.tracks, fun i hi hctl => absurd hctl (hop i hi)⟩

/-- A call of `on_data` moves on. -/
theorem Wired.goto (h : Wired s) (p : Fin m) (call : OnData) :
    Wired (s.setProducer p ((s.producers p).goto call)) := by
  have hseq : ∀ p', ((s.setProducer p ((s.producers p).goto call)).producers p').sequencer =
      (s.producers p').sequencer :=
    (Function.forall_update_iff s.producers fun p' pr => pr.sequencer = (s.producers p').sequencer).2
      ⟨rfl, fun _ _ => rfl⟩
  refine ⟨?_, h.processors, h.tracks, ?_⟩
  · intro p'
    rw [hseq p']
    exact h.producers p'
  · intro i hi hctl
    obtain ⟨h0, hcur, hne⟩ := h.ctor i hi hctl
    refine ⟨h0, hcur, ?_⟩
    intro p'
    rw [hseq p']
    exact hne p'

/-- A thread moves on. -/
theorem Wired.setProcessor (h : Wired s) {c : Fin n} {e : EventProcessor}
    (he : e.sequencer = (s.processors c).sequencer) (ht : Tracks (s.cursorOf c) e) : Wired (s.setProcessor c e) := by
  refine ⟨h.producers, ?_, ?_, h.ctor⟩
  · exact forall_processors (P := fun _ e => e.sequencer < s.fresh) (he ▸ h.processors c) fun c' _ => h.processors c'
  · refine forall_processors (P := fun _ e => Tracks (s.sequencers e.sequencer).cursor e) ?_ fun c' _ => h.tracks c'
    rw [he]
    exact ht

theorem Wired.gotoProcessor (h : Wired s) {c : Fin n} {pc : RunPC}
    (hpc : pc.inBody = true → (s.processors c).nextSequence ≤ s.cursorOf c) :
    Wired (s.setProcessor c ((s.processors c).goto pc)) :=
  h.setProcessor rfl ⟨(h.tracks c).1, hpc⟩

/-- A producer raises the cursor of its `Sequencer`. -/
theorem Wired.raise (h : Wired s) (p : Fin m) {q : Int}
    (hq : (s.sequencers (s.producers p).sequencer).cursor ≤ q) :
    Wired (s.setSequencer (s.producers p).sequencer ⟨q⟩) := by
  have hle : ∀ a, (s.sequencers a).cursor ≤
      (Function.update s.sequencers (s.producers p).sequencer ⟨q⟩ a).cursor :=
    (Function.forall_update_iff s.sequencers fun a sq => (s.sequencers a).cursor ≤ sq.cursor).2
      ⟨hq, fun _ _ => Int.le_refl _⟩
  refine ⟨h.producers, h.processors, fun c => (h.tracks c).mono (hle _), ?_⟩
  intro i hi hctl
  obtain ⟨h0, hcur, hne⟩ := h.ctor i hi hctl
  refine ⟨h0, ?_, hne⟩
  simp only [Sys.setSequencer, Function.update_of_ne (Ne.symm (hne p))]
  exact hcur

/-- The new `Sequencer` is not in use. -/
theorem Wired.construct (h : Wired s) (started : Bool) :
    Wired { (s.setSequencer s.fresh Sequencer.new).setControl ⟨started, some (.ctor 0)⟩ with
      fresh := s.fresh + 1 } := by
  refine ⟨fun p => Nat.lt_succ_of_lt (h.producers p), fun c => Nat.lt_succ_of_lt (h.processors c), ?_,
    fun i _ _ => ⟨Nat.succ_pos _, ?_, ?_⟩⟩
  · intro c
    show Tracks (Function.update s.sequencers s.fresh Sequencer.new (s.processors c).sequencer).cursor _
    rw [Function.update_of_ne (Nat.ne_of_lt (h.processors c))]
    exact h.tracks c
  · simp [Sys.setControl, Sys.setSequencer]
  · intro p
    exact Nat.ne_of_lt (h.producers p)

/-- `set_sequencer` on a processor that has consumed nothing. -/
theorem Wired.attachProcessor (h : Wired s) {c : Fin n} {started : Bool}
    (hctl : s.control = ⟨started, some (.ctor c)⟩)
    (hc : (s.processors c).nextSequence = 0 ∧ (s.processors c).pc.inBody = false) :
    Wired ((s.setProcessor c ((s.processors c).setSequencer (s.fresh - 1))).setControl
      ⟨started, some (.ctor (c + 1))⟩) := by
  obtain ⟨h0, hcur, hne⟩ := h.ctor c (Nat.le_of_lt c.isLt) (by rw [hctl])
  refine ⟨h.producers, ?_, ?_, fun _ _ _ => ⟨h0, hcur, hne⟩⟩
  · exact forall_processors (P := fun _ e => e.sequencer < s.fresh) (Nat.sub_lt h0 Nat.one_pos)
      fun c' _ => h.processors c'
  · refine forall_processors (P := fun _ e => Tracks (s.sequencers e.sequencer).cursor e) ?_ fun c' _ => h.tracks c'
    constructor
    · simp [hcur, hc.1]
    · simp [hc.2]

/-- `set_sequencer` on a producer; all processors are attached by then. -/
theorem Wired.attachProducer (h : Wired s) {p : Fin m} {started : Bool} {i : Nat} (hi : n ≤ i) (h0 : 0 < s.fresh) :
    Wired ((s.setProducer p ((s.producers p).setSequencer (s.fresh - 1))).setControl
      ⟨started, some (.ctor (i + 1))⟩) := by
  refine ⟨?_, h.processors, h.tracks, ?_⟩
  · exact (Function.forall_update_iff s.producers fun _ pr => pr.sequencer < s.fresh).2
      ⟨Nat.sub_lt h0 Nat.one_pos, fun p' _ => h.producers p'⟩
  · intro j hj hctl
    obtain rfl : i + 1 = j := by simpa using hctl
    omega

end

theorem wired_step {s s' : Sys R m n} {a : Act m n} (hs : Wired s) (hg : ReuseFresh s a) (h : s.step a = some s') :
    Wired s' := by
  cases step_some h with
  | next p data q hc hq => exact ((hs.raise p (by omega)).goto p _).emit _
  | set p data q hc => exact ((hs.setRing _).goto p _).emit _
  | publish p q hc => exact ((hs.raise p (hg q (by simp [hc, OnData.sequence?]))).goto p _).emit _
  | run c hpc hr => exact hs.gotoProcessor (by simp [RunPC.inBody])
  | leave c hpc hr => exact hs.gotoProcessor (by simp [RunPC.inBody])
  | enter c hpc hle => exact hs.gotoProcessor fun _ => hle
  | drained c hpc hlt => exact hs.gotoProcessor (by simp [RunPC.inBody])
  | read c hpc => exact Wired.emit (hs.gotoProcessor fun _ => (hs.tracks c).2 (by rw [hpc]; rfl)) _
  | incr c hpc =>
    have hle := (hs.tracks c).2 (by rw [hpc]; rfl)
    refine Wired.emit (hs.setProcessor (by rfl) ⟨?_, by simp [RunPC.inBody]⟩) _
    simp only [EventProcessor.advance_nextSequence]
    omega
  | construct started hctl => exact hs.construct started
  | start hctl => exact hs.setControl (by simp)
  | halt hctl => exact Wired.emit (hs.setControl (by simp)) _
  | attachProcessor c started hctl => exact hs.attachProcessor hctl (hg c (by rw [hctl]))
  | attachProducer p started i hi hctl => exact hs.attachProducer hi (Nat.zero_lt_of_lt (hs.producers p))
  | constructed started i hctl => exact hs.setControl (by simp)
  | spawn started c hctl => exact Wired.setControl (hs.gotoProcessor (by simp [RunPC.inBody])) (by simp)
  | started started i hi hctl => exact hs.setControl (by simp)
  | clear started c hctl =>
    refine Wired.emit (Wired.setControl ?_ (by simp)) _
    exact hs.setProcessor rfl (hs.tracks c)
  | notified started i hi hctl => exact hs.setControl (by simp)
  | join started c hctl hl => exact Wired.setControl (hs.gotoProcessor (by simp [RunPC.inBody])) (by simp)
  | halted started i hi hctl => exact Wired.emit (hs.setControl (by simp)) _

/-! ## Any order of constructions, starts and halts -/

/-- A second Disruptor over unused processors, then one event through it. -/
def reattach : List (Act 1 1) := List.flatten [[.construct, .control, .control, .control], oneEvent]

/-- One event is consumed, then `halt()`, a new Disruptor over the same processor, and `start()`. -/
def secondCycle : List (Act 1 1) :=
  List.flatten [oneEvent, [.halt, .control, .control, .processor 0, .processor 0, .control, .control],
    [.construct, .control, .control, .control], [.start, .control, .control]]

end LowLatency.Disruptor
