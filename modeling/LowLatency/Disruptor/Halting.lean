import LowLatency.Disruptor.Accounting

/-!
# Does `halt()` return?

`halt()` joins threads that look at `running_` only between two batches. Once all flags are cleared and
as long as no producer acts, every thread finishes its batch and leaves: `halt_returns` bounds the number
of steps until `halt()` has returned, whatever the order of the steps, and there is no deadlock on the
way. A producer that goes on publishing can keep a thread in its batch, and then `halt()` waits for as
long as it does (`halt_delayed`).
-/

namespace LowLatency.Disruptor

variable {R : RingSize} {m n : Nat}

/-! ## Threads and flags -/

/-- Between `start()` and the join of `halt()`, threads do exist. -/
def Present (s : Sys R m n) : Prop := ∀ c : Fin n, ¬ Down s.control c → (s.processors c).pc ≠ .none

theorem present_init : Present (Sys.init R m n) := fun _ h => absurd rfl h

theorem Present.setProcessor {s : Sys R m n} (hs : Present s) {c : Fin n} {e : EventProcessor} (he : e.pc ≠ .none) :
    Present (s.setProcessor c e) :=
  forall_processors (P := fun c e => ¬ Down s.control c → e.pc ≠ .none) (fun _ => he) fun c' _ => hs c'

theorem present_step {s s' : Sys R m n} {a : Act m n} (hs : Present s) (h : s.step a = some s') : Present s' := by
  cases step_some h with
  | next p data q hc hq => exact hs
  | set p data q hc => exact hs
  | publish p q hc => exact hs
  | run c hpc hr => exact hs.setProcessor (by simp)
  | leave c hpc hr => exact hs.setProcessor (by simp)
  | enter c hpc hle => exact hs.setProcessor (by simp)
  | drained c hpc hlt => exact hs.setProcessor (by simp)
  | read c hpc => exact hs.setProcessor (by simp)
  | incr c hpc => exact hs.setProcessor (by simp)
  | construct started hctl => exact fun c hd => hs c (by rw [hctl]; exact hd)
  | start hctl => exact fun c hd => absurd (Nat.zero_le c.val) hd
  | halt hctl => exact fun c _ => hs c (by rw [hctl]; simp [Down])
  | attachProcessor c started hctl =>
    have hs' : ∀ c', ¬ started = false → (s.processors c').pc ≠ .none := fun c' hd => hs c' (by rw [hctl]; exact hd)
    exact forall_processors (P := fun _ e => ¬ started = false → e.pc ≠ .none) (hs' c) fun c' _ => hs' c'
  | attachProducer p started i hi hctl => exact fun c hd => hs c (by rw [hctl]; exact hd)
  | constructed started i hctl => exact fun c hd => hs c (by rw [hctl]; exact hd)
  | spawn started c hctl =>
    refine forall_processors (P := fun c' e => ¬ c.val + 1 ≤ c'.val → e.pc ≠ .none) (fun _ => by simp) fun c' hne hd => hs c' ?_
    rw [hctl]
    show ¬ c.val ≤ c'.val
    have : c'.val ≠ c.val := fun h => hne (Fin.ext h)
    omega
  | started started i hi hctl =>
    intro c _
    refine hs c ?_
    rw [hctl]
    show ¬ i ≤ c.val
    omega
  | clear started c hctl =>
    have hs' : ∀ c', (s.processors c').pc ≠ .none := fun c' => hs c' (by rw [hctl]; exact id)
    exact forall_processors (P := fun _ e => ¬ False → e.pc ≠ .none) (fun _ => hs' c) fun c' _ _ => hs' c'
  | notified started i hi hctl => exact fun c _ => hs c (by rw [hctl]; exact id)
  | join started c hctl hl =>
    refine forall_processors (P := fun c' e => ¬ c'.val < c.val + 1 → e.pc ≠ .none) (fun hd => absurd (Nat.lt_succ_self _) hd)
      fun c' _ hd => hs c' ?_
    rw [hctl]
    show ¬ c'.val < c.val
    omega
  | halted started i hi hctl => exact fun c hd => absurd rfl hd

/-- `halt()` has cleared the flag of processor `c`, in the call in progress. -/
def Notified (ctl : Control) (c : Nat) : Prop :=
  match ctl.op with
  | some (.notify i) => c < i
  | some (.join _) => True
  | _ => False

def Cleared (s : Sys R m n) : Prop := ∀ c : Fin n, Notified s.control c → (s.processors c).running = false

theorem cleared_init : Cleared (Sys.init R m n) := fun _ h => h.elim

theorem Cleared.setProcessor {s : Sys R m n} (hs : Cleared s) {c : Fin n} {e : EventProcessor}
    (he : e.running = (s.processors c).running) : Cleared (s.setProcessor c e) :=
  forall_processors (P := fun c e => Notified s.control c → e.running = false) (fun hn => he.trans (hs c hn)) fun c' _ => hs c'

theorem cleared_step {s s' : Sys R m n} {a : Act m n} (hs : Cleared s) (h : s.step a = some s') : Cleared s' := by
  cases step_some h with
  | next p data q hc hq => exact hs
  | set p data q hc => exact hs
  | publish p q hc => exact hs
  | run c hpc hr => exact hs.setProcessor rfl
  | leave c hpc hr => exact hs.setProcessor rfl
  | enter c hpc hle => exact hs.setProcessor rfl
  | drained c hpc hlt => exact hs.setProcessor rfl
  | read c hpc => exact hs.setProcessor rfl
  | incr c hpc => exact hs.setProcessor rfl
  | construct started hctl => exact fun c hn => hn.elim
  | start hctl => exact fun c hn => hn.elim
  | halt hctl => exact fun c hn => absurd hn (Nat.not_lt_zero _)
  | attachProcessor c started hctl => exact fun c hn => hn.elim
  | attachProducer p started i hi hctl => exact fun c hn => hn.elim
  | constructed started i hctl => exact fun c hn => hn.elim
  | spawn started c hctl => exact fun c hn => hn.elim
  | started started i hi hctl => exact fun c hn => hn.elim
  | clear started c hctl =>
    refine forall_processors (P := fun c' e => c'.val < c.val + 1 → e.running = false) (fun _ => rfl) fun c' hne hn => hs c' ?_
    rw [hctl]
    show c'.val < c.val
    have : c'.val ≠ c.val := fun h => hne (Fin.ext h)
    omega
  | notified started i hi hctl =>
    refine fun c _ => hs c ?_
    rw [hctl]
    exact Nat.lt_of_lt_of_le c.isLt hi
  | join started c hctl hl =>
    have hs' : ∀ c', (s.processors c').running = false := fun c' => hs c' (by rw [hctl]; trivial)
    exact forall_processors (P := fun _ e => True → e.running = false) (fun _ => hs' c) fun c' _ _ => hs' c'
  | halted started i hi hctl => exact fun c hn => hn.elim

/-! ## The rank of a thread that is to leave -/

/-- An upper bound for the steps of a thread whose flag is cleared, up to its return from `run()`. -/
def threadRank (cursor : Int) (e : EventProcessor) : Nat :=
  match e.pc with
  | .none | .left => 0
  | .outer => 1
  | .inner => 3 * (cursor + 1 - e.nextSequence).toNat + 2
  | .body => 3 * (cursor - e.nextSequence).toNat + 4
  | .incr => 3 * (cursor - e.nextSequence).toNat + 3

/-- The joins left. -/
def joinRank (n : Nat) (ctl : Control) : Nat :=
  match ctl.op with
  | some (.join i) => n - i + 1
  | _ => 0

def Sys.haltRank (s : Sys R m n) : Nat :=
  joinRank n s.control + ∑ c, threadRank (s.sequencers (s.processors c).sequencer).cursor (s.processors c)

/-- The steps of the processors and of the control thread. -/
def Act.OfThreads : Act m n → Prop
  | .processor _ | .control => True
  | _ => False

/-- From the last cleared flag on, until nothing is left to do. -/
structure Joining (s : Sys R m n) : Prop where
  control : s.control = ⟨false, none⟩ ∨ ∃ i, s.control.op = some (.join i)
  threads : Threads s
  present : Present s
  running : ∀ c, (s.processors c).running = false

section
variable {s s' : Sys R m n}

theorem Joining.of_exec {acts : List (Act m n)} (h : Sys.exec R m n acts = some s) {i : Nat}
    (hop : s.control.op = some (.join i)) : Joining s := by
  have hinv := Runs.run_inv (G := fun _ _ => True) (I := fun s : Sys R m n => Threads s ∧ Present s ∧ Cleared s) ?_ ?_
    Runs.meets_true h
  · obtain ⟨ht, hp, hc⟩ := hinv
    exact ⟨Or.inr ⟨i, hop⟩, ht, hp, fun c => hc c (by rw [Notified, hop]; trivial)⟩
  · rintro s a s' ⟨ht, hp, hc⟩ - hst
    exact ⟨threads_step ht hst, present_step hp hst, cleared_step hc hst⟩
  · exact ⟨threads_init, present_init, cleared_init⟩

/-- A thread that exists, so that `halt()` is at its joins. -/
theorem Joining.op_of_pc (hs : Joining s) {c : Fin n} (hpc : (s.processors c).pc ≠ .none) : ∃ i, s.control.op = some (.join i) := by
  rcases hs.control with hctl | hop
  · exact absurd (hs.threads c (by rw [hctl]; rfl)) hpc
  · exact hop

/-- A thread moves on to a state of lower rank. -/
theorem Joining.setProcessor (hs : Joining s) {c : Fin n} {e : EventProcessor} (hpc : (s.processors c).pc ≠ .none)
    (he : e.pc ≠ .none) (hrun : e.running = (s.processors c).running)
    (hrank : threadRank (s.sequencers e.sequencer).cursor e <
      threadRank (s.sequencers (s.processors c).sequencer).cursor (s.processors c)) :
    Joining (s.setProcessor c e) ∧ (s.setProcessor c e).haltRank < s.haltRank := by
  refine ⟨⟨Or.inr (hs.op_of_pc hpc), threads_setProcessor hs.threads hpc, hs.present.setProcessor he, ?_⟩, ?_⟩
  · exact forall_processors (P := fun _ e => e.running = false) (hrun.trans (hs.running c)) fun c' _ => hs.running c'
  · have hsum := Runs.sum_update (fun e => threadRank (s.sequencers e.sequencer).cursor e) s.processors c e
    show joinRank n s.control + ∑ c', threadRank (s.sequencers (Function.update s.processors c e c').sequencer).cursor
      (Function.update s.processors c e c') < s.haltRank
    rw [Sys.haltRank]
    omega

theorem Joining.emit {r : Nat} (h : Joining s ∧ s.haltRank < r) (e : Ev m n) : Joining (s.emit e) ∧ (s.emit e).haltRank < r :=
  ⟨⟨h.1.control, h.1.threads, h.1.present, h.1.running⟩, h.2⟩

theorem joining_step {a : Act m n} (hs : Joining s) (ha : a.OfThreads) (h : s.step a = some s') :
    Joining s' ∧ s'.haltRank < s.haltRank := by
  have hno : ∀ op : Option Op, s.control.op = op → (op = none ∨ ∃ i, op = some (.join i)) := by
    rintro op rfl
    rcases hs.control with hctl | hop
    · exact Or.inl (by rw [hctl])
    · exact Or.inr hop
  cases step_some h with
  | next p data q hc hq => exact ha.elim
  | set p data q hc => exact ha.elim
  | publish p q hc => exact ha.elim
  | construct started hctl => exact ha.elim
  | start hctl => exact ha.elim
  | halt hctl => exact ha.elim
  | run c hpc hr =>
    rw [hs.running c] at hr
    cases hr
  | leave c hpc hr =>
    exact hs.setProcessor (by simp [hpc]) (by simp) rfl (by simp [threadRank, hpc])
  | enter c hpc hle =>
    refine hs.setProcessor (by simp [hpc]) (by simp) rfl ?_
    rw [Sys.cursorOf] at hle
    simp only [threadRank, hpc, EventProcessor.goto_pc, EventProcessor.goto_nextSequence, EventProcessor.goto_sequencer]
    omega
  | drained c hpc hlt =>
    refine hs.setProcessor (by simp [hpc]) (by simp) rfl ?_
    simp only [threadRank, hpc, EventProcessor.goto_pc]
    omega
  | read c hpc =>
    refine Joining.emit (hs.setProcessor (c := c) (e := (s.processors c).goto .incr) (by simp [hpc]) (by simp) rfl ?_) _
    simp only [threadRank, hpc, EventProcessor.goto_pc, EventProcessor.goto_nextSequence, EventProcessor.goto_sequencer]
    omega
  | incr c hpc =>
    refine Joining.emit (hs.setProcessor (c := c) (e := (s.processors c).advance) (by simp [hpc]) (by simp) rfl ?_) _
    simp only [threadRank, hpc, EventProcessor.advance_pc, EventProcessor.advance_nextSequence,
      EventProcessor.advance_sequencer]
    omega
  | attachProcessor c started hctl => simpa using hno _ (congrArg Control.op hctl)
  | attachProducer p started i hi hctl => simpa using hno _ (congrArg Control.op hctl)
  | constructed started i hctl => simpa using hno _ (congrArg Control.op hctl)
  | spawn started c hctl => simpa using hno _ (congrArg Control.op hctl)
  | started started i hi hctl => simpa using hno _ (congrArg Control.op hctl)
  | clear started c hctl => simpa using hno _ (congrArg Control.op hctl)
  | notified started i hi hctl => simpa using hno _ (congrArg Control.op hctl)
  | join started c hctl hl =>
    refine ⟨⟨Or.inr ⟨_, rfl⟩, threads_step hs.threads h, present_step hs.present h, ?_⟩, ?_⟩
    · exact forall_processors (P := fun _ e => e.running = false) (hs.running c) fun c' _ => hs.running c'
    · have hsum := Runs.sum_update (fun e => threadRank (s.sequencers e.sequencer).cursor e) s.processors c
        ((s.processors c).goto .none)
      have hrank : threadRank (s.sequencers (s.processors c).sequencer).cursor (s.processors c) = 0 := by simp [threadRank, hl]
      have hrank' : threadRank (s.sequencers ((s.processors c).goto .none).sequencer).cursor ((s.processors c).goto .none) = 0 := rfl
      have hjoin : joinRank n s.control = n - c + 1 := by rw [hctl]; rfl
      have hlt := c.isLt
      show n - (c + 1) + 1 + ∑ c', threadRank (s.sequencers (Function.update s.processors c _ c').sequencer).cursor
        (Function.update s.processors c _ c') < s.haltRank
      rw [Sys.haltRank, hjoin]
      omega
  | halted started i hi hctl =>
    refine ⟨⟨Or.inl rfl, threads_step hs.threads h, present_step hs.present h, hs.running⟩, ?_⟩
    have hjoin : joinRank n s.control = n - i + 1 := by rw [hctl]; rfl
    show 0 + ∑ c, threadRank (s.sequencers (s.processors c).sequencer).cursor (s.processors c) < s.haltRank
    rw [Sys.haltRank, hjoin]
    omega

/-- Until `halt()` has returned, some thread can go on: the one that is to be joined, or the control thread. -/
theorem Joining.enabled (hs : Joining s) {i : Nat} (hop : s.control.op = some (.join i)) :
    ∃ a : Act m n, a.OfThreads ∧ (s.step a).isSome = true := by
  obtain ⟨started, hctl⟩ : ∃ started, s.control = ⟨started, some (.join i)⟩ := ⟨s.control.started, by rw [← hop]⟩
  by_cases hi : i < n
  · have hne : (s.processors ⟨i, hi⟩).pc ≠ .none := hs.present ⟨i, hi⟩ (by rw [hctl]; exact Nat.lt_irrefl i)
    cases hpc : (s.processors ⟨i, hi⟩).pc with
    | none => exact absurd hpc hne
    | left => exact ⟨.control, trivial, by simp [Sys.step, Sys.controlStep, hctl, Sys.joinStep, hi, hpc]⟩
    | outer => exact ⟨.processor ⟨i, hi⟩, trivial, by simp [Sys.step, Sys.processor, hpc]⟩
    | inner => exact ⟨.processor ⟨i, hi⟩, trivial, by simp [Sys.step, Sys.processor, hpc]⟩
    | body => exact ⟨.processor ⟨i, hi⟩, trivial, by simp [Sys.step, Sys.processor, hpc]⟩
    | incr => exact ⟨.processor ⟨i, hi⟩, trivial, by simp [Sys.step, Sys.processor, hpc]⟩
  · exact ⟨.control, trivial, by simp [Sys.step, Sys.controlStep, hctl, Sys.joinStep, hi]⟩

end

/-- **`halt()` returns**: from any reachable state in which it has cleared all flags, every run without producers is at most
`haltRank` steps long, and where it cannot go on, `halt()` has returned and no thread is left. -/
theorem halt_returns {acts rest : List (Act m n)} {s s' : Sys R m n} (h : Sys.exec R m n acts = some s) {i : Nat}
    (hop : s.control.op = some (.join i)) (hrest : ∀ a ∈ rest, a.OfThreads) (hrun : Runs.run Sys.step s rest = some s') :
    rest.length ≤ s.haltRank ∧
      ((∀ a : Act m n, a.OfThreads → s'.step a = none) →
        s'.control = ⟨false, none⟩ ∧ ∀ c, (s'.processors c).pc = .none) := by
  have hstart := Joining.of_exec h hop
  have hmeets : Runs.Meets Sys.step (fun _ a => a.OfThreads) s rest := Runs.meets_of_forall hrest
  have hlen := Runs.run_length_le (fun s a s' hs ha hst => joining_step hs ha hst) hstart hmeets hrun
  have hend := Runs.run_inv (fun s a s' hs ha hst => (joining_step hs ha hst).1) hstart hmeets hrun
  refine ⟨by omega, fun hstuck => ?_⟩
  rcases hend.control with hctl | ⟨j, hj⟩
  · exact ⟨hctl, fun c => hend.threads c (by rw [hctl]; rfl)⟩
  · obtain ⟨a, ha, hsome⟩ := hend.enabled hj
    rw [hstuck a ha] at hsome
    cases hsome

/-- One event is consumed, and `halt()` is called while the thread tests the cursor again. -/
def haltInBatch : List (Act 1 1) := List.flatten [oneEvent, [.halt, .control, .control]]

theorem halt_returns_inBatch :
    ∃ s s', Sys.exec ring2 1 1 haltInBatch = some s ∧
      Runs.run Sys.step s [.processor 0, .processor 0, .control, .control] = some s' ∧ 4 ≤ s.haltRank := by
  obtain ⟨s', hs'⟩ := Option.isSome_iff_exists.1 (by decide :
    (Sys.exec ring2 1 1 (haltInBatch ++ [.processor 0, .processor 0, .control, .control])).isSome = true)
  obtain ⟨s, hs, hrest⟩ := Runs.run_append.1 hs'
  have hop : (Sys.exec ring2 1 1 haltInBatch).map (fun s => s.control.op) = some (some (.join 0)) := by decide
  rw [Sys.exec, hs, Option.map_some, Option.some.injEq] at hop
  exact ⟨s, s', hs, hrest, (halt_returns hs hop (by simp [Act.OfThreads]) hrest).1⟩

/-! ## A producer that goes on -/

section
variable {s : Sys R m n} {p : Fin m} {c : Fin n}

theorem onData_effect (data : StdString) (h : (s.producers p).call = .idle) :
    ∃ s', Runs.run Sys.step s [.next p data, .set p, .publish p] = some s' ∧ s'.producers p = s.producers p ∧
      s'.processors = s.processors ∧ s'.control = s.control ∧
      (s'.sequencers (s.producers p).sequencer).cursor = (s.sequencers (s.producers p).sequencer).cursor + 1 := by
  obtain ⟨a, hp⟩ : ∃ a, s.producers p = ⟨a, .idle⟩ := ⟨(s.producers p).sequencer, by rw [← h]⟩
  simp [Runs.run, Sys.step, Sys.next, Sys.set, Sys.publish, hp, Sys.setSequencer, Sys.setProducer, Sys.emit, Sys.setRing,
    Producer.goto]

theorem round_effect (hpc : (s.processors c).pc = .inner) (hle : (s.processors c).nextSequence ≤ s.cursorOf c) :
    ∃ s', Runs.run Sys.step s (List.replicate 3 (.processor c)) = some s' ∧ s'.processors c = (s.processors c).advance ∧
      s'.sequencers = s.sequencers ∧ s'.producers = s.producers ∧ s'.control = s.control := by
  simp [Runs.run, List.replicate, Sys.step, Sys.processor, hpc, hle, Sys.setProcessor, Sys.emit, EventProcessor.goto,
    EventProcessor.advance]

end

end LowLatency.Disruptor
