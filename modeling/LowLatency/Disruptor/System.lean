import Mathlib.Logic.Function.Basic
import LowLatency.Lib.Runs
import LowLatency.Disruptor.Components

/-!
# The disruptor as a system of threads

`m` producer threads, `n` processor threads and one control thread share the `Sequencer`s and
one `RingBuffer`. Every `Sequencer` access, every event write or read, every access of `running_`
and every other visible effect is one step, and a run is any interleaving of such steps.

| here | there |
| --- | --- |
| `Act.next`, `.set`, `.publish` | lines 19, 20-21 and 22 of `Producer::on_data` (`producer.h`) |
| `Act.processor`                | the next step of a thread inside `EventProcessor::run` (`event_processor.h:17-30`) |
| `Act.construct`, `Op.ctor`     | `Disruptor::Disruptor` (`disruptor.h:14-26`): a fresh `Sequencer`, then `set_sequencer` on every processor and every producer |
| `Act.start`, `Op.start`        | `Disruptor::start` (`disruptor.h:30-35`): one thread per processor, in order |
| `Act.halt`, `Op.notify`, `.join` | `Disruptor::halt` (`disruptor.h:37-53`): clear every `running_`, then join every thread |
| `Ev`                           | what a step does that an observer can see; the results are about the order of these |

`start` and `halt` alternate; a Disruptor may be constructed whenever the control thread is
between two calls, also while threads run. The log is a history variable: no step reads it.

An event write whose subscript lies outside `buffer_` is undefined behaviour. From then on the
contents of the ring are unknown (`ring = none`), but the sequencing goes on, so that statements
about sequences are not cut off at the first wrap of the ring.
-/

namespace LowLatency.Disruptor

/-- The call of the control thread that is in progress, with the position of its loop. -/
inductive Op where
  | ctor (i : Nat)
  | start (i : Nat)
  | notify (i : Nat)
  | join (i : Nat)
deriving DecidableEq

structure Control where
  /-- `start()` has returned and `halt()` has not been called since -/
  started : Bool
  op : Option Op
deriving DecidableEq

/-- What an observer sees of a step. -/
inductive Ev (m n : Nat) where
  /-- `next()` returned `sequence` -/
  | claim (p : Fin m) (sequence : Int)
  /-- `ring_buffer_->get(sequence).set(data)` -/
  | set (p : Fin m) (sequence : Int) (data : StdString)
  | publish (p : Fin m) (sequence : Int)
  /-- `ring_buffer_->get(sequence).get()` and what it returned -/
  | read (c : Fin n) (sequence : Int) (value : Option StdString)
  /-- `++next_sequence_`, past `sequence` -/
  | consume (c : Fin n) (sequence : Int)
  /-- `Disruptor::halt()` is called -/
  | halt
  /-- `processor->halt()` clears `running_`; where the processor stood and what it was to read next -/
  | cleared (c : Fin n) (pc : RunPC) (nextSequence : Int)
  /-- `Disruptor::halt()` returns -/
  | halted
deriving DecidableEq

structure Sys (R : RingSize) (m n : Nat) where
  sequencers : Nat → Sequencer
  /-- the number of `Sequencer`s constructed so far; their addresses are `0 … fresh - 1` -/
  fresh : Nat
  ring : Option (RingBuffer R)
  producers : Fin m → Producer
  processors : Fin n → EventProcessor
  control : Control
  log : List (Ev m n)

inductive Act (m n : Nat) where
  | next (p : Fin m) (data : StdString)
  | set (p : Fin m)
  | publish (p : Fin m)
  | processor (c : Fin n)
  | construct
  | start
  | halt
  /-- the next step of the control thread's call in progress -/
  | control
deriving DecidableEq

variable {R : RingSize} {m n : Nat}

/-- `sequencer_->cursor()` as processor `c` sees it. -/
def Sys.cursorOf (s : Sys R m n) (c : Fin n) : Int := (s.sequencers (s.processors c).sequencer).cursor

/-- What is read now as the event of `sequence`. -/
def Sys.readRing (s : Sys R m n) (sequence : Int) : Option StdString := s.ring.bind (·.read sequence)

def Sys.setSequencer (s : Sys R m n) (a : Nat) (q : Sequencer) : Sys R m n :=
  { s with sequencers := Function.update s.sequencers a q }

def Sys.setRing (s : Sys R m n) (ring : Option (RingBuffer R)) : Sys R m n := { s with ring := ring }

def Sys.setProducer (s : Sys R m n) (p : Fin m) (pr : Producer) : Sys R m n :=
  { s with producers := Function.update s.producers p pr }

def Sys.setProcessor (s : Sys R m n) (c : Fin n) (e : EventProcessor) : Sys R m n :=
  { s with processors := Function.update s.processors c e }

def Sys.setControl (s : Sys R m n) (ctl : Control) : Sys R m n := { s with control := ctl }

def Sys.emit (s : Sys R m n) (e : Ev m n) : Sys R m n := { s with log := s.log ++ [e] }

@[simp] theorem setControl_control (s : Sys R m n) (ctl : Control) : (s.setControl ctl).control = ctl := rfl
@[simp] theorem emit_control (s : Sys R m n) (e : Ev m n) : (s.emit e).control = s.control := rfl

/-! ## `Producer::on_data` -/

/-- Line 19: `long sequence = sequencer_->next();` -/
def Sys.next (s : Sys R m n) (p : Fin m) (data : StdString) : Option (Sys R m n) :=
  let pr := s.producers p
  match pr.call with
  | .idle =>
    let q := (s.sequencers pr.sequencer).next
    some (((s.setSequencer pr.sequencer q).setProducer p (pr.goto (.claimed data q.cursor))).emit
      (.claim p q.cursor))
  | _ => none

/-- Lines 20-21: `ring_buffer_->get(sequence).set(data);` -/
def Sys.set (s : Sys R m n) (p : Fin m) : Option (Sys R m n) :=
  let pr := s.producers p
  match pr.call with
  | .claimed data sequence =>
    some (((s.setRing (s.ring.bind (·.write sequence data))).setProducer p
      (pr.goto (.written sequence))).emit (.set p sequence data))
  | _ => none

/-- Line 22: `sequencer_->publish(sequence);` -/
def Sys.publish (s : Sys R m n) (p : Fin m) : Option (Sys R m n) :=
  let pr := s.producers p
  match pr.call with
  | .written sequence =>
    some (((s.setSequencer pr.sequencer ((s.sequencers pr.sequencer).publish sequence)).setProducer p
      (pr.goto .idle)).emit (.publish p sequence))
  | _ => none

/-! ## `EventProcessor::run` -/

/-- One step of the thread that executes `run()` of processor `c`. -/
def Sys.processor (s : Sys R m n) (c : Fin n) : Option (Sys R m n) :=
  let e := s.processors c
  match e.pc with
  | .outer => some (s.setProcessor c (e.goto (if e.running then .inner else .left)))
  | .inner => some (s.setProcessor c (e.goto (if e.nextSequence ≤ s.cursorOf c then .body else .outer)))
  | .body => some ((s.setProcessor c (e.goto .incr)).emit (.read c e.nextSequence (s.readRing e.nextSequence)))
  | .incr => some ((s.setProcessor c e.advance).emit (.consume c e.nextSequence))
  | .none | .left => none

/-! ## `Disruptor` -/

/-- `make_shared<Sequencer>()` of the constructor. -/
def Sys.construct (s : Sys R m n) : Option (Sys R m n) :=
  match s.control with
  | ⟨started, none⟩ =>
    some { (s.setSequencer s.fresh Sequencer.new).setControl ⟨started, some (.ctor 0)⟩ with
      fresh := s.fresh + 1 }
  | _ => none

def Sys.start (s : Sys R m n) : Option (Sys R m n) :=
  match s.control with
  | ⟨false, none⟩ => some (s.setControl ⟨false, some (.start 0)⟩)
  | _ => none

def Sys.halt (s : Sys R m n) : Option (Sys R m n) :=
  match s.control with
  | ⟨true, none⟩ => some ((s.setControl ⟨false, some (.notify 0)⟩).emit .halt)
  | _ => none

/-- `set_sequencer` on the processors, then on the producers (lines 18-25); the `Sequencer` is the
last one constructed. -/
def Sys.ctorStep (s : Sys R m n) (started : Bool) (i : Nat) : Sys R m n :=
  if h : i < n then
    (s.setProcessor ⟨i, h⟩ ((s.processors ⟨i, h⟩).setSequencer (s.fresh - 1))).setControl
      ⟨started, some (.ctor (i + 1))⟩
  else if h : i - n < m then
    (s.setProducer ⟨i - n, h⟩ ((s.producers ⟨i - n, h⟩).setSequencer (s.fresh - 1))).setControl
      ⟨started, some (.ctor (i + 1))⟩
  else s.setControl ⟨started, none⟩

/-- `threads_.emplace_back([processor]() { processor->run(); })` (line 33). -/
def Sys.startStep (s : Sys R m n) (i : Nat) : Sys R m n :=
  if h : i < n then
    (s.setProcessor ⟨i, h⟩ ((s.processors ⟨i, h⟩).goto .outer)).setControl ⟨false, some (.start (i + 1))⟩
  else s.setControl ⟨true, none⟩

/-- `processor->halt()` (line 41). -/
def Sys.notifyStep (s : Sys R m n) (i : Nat) : Sys R m n :=
  if h : i < n then
    let e := s.processors ⟨i, h⟩
    ((s.setProcessor ⟨i, h⟩ e.halt).setControl ⟨false, some (.notify (i + 1))⟩).emit
      (.cleared ⟨i, h⟩ e.pc e.nextSequence)
  else s.setControl ⟨false, some (.join 0)⟩

/-- `t.join()` (line 47) waits until the thread has left `run()`. -/
def Sys.joinStep (s : Sys R m n) (i : Nat) : Option (Sys R m n) :=
  if h : i < n then
    let e := s.processors ⟨i, h⟩
    if e.pc = .left then
      some ((s.setProcessor ⟨i, h⟩ (e.goto .none)).setControl ⟨false, some (.join (i + 1))⟩)
    else none
  else some ((s.setControl ⟨false, none⟩).emit .halted)

def Sys.controlStep (s : Sys R m n) : Option (Sys R m n) :=
  match s.control with
  | ⟨_, none⟩ => none
  | ⟨started, some (.ctor i)⟩ => some (s.ctorStep started i)
  | ⟨_, some (.start i)⟩ => some (s.startStep i)
  | ⟨_, some (.notify i)⟩ => some (s.notifyStep i)
  | ⟨_, some (.join i)⟩ => s.joinStep i

/-! ## The system -/

def Sys.step (s : Sys R m n) : Act m n → Option (Sys R m n)
  | .next p data => s.next p data
  | .set p => s.set p
  | .publish p => s.publish p
  | .processor c => s.processor c
  | .construct => s.construct
  | .start => s.start
  | .halt => s.halt
  | .control => s.controlStep

/-- Freshly constructed producers, processors and Disruptor: all attached to one new `Sequencer`,
no thread running. -/
def Sys.init (R : RingSize) (m n : Nat) : Sys R m n where
  sequencers := fun _ => Sequencer.new
  fresh := 1
  ring := some (RingBuffer.new R)
  producers := fun _ => ⟨0, .idle⟩
  processors := fun _ => EventProcessor.new 0
  control := ⟨false, none⟩
  log := []

/-- The state a list of steps leads to from the initial state. -/
def Sys.exec (R : RingSize) (m n : Nat) (acts : List (Act m n)) : Option (Sys R m n) :=
  Runs.run Sys.step (Sys.init R m n) acts

/-! ## What each step can do -/

/-- Every way a step can change the state, with what enables it. -/
inductive Step (s : Sys R m n) : Act m n → Sys R m n → Prop where
  | next (p : Fin m) (data : StdString) (q : Int) (h : (s.producers p).call = .idle)
      (hq : q = (s.sequencers (s.producers p).sequencer).cursor + 1) :
      Step s (.next p data) (((s.setSequencer (s.producers p).sequencer ⟨q⟩).setProducer p
        ((s.producers p).goto (.claimed data q))).emit (.claim p q))
  | set (p : Fin m) (data : StdString) (q : Int) (h : (s.producers p).call = .claimed data q) :
      Step s (.set p) (((s.setRing (s.ring.bind (·.write q data))).setProducer p
        ((s.producers p).goto (.written q))).emit (.set p q data))
  | publish (p : Fin m) (q : Int) (h : (s.producers p).call = .written q) :
      Step s (.publish p) (((s.setSequencer (s.producers p).sequencer ⟨q⟩).setProducer p
        ((s.producers p).goto .idle)).emit (.publish p q))
  | run (c : Fin n) (h : (s.processors c).pc = .outer) (hr : (s.processors c).running = true) :
      Step s (.processor c) (s.setProcessor c ((s.processors c).goto .inner))
  | leave (c : Fin n) (h : (s.processors c).pc = .outer) (hr : (s.processors c).running = false) :
      Step s (.processor c) (s.setProcessor c ((s.processors c).goto .left))
  | enter (c : Fin n) (h : (s.processors c).pc = .inner) (hle : (s.processors c).nextSequence ≤ s.cursorOf c) :
      Step s (.processor c) (s.setProcessor c ((s.processors c).goto .body))
  | drained (c : Fin n) (h : (s.processors c).pc = .inner) (hlt : s.cursorOf c < (s.processors c).nextSequence) :
      Step s (.processor c) (s.setProcessor c ((s.processors c).goto .outer))
  | read (c : Fin n) (h : (s.processors c).pc = .body) :
      Step s (.processor c) ((s.setProcessor c ((s.processors c).goto .incr)).emit
        (.read c (s.processors c).nextSequence (s.readRing (s.processors c).nextSequence)))
  | incr (c : Fin n) (h : (s.processors c).pc = .incr) :
      Step s (.processor c) ((s.setProcessor c (s.processors c).advance).emit
        (.consume c (s.processors c).nextSequence))
  | construct (started : Bool) (h : s.control = ⟨started, none⟩) :
      Step s .construct { (s.setSequencer s.fresh Sequencer.new).setControl ⟨started, some (.ctor 0)⟩ with
        fresh := s.fresh + 1 }
  | start (h : s.control = ⟨false, none⟩) : Step s .start (s.setControl ⟨false, some (.start 0)⟩)
  | halt (h : s.control = ⟨true, none⟩) :
      Step s .halt ((s.setControl ⟨false, some (.notify 0)⟩).emit .halt)
  | attachProcessor (c : Fin n) (started : Bool) (h : s.control = ⟨started, some (.ctor c)⟩) :
      Step s .control ((s.setProcessor c ((s.processors c).setSequencer (s.fresh - 1))).setControl
        ⟨started, some (.ctor (c + 1))⟩)
  | attachProducer (p : Fin m) (started : Bool) (i : Nat) (hi : n ≤ i) (h : s.control = ⟨started, some (.ctor i)⟩) :
      Step s .control ((s.setProducer p ((s.producers p).setSequencer (s.fresh - 1))).setControl
        ⟨started, some (.ctor (i + 1))⟩)
  | constructed (started : Bool) (i : Nat) (h : s.control = ⟨started, some (.ctor i)⟩) :
      Step s .control (s.setControl ⟨started, none⟩)
  | spawn (started : Bool) (c : Fin n) (h : s.control = ⟨started, some (.start c)⟩) :
      Step s .control ((s.setProcessor c ((s.processors c).goto .outer)).setControl ⟨false, some (.start (c + 1))⟩)
  | started (started : Bool) (i : Nat) (hi : n ≤ i) (h : s.control = ⟨started, some (.start i)⟩) :
      Step s .control (s.setControl ⟨true, none⟩)
  | clear (started : Bool) (c : Fin n) (h : s.control = ⟨started, some (.notify c)⟩) :
      Step s .control (((s.setProcessor c (s.processors c).halt).setControl ⟨false, some (.notify (c + 1))⟩).emit
        (.cleared c (s.processors c).pc (s.processors c).nextSequence))
  | notified (started : Bool) (i : Nat) (hi : n ≤ i) (h : s.control = ⟨started, some (.notify i)⟩) :
      Step s .control (s.setControl ⟨false, some (.join 0)⟩)
  | join (started : Bool) (c : Fin n) (h : s.control = ⟨started, some (.join c)⟩)
      (hl : (s.processors c).pc = .left) :
      Step s .control ((s.setProcessor c ((s.processors c).goto .none)).setControl ⟨false, some (.join (c + 1))⟩)
  | halted (started : Bool) (i : Nat) (hi : n ≤ i) (h : s.control = ⟨started, some (.join i)⟩) :
      Step s .control ((s.setControl ⟨false, none⟩).emit .halted)

theorem processor_some {s s' : Sys R m n} {c : Fin n} (h : s.processor c = some s') :
    Step s (.processor c) s' := by
  simp only [Sys.processor] at h
  split at h
  · rename_i hpc
    cases h
    cases hr : (s.processors c).running with
    | true => exact .run c hpc hr
    | false => exact .leave c hpc hr
  · rename_i hpc
    cases h
    by_cases hle : (s.processors c).nextSequence ≤ s.cursorOf c
    · simp only [hle, if_true]
      exact .enter c hpc hle
    · simp only [hle, if_false]
      exact .drained c hpc (Int.not_le.1 hle)
  · cases h
    exact .read c ‹_›
  · cases h
    exact .incr c ‹_›
  · cases h
  · cases h

theorem controlStep_some {s s' : Sys R m n} (h : s.controlStep = some s') : Step s .control s' := by
  simp only [Sys.controlStep] at h
  split at h
  · cases h
  · rename_i started i hctl
    cases h
    unfold Sys.ctorStep
    split
    · exact .attachProcessor ⟨i, ‹_›⟩ started hctl
    · split
      · exact .attachProducer ⟨i - n, ‹_›⟩ started i (Nat.le_of_not_lt ‹_›) hctl
      · exact .constructed started i hctl
  · rename_i started i hctl
    cases h
    unfold Sys.startStep
    split
    · exact .spawn started ⟨i, ‹_›⟩ hctl
    · exact .started started i (Nat.le_of_not_lt ‹_›) hctl
  · rename_i started i hctl
    cases h
    unfold Sys.notifyStep
    split
    · exact .clear started ⟨i, ‹_›⟩ hctl
    · exact .notified started i (Nat.le_of_not_lt ‹_›) hctl
  · rename_i started i hctl
    simp only [Sys.joinStep] at h
    split at h
    · split at h
      · cases h
        exact .join started ⟨i, ‹_›⟩ hctl ‹_›
      · cases h
    · cases h
      exact .halted started i (Nat.le_of_not_lt ‹_›) hctl

/-- A step of the system is one of the listed effects; proofs go through `Step` and never unfold
the step function. -/
theorem step_some {s s' : Sys R m n} {a : Act m n} (h : s.step a = some s') : Step s a s' := by
  cases a with
  | next p data =>
    simp only [Sys.step, Sys.next] at h
    split at h
    · cases h
      exact .next p data _ ‹_› rfl
    · cases h
  | set p =>
    simp only [Sys.step, Sys.set] at h
    split at h
    · cases h
      exact .set p _ _ ‹_›
    · cases h
  | publish p =>
    simp only [Sys.step, Sys.publish] at h
    split at h
    · cases h
      exact .publish p _ ‹_›
    · cases h
  | processor c => exact processor_some h
  | construct =>
    simp only [Sys.step, Sys.construct] at h
    split at h
    · cases h
      exact .construct _ ‹_›
    · cases h
  | start =>
    simp only [Sys.step, Sys.start] at h
    split at h
    · cases h
      exact .start ‹_›
    · cases h
  | halt =>
    simp only [Sys.step, Sys.halt] at h
    split at h
    · cases h
      exact .halt ‹_›
    · cases h
  | control => exact controlStep_some h

/-! ## Which threads exist -/

/-- A property of all processors after one of them has changed. -/
theorem forall_processors {s : Sys R m n} {c : Fin n} {e : EventProcessor} {P : Fin n → EventProcessor → Prop}
    (hc : P c e) (h : ∀ c', c' ≠ c → P c' (s.processors c')) (c' : Fin n) :
    P c' ((s.setProcessor c e).processors c') :=
  (Function.forall_update_iff s.processors P).2 ⟨hc, h⟩ c'

/-- In this state of the control thread, processor `c` has no thread: `start()` has not reached it
yet, `halt()` has joined it already, or nothing is started. -/
def Down (ctl : Control) (c : Nat) : Prop :=
  match ctl with
  | ⟨_, some (.start i)⟩ => i ≤ c
  | ⟨_, some (.join i)⟩ => c < i
  | ⟨_, some (.notify _)⟩ => False
  | ⟨started, _⟩ => started = false

/-- Threads exist only between `start()` and the join of `halt()`. -/
def Threads (s : Sys R m n) : Prop := ∀ c : Fin n, Down s.control c → (s.processors c).pc = .none

theorem threads_init : Threads (Sys.init R m n) := fun _ _ => rfl

/-- A thread that takes a step exists, so its step breaks no `Down` obligation. -/
theorem threads_setProcessor {s : Sys R m n} (hs : Threads s) {c : Fin n} {e : EventProcessor}
    (hc : (s.processors c).pc ≠ .none) : Threads (s.setProcessor c e) :=
  forall_processors (P := fun c e => Down s.control c → e.pc = .none) (fun hd => absurd (hs c hd) hc)
    fun c' _ => hs c'

theorem threads_step {s s' : Sys R m n} {a : Act m n} (hs : Threads s) (h : s.step a = some s') : Threads s' := by
  cases step_some h with
  | next p data q hc hq => exact hs
  | set p data q hc => exact hs
  | publish p q hc => exact hs
  | run c hpc hr => exact threads_setProcessor hs (by simp [hpc])
  | leave c hpc hr => exact threads_setProcessor hs (by simp [hpc])
  | enter c hpc hle => exact threads_setProcessor hs (by simp [hpc])
  | drained c hpc hlt => exact threads_setProcessor hs (by simp [hpc])
  | read c hpc => exact threads_setProcessor hs (by simp [hpc])
  | incr c hpc => exact threads_setProcessor hs (by simp [hpc])
  | construct started hctl => exact fun c hd => hs c (by rw [hctl]; exact hd)
  | start hctl => exact fun c _ => hs c (by simp [hctl, Down])
  | halt hctl => exact fun c hd => hd.elim
  | attachProcessor c started hctl =>
    have hs' : ∀ c', started = false → (s.processors c').pc = .none :=
      fun c' hd => hs c' (by rw [hctl]; exact hd)
    exact forall_processors (P := fun _ e => started = false → e.pc = .none) (hs' c) fun c' _ => hs' c'
  | attachProducer p started i hi hctl => exact fun c hd => hs c (by rw [hctl]; exact hd)
  | constructed started i hctl => exact fun c hd => hs c (by rw [hctl]; exact hd)
  | spawn started c hctl =>
    refine forall_processors (P := fun c' e => c.val + 1 ≤ c' → e.pc = .none) ?_ fun c' _ hd => hs c' ?_
    · exact fun hd => absurd hd (Nat.not_succ_le_self _)
    · rw [hctl]; exact Nat.le_of_succ_le hd
  | started started i hi hctl => exact fun c hd => by cases hd
  | clear started c hctl => exact fun c hd => hd.elim
  | notified started i hi hctl => exact fun c hd => by cases hd
  | join started c hctl hl =>
    refine forall_processors (P := fun c' e => c'.val < c + 1 → e.pc = .none) (fun _ => rfl) fun c' hne hd => hs c' ?_
    rw [hctl]; exact Nat.lt_of_le_of_ne (Nat.le_of_lt_succ hd) fun h => hne (Fin.ext h)
  | halted started i hi hctl => exact fun c _ => hs c (by rw [hctl]; exact Nat.lt_of_lt_of_le c.isLt hi)

end LowLatency.Disruptor
