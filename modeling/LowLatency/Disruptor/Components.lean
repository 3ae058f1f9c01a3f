import LowLatency.Basic

/-!
# The objects of the disruptor: `Event`, `RingBuffer`, `Sequencer`, `Producer`, `EventProcessor`

| here | there |
| --- | --- |
| `Event`                     | `Event` (`disruptor/event.h:5`) |
| `RingSize`                  | the template argument `N` with the `static_assert` (`ring_buffer.h:8-12`) |
| `slot`                      | the subscript `sequence & N` of `RingBuffer::get` (`ring_buffer.h:17-20`) |
| `RingBuffer.read`, `.write` | `event.get()` and `event.set(data)` through the reference `get` returns |
| `Sequencer`                 | `Sequencer` (`sequencer.h:6`); each method is one atomic access |
| `OnData`, `Producer`        | `Producer` and the point a call of `on_data` has reached (`producer.h:17-25`) |
| `RunPC`, `EventProcessor`   | `EventProcessor` and the point its thread has reached in `run` (`event_processor.h:17-30`) |

`RingBuffer::next` and `next_seq_` are used by no other class, and `id_` only by the printed
text; they are left out.
-/

namespace LowLatency.Disruptor

structure Event where
  value : StdString
deriving DecidableEq

/-- The template argument of `RingBuffer<N>`: a `size_t` that passes the class's `static_assert`. -/
structure RingSize where
  N : Nat
  lt : N < 2 ^ 64
  pos : 0 < N
  pow : N &&& (N - 1) = 0

theorem RingSize.two_pow (R : RingSize) : ∃ k < 64, R.N = 2 ^ k := by
  obtain ⟨k, hk⟩ := (Nat.and_sub_one_eq_zero_iff_isPowerOfTwo (Nat.ne_of_gt R.pos)).1 R.pow
  refine ⟨k, ?_, hk⟩
  have := R.lt
  rw [hk] at this
  exact (Nat.pow_lt_pow_iff_right (by decide)).1 this

/-! ## `RingBuffer` -/

/-- The subscript of `buffer_[sequence & N]` (`ring_buffer.h:19`): the `long` is converted to
`size_t` before the bitwise and. -/
def slot (N : Nat) (sequence : Int) : Nat := longToSizeT sequence &&& N

/-- With `N` a power of two, `sequence & N` is one bit of the sequence, in place. -/
theorem slot_natCast (R : RingSize) (q : Nat) :
    slot R.N q = if q / R.N % 2 = 1 then R.N else 0 := by
  obtain ⟨k, hk, hN⟩ := R.two_pow
  unfold slot
  rw [longToSizeT_natCast, hN, Nat.and_two_pow, Nat.testBit_mod_two_pow, Nat.testBit_eq_decide_div_mod_eq]
  by_cases h : q / 2 ^ k % 2 = 1 <;> simp [h, hk]

/-- Before the first wrap every sequence shares slot 0. -/
theorem slot_of_lt (R : RingSize) {q : Nat} (h : q < R.N) : slot R.N q = 0 := by
  rw [slot_natCast, Nat.div_eq_of_lt h]; rfl

/-- The first sequence of the second lap is one past the end. -/
theorem slot_self (R : RingSize) : slot R.N R.N = R.N := by
  rw [slot_natCast, Nat.div_self R.pos]; rfl

/-- `std::array<Event, N> buffer_`. -/
structure RingBuffer (R : RingSize) where
  buffer : Fin R.N → Event

def RingBuffer.new (R : RingSize) : RingBuffer R := ⟨fun _ => ⟨[]⟩⟩

/-- `get(sequence).get()`; `none` when the subscript is outside the array (undefined behaviour). -/
def RingBuffer.read {R : RingSize} (rb : RingBuffer R) (sequence : Int) : Option StdString :=
  if h : slot R.N sequence < R.N then some (rb.buffer ⟨_, h⟩).value else none

/-- `get(sequence).set(data)`; `none` when the subscript is outside the array. -/
def RingBuffer.write {R : RingSize} (rb : RingBuffer R) (sequence : Int) (data : StdString) :
    Option (RingBuffer R) :=
  if h : slot R.N sequence < R.N then some ⟨Function.update rb.buffer ⟨_, h⟩ ⟨data⟩⟩ else none

/-! ## `Sequencer` -/

/-- `std::atomic<long> cursor_`. -/
structure Sequencer where
  cursor : Int
deriving DecidableEq

/-- `Sequencer()` (`sequencer.h:9`). -/
def Sequencer.new : Sequencer := ⟨-1⟩

/-- `next()`: `return ++cursor_`, one atomic read-modify-write; the sequence is the new cursor. -/
def Sequencer.next (s : Sequencer) : Sequencer := ⟨s.cursor + 1⟩

/-- `publish(sequence)`: `cursor_ = sequence`, whatever the cursor was. -/
def Sequencer.publish (_ : Sequencer) (sequence : Int) : Sequencer := ⟨sequence⟩

@[simp] theorem Sequencer.new_cursor : Sequencer.new.cursor = -1 := rfl
@[simp] theorem Sequencer.next_cursor (s : Sequencer) : s.next.cursor = s.cursor + 1 := rfl
@[simp] theorem Sequencer.publish_cursor (s : Sequencer) (q : Int) : (s.publish q).cursor = q := rfl

/-! ## `Producer` and `EventProcessor` -/

/-- Where a call of `on_data` stands. -/
inductive OnData where
  | idle
  /-- `next()` has returned `sequence` (line 19), the event is not written yet. -/
  | claimed (data : StdString) (sequence : Int)
  /-- `event.set(data)` is done (line 21), `publish` is not. -/
  | written (sequence : Int)
deriving DecidableEq

/-- `sequencer` is the address `sequencer_` points at. -/
structure Producer where
  sequencer : Nat
  call : OnData
deriving DecidableEq

/-- The call of `on_data` moves on. -/
def Producer.goto (pr : Producer) (call : OnData) : Producer := { pr with call := call }

/-- `Producer::set_sequencer` (`producer.h:27`); the `cursor()` read it ends with has no effect. -/
def Producer.setSequencer (pr : Producer) (sequencer : Nat) : Producer := { pr with sequencer := sequencer }

/-- Where the thread of an `EventProcessor` stands. -/
inductive RunPC where
  /-- no thread: not started, or joined -/
  | none
  /-- about to evaluate `running_` (line 20); a thread just spawned is here -/
  | outer
  /-- about to evaluate `next_sequence_ <= sequencer_->cursor()` (line 23) -/
  | inner
  /-- that test has passed, the event is about to be read (lines 25-26) -/
  | body
  /-- the event has been read, `++next_sequence_` (line 27) is next -/
  | incr
  /-- `run()` has returned -/
  | left
deriving DecidableEq

/-- Inside the outer loop of `run`: `running_` was read as true and the inner loop has not ended. -/
def RunPC.inLoop : RunPC → Bool
  | .inner | .body | .incr => true
  | _ => false

/-- Between the inner loop test and the increment. -/
def RunPC.inBody : RunPC → Bool
  | .body | .incr => true
  | _ => false

structure EventProcessor where
  running : Bool
  nextSequence : Int
  sequencer : Nat
  pc : RunPC
deriving DecidableEq

/-- `EventProcessor(ring_buffer, sequencer, id)` (`event_processor.h:11`). -/
def EventProcessor.new (sequencer : Nat) : EventProcessor := ⟨true, 0, sequencer, .none⟩

/-- The thread moves on. -/
def EventProcessor.goto (e : EventProcessor) (pc : RunPC) : EventProcessor := { e with pc := pc }

/-- `++next_sequence_` (line 27), back to the inner loop test. -/
def EventProcessor.advance (e : EventProcessor) : EventProcessor :=
  { e with nextSequence := e.nextSequence + 1, pc := .inner }

/-- `EventProcessor::halt` (`event_processor.h:37`). -/
def EventProcessor.halt (e : EventProcessor) : EventProcessor := { e with running := false }

/-- `EventProcessor::set_sequencer` (`event_processor.h:43`). -/
def EventProcessor.setSequencer (e : EventProcessor) (sequencer : Nat) : EventProcessor :=
  { e with sequencer := sequencer }

section
variable (e : EventProcessor) (pr : Producer)

@[simp] theorem Producer.goto_sequencer (call : OnData) : (pr.goto call).sequencer = pr.sequencer := rfl
@[simp] theorem Producer.goto_call (call : OnData) : (pr.goto call).call = call := rfl
@[simp] theorem Producer.setSequencer_sequencer (q : Nat) : (pr.setSequencer q).sequencer = q := rfl
@[simp] theorem Producer.setSequencer_call (q : Nat) : (pr.setSequencer q).call = pr.call := rfl

namespace EventProcessor

@[simp] theorem goto_running (pc : RunPC) : (e.goto pc).running = e.running := rfl
@[simp] theorem goto_nextSequence (pc : RunPC) : (e.goto pc).nextSequence = e.nextSequence := rfl
@[simp] theorem goto_sequencer (pc : RunPC) : (e.goto pc).sequencer = e.sequencer := rfl
@[simp] theorem goto_pc (pc : RunPC) : (e.goto pc).pc = pc := rfl
@[simp] theorem advance_running : e.advance.running = e.running := rfl
@[simp] theorem advance_nextSequence : e.advance.nextSequence = e.nextSequence + 1 := rfl
@[simp] theorem advance_sequencer : e.advance.sequencer = e.sequencer := rfl
@[simp] theorem advance_pc : e.advance.pc = .inner := rfl
@[simp] theorem halt_running : e.halt.running = false := rfl
@[simp] theorem halt_nextSequence : e.halt.nextSequence = e.nextSequence := rfl
@[simp] theorem halt_sequencer : e.halt.sequencer = e.sequencer := rfl
@[simp] theorem halt_pc : e.halt.pc = e.pc := rfl
@[simp] theorem setSequencer_running (q : Nat) : (e.setSequencer q).running = e.running := rfl
@[simp] theorem setSequencer_nextSequence (q : Nat) : (e.setSequencer q).nextSequence = e.nextSequence := rfl
@[simp] theorem setSequencer_sequencer (q : Nat) : (e.setSequencer q).sequencer = q := rfl
@[simp] theorem setSequencer_pc (q : Nat) : (e.setSequencer q).pc = e.pc := rfl

end EventProcessor

end

end LowLatency.Disruptor
