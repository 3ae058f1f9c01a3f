import LowLatency.Lib.Runs
import LowLatency.NaiveQueue.Queue

/-!
# The naive `Queue` between one producer and one consumer

One thread calls `Producer::produce` on the values of a list, another is in `Consumer::consume`. Each
load and each store of `head_`, `tail_` and a cell of `data_` is a step of its own; the runs are all
interleavings. `capacity_` is not written after the constructor and is read in place.

| here | there |
| --- | --- |
| `Producing.idle`  | between two calls of `produce` (`producer.h:10-14`) |
| `Producing.test`  | `(tail_ + 1) % capacity_ == head_` (`queue.h:18`), the operands loaded so far, in either order |
| `Producing.cell`  | `data_[tail_] = elem` (line 20), `tail_` loaded or not |
| `Producing.index` | `tail_ = (tail_ + 1) % capacity_` (line 21), `tail_` loaded or not |
| `Consuming.test`, `.cell`, `.index` | the same for `poll` (lines 26, 28, 29) in the loop of `consume` (`consumer.h:12-22`) |

`State.added` and `State.polled` record the values in the order in which `add` stores `tail_` and
`poll` stores `head_`; an added value is recorded with the cell it was written to. The code does not
keep these records.

While a thread is between its loads, the other index moves on: the producer decides on a `head_` that
is at most as far as the real one, the consumer on a `tail_` that is. Either way there is at least as
much room, or at least as many values, as the thread believes.
-/

namespace LowLatency.NaiveQueue

open CyclicBuffer

inductive Producing where
  | idle
  | test (data : Int) (tail head : Option Nat)
  | cell (data : Int) (tail : Option Nat)
  /-- `written` is the subscript of the store before; the code has no use for it any more. -/
  | index (data : Int) (written : Nat) (tail : Option Nat)
deriving DecidableEq

inductive Consuming where
  | test (head tail : Option Nat)
  | cell (head : Option Nat)
  | index (elem : Int) (head : Option Nat)
deriving DecidableEq

structure State where
  queue : Queue
  /-- The values that `produce` has not been called on yet. -/
  values : List Int
  producer : Producing
  consumer : Consuming
  added : List (Nat × Int)
  polled : List Int
deriving DecidableEq

def State.init (queue : Queue) (values : List Int) : State := ⟨queue, values, .idle, .test none none, [], []⟩

/-- What a thread does next. -/
inductive Access where
  | call
  | loadHead
  | loadTail
  | compare
  | accessCell
  | storeIndex
deriving DecidableEq

def State.producerStep (s : State) (a : Access) : Option State :=
  match s.producer, s.values, a with
  | .idle, data :: values, .call => some { s with values, producer := .test data none none }
  | .test data none head, _, .loadTail => some { s with producer := .test data (some s.queue.tail) head }
  | .test data tail none, _, .loadHead => some { s with producer := .test data tail (some s.queue.head) }
  | .test data (some tail) (some head), _, .compare =>
    (remainder (sizeT (tail + 1)) s.queue.capacity).map fun next =>
      -- on a full queue `produce` sleeps and calls `add` again
      { s with producer := if next = head then .test data none none else .cell data none }
  | .cell data none, _, .loadTail => some { s with producer := .cell data (some s.queue.tail) }
  | .cell data (some tail), _, .accessCell =>
    (storeAt s.queue.data tail data).map fun cells =>
      { s with queue := { s.queue with data := cells }, producer := .index data tail none }
  | .index data written none, _, .loadTail => some { s with producer := .index data written (some s.queue.tail) }
  | .index data written (some tail), _, .storeIndex =>
    (remainder (sizeT (tail + 1)) s.queue.capacity).map fun tail =>
      { s with queue := { s.queue with tail }, producer := .idle, added := s.added ++ [(written, data)] }
  | _, _, _ => none

def State.consumerStep (s : State) (a : Access) : Option State :=
  match s.consumer, a with
  | .test none tail, .loadHead => some { s with consumer := .test (some s.queue.head) tail }
  | .test head none, .loadTail => some { s with consumer := .test head (some s.queue.tail) }
  | .test (some head) (some tail), .compare =>
    some { s with consumer := if head = tail then .test none none else .cell none }
  | .cell none, .loadHead => some { s with consumer := .cell (some s.queue.head) }
  | .cell (some head), .accessCell => s.queue.data[head]?.map fun elem => { s with consumer := .index elem none }
  | .index elem none, .loadHead => some { s with consumer := .index elem (some s.queue.head) }
  | .index elem (some head), .storeIndex =>
    (remainder (sizeT (head + 1)) s.queue.capacity).map fun head =>
      { s with queue := { s.queue with head }, consumer := .test none none, polled := s.polled ++ [elem] }
  | _, _ => none

inductive Act where
  | producer (a : Access)
  | consumer (a : Access)
deriving DecidableEq

def State.step (s : State) : Act → Option State
  | .producer a => s.producerStep a
  | .consumer a => s.consumerStep a

def State.exec : State → List Act → Option State := Runs.run State.step

/-! ## What the threads know -/

/-- The values added, without their cells. -/
def State.addedValues (s : State) : List Int := s.added.map Prod.snd

/-- `T` values are added, `H` polled. A loaded `tail_` is still the index of `T`. A loaded `head_` may
be that of an earlier count, and after the test there is room for one more value. -/
def Producing.Ok (q : Queue) (size T H : Nat) : Producing → Prop
  | .idle => True
  | .test _ tail head => (∀ t ∈ tail, t = T % (size + 1)) ∧
      ∀ h ∈ head, ∃ k ≤ H, T < k + (size + 1) ∧ h = k % (size + 1)
  | .cell _ tail => T < H + size ∧ ∀ t ∈ tail, t = T % (size + 1)
  | .index data written tail => T < H + size ∧ written = T % (size + 1) ∧ q.data[written]? = some data ∧
      ∀ t ∈ tail, t = T % (size + 1)

def Consuming.Ok (size : Nat) (added : List Int) (H : Nat) : Consuming → Prop
  | .test head tail => (∀ h ∈ head, h = H % (size + 1)) ∧
      ∀ t ∈ tail, ∃ k ≤ added.length, H ≤ k ∧ t = k % (size + 1)
  | .cell head => H < added.length ∧ ∀ h ∈ head, h = H % (size + 1)
  | .index elem head => added[H]? = some elem ∧ ∀ h ∈ head, h = H % (size + 1)

structure Inv (size : Nat) (s : State) : Prop where
  queue : s.queue.At size s.addedValues s.polled.length
  polled : s.polled = s.addedValues.take s.polled.length
  cells : ∀ j cell data, s.added[j]? = some (cell, data) → cell = j % (size + 1)
  producer : s.producer.Ok s.queue size s.addedValues.length s.polled.length
  consumer : s.consumer.Ok size s.addedValues s.polled.length

/-- The producer's knowledge outlives a `poll`. -/
theorem Producing.Ok.polled {q q' : Queue} {size T H : Nat} {p : Producing} (h : p.Ok q size T H)
    (hq : q'.data = q.data) : p.Ok q' size T (H + 1) := by
  cases p with
  | idle => exact True.intro
  | test data tail head =>
    refine ⟨h.1, ?_⟩
    intro h₀ hh₀
    obtain ⟨k, hk, hroom, heq⟩ := h.2 h₀ hh₀
    exact ⟨k, Nat.le_succ_of_le hk, hroom, heq⟩
  | cell data tail => exact ⟨by have := h.1; omega, h.2⟩
  | index data written tail => exact ⟨by have := h.1; omega, h.2.1, by rw [hq]; exact h.2.2.1, h.2.2.2⟩

/-- The consumer's knowledge outlives an `add`. -/
theorem Consuming.Ok.added {size H : Nat} {added : List Int} {c : Consuming} (h : c.Ok size added H) (x : Int) :
    c.Ok size (added ++ [x]) H := by
  have hle : added.length ≤ (added ++ [x]).length := by simp
  cases c with
  | test head tail =>
    refine ⟨h.1, ?_⟩
    intro t ht
    obtain ⟨k, hk, hH, heq⟩ := h.2 t ht
    exact ⟨k, Nat.le_trans hk hle, hH, heq⟩
  | cell head => exact ⟨Nat.lt_of_lt_of_le h.1 hle, h.2⟩
  | index elem head =>
    refine ⟨?_, h.2⟩
    rw [List.getElem?_append_left (List.getElem?_eq_some_iff.1 h.1).1]
    exact h.1

/-- The next value goes to the next cell. -/
theorem cells_snoc {N : Nat} {added : List (Nat × Int)}
    (h : ∀ j cell data, added[j]? = some (cell, data) → cell = j % N) (data : Int) :
    ∀ j cell data', (added ++ [(added.length % N, data)])[j]? = some (cell, data') → cell = j % N := by
  intro j cell data' hj
  rcases Nat.lt_trichotomy j added.length with hlt | rfl | hgt
  · rw [List.getElem?_append_left hlt] at hj
    exact h j cell data' hj
  · rw [List.getElem?_concat_length] at hj
    exact (Prod.mk.inj (Option.some.inj hj)).1.symm
  · rw [List.getElem?_eq_none (by rw [List.length_append]; exact hgt)] at hj
    cases hj

/-- A register just loaded. -/
theorem loaded {v x : Nat} (h : v = x) : ∀ r ∈ some v, r = x := by
  rintro r ⟨⟩
  exact h

theorem inv_init {size : Nat} {q : Queue} (hq : q.At size [] 0) (values : List Int) :
    Inv size (State.init q values) := by
  refine ⟨hq, rfl, ?_, True.intro, ?_, ?_⟩
  · intro j cell data h
    simp [State.init] at h
  · intro h hh
    cases hh
  · intro t ht
    cases ht

section
variable {size : Nat} {s s' : State} {a : Access}

/-- A step of the producer. -/
theorem Inv.producerStep (hi : Inv size s) (h : s.producerStep a = some s') : Inv size s' := by
  obtain ⟨hq, hpolled, hcells, hp, hc⟩ := hi
  have hroom := hq.room
  have hlo := hq.window.lo_le
  unfold State.producerStep at h
  split at h
  · obtain rfl := Option.some.inj h
    exact ⟨hq, hpolled, hcells, ⟨by simp, by simp⟩, hc⟩
  · rename_i hprod
    obtain rfl := Option.some.inj h
    rw [hprod] at hp
    exact ⟨hq, hpolled, hcells, ⟨loaded hq.tail, hp.2⟩, hc⟩
  · rename_i hprod
    obtain rfl := Option.some.inj h
    rw [hprod] at hp
    refine ⟨hq, hpolled, hcells, ⟨hp.1, ?_⟩, hc⟩
    simpa using ⟨_, Nat.le_refl _, hroom, hq.head⟩
  · rename_i data tail head hprod
    rw [hprod] at hp
    -- `k` polls had been made when `head_` was loaded
    obtain ⟨k, hk, hkroom, rfl⟩ := hp.2 head rfl
    rw [hp.1 tail rfl, hq.capacity, remainder_next (Nat.succ_pos size) hq.noWrap] at h
    obtain rfl := Option.some.inj h
    refine ⟨hq, hpolled, hcells, ?_, hc⟩
    by_cases hfull : (s.addedValues.length + 1) % (size + 1) = k % (size + 1)
    · simp [hfull, Producing.Ok]
    · simp only [hfull, if_false]
      rw [full_iff (Nat.le_trans hk hlo) hkroom] at hfull
      refine ⟨?_, by simp⟩
      show s.addedValues.length < s.polled.length + size
      omega
  · rename_i hprod
    obtain rfl := Option.some.inj h
    rw [hprod] at hp
    exact ⟨hq, hpolled, hcells, ⟨hp.1, loaded hq.tail⟩, hc⟩
  · rename_i data tail hprod
    rw [hprod] at hp
    obtain rfl := hp.2 tail rfl
    have hlt := hq.mod_lt_length s.addedValues.length
    rw [storeAt_of_lt hlt] at h
    obtain rfl := Option.some.inj h
    exact ⟨hq.storeCell data, hpolled, hcells, ⟨hp.1, rfl, List.getElem?_set_self hlt, by simp⟩, hc⟩
  · rename_i hprod
    obtain rfl := Option.some.inj h
    rw [hprod] at hp
    exact ⟨hq, hpolled, hcells, ⟨hp.1, hp.2.1, hp.2.2.1, loaded hq.tail⟩, hc⟩
  · rename_i data written tail hprod
    rw [hprod] at hp
    obtain ⟨hfree, rfl, hdata, htail⟩ := hp
    rw [htail tail rfl, hq.capacity, remainder_next (Nat.succ_pos size) hq.noWrap] at h
    obtain rfl := Option.some.inj h
    have hvalues : (s.added ++ [(s.addedValues.length % (size + 1), data)]).map Prod.snd = s.addedValues ++ [data] :=
      List.map_append
    refine ⟨?_, ?_, ?_, True.intro, ?_⟩
    · show Queue.At { s.queue with tail := _ } size (List.map Prod.snd (s.added ++ [_])) s.polled.length
      rw [hvalues]
      exact hq.publish hfree hdata
    · show s.polled = List.take s.polled.length (List.map Prod.snd (s.added ++ [_]))
      rw [hvalues, List.take_append_of_le_length hlo]
      exact hpolled
    · have hlen : s.addedValues.length = s.added.length := List.length_map _
      rw [hlen]
      exact cells_snoc hcells data
    · show s.consumer.Ok size (List.map Prod.snd (s.added ++ [_])) s.polled.length
      rw [hvalues]
      exact hc.added data
  · cases h

/-- A step of the consumer. -/
theorem Inv.consumerStep (hi : Inv size s) (h : s.consumerStep a = some s') : Inv size s' := by
  obtain ⟨hq, hpolled, hcells, hp, hc⟩ := hi
  have hlo := hq.window.lo_le
  unfold State.consumerStep at h
  split at h
  · rename_i hcons
    obtain rfl := Option.some.inj h
    rw [hcons] at hc
    exact ⟨hq, hpolled, hcells, hp, loaded hq.head, hc.2⟩
  · rename_i hcons
    obtain rfl := Option.some.inj h
    rw [hcons] at hc
    refine ⟨hq, hpolled, hcells, hp, hc.1, ?_⟩
    simpa using ⟨_, Nat.le_refl _, hlo, hq.tail⟩
  · rename_i head tail hcons
    obtain rfl := Option.some.inj h
    rw [hcons] at hc
    -- `k` adds had been made when `tail_` was loaded
    obtain ⟨k, hk, hHk, rfl⟩ := hc.2 tail rfl
    obtain rfl := hc.1 head rfl
    refine ⟨hq, hpolled, hcells, hp, ?_⟩
    by_cases hempty : s.polled.length % (size + 1) = k % (size + 1)
    · simp [hempty, Consuming.Ok]
    · simp only [hempty, if_false]
      rw [hq.empty_iff hHk hk] at hempty
      refine ⟨?_, by simp⟩
      show s.polled.length < s.addedValues.length
      omega
  · rename_i hcons
    obtain rfl := Option.some.inj h
    rw [hcons] at hc
    exact ⟨hq, hpolled, hcells, hp, hc.1, loaded hq.head⟩
  · rename_i head hcons
    rw [hcons] at hc
    obtain rfl := hc.2 head rfl
    rw [hq.oldest hc.1] at h
    obtain ⟨elem, helem, rfl⟩ := Option.map_eq_some_iff.1 h
    exact ⟨hq, hpolled, hcells, hp, helem, by simp⟩
  · rename_i hcons
    obtain rfl := Option.some.inj h
    rw [hcons] at hc
    exact ⟨hq, hpolled, hcells, hp, hc.1, loaded hq.head⟩
  · rename_i elem head hcons
    rw [hcons] at hc
    obtain ⟨helem, hhead⟩ := hc
    obtain ⟨hlt, helem'⟩ := List.getElem?_eq_some_iff.1 helem
    rw [hhead head rfl, hq.capacity, remainder_next (Nat.succ_pos size) hq.noWrap] at h
    obtain rfl := Option.some.inj h
    have hlen : (s.polled ++ [elem]).length = s.polled.length + 1 := by simp
    refine ⟨?_, ?_, hcells, ?_, by simp, by simp⟩
    · rw [hlen]
      exact hq.take hlt
    · show s.polled ++ [elem] = s.addedValues.take (s.polled ++ [elem]).length
      rw [hlen, List.take_succ_eq_append_getElem hlt, ← hpolled, helem']
    · rw [hlen]
      exact hp.polled rfl
  · cases h

end

theorem inv_of_exec {size : Nat} {q : Queue} (hq : q.At size [] 0) {values : List Int} {acts : List Act} {s : State}
    (h : (State.init q values).exec acts = some s) : Inv size s := by
  refine Runs.run_inv ?_ (inv_init hq values) Runs.meets_true h
  intro s a s' hi _ hstep
  cases a with
  | producer a => exact hi.producerStep hstep
  | consumer a => exact hi.consumerStep hstep

/-! ## The list of values -/

/-- The value `produce` is at work on. -/
def Producing.data : Producing → List Int
  | .idle => []
  | .test data _ _ => [data]
  | .cell data _ => [data]
  | .index data _ _ => [data]

/-- Values added, the one in hand, and those to come. -/
def State.produced (s : State) : List Int := s.addedValues ++ s.producer.data ++ s.values

theorem produced_step {s s' : State} {a : Act} (h : s.step a = some s') : s'.produced = s.produced := by
  cases a with
  | producer a =>
    simp only [State.step, State.producerStep] at h
    split at h
    case h_4 hprod =>
      obtain ⟨next, -, rfl⟩ := Option.map_eq_some_iff.1 h
      simp only [State.produced, State.addedValues, hprod]
      split <;> rfl
    case h_6 hprod =>
      obtain ⟨cells, -, rfl⟩ := Option.map_eq_some_iff.1 h
      simp only [State.produced, State.addedValues, hprod, Producing.data]
    case h_8 hprod =>
      obtain ⟨tail, -, rfl⟩ := Option.map_eq_some_iff.1 h
      simp [State.produced, State.addedValues, hprod, Producing.data]
    case h_9 => cases h
    all_goals
      obtain rfl := Option.some.inj h
      simp [State.produced, State.addedValues, Producing.data, *]
  | consumer a =>
    simp only [State.step, State.consumerStep] at h
    split at h
    case h_5 =>
      obtain ⟨elem, -, rfl⟩ := Option.map_eq_some_iff.1 h
      rfl
    case h_7 =>
      obtain ⟨head, -, rfl⟩ := Option.map_eq_some_iff.1 h
      rfl
    case h_8 => cases h
    all_goals
      obtain rfl := Option.some.inj h
      rfl

theorem produced_of_exec {q : Queue} {values : List Int} {acts : List Act} {s : State}
    (h : (State.init q values).exec acts = some s) : s.produced = values := by
  refine Runs.run_inv (I := fun s => s.produced = values) ?_ rfl Runs.meets_true h
  intro s a s' hi _ hstep
  rw [produced_step hstep, hi]

/-! ## The queue between the threads -/

/-- The cell of a value added and not yet polled holds it, and is not the cell at `tail_`. -/
theorem Inv.live {size : Nat} {s : State} (hi : Inv size s) {cell : Nat} {data : Int}
    (h : (cell, data) ∈ s.added.drop s.polled.length) :
    s.queue.data[cell]? = some data ∧ cell ≠ s.addedValues.length % (size + 1) := by
  obtain ⟨d, hd⟩ := List.mem_iff_getElem?.1 h
  rw [List.getElem?_drop] at hd
  have hvalue : s.addedValues[s.polled.length + d]? = some data := by
    rw [State.addedValues, List.getElem?_map, hd]
    rfl
  obtain ⟨hlt, -⟩ := List.getElem?_eq_some_iff.1 hvalue
  have hroom := hi.queue.room
  obtain rfl := hi.cells _ _ _ hd
  refine ⟨?_, ?_⟩
  · rw [← hi.queue.length, hi.queue.window.cell _ (Nat.le_add_right _ d) hlt, hvalue]
  · rw [Ne, mod_eq_iff s.polled.length ⟨Nat.le_add_right _ d, by omega⟩ ⟨by omega, hroom⟩]
    exact Nat.ne_of_lt hlt

/-- **Single producer, single consumer**: in every interleaving, the values polled are a prefix of
the values added, which are a prefix of the values produced. When the producer is about to store to a
cell, the cell exists and no value waits in it; every value waiting is in its cell, and at most `size`
values wait. The consumer reads cells that exist. -/
theorem spsc_fifo (size : Nat) (h : size + 1 ≤ vectorMaxSize) :
    ∃ q, Queue.new size = some q ∧ ∀ values acts s, (State.init q values).exec acts = some s →
      s.polled <+: s.addedValues ∧ s.addedValues <+: values ∧
      (∀ data tail, s.producer = .cell data (some tail) → tail < s.queue.data.length ∧
        tail ∉ (s.added.drop s.polled.length).map Prod.fst) ∧
      (∀ cell data, (cell, data) ∈ s.added.drop s.polled.length → s.queue.data[cell]? = some data) ∧
      (∀ head, s.consumer = .cell (some head) → head < s.queue.data.length) ∧
      s.addedValues.length - s.polled.length ≤ size := by
  obtain ⟨q, hnew, hat⟩ := new_at h
  refine ⟨q, hnew, ?_⟩
  intro values acts s hexec
  have hi := inv_of_exec hat hexec
  refine ⟨?_, ?_, ?_, ?_, ?_, ?_⟩
  · rw [hi.polled]
    exact List.take_prefix _ _
  · rw [← produced_of_exec hexec, State.produced, List.append_assoc]
    exact List.prefix_append _ _
  · intro data tail hcell
    have hok := hi.producer
    rw [hcell] at hok
    obtain rfl := hok.2 tail rfl
    refine ⟨hi.queue.mod_lt_length _, ?_⟩
    intro hmem
    obtain ⟨⟨cell, data'⟩, hlive, rfl⟩ := List.mem_map.1 hmem
    exact (hi.live hlive).2 rfl
  · intro cell data hlive
    exact (hi.live hlive).1
  · intro head hcell
    have hok := hi.consumer
    rw [hcell] at hok
    obtain rfl := hok.2 head rfl
    exact hi.queue.mod_lt_length _
  · have hroom := hi.queue.room
    omega

/-- Size 1. The producer has loaded an old `head_` and finds the queue full, while the consumer takes
the value; the loads of the tests come in both orders. -/
theorem spsc_fifo_stale :
    ∃ q s, Queue.new 1 = some q ∧
      (State.init q [7, 8]).exec (List.flatten
        [[.call, .loadTail, .loadHead, .compare, .loadTail, .accessCell, .loadTail, .storeIndex].map .producer,
         [.call, .loadHead].map .producer,
         [.loadTail, .loadHead, .compare, .loadHead, .accessCell, .loadHead, .storeIndex].map .consumer,
         [.loadTail, .compare].map .producer]) = some s ∧
      s.polled = [7] ∧ s.polled <+: s.addedValues := by
  obtain ⟨q, hnew, hall⟩ := spsc_fifo 1 (by decide)
  obtain rfl : (⟨[0, 0], 2, 0, 0⟩ : Queue) = q := Option.some.inj hnew
  obtain ⟨s, hs, hpolled⟩ := Option.map_eq_some_iff.1 (by decide : ((State.init ⟨[0, 0], 2, 0, 0⟩ [7, 8]).exec
      (List.flatten
        [[.call, .loadTail, .loadHead, .compare, .loadTail, .accessCell, .loadTail, .storeIndex].map .producer,
         [.call, .loadHead].map .producer,
         [.loadTail, .loadHead, .compare, .loadHead, .accessCell, .loadHead, .storeIndex].map .consumer,
         [.loadTail, .compare].map .producer])).map State.polled = some [7])
  exact ⟨_, s, hnew, hs, hpolled, (hall _ _ s hs).1⟩

end LowLatency.NaiveQueue
