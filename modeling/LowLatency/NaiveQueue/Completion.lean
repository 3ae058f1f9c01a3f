import LowLatency.Lib.Fairness
import LowLatency.NaiveQueue.Spsc

/-!
# Do the producer and the consumer finish?

Both threads of `Spsc` wait in loops: `produce` calls `add` again on a full queue, `consume` calls `poll`
again on an empty one. `spsc_completes_iff` says when this comes to a good end: with a scheduler that is fair to
both, the consumer gets all values, in order, wherever the threads have got to before, except in a queue of
size 0. The test of `add` on such a queue is true from the start, and `produce` never returns.

* While a value waits, each step of the consumer brings it nearer to the store of `head_` (`consumer_nearer`). A `tail_`
  that was loaded too early costs it one more test.
* While the queue is empty, each step of the producer brings it nearer to the store of `tail_` (`producer_nearer`).
-/

namespace LowLatency.NaiveQueue

open CyclicBuffer Fairness

/-! ## The consumer -/

/-- What the consumer does next. The operands of the test may be loaded in the other order, too. -/
def Consuming.next : Consuming → Access
  | .test none _ => .loadHead
  | .test (some _) none => .loadTail
  | .test (some _) (some _) => .compare
  | .cell none => .loadHead
  | .cell (some _) => .accessCell
  | .index _ none => .loadHead
  | .index _ (some _) => .storeIndex

/-- The way to the store of `head_`, when a value waits. A `tail_` equal to `empty` is an old one. -/
def Consuming.toStore (empty : Nat) : Consuming → Nat
  | .index _ (some _) => 1
  | .index _ none => 2
  | .cell (some _) => 3
  | .cell none => 4
  | .test (some _) (some tail) => if tail = empty then 9 else 5
  | .test none (some tail) => if tail = empty then 10 else 6
  | .test (some _) none => 7
  | .test none none => 8

section
variable {size : Nat} {s s' : State} {a : Access}

theorem consumerStep_frame (h : s.consumerStep a = some s') :
    s'.added = s.added ∧ s'.producer = s.producer ∧ s.polled <+: s'.polled := by
  unfold State.consumerStep at h
  split at h
  case h_5 =>
    obtain ⟨elem, -, rfl⟩ := Option.map_eq_some_iff.1 h
    exact ⟨rfl, rfl, List.prefix_rfl⟩
  case h_7 =>
    obtain ⟨head, -, rfl⟩ := Option.map_eq_some_iff.1 h
    exact ⟨rfl, rfl, List.prefix_append _ _⟩
  case h_8 => cases h
  all_goals
    obtain rfl := Option.some.inj h
    exact ⟨rfl, rfl, List.prefix_rfl⟩

theorem consumer_nearer (hi : Inv size s) (hlt : s.polled.length < s.addedValues.length) (h : s.consumerStep a = some s') :
    s.polled.length < s'.polled.length ∨ s'.polled = s.polled ∧
      s'.consumer.toStore (s.polled.length % (size + 1)) < s.consumer.toStore (s.polled.length % (size + 1)) := by
  have hok := hi.consumer
  have hne : s.queue.tail ≠ s.polled.length % (size + 1) := by
    rw [hi.queue.tail, ne_comm, Ne, hi.queue.empty_iff (Nat.le_of_lt hlt) (Nat.le_refl _)]
    exact Nat.ne_of_lt hlt
  unfold State.consumerStep at h
  split at h
  case h_1 tail hcons =>
    obtain rfl := Option.some.inj h
    refine .inr ⟨rfl, ?_⟩
    rw [hcons]
    cases tail with
    | none => simp [Consuming.toStore]
    | some t =>
      simp only [Consuming.toStore]
      split <;> omega
  case h_2 head hcons =>
    obtain rfl := Option.some.inj h
    refine .inr ⟨rfl, ?_⟩
    rw [hcons]
    cases head with
    | none => simp [Consuming.toStore, hne]
    | some h => simp [Consuming.toStore, hne]
  case h_3 head tail hcons =>
    obtain rfl := Option.some.inj h
    rw [hcons] at hok
    refine .inr ⟨rfl, ?_⟩
    rw [hcons]
    by_cases hempty : head = tail
    · have hold : tail = s.polled.length % (size + 1) := hempty ▸ hok.1 head rfl
      simp [Consuming.toStore, hempty, hold]
    · simp only [Consuming.toStore, if_neg hempty]
      split <;> omega
  case h_4 hcons =>
    obtain rfl := Option.some.inj h
    simp [hcons, Consuming.toStore]
  case h_5 hcons =>
    obtain ⟨elem, -, rfl⟩ := Option.map_eq_some_iff.1 h
    simp [hcons, Consuming.toStore]
  case h_6 hcons =>
    obtain rfl := Option.some.inj h
    simp [hcons, Consuming.toStore]
  case h_7 =>
    obtain ⟨head, -, rfl⟩ := Option.map_eq_some_iff.1 h
    simp
  case h_8 => cases h

/-- The consumer is never stuck. -/
theorem consumer_next (hi : Inv size s) : (s.consumerStep s.consumer.next).isSome = true := by
  have hok := hi.consumer
  cases hcons : s.consumer with
  | test head tail =>
    rcases head with _ | h <;> rcases tail with _ | t <;> simp [State.consumerStep, hcons, Consuming.next]
  | cell head =>
    rw [hcons] at hok
    cases head with
    | none => simp [State.consumerStep, hcons, Consuming.next]
    | some h =>
      simp only [State.consumerStep, hcons, Consuming.next]
      rw [hok.2 h rfl, hi.queue.oldest hok.1, List.getElem?_eq_getElem hok.1]
      rfl
  | index elem head =>
    rw [hcons] at hok
    cases head with
    | none => simp [State.consumerStep, hcons, Consuming.next]
    | some h =>
      simp only [State.consumerStep, hcons, Consuming.next]
      rw [hok.2 h rfl, hi.queue.capacity, remainder_next (Nat.succ_pos size) hi.queue.noWrap]
      rfl

end

/-! ## The producer -/

/-- What the producer does next. -/
def Producing.next : Producing → Access
  | .idle => .call
  | .test _ none _ => .loadTail
  | .test _ (some _) none => .loadHead
  | .test _ (some _) (some _) => .compare
  | .cell _ none => .loadTail
  | .cell _ (some _) => .accessCell
  | .index _ _ none => .loadTail
  | .index _ _ (some _) => .storeIndex

/-- The way to the store of `tail_`, when there is room. A `head_` equal to `full` is an old one. -/
def Producing.toStore (full : Nat) : Producing → Nat
  | .index _ _ (some _) => 1
  | .index _ _ none => 2
  | .cell _ (some _) => 3
  | .cell _ none => 4
  | .test _ (some _) (some head) => if head = full then 9 else 5
  | .test _ none (some head) => if head = full then 10 else 6
  | .test _ (some _) none => 7
  | .test _ none none => 8
  | .idle => 11

section
variable {size : Nat} {s s' : State} {a : Access}

theorem producerStep_frame (h : s.producerStep a = some s') :
    s'.polled = s.polled ∧ s'.consumer = s.consumer ∧ s.added <+: s'.added := by
  unfold State.producerStep at h
  split at h
  case h_4 =>
    obtain ⟨next, -, rfl⟩ := Option.map_eq_some_iff.1 h
    exact ⟨rfl, rfl, List.prefix_rfl⟩
  case h_6 =>
    obtain ⟨cells, -, rfl⟩ := Option.map_eq_some_iff.1 h
    exact ⟨rfl, rfl, List.prefix_rfl⟩
  case h_8 =>
    obtain ⟨tail, -, rfl⟩ := Option.map_eq_some_iff.1 h
    exact ⟨rfl, rfl, List.prefix_append _ _⟩
  case h_9 => cases h
  all_goals
    obtain rfl := Option.some.inj h
    exact ⟨rfl, rfl, List.prefix_rfl⟩

theorem producer_nearer (hi : Inv size s) (hroom : s.addedValues.length < s.polled.length + size)
    (h : s.producerStep a = some s') :
    s.addedValues.length < s'.addedValues.length ∨ s'.addedValues = s.addedValues ∧
      s'.producer.toStore ((s.addedValues.length + 1) % (size + 1)) <
        s.producer.toStore ((s.addedValues.length + 1) % (size + 1)) := by
  have hok := hi.producer
  have hne : s.queue.head ≠ (s.addedValues.length + 1) % (size + 1) := by
    rw [hi.queue.head, ne_comm, Ne, full_iff hi.queue.window.lo_le hi.queue.room]
    omega
  unfold State.producerStep at h
  split at h
  case h_1 hprod _ =>
    obtain rfl := Option.some.inj h
    refine .inr ⟨rfl, ?_⟩
    simp [hprod, Producing.toStore]
  case h_2 head hprod =>
    obtain rfl := Option.some.inj h
    refine .inr ⟨rfl, ?_⟩
    rw [hprod]
    cases head with
    | none => simp [Producing.toStore]
    | some h =>
      simp only [Producing.toStore]
      split <;> omega
  case h_3 tail hprod =>
    obtain rfl := Option.some.inj h
    refine .inr ⟨rfl, ?_⟩
    rw [hprod]
    cases tail with
    | none => simp [Producing.toStore, hne]
    | some t => simp [Producing.toStore, hne]
  case h_4 data tail head hprod =>
    rw [hprod] at hok
    rw [hok.1 tail rfl, hi.queue.capacity, remainder_next (Nat.succ_pos size) hi.queue.noWrap] at h
    obtain rfl := Option.some.inj h
    refine .inr ⟨rfl, ?_⟩
    rw [hprod]
    by_cases hfull : (s.addedValues.length + 1) % (size + 1) = head
    · simp [Producing.toStore, hfull]
    · simp only [Producing.toStore, if_neg hfull]
      split <;> omega
  case h_6 hprod =>
    obtain ⟨cells, -, rfl⟩ := Option.map_eq_some_iff.1 h
    refine .inr ⟨rfl, ?_⟩
    simp [hprod, Producing.toStore]
  case h_8 hprod =>
    obtain ⟨tail, -, rfl⟩ := Option.map_eq_some_iff.1 h
    refine .inl ?_
    simp [State.addedValues]
  case h_9 => cases h
  all_goals
    obtain rfl := Option.some.inj h
    refine .inr ⟨rfl, ?_⟩
    simp [*, Producing.toStore]

/-- The producer is not stuck before it has added all values. -/
theorem producer_next (hi : Inv size s) (hleft : s.addedValues.length < s.produced.length) :
    (s.producerStep s.producer.next).isSome = true := by
  have hok := hi.producer
  cases hprod : s.producer with
  | idle =>
    cases hvalues : s.values with
    | nil => simp [State.produced, hprod, hvalues, Producing.data] at hleft
    | cons data values => simp [State.producerStep, hprod, hvalues, Producing.next]
  | test data tail head =>
    rw [hprod] at hok
    rcases tail with _ | t <;> rcases head with _ | h
    case some.some =>
      simp only [State.producerStep, hprod, Producing.next]
      rw [hok.1 t rfl, hi.queue.capacity, remainder_next (Nat.succ_pos size) hi.queue.noWrap]
      rfl
    all_goals simp [State.producerStep, hprod, Producing.next]
  | cell data tail =>
    rw [hprod] at hok
    cases tail with
    | none => simp [State.producerStep, hprod, Producing.next]
    | some t =>
      simp only [State.producerStep, hprod, Producing.next]
      rw [storeAt_of_lt (hok.2 t rfl ▸ hi.queue.mod_lt_length _)]
      rfl
  | index data written tail =>
    rw [hprod] at hok
    cases tail with
    | none => simp [State.producerStep, hprod, Producing.next]
    | some t =>
      simp only [State.producerStep, hprod, Producing.next]
      rw [hok.2.2.2 t rfl, hi.queue.capacity, remainder_next (Nat.succ_pos size) hi.queue.noWrap]
      rfl

end

/-! ## Fair schedules -/

/-- The threads are at work on `values`. -/
structure Sending (size : Nat) (values : List Int) (u : State) : Prop where
  inv : Inv size u
  produced : u.produced = values

section
variable {size k : Nat} {values : List Int} {s : State} {order : Nat → Act}

theorem Inv.step {u u' : State} {a : Act} (hi : Inv size u) (h : u.step a = some u') : Inv size u' := by
  cases a with
  | producer a => exact hi.producerStep h
  | consumer a => exact hi.consumerStep h

theorem Sending.step {u u' : State} {a : Act} (hu : Sending size values u) (h : u.step a = some u') :
    Sending size values u' := ⟨hu.inv.step h, (produced_step h).trans hu.produced⟩

/-- The consumer polls a value that waits. -/
theorem polls (hfair : ∀ a, Recurs order a) (k : Nat) :
    Leads State.step order s (fun u => Sending size values u ∧ u.polled.length = k ∧ k < u.addedValues.length)
      (fun u => Sending size values u ∧ k < u.polled.length) := by
  have hown : ∀ u a u', Sending size values u ∧ u.polled.length = k ∧ k < u.addedValues.length → u.consumerStep a = some u' →
      (Sending size values u' ∧ k < u'.polled.length) ∨
        (Sending size values u' ∧ u'.polled.length = k ∧ k < u'.addedValues.length) ∧
          u'.consumer.toStore (k % (size + 1)) < u.consumer.toStore (k % (size + 1)) := by
    rintro u a u' ⟨hu, rfl, hlt⟩ hstep
    have hu' := hu.step (a := .consumer a) hstep
    obtain hmore | ⟨hsame, hless⟩ := consumer_nearer hu.inv hlt hstep
    · exact .inl ⟨hu', hmore⟩
    · refine .inr ⟨⟨hu', by rw [hsame], ?_⟩, hless⟩
      rw [State.addedValues, (consumerStep_frame hstep).1]
      exact hlt
  refine Leads.progress (fun u => u.consumer.toStore (k % (size + 1))) (fun u => .consumer u.consumer.next)
    (fun _ _ => hfair _) ?_ ?_
  · rintro u i u' - hu hstep
    cases hact : order i with
    | consumer a =>
      rw [hact] at hstep
      obtain hdone | ⟨hu', hless⟩ := hown u a u' hu hstep
      · exact .inl hdone
      · exact .inr ⟨hu', .inl hless⟩
    | producer a =>
      rw [hact] at hstep
      obtain ⟨hpolled, hcons, hadded⟩ := producerStep_frame hstep
      refine .inr ⟨⟨hu.1.step (a := .producer a) hstep, ?_, ?_⟩, .inr ⟨?_, ?_⟩⟩
      · rw [hpolled, hu.2.1]
      · exact Nat.lt_of_lt_of_le hu.2.2 (hadded.map Prod.snd).length_le
      · rw [hcons]
      · rw [hcons]
  · intro u hu
    obtain ⟨u', hstep⟩ := Option.isSome_iff_exists.1 (consumer_next hu.1.inv)
    exact ⟨u', hstep, hown u _ u' hu hstep⟩

/-- The producer adds a value to an empty queue. -/
theorem adds (hsize : 0 < size) (hfair : ∀ a, Recurs order a) (hk : k < values.length) :
    Leads State.step order s (fun u => Sending size values u ∧ u.polled.length = k ∧ u.addedValues.length = k)
      (fun u => Sending size values u ∧ u.polled.length = k ∧ k < u.addedValues.length) := by
  have hown : ∀ u a u', Sending size values u ∧ u.polled.length = k ∧ u.addedValues.length = k → u.producerStep a = some u' →
      (Sending size values u' ∧ u'.polled.length = k ∧ k < u'.addedValues.length) ∨
        (Sending size values u' ∧ u'.polled.length = k ∧ u'.addedValues.length = k) ∧
          u'.producer.toStore ((k + 1) % (size + 1)) < u.producer.toStore ((k + 1) % (size + 1)) := by
    rintro u a u' ⟨hu, hpolled, rfl⟩ hstep
    have hu' := hu.step (a := .producer a) hstep
    have hpolled' : u'.polled.length = u.addedValues.length := by
      rw [(producerStep_frame hstep).1, hpolled]
    obtain hmore | ⟨hsame, hless⟩ := producer_nearer hu.inv (by omega) hstep
    · exact .inl ⟨hu', hpolled', hmore⟩
    · exact .inr ⟨⟨hu', hpolled', by rw [hsame]⟩, hless⟩
  refine Leads.progress (fun u => u.producer.toStore ((k + 1) % (size + 1))) (fun u => .producer u.producer.next)
    (fun _ _ => hfair _) ?_ ?_
  · rintro u i u' - hu hstep
    cases hact : order i with
    | producer a =>
      rw [hact] at hstep
      obtain hdone | ⟨hu', hless⟩ := hown u a u' hu hstep
      · exact .inl hdone
      · exact .inr ⟨hu', .inl hless⟩
    | consumer a =>
      rw [hact] at hstep
      obtain ⟨hadded, hprod, hpolled⟩ := consumerStep_frame hstep
      have hu' := hu.1.step (a := .consumer a) hstep
      have hadded' : u'.addedValues.length = k := by
        rw [State.addedValues, hadded]
        exact hu.2.2
      -- nothing to poll
      have hle := hu'.inv.queue.window.lo_le
      have hmore := hpolled.length_le
      refine .inr ⟨⟨hu', by omega, hadded'⟩, .inr ⟨?_, ?_⟩⟩
      · rw [hprod]
      · rw [hprod]
  · intro u hu
    have hleft : u.addedValues.length < u.produced.length := by
      rw [hu.1.produced, hu.2.2]
      exact hk
    obtain ⟨u', hstep⟩ := Option.isSome_iff_exists.1 (producer_next hu.1.inv hleft)
    exact ⟨u', hstep, hown u _ u' hu hstep⟩

/-- When as many values are polled as there are, they are polled. -/
theorem Inv.polled_eq (hi : Inv size s) (h : s.produced.length ≤ s.polled.length) : s.polled = s.produced := by
  have hlo := hi.queue.window.lo_le
  have hpre : s.addedValues <+: s.produced := by
    rw [State.produced, List.append_assoc]
    exact List.prefix_append _ _
  have hle := hpre.length_le
  have hall : s.addedValues = s.produced := hpre.eq_of_length (by omega)
  rw [hi.polled, ← hall, List.take_of_length_le (by omega)]

/-- The consumer gets all values. -/
theorem all_polled (hsize : 0 < size) (hfair : ∀ a, Recurs order a) :
    Leads State.step order s (Sending size values) (fun u => u.polled = values) := by
  refine Leads.descend (fun u => values.length - u.polled.length) ?_
  rintro r n ⟨hu, hr⟩
  generalize hk : (states State.step order s n).polled.length = k at hr
  by_cases hdone : values.length ≤ k
  · refine ⟨n, Nat.le_refl n, .inr ?_⟩
    rw [← hu.produced]
    exact hu.inv.polled_eq (by rw [hu.produced, hk]; exact hdone)
  · have hnext : ∃ m ≥ n, Sending size values (states State.step order s m) ∧ k < (states State.step order s m).polled.length := by
      have hlo := hu.inv.queue.window.lo_le
      rw [hk] at hlo
      rcases Nat.lt_or_eq_of_le hlo with hlt | heq
      · exact polls hfair k n ⟨hu, hk, hlt⟩
      · exact ((adds hsize hfair (Nat.not_le.1 hdone)).trans (polls hfair k)) n ⟨hu, hk, heq.symm⟩
    obtain ⟨m, hm, hu', hmore⟩ := hnext
    exact ⟨m, hm, .inl ⟨hu', by omega⟩⟩

end

/-! ## A queue of size 0 -/

section
variable {s : State}

/-- `added` grows only where `add` stores `tail_`. -/
theorem added_step {s' : State} {a : Act} (h : s.step a = some s') :
    s'.added = s.added ∨ ∃ data written tail, s.producer = .index data written tail := by
  cases a with
  | producer a =>
    simp only [State.step, State.producerStep] at h
    split at h
    case h_4 =>
      obtain ⟨next, -, rfl⟩ := Option.map_eq_some_iff.1 h
      exact .inl rfl
    case h_6 =>
      obtain ⟨cells, -, rfl⟩ := Option.map_eq_some_iff.1 h
      exact .inl rfl
    case h_8 hprod => exact .inr ⟨_, _, _, hprod⟩
    case h_9 => cases h
    all_goals
      obtain rfl := Option.some.inj h
      exact .inl rfl
  | consumer a => exact .inl (consumerStep_frame h).1

/-- No value is ever added: there is never room for one. -/
theorem nothing_added {q : Queue} (hq : q.At 0 [] 0) {values : List Int} {acts : List Act}
    (h : (State.init q values).exec acts = some s) : s.added = [] := by
  refine (Runs.run_inv (I := fun s => Inv 0 s ∧ s.added = []) ?_ ⟨inv_init hq values, rfl⟩ Runs.meets_true h).2
  rintro s a s' ⟨hi, hnil⟩ - hstep
  refine ⟨hi.step hstep, ?_⟩
  obtain hsame | ⟨data, written, tail, hprod⟩ := added_step hstep
  · rw [hsame, hnil]
  · have hok := hi.producer
    rw [hprod] at hok
    have hlo := hi.queue.window.lo_le
    have hroom : s.addedValues.length < s.polled.length + 0 := hok.1
    omega

theorem nothing_polled {q : Queue} (hq : q.At 0 [] 0) {values : List Int} {acts : List Act}
    (h : (State.init q values).exec acts = some s) : s.polled = [] := by
  rw [(inv_of_exec hq h).polled, State.addedValues, nothing_added hq h, List.map_nil, List.take_nil]

end

/-- **The threads do finish** unless the queue has size 0 and there is a value to send: wherever an interleaving has brought
them, in every schedule in which each access of each thread has its turn again and again, the consumer has all values, in
order, at some time. With a queue of size 0 no schedule gets there. -/
theorem spsc_completes_iff (size : Nat) (h : size + 1 ≤ vectorMaxSize) :
    ∃ q, Queue.new size = some q ∧ ∀ values acts s, (State.init q values).exec acts = some s →
      ∀ order, (∀ a, Recurs order a) →
        ((∃ n, (states State.step order s n).polled = values) ↔ (size = 0 → values = [])) := by
  obtain ⟨q, hnew, hat⟩ := new_at h
  refine ⟨q, hnew, ?_⟩
  intro values acts s hexec order hfair
  have hstuck : size = 0 → ∀ n, (states State.step order s n).polled = [] := by
    rintro rfl n
    obtain ⟨rest, hrest⟩ := states_run State.step order s n
    exact nothing_polled hat (Runs.run_append.2 ⟨s, hexec, hrest⟩)
  constructor
  · rintro ⟨n, hn⟩ hsize
    rw [← hn, hstuck hsize n]
  · intro hsize
    rcases Nat.eq_zero_or_pos size with hzero | hpos
    · refine ⟨0, ?_⟩
      rw [hsize hzero]
      exact hstuck hzero 0
    · obtain ⟨n, -, hn⟩ := all_polled (s := s) hpos hfair 0 ⟨inv_of_exec hat hexec, produced_of_exec hexec⟩
      exact ⟨n, hn⟩

/-- Every access, of the producer and of the consumer. -/
def everyAct : List Act :=
  [.call, .loadHead, .loadTail, .compare, .accessCell, .storeIndex].flatMap fun a => [.producer a, .consumer a]

/-- They take turns. -/
def roundRobin (i : Nat) : Act := everyAct.getD (i % 12) (.producer .call)

theorem roundRobin_recurs (a : Act) : Recurs roundRobin a := by
  have hmem : a ∈ everyAct := by rcases a with a | a <;> cases a <;> decide
  obtain ⟨k, hk, rfl⟩ := List.getElem_of_mem hmem
  intro n
  have hlt : k < 12 := hk
  refine ⟨12 * n + k, by omega, ?_⟩
  have hturn : (12 * n + k) % 12 = k := by omega
  rw [roundRobin, hturn, List.getD_eq_getElem _ _ hk]

/-- Size 1, with the producer in the middle of a second `add`: it has loaded the `head_` of before. -/
theorem spsc_completes_iff_stale :
    ∃ q s, Queue.new 1 = some q ∧
      (State.init q [7, 8]).exec ([.call, .loadTail, .loadHead, .compare, .loadTail, .accessCell, .loadTail, .storeIndex,
        .call, .loadHead].map .producer) = some s ∧
      ∃ n, (states State.step roundRobin s n).polled = [7, 8] := by
  obtain ⟨q, hnew, hall⟩ := spsc_completes_iff 1 (by decide)
  obtain rfl : (⟨[0, 0], 2, 0, 0⟩ : Queue) = q := Option.some.inj hnew
  obtain ⟨s, hs⟩ := Option.isSome_iff_exists.1 (by decide : ((State.init ⟨[0, 0], 2, 0, 0⟩ [7, 8]).exec
    ([.call, .loadTail, .loadHead, .compare, .loadTail, .accessCell, .loadTail, .storeIndex,
      .call, .loadHead].map .producer)).isSome)
  exact ⟨_, s, hnew, hs, (hall _ _ s hs roundRobin roundRobin_recurs).2 (by decide)⟩

end LowLatency.NaiveQueue
