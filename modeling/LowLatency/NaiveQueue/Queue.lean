import LowLatency.Basic
import LowLatency.Lib.CyclicWindow

/-!
# The naive `Queue`

A ring of `size + 1` cells with two indices. It is empty when the indices are equal and full when the
next `tail_` is `head_`, so one cell always stays free and `size` values fit: the comment at the top
of `add` asks whether anything can be added when `size == 1`, and the answer is yes (one value). The
one size too many is `SIZE_MAX`: `size+1` wraps to 0, which is not too long for a vector.

| here | there |
| --- | --- |
| `vectorMaxSize` | `std::vector<long>::max_size()`, `PTRDIFF_MAX / sizeof(long)` |
| `Queue.new`     | the constructor (`queue.h:11-13`) |
| `Queue.add`     | `add` (lines 15-23) |
| `Queue.poll`    | `poll` (lines 25-31) |

The constructor throws when the vector would be too long. A remainder by 0 and a subscript outside
the vector are undefined. All three are `none`.
-/

namespace LowLatency.NaiveQueue

open CyclicBuffer

def vectorMaxSize : Nat := (2 ^ 63 - 1) / 8

/-- `a % c` on `size_t`. -/
def remainder (a c : Nat) : Option Nat := if c = 0 then none else some (a % c)

/-- `data_[i] = elem`. -/
def storeAt (data : List Int) (i : Nat) (elem : Int) : Option (List Int) :=
  if i < data.length then some (data.set i elem) else none

structure Queue where
  data : List Int
  capacity : Nat
  head : Nat
  tail : Nat
deriving DecidableEq

/-- The vector is value-initialised; `capacity_` is computed before its length is checked. -/
def Queue.new (size : Nat) : Option Queue :=
  let capacity := sizeT (size + 1)
  if capacity ≤ vectorMaxSize then some ⟨List.replicate capacity 0, capacity, 0, 0⟩ else none

def Queue.add (q : Queue) (elem : Int) : Option (Bool × Queue) :=
  (remainder (sizeT (q.tail + 1)) q.capacity).bind fun next =>
    if next = q.head then some (false, q)
    else
      (storeAt q.data q.tail elem).bind fun data =>
        (remainder (sizeT (q.tail + 1)) q.capacity).map fun tail => (true, { q with data, tail })

/-- Returns the value that the caller's `elem` has afterwards, too. -/
def Queue.poll (q : Queue) (elem : Int) : Option (Bool × Int × Queue) :=
  if q.head = q.tail then some (false, elem, q)
  else
    q.data[q.head]?.bind fun elem =>
      (remainder (sizeT (q.head + 1)) q.capacity).map fun head => (true, elem, { q with head })

/-! ## Sequences of calls -/

/-- A call: `add(elem)`, or `poll(elem)` on a variable with the value `elem`. -/
inductive Call where
  | add (elem : Int)
  | poll (elem : Int)
deriving DecidableEq

/-- What a call returns, with the value of the variable after a `poll`. -/
inductive Result where
  | added (ok : Bool)
  | polled (ok : Bool) (elem : Int)
deriving DecidableEq

def Queue.call (q : Queue) : Call → Option (Result × Queue)
  | .add elem => (q.add elem).map fun (ok, q) => (.added ok, q)
  | .poll elem => (q.poll elem).map fun (ok, elem, q) => (.polled ok elem, q)

def Queue.calls (q : Queue) : List Call → Option (List Result × Queue)
  | [] => some ([], q)
  | c :: cs => (q.call c).bind fun (r, q) => (q.calls cs).map fun (rs, q) => (r :: rs, q)

/-! ## The bounded queue it stands for -/

namespace Fifo

def add (size : Nat) (l : List Int) (elem : Int) : Bool × List Int :=
  if l.length < size then (true, l ++ [elem]) else (false, l)

def poll (elem : Int) : List Int → Bool × Int × List Int
  | [] => (false, elem, [])
  | x :: l => (true, x, l)

def call (size : Nat) (l : List Int) : Call → Result × List Int
  | .add elem => (.added (add size l elem).1, (add size l elem).2)
  | .poll elem => (.polled (poll elem l).1 (poll elem l).2.1, (poll elem l).2.2)

def calls (size : Nat) (l : List Int) : List Call → List Result × List Int
  | [] => ([], l)
  | c :: cs => ((call size l c).1 :: (calls size (call size l c).2 cs).1, (calls size (call size l c).2 cs).2)

end Fifo

/-! ## Positions behind the indices

`added` is everything that was ever added and `lo` counts what was polled; the indices are these
counts modulo the capacity. -/

structure Queue.At (q : Queue) (size : Nat) (added : List Int) (lo : Nat) : Prop where
  noWrap : size + 1 < 2 ^ 64
  capacity : q.capacity = size + 1
  length : q.data.length = size + 1
  head : q.head = lo % (size + 1)
  tail : q.tail = added.length % (size + 1)
  window : Window q.data added lo
  room : added.length < lo + (size + 1)

theorem remainder_of_ne_zero {a c : Nat} (h : c ≠ 0) : remainder a c = some (a % c) := if_neg h

/-- An index moves on as its position does. -/
theorem remainder_next {N : Nat} (h0 : 0 < N) (hN : N < 2 ^ 64) (j : Nat) :
    remainder (sizeT (j % N + 1)) N = some ((j + 1) % N) := by
  have hlt : j % N < N := Nat.mod_lt j h0
  rw [sizeT_of_lt (by omega), remainder_of_ne_zero (Nat.ne_of_gt h0), mod_succ_mod]

theorem storeAt_of_lt {data : List Int} {i : Nat} (h : i < data.length) (elem : Int) :
    storeAt data i elem = some (data.set i elem) := if_pos h

theorem new_at {size : Nat} (h : size + 1 ≤ vectorMaxSize) : ∃ q, Queue.new size = some q ∧ q.At size [] 0 := by
  have hlt : size + 1 < 2 ^ 64 := by
    unfold vectorMaxSize at h
    omega
  refine ⟨⟨List.replicate (size + 1) 0, size + 1, 0, 0⟩, ?_, ?_⟩
  · unfold Queue.new
    rw [sizeT_of_lt hlt]
    exact if_pos h
  · exact ⟨hlt, rfl, List.length_replicate, (Nat.zero_mod _).symm, (Nat.zero_mod _).symm, window_nil _, by simp⟩

section
variable {q : Queue} {size lo : Nat} {added : List Int}

theorem Queue.At.head_lt (h : q.At size added lo) : q.head < q.capacity := by
  rw [h.head, h.capacity]
  exact Nat.mod_lt _ (Nat.succ_pos size)

theorem Queue.At.tail_lt (h : q.At size added lo) : q.tail < q.capacity := by
  rw [h.tail, h.capacity]
  exact Nat.mod_lt _ (Nat.succ_pos size)

/-- The test of `add`, against any position that `head_` may have had within the last lap. -/
theorem full_iff {size k t : Nat} (hk : k ≤ t) (ht : t < k + (size + 1)) :
    (t + 1) % (size + 1) = k % (size + 1) ↔ t = k + size := by
  rcases Nat.lt_or_ge (t + 1) (k + (size + 1)) with hlt | hge
  · rw [mod_eq_iff k ⟨by omega, hlt⟩ ⟨Nat.le_refl k, by omega⟩]
    omega
  · obtain rfl : t = k + size := by omega
    simp [Nat.add_assoc]

/-- `add` on a full queue changes nothing. -/
theorem Queue.At.add_full (h : q.At size added lo) (hfull : added.length = lo + size) (elem : Int) :
    q.add elem = some (false, q) := by
  unfold Queue.add
  rw [h.tail, h.capacity, remainder_next (Nat.succ_pos size) h.noWrap, Option.bind_some, h.head]
  exact if_pos ((full_iff h.window.lo_le h.room).2 hfull)

/-- Writing the cell at `tail_` disturbs none of the values stored. -/
theorem Queue.At.storeCell (h : q.At size added lo) (elem : Int) :
    Queue.At { q with data := q.data.set (added.length % (size + 1)) elem } size added lo := by
  refine ⟨h.noWrap, h.capacity, by rw [List.length_set, h.length], h.head, h.tail, ?_, h.room⟩
  rw [← h.length]
  exact h.window.set (by rw [h.length]; exact h.room) elem

/-- Moving `tail_` adds what its cell holds. -/
theorem Queue.At.publish (h : q.At size added lo) (hroom : added.length < lo + size) {elem : Int}
    (hx : q.data[added.length % (size + 1)]? = some elem) :
    Queue.At { q with tail := (added.length + 1) % (size + 1) } size (added ++ [elem]) lo := by
  have hlen : (added ++ [elem]).length = added.length + 1 := by simp
  refine ⟨h.noWrap, h.capacity, h.length, h.head, by rw [hlen], ?_, by rw [hlen]; omega⟩
  rw [← h.length] at hx
  exact h.window.snoc (by rw [h.length]; exact h.room) hx

/-- Moving `head_` takes the oldest value away. -/
theorem Queue.At.take (h : q.At size added lo) (hlt : lo < added.length) :
    Queue.At { q with head := (lo + 1) % (size + 1) } size added (lo + 1) :=
  ⟨h.noWrap, h.capacity, h.length, rfl, h.tail, h.window.advance hlt, by have := h.room; omega⟩

/-- A cell index is in range. -/
theorem Queue.At.mod_lt_length (h : q.At size added lo) (j : Nat) : j % (size + 1) < q.data.length := by
  rw [h.length]
  exact Nat.mod_lt j (Nat.succ_pos size)

/-- With room, `add` appends. -/
theorem Queue.At.add_room (h : q.At size added lo) (hroom : added.length < lo + size) (elem : Int) :
    ∃ q', q.add elem = some (true, q') ∧ q'.At size (added ++ [elem]) lo := by
  have hmod := h.mod_lt_length added.length
  have hne : ¬(added.length + 1) % (size + 1) = q.head := by
    rw [h.head, full_iff h.window.lo_le h.room]
    omega
  refine ⟨⟨q.data.set (added.length % (size + 1)) elem, q.capacity, q.head, (added.length + 1) % (size + 1)⟩, ?_, ?_⟩
  · unfold Queue.add
    rw [h.tail, h.capacity, remainder_next (Nat.succ_pos size) h.noWrap, Option.bind_some, if_neg hne,
      storeAt_of_lt hmod, Option.bind_some]
    rfl
  · exact (h.storeCell elem).publish hroom (List.getElem?_set_self hmod)

/-- `poll` on an empty queue changes nothing. -/
theorem Queue.At.poll_empty (h : q.At size added lo) (hempty : lo = added.length) (elem : Int) :
    q.poll elem = some (false, elem, q) := by
  unfold Queue.poll
  rw [h.head, h.tail, hempty]
  exact if_pos rfl

/-- The test of `poll`, against any position that `tail_` may have had since then. -/
theorem Queue.At.empty_iff (h : q.At size added lo) {k : Nat} (hk : lo ≤ k) (hk' : k ≤ added.length) :
    lo % (size + 1) = k % (size + 1) ↔ lo = k := by
  have hroom := h.room
  exact mod_eq_iff lo ⟨Nat.le_refl lo, by omega⟩ ⟨hk, by omega⟩

/-- The cell at `head_` holds the oldest value. -/
theorem Queue.At.oldest (h : q.At size added lo) (hlt : lo < added.length) :
    q.data[lo % (size + 1)]? = added[lo]? := by
  rw [← h.length]
  exact h.window.cell lo (Nat.le_refl lo) hlt

/-- `poll` takes the oldest value. -/
theorem Queue.At.poll_some (h : q.At size added lo) {x : Int} (hx : added[lo]? = some x) (elem : Int) :
    ∃ q', q.poll elem = some (true, x, q') ∧ q'.At size added (lo + 1) := by
  obtain ⟨hlt, -⟩ := List.getElem?_eq_some_iff.1 hx
  have hne : ¬q.head = q.tail := by
    rw [h.head, h.tail, h.empty_iff h.window.lo_le (Nat.le_refl _)]
    exact Nat.ne_of_lt hlt
  refine ⟨⟨q.data, q.capacity, (lo + 1) % (size + 1), q.tail⟩, ?_, h.take hlt⟩
  unfold Queue.poll
  rw [if_neg hne, h.head, h.oldest hlt, hx, Option.bind_some, h.capacity,
    remainder_next (Nat.succ_pos size) h.noWrap]
  rfl

/-! ## Refinement -/

/-- The values in the queue. -/
def Stores (q : Queue) (size : Nat) (l : List Int) : Prop := ∃ added lo, q.At size added lo ∧ l = added.drop lo

/-- **One call** returns what the bounded queue returns. -/
theorem Stores.call {l : List Int} (h : Stores q size l) (c : Call) :
    ∃ q', q.call c = some ((Fifo.call size l c).1, q') ∧ Stores q' size (Fifo.call size l c).2 := by
  obtain ⟨added, lo, hat, rfl⟩ := h
  have hlen : (added.drop lo).length = added.length - lo := List.length_drop
  have hlo := hat.window.lo_le
  have hroom := hat.room
  cases c with
  | add elem =>
    rcases Nat.lt_or_ge added.length (lo + size) with hlt | hge
    · obtain ⟨q', hadd, hat'⟩ := hat.add_room hlt elem
      have hspec : Fifo.add size (added.drop lo) elem = (true, (added ++ [elem]).drop lo) := by
        rw [List.drop_append_of_le_length hlo]
        exact if_pos (by omega)
      refine ⟨q', ?_, added ++ [elem], lo, hat', ?_⟩
      · simp only [Queue.call, hadd, Fifo.call, hspec, Option.map_some]
      · simp only [Fifo.call, hspec]
    · have hspec : Fifo.add size (added.drop lo) elem = (false, added.drop lo) := if_neg (by omega)
      refine ⟨q, ?_, added, lo, hat, ?_⟩
      · simp only [Queue.call, hat.add_full (by omega) elem, Fifo.call, hspec, Option.map_some]
      · simp only [Fifo.call, hspec]
  | poll elem =>
    rcases Nat.lt_or_eq_of_le hlo with hlt | heq
    · obtain ⟨q', hpoll, hat'⟩ := hat.poll_some (List.getElem?_eq_getElem hlt) elem
      have hspec : Fifo.poll elem (added.drop lo) = (true, added[lo], added.drop (lo + 1)) := by
        rw [List.drop_eq_getElem_cons hlt]
        rfl
      refine ⟨q', ?_, added, lo + 1, hat', ?_⟩
      · simp only [Queue.call, hpoll, Fifo.call, hspec, Option.map_some]
      · simp only [Fifo.call, hspec]
    · have hspec : Fifo.poll elem (added.drop lo) = (false, elem, added.drop lo) := by
        rw [heq, List.drop_length]
        rfl
      refine ⟨q, ?_, added, lo, hat, ?_⟩
      · simp only [Queue.call, hat.poll_empty heq elem, Fifo.call, hspec, Option.map_some]
      · simp only [Fifo.call, hspec]

theorem Stores.calls {l : List Int} (h : Stores q size l) (cs : List Call) :
    ∃ q', q.calls cs = some ((Fifo.calls size l cs).1, q') ∧ Stores q' size (Fifo.calls size l cs).2 := by
  induction cs generalizing q l with
  | nil => exact ⟨q, rfl, h⟩
  | cons c cs ih =>
    obtain ⟨q₁, hcall, h₁⟩ := h.call c
    obtain ⟨q₂, hcalls, h₂⟩ := ih h₁
    refine ⟨q₂, ?_, h₂⟩
    simp only [Queue.calls, hcall, Option.bind_some, hcalls, Option.map_some, Fifo.calls]

end

/-- **The queue is a FIFO of capacity `size`**: for every sequence of calls the results are those of
the bounded queue, and both indices are below the capacity. A call that returns `false` leaves the
queue as it was, not only its contents, and a failed `poll` also the caller's variable. -/
theorem queue_refines_fifo (size : Nat) (h : size + 1 ≤ vectorMaxSize) :
    ∃ q₀, Queue.new size = some q₀ ∧ ∀ cs, ∃ q, q₀.calls cs = some ((Fifo.calls size [] cs).1, q) ∧
      q.head < q.capacity ∧ q.tail < q.capacity ∧
      (∀ elem, ¬(Fifo.calls size [] cs).2.length < size → q.add elem = some (false, q)) ∧
      (∀ elem, (Fifo.calls size [] cs).2 = [] → q.poll elem = some (false, elem, q)) := by
  obtain ⟨q₀, hnew, hat₀⟩ := new_at h
  refine ⟨q₀, hnew, ?_⟩
  intro cs
  have hnil : Stores q₀ size [] := ⟨[], 0, hat₀, rfl⟩
  obtain ⟨q, hcalls, added, lo, hat, hl⟩ := hnil.calls cs
  have hlo := hat.window.lo_le
  have hroom := hat.room
  refine ⟨q, hcalls, hat.head_lt, hat.tail_lt, ?_, ?_⟩
  · intro elem hfull
    rw [hl, List.length_drop] at hfull
    exact hat.add_full (by omega) elem
  · intro elem hempty
    rw [hl, List.drop_eq_nil_iff] at hempty
    exact hat.poll_empty (by omega) elem

/-- Size 1 admits one value; the second `add` fails, and the second `poll` leaves its 9 alone. -/
theorem queue_refines_fifo_one :
    ∃ q₀, Queue.new 1 = some q₀ ∧ ∃ q, q₀.calls [.add 5, .add 6, .poll 9, .poll 9] =
      some ([.added true, .added false, .polled true 5, .polled false 9], q) := by
  obtain ⟨q₀, hnew, hall⟩ := queue_refines_fifo 1 (by decide)
  obtain ⟨q, hcalls, -⟩ := hall [.add 5, .add 6, .poll 9, .poll 9]
  exact ⟨q₀, hnew, q, hcalls⟩

/-! ## Every admitted size -/

/-- No operation of the call is undefined: its remainders have a divisor, its indices are in `data_`.
The tests that skip an operation are those of the code. -/
def Queue.Defined (q : Queue) : Call → Prop
  | .add _ => q.capacity ≠ 0 ∧ (sizeT (q.tail + 1) % q.capacity ≠ q.head → q.tail < q.data.length)
  | .poll _ => q.head ≠ q.tail → q.head < q.data.length ∧ q.capacity ≠ 0

/-- No operation is undefined in any call of the sequence. -/
def Queue.AllDefined (q : Queue) : List Call → Prop
  | [] => True
  | c :: cs => q.Defined c ∧ ∀ r q', q.call c = some (r, q') → q'.AllDefined cs

/-- The calls that return are those without an undefined operation. -/
theorem Queue.defined_iff (q : Queue) (c : Call) : q.Defined c ↔ ∃ r q', q.call c = some (r, q') := by
  cases c with
  | add elem =>
    by_cases hcap : q.capacity = 0
    · simp [Queue.Defined, Queue.call, Queue.add, remainder, hcap]
    · by_cases hfull : sizeT (q.tail + 1) % q.capacity = q.head
      · simp [Queue.Defined, Queue.call, Queue.add, remainder_of_ne_zero hcap, hcap, hfull]
      · by_cases htail : q.tail < q.data.length
        · simp [Queue.Defined, Queue.call, Queue.add, remainder_of_ne_zero hcap, hcap, storeAt, hfull, htail]
        · simp [Queue.Defined, Queue.call, Queue.add, remainder_of_ne_zero hcap, hcap, storeAt, hfull, htail]
  | poll elem =>
    by_cases hempty : q.head = q.tail
    · simp [Queue.Defined, Queue.call, Queue.poll, hempty]
    · by_cases hcap : q.capacity = 0
      · simp [Queue.Defined, Queue.call, Queue.poll, remainder, hempty, hcap]
      · by_cases hhead : q.head < q.data.length
        · simp [Queue.Defined, Queue.call, Queue.poll, remainder_of_ne_zero hcap, hempty, hcap, hhead]
        · simp [Queue.Defined, Queue.call, Queue.poll, hempty, hhead]

theorem Queue.allDefined_of_calls {q q' : Queue} {cs : List Call} {rs : List Result}
    (h : q.calls cs = some (rs, q')) : q.AllDefined cs := by
  induction cs generalizing q q' rs with
  | nil => trivial
  | cons c cs ih =>
    rw [Queue.calls] at h
    obtain ⟨⟨r, q₁⟩, hcall, hrest⟩ := Option.bind_eq_some_iff.1 h
    obtain ⟨⟨rs', q₂⟩, hcalls, heq⟩ := Option.map_eq_some_iff.1 hrest
    refine ⟨(q.defined_iff c).2 ⟨r, q₁, hcall⟩, ?_⟩
    intro r' q₁' hcall'
    obtain ⟨rfl, rfl⟩ : r = r' ∧ q₁ = q₁' := by simpa [hcall] using hcall'
    exact ih hcalls

/-- The constructor for the greatest `size_t`, whose capacity wraps to 0: no cell and no divisor. -/
theorem new_max : Queue.new (2 ^ 64 - 1) = some ⟨[], 0, 0, 0⟩ := rfl

/-- Without cells every `poll` ends at its test, and the first `add` divides by zero. -/
theorem allDefined_max_iff (cs : List Call) :
    Queue.AllDefined ⟨[], 0, 0, 0⟩ cs ↔ ∀ elem, Call.add elem ∉ cs := by
  induction cs with
  | nil => simp [Queue.AllDefined]
  | cons c cs ih =>
    cases c with
    | add elem =>
      refine ⟨fun h => absurd rfl h.1.1, ?_⟩
      intro h
      exact absurd List.mem_cons_self (h elem)
    | poll elem => simp [Queue.AllDefined, Queue.Defined, Queue.call, Queue.poll, ih]

/-- **The queue's arithmetic is defined** in every sequence of calls on every queue the constructor
returns, if and only if its size is not the greatest `size_t` or nothing is added: no remainder by
zero is computed and no index outside `data_` is used. -/
theorem arithmetic_defined_iff (size : Nat) (hsize : size < 2 ^ 64) (q₀ : Queue) (hnew : Queue.new size = some q₀)
    (cs : List Call) : q₀.AllDefined cs ↔ size ≠ 2 ^ 64 - 1 ∨ ∀ elem, Call.add elem ∉ cs := by
  by_cases hmax : size = 2 ^ 64 - 1
  · subst hmax
    obtain rfl : ⟨[], 0, 0, 0⟩ = q₀ := Option.some.inj (new_max.symm.trans hnew)
    rw [allDefined_max_iff]
    simp
  · have hlt : size + 1 < 2 ^ 64 := by omega
    have hfit : size + 1 ≤ vectorMaxSize := by
      by_contra hbig
      rw [Queue.new, sizeT_of_lt hlt, if_neg hbig] at hnew
      cases hnew
    obtain ⟨q, hq, hat⟩ := new_at hfit
    obtain rfl : q = q₀ := Option.some.inj (hq.symm.trans hnew)
    have hnil : Stores q size [] := ⟨[], 0, hat, rfl⟩
    obtain ⟨q', hcalls, -⟩ := hnil.calls cs
    exact ⟨fun _ => Or.inl hmax, fun _ => Queue.allDefined_of_calls hcalls⟩

/-- Two values go through a queue of size 1; the second `add` of 6 is the one that finds room. -/
theorem arithmetic_defined_one :
    Queue.new 1 = some ⟨[0, 0], 2, 0, 0⟩ ∧
      Queue.AllDefined ⟨[0, 0], 2, 0, 0⟩ [.add 5, .add 6, .poll 9, .add 6, .poll 9] ∧
      Queue.calls ⟨[0, 0], 2, 0, 0⟩ [.add 5, .add 6, .poll 9, .add 6, .poll 9] =
        some ([.added true, .added false, .polled true 5, .added true, .polled true 6], ⟨[5, 6], 2, 0, 0⟩) :=
  ⟨rfl, (arithmetic_defined_iff 1 (by decide) ⟨[0, 0], 2, 0, 0⟩ rfl _).2 (Or.inl (by decide)), by decide⟩

/-- `Queue(SIZE_MAX)` succeeds, and its first `add` computes a remainder by zero. -/
theorem max_size_divides_by_zero :
    Queue.new (2 ^ 64 - 1) = some ⟨[], 0, 0, 0⟩ ∧ ¬Queue.AllDefined ⟨[], 0, 0, 0⟩ [.add 5] := by
  refine ⟨rfl, ?_⟩
  rintro ⟨⟨hcap, -⟩, -⟩
  exact hcap rfl

end LowLatency.NaiveQueue
