import Mathlib.Order.Interval.Finset.Nat

/-!
# A cyclic buffer as a window on an unbounded sequence

The buffer has finitely many cells, the sequence `xs` grows at its end. Position `j` of the sequence
belongs to cell `j` modulo the number of cells, and `Window cells xs lo` says that the cells hold the
sequence from position `lo` on. Two positions of one window share no cell (`mod_eq_iff`), so a write
for the position after the last does not disturb the window as long as there is room
(`Window.set`); appending a value is then no more than calling that position part of the sequence
(`Window.snoc`).
-/

namespace CyclicBuffer

variable {α : Type*}

/-- Positions less than `N` apart are told apart by their remainders. -/
theorem mod_eq_iff (lo : Nat) {N j k : Nat} (hj : lo ≤ j ∧ j < lo + N) (hk : lo ≤ k ∧ k < lo + N) :
    j % N = k % N ↔ j = k :=
  (Nat.mod_injOn_Ico lo N).eq_iff (by simpa using hj) (by simpa using hk)

/-- Going on from a remainder. -/
theorem mod_succ_mod (N j : Nat) : (j % N + 1) % N = (j + 1) % N := Nat.mod_add_mod j N 1

/-- The cells hold the sequence from position `lo` on. -/
structure Window (cells xs : List α) (lo : Nat) : Prop where
  lo_le : lo ≤ xs.length
  fits : xs.length ≤ lo + cells.length
  cell : ∀ j, lo ≤ j → j < xs.length → cells[j % cells.length]? = xs[j]?

variable {cells xs : List α} {lo : Nat}

theorem window_nil (cells : List α) : Window cells [] 0 :=
  ⟨Nat.le_refl 0, Nat.zero_le _, fun j _ hj => absurd hj (Nat.not_lt_zero j)⟩

/-- With room for another value, its cell is outside the window. -/
theorem Window.set (h : Window cells xs lo) (hroom : xs.length < lo + cells.length) (x : α) :
    Window (cells.set (xs.length % cells.length) x) xs lo := by
  refine ⟨h.lo_le, by rw [List.length_set]; exact h.fits, ?_⟩
  intro j hlo hj
  rw [List.length_set, List.getElem?_set_ne, h.cell j hlo hj]
  intro heq
  have := (mod_eq_iff lo ⟨h.lo_le, hroom⟩ ⟨hlo, by omega⟩).1 heq
  omega

/-- The window grows by what its next cell holds. -/
theorem Window.snoc (h : Window cells xs lo) (hroom : xs.length < lo + cells.length) {x : α}
    (hx : cells[xs.length % cells.length]? = some x) : Window cells (xs ++ [x]) lo := by
  refine ⟨?_, ?_, ?_⟩
  · rw [List.length_append]
    exact Nat.le_add_right_of_le h.lo_le
  · rw [List.length_append, List.length_singleton]
    exact hroom
  · intro j hlo hj
    rw [List.length_append, List.length_singleton] at hj
    rcases Nat.lt_succ_iff_lt_or_eq.1 hj with hlt | rfl
    · rw [List.getElem?_append_left hlt, h.cell j hlo hlt]
    · rw [hx, List.getElem?_concat_length]

/-- Giving up the oldest value. -/
theorem Window.advance (h : Window cells xs lo) (hlt : lo < xs.length) : Window cells xs (lo + 1) :=
  ⟨hlt, Nat.le_trans h.fits (by omega), fun j hlo hj => h.cell j (Nat.le_of_succ_le hlo) hj⟩

end CyclicBuffer
