import Mathlib.Data.List.TakeWhile

/-!
# The words of a list

A list is cut at the elements that satisfy `p`, the separators; the words are the pieces that are not
empty. A scanner finds them one by one: skip the separators (`words_dropWhile`), take the elements
up to the next separator (`words_eq_cons`), and go on from there until only separators are left
(`words_eq_nil_iff`).
-/

namespace Words

variable {α : Type*} {p : α → Bool}

def words (p : α → Bool) (l : List α) : List (List α) := (l.splitOnP p).filter fun w => !w.isEmpty

@[simp] theorem words_nil (p : α → Bool) : words p [] = [] := rfl

/-- The words on the two sides of a separator. -/
theorem words_append_cons {a : α} (ha : p a) (l m : List α) : words p (l ++ a :: m) = words p l ++ words p m := by
  unfold words
  rw [List.splitOnP_append_cons l m ha, List.filter_append]

theorem words_cons {a : α} (ha : p a) (l : List α) : words p (a :: l) = words p l :=
  words_append_cons ha [] l

/-- Without separators there is one word. -/
theorem words_eq_singleton {l : List α} (h : ∀ a ∈ l, p a = false) (hl : l ≠ []) : words p l = [l] := by
  unfold words
  rw [List.splitOnP_eq_singleton h]
  cases l with
  | nil => exact absurd rfl hl
  | cons a l => rfl

/-- Leading separators do not matter. -/
theorem words_dropWhile (p : α → Bool) (l : List α) : words p (l.dropWhile p) = words p l := by
  induction l with
  | nil => rfl
  | cons a l ih =>
    by_cases ha : p a
    · rw [List.dropWhile_cons_of_pos ha, ih, words_cons ha]
    · rw [List.dropWhile_cons_of_neg ha]

/-- The first word of a list that starts with one. -/
theorem words_eq_cons {l : List α} (h : l.takeWhile (fun a => !p a) ≠ []) :
    words p l = l.takeWhile (fun a => !p a) :: words p (l.dropWhile fun a => !p a) := by
  have hfirst : ∀ a ∈ l.takeWhile (fun a => !p a), p a = false := by
    intro a ha
    simpa using List.mem_takeWhile_imp ha
  cases hrest : l.dropWhile (fun a => !p a) with
  | nil =>
    have hl : l.takeWhile (fun a => !p a) = l := by
      have := List.takeWhile_append_dropWhile (p := fun a => !p a) (l := l)
      rwa [hrest, List.append_nil] at this
    rw [hl] at h hfirst ⊢
    exact words_eq_singleton hfirst h
  | cons a rest =>
    have ha : p a := by
      have := List.head?_dropWhile_not (fun a => !p a) l
      simpa [hrest] using this
    calc words p l = words p (l.takeWhile (fun a => !p a) ++ a :: rest) := by
          rw [← hrest, List.takeWhile_append_dropWhile]
      _ = words p (l.takeWhile fun a => !p a) ++ words p rest := words_append_cons ha _ _
      _ = l.takeWhile (fun a => !p a) :: words p (a :: rest) := by
          rw [words_eq_singleton hfirst h, words_cons ha]
          rfl

/-- The words together are the list without its separators. -/
theorem flatten_words (p : α → Bool) (l : List α) : (words p l).flatten = l.filter fun a => !p a := by
  unfold words
  rw [List.flatten_filter_not_isEmpty]
  induction l with
  | nil => rfl
  | cons a l ih =>
    rw [List.splitOnP_cons_eq_if_modifyHead]
    by_cases ha : p a
    · rw [if_pos ha, List.flatten_cons, ih]
      simp [ha]
    · obtain ⟨w, ws, hws⟩ := List.exists_cons_of_ne_nil (List.splitOnP_ne_nil p l)
      rw [hws] at ih ⊢
      rw [if_neg ha, List.modifyHead_cons, List.flatten_cons, List.cons_append, ← List.flatten_cons, ih]
      simp [ha]

theorem ne_nil_of_mem_words {l w : List α} (hw : w ∈ words p l) : w ≠ [] := by
  have := (List.mem_filter.1 hw).2
  simpa using this

/-- No word contains a separator, or anything that is not in the list. -/
theorem mem_of_mem_words {l w : List α} (hw : w ∈ words p l) {a : α} (ha : a ∈ w) : a ∈ l ∧ p a = false := by
  have : a ∈ (words p l).flatten := List.mem_flatten.2 ⟨w, hw, ha⟩
  rw [flatten_words, List.mem_filter] at this
  simpa using this

theorem words_eq_nil_iff {l : List α} : words p l = [] ↔ ∀ a ∈ l, p a := by
  constructor
  · intro h a ha
    have hfilter := flatten_words p l
    rw [h, List.flatten_nil, eq_comm, List.filter_eq_nil_iff] at hfilter
    simpa using hfilter a ha
  · intro h
    rw [← words_dropWhile, List.dropWhile_eq_nil_iff.2 h, words_nil]

end Words
