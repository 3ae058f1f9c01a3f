import LowLatency.Basic

/-!
# `v2::Dictionary`: views into a vector

`v2/dictionary.hh` keeps the strings in a vector of its own and an `std::unordered_set` of views into them: an element is
the position of its string. Two views are equal if they show the same bytes, so of equal strings only the first is in the set.
-/

namespace LowLatency.Dictionary.V2

structure Container where
  data : List StdString
  index : List Nat

/-- What a view shows. -/
def Container.view (c : Container) (i : Nat) : Option StdString := c.data[i]?

/-- `insert` into `_index`: a view with the same contents stays. -/
def insertView (c : Container) (i : Nat) : Container :=
  if c.index.any fun j => c.view j == c.view i then c else { c with index := c.index ++ [i] }

/-- `_data(words.begin(), words.end()), _index(_data.begin(), _data.end())` (`v2/dictionary.hh:15-19`). -/
def new (words : List StdString) : Container := (List.range words.length).foldl insertView ⟨words, []⟩

/-- `_index.find(word) != _index.end()` (lines 21-24). -/
def inDictionary (c : Container) (word : StdString) : Bool := c.index.any fun j => c.view j == some word

theorem insertView_data (c : Container) (i : Nat) : (insertView c i).data = c.data := by
  unfold insertView
  split <;> rfl

theorem inDictionary_insertView (c : Container) {i : Nat} {word : StdString} (hi : c.view i = some word) (w : StdString) :
    inDictionary (insertView c i) w = (inDictionary c w || decide (w = word)) := by
  unfold insertView
  by_cases hany : (c.index.any fun j => c.view j == c.view i) = true
  · rw [if_pos hany]
    by_cases hw : w = word
    · subst hw
      rw [hi] at hany
      simp [inDictionary, hany]
    · simp [hw]
  · rw [if_neg hany]
    have hlast : (c.view i == some w) = decide (w = word) := by
      rw [hi, Bool.eq_iff_iff, beq_iff_eq, Option.some.injEq, decide_eq_true_eq]
      exact eq_comm
    rw [inDictionary, List.any_append, List.any_cons, List.any_nil, Bool.or_false]
    exact congrArg _ hlast

/-- The first `m` strings of the vector. -/
theorem insertViews (words : List StdString) {m : Nat} (hm : m ≤ words.length) :
    ((List.range m).foldl insertView ⟨words, []⟩).data = words ∧
      ∀ w, inDictionary ((List.range m).foldl insertView ⟨words, []⟩) w = decide (w ∈ words.take m) := by
  induction m with
  | zero => exact ⟨rfl, fun w => by simp [inDictionary]⟩
  | succ m ih =>
    obtain ⟨hdata, hfind⟩ := ih (by omega)
    rw [List.range_succ, List.foldl_append, List.foldl_cons, List.foldl_nil]
    have hview : ((List.range m).foldl insertView ⟨words, []⟩).view m = some words[m] := by
      rw [Container.view, hdata, List.getElem?_eq_getElem]
    refine ⟨by rw [insertView_data, hdata], fun w => ?_⟩
    have hmem : w ∈ words.take (m + 1) ↔ w ∈ words.take m ∨ w = words[m] := by
      rw [List.take_add_one, List.getElem?_eq_getElem (by omega), List.mem_append]
      simp
    rw [inDictionary_insertView _ hview w, hfind w, decide_eq_decide.2 hmem, Bool.decide_or]

theorem inDictionary_new (words : List StdString) (w : StdString) : inDictionary (new words) w = decide (w ∈ words) := by
  rw [new, (insertViews words (Nat.le_refl _)).2 w, List.take_length]

end LowLatency.Dictionary.V2
