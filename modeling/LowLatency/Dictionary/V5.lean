import LowLatency.Dictionary.V0
import LowLatency.RawHashSet.GroupPortable
import LowLatency.RawHashSet.Clear

/-!
# `v5::Dictionary`: the Swiss table

`v5/dictionary.hh` keeps the words in an `absl::node_hash_set<std::string>`. A slot of it is a pointer to
a string that has its own place in memory; the table moves the pointers and compares the strings, so an
element of the `raw_hash_set` under it is the string. The hash function, the addresses and the seeds are
those of the `Env`.
-/

namespace LowLatency.Dictionary.V5

open RawHashSet

/-- `_container(words.cbegin(), words.cend())` (`v5/dictionary.hh:15-17`), in a program that has not allocated an array before.
`randomAccess` is about the iterators of the collection. -/
def new (E : Env StdString) (randomAccess : Bool) (words : List StdString) : Option (RawHashSet.Table StdString) :=
  Table.ofRange E 0 0 randomAccess words

/-- `_container.find({word.data(), word.size()}) != _container.end()` (lines 19-22). -/
def inDictionary (E : Env StdString) (container : RawHashSet.Table StdString) (word : StdString) : Option Bool :=
  RawHashSet.contains E container word

theorem inDictionary_eq (E : Env StdString) (randomAccess : Bool) {words : List StdString} (h : words.length < 2 ^ 58) :
    ∃ d, new E randomAccess words = some d ∧ (∀ w, inDictionary E d w = some (decide (w ∈ words))) ∧
      (randomAccess = true → d.allocations = if words = [] then 0 else 1) := by
  obtain ⟨m, d, hnew, hinv, halloc⟩ := ofRange_spec E 0 0 randomAccess words h
  refine ⟨d, hnew, fun w => ?_, fun hr => by rw [halloc hr, Nat.zero_add]⟩
  rw [inDictionary, contains_spec hinv w]
  simp

/-- **`v5` answers as `v0`**: for every hash function the constructor and every look-up return, with the answer of the set of
words. From a vector the constructor allocates one array, and none if there are no words. -/
theorem v5_eq_v0 (E : Env StdString) (randomAccess : Bool) (words : List StdString) (h : words.length < 2 ^ 58) :
    ∃ d, new E randomAccess words = some d ∧ (∀ w, inDictionary E d w = some (V0.inDictionary (V0.new words) w)) ∧
      (randomAccess = true → d.allocations = if words = [] then 0 else 1) := by
  obtain ⟨d, hnew, hfind, halloc⟩ := inDictionary_eq E randomAccess h
  exact ⟨d, hnew, fun w => by rw [hfind, V0.inDictionary_new], halloc⟩

/-- All words have one hash. -/
def colliding : Env StdString := ⟨groupPortable, fun _ => 5, 0, fun _ => 0, fun _ => 0⟩

theorem v5_eq_v0_collision :
    ∃ d, new colliding true [[65], [66], [65]] = some d ∧ d.allocations = 1 ∧ inDictionary colliding d [66] = some true := by
  obtain ⟨d, hnew, hfind, halloc⟩ := v5_eq_v0 colliding true [[65], [66], [65]] (by decide)
  exact ⟨d, hnew, halloc rfl, hfind [66]⟩

end LowLatency.Dictionary.V5
