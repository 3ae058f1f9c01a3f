import Mathlib.Data.Finset.Dedup
import LowLatency.Basic

/-!
# `v1::Dictionary`: the words in a hash set

`v1/dictionary.hh` is `v0` with an `std::unordered_set<std::string>` in the place of the `std::set`. Of this set, too,
only membership is used.
-/

namespace LowLatency.Dictionary.V1

/-- `_container(words.cbegin(), words.cend())` (`v1/dictionary.hh:14-16`). -/
def new (words : List StdString) : Finset StdString := words.toFinset

/-- `_container.find({word.data(), word.size()}) != _container.end()` (lines 18-21). -/
def inDictionary (container : Finset StdString) (word : StdString) : Bool := decide (word ∈ container)

theorem inDictionary_new (words : List StdString) (w : StdString) : inDictionary (new words) w = decide (w ∈ words) := by
  simp [new, inDictionary]

end LowLatency.Dictionary.V1
