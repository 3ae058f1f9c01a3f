import Mathlib.Data.Finset.Dedup
import LowLatency.Basic

/-!
# `v0::Dictionary`: the reference

`v0/dictionary.hh` keeps the words in a `std::set<std::string>`; every other version of the
dictionary is measured against it. Of the set only membership is used, so it is a finite set here.
-/

namespace LowLatency.Dictionary.V0

/-- The constructor fills `std::set<std::string> _container` (`v0/dictionary.hh:14-16`). -/
def new (words : List StdString) : Finset StdString := words.toFinset

/-- `_container.find(word) != _container.end()` (lines 18-21). -/
def inDictionary (container : Finset StdString) (word : StdString) : Bool := decide (word ∈ container)

@[simp] theorem inDictionary_new (words : List StdString) (word : StdString) :
    inDictionary (new words) word = decide (word ∈ words) := by
  simp [new, inDictionary]

end LowLatency.Dictionary.V0
