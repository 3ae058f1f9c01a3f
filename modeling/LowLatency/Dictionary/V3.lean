import LowLatency.Dictionary.OpenAddressing
import LowLatency.Dictionary.V0

/-!
# `v3::Dictionary`: linear probing with `%`

The table has the least power of two above the number of words as its size, subscripts are taken
modulo that size, and `in_dictionary` gives up after as many attempts as there are words. There is
no slack in that limit: a word behind a cluster of all the others takes exactly that many.
`v3_eq_v0` says that it is enough, for every hash function.

| here | there (`v3/dictionary.hh`) |
| --- | --- |
| `index`, `next`  | `hash % hashTable_.size()` (line 80), `(idx + 1) % hashTable_.size()` (line 81) |
| `new`            | the constructor (lines 15-30) |
| `inDictionary`   | `in_dictionary` (lines 32-53) |
-/

namespace LowLatency.Dictionary.V3

open Dictionary

def index (size : Nat) (hash : UInt64) : Nat := hash.toNat % size

def next (size idx : Nat) : Nat := sizeT (idx + 1) % size

def indexing : Indexing := ⟨index, next⟩

def new (hash : StdString → UInt64) (words : List StdString) : Option Table :=
  (sizeLoop words.length 65 1).bind fun hashSize => build indexing hash hashSize words

def inDictionary (hash : StdString → UInt64) (t : Table) (word : StdString) : Option Bool :=
  Dictionary.inDictionary indexing hash t word

/-- Up to `2^63` slots, `idx + 1` does not overflow. -/
theorem cyclic {N : Nat} (h0 : 0 < N) (h : N ≤ 2 ^ 63) : indexing.Cyclic N where
  pos := h0
  index := fun _ => rfl
  next := fun i hi => by
    show sizeT (i + 1) % N = (i + 1) % N
    rw [sizeT_of_lt (by omega)]

/-- The constructor returns, with a table that holds the words. -/
theorem new_holds (hash : StdString → UInt64) {words : List StdString} (h : words.length < 2 ^ 63) :
    ∃ N hashTable, new hash words = some ⟨hashTable, words.length⟩ ∧ indexing.Cyclic N ∧
      Holds hash N hashTable words := by
  obtain ⟨k, hk, hsize, hlt⟩ := sizeLoop_eq h
  have hcyc : indexing.Cyclic (2 ^ k) := cyclic (Nat.two_pow_pos k) (Nat.pow_le_pow_right (by decide) hk)
  obtain ⟨t, ht, hholds⟩ := Holds.insertAll hcyc words (holds_nil hash (2 ^ k)) (by simpa using hlt)
  refine ⟨2 ^ k, t, ?_, hcyc, hholds⟩
  rw [new, hsize, Option.bind_some, build, ht]
  rfl

/-- **`v3` answers as `v0`**: for every hash function and every collection of fewer than `2^63`
words, the constructor returns and every look-up returns, with the answer of the set of words. -/
theorem v3_eq_v0 (hash : StdString → UInt64) (words : List StdString) (h : words.length < 2 ^ 63) :
    ∃ d, new hash words = some d ∧ ∀ w,
      inDictionary hash d w = some (V0.inDictionary (V0.new words) w) ∧
      (V0.inDictionary (V0.new words) w = true ↔ w ∈ words) := by
  obtain ⟨N, hashTable, hnew, hcyc, hholds⟩ := new_holds hash h
  refine ⟨_, hnew, fun w => ⟨?_, by simp⟩⟩
  rw [V0.inDictionary_new]
  exact hholds.inDictionary hcyc w

/-- All words in one cluster that starts at the last slot and wraps around, one of them twice. -/
theorem v3_eq_v0_collision :
    ∃ d, new (fun _ => 3) [[65], [66], [65]] = some d ∧ inDictionary (fun _ => 3) d [66] = some true ∧
      inDictionary (fun _ => 3) d [67] = some false := by
  obtain ⟨d, hd, hall⟩ := v3_eq_v0 (fun _ => 3) [[65], [66], [65]] (by decide)
  exact ⟨d, hd, (hall [66]).1, (hall [67]).1⟩

end LowLatency.Dictionary.V3
