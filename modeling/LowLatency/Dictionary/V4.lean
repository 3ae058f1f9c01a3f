import LowLatency.Dictionary.V3

/-!
# `v4::Dictionary`: linear probing with `&`

The class is `v3::Dictionary` with two changes. The subscripts are masked with the size minus one,
and a collection whose size is a power of two is sized without the loop, with twice that size. The
test for a power of two also accepts 0: an empty collection gets an empty table and the mask
`2^64 - 1`. Nothing is subscripted then, since `in_dictionary` has no attempts.

| here | there (`v4/dictionary.hh`) |
| --- | --- |
| `mask`           | `hashTable_.size() - 1`, and `words.size() - 1` in the test for a power of two |
| `index`, `next`  | `hash & (hashTable_.size() - 1)` (line 111), `(idx + 1) & (hashTable_.size() - 1)` (line 112) |
| `hashSize`       | the size at the call of `resize` (lines 17-29) |
| `new`            | the constructor (lines 15-38) |
| `inDictionary`   | `in_dictionary` (lines 40-62) |
-/

namespace LowLatency.Dictionary.V4

open Dictionary

/-- The subtraction wraps around on an empty table. -/
def mask (size : Nat) : Nat := sizeT (size + (2 ^ 64 - 1))

def index (size : Nat) (hash : UInt64) : Nat := hash.toNat &&& mask size

def next (size idx : Nat) : Nat := sizeT (idx + 1) &&& mask size

def indexing : Indexing := ⟨index, next⟩

def hashSize (words : Nat) : Option Nat :=
  if words &&& mask words = 0 then some (sizeT (words * 2)) else sizeLoop words 65 1

def new (hash : StdString → UInt64) (words : List StdString) : Option Table :=
  (hashSize words.length).bind fun hashSize => build indexing hash hashSize words

def inDictionary (hash : StdString → UInt64) (t : Table) (word : StdString) : Option Bool :=
  Dictionary.inDictionary indexing hash t word

theorem mask_of_pos {size : Nat} (h0 : 0 < size) (h : size < 2 ^ 64) : mask size = size - 1 := by
  unfold mask sizeT
  omega

theorem cyclic {k : Nat} (hk : k ≤ 63) : indexing.Cyclic (2 ^ k) := by
  have hpos : 0 < 2 ^ k := Nat.two_pow_pos k
  have hle : 2 ^ k ≤ 2 ^ 63 := Nat.pow_le_pow_right (by decide) hk
  have hmask : mask (2 ^ k) = 2 ^ k - 1 := mask_of_pos hpos (by omega)
  refine ⟨hpos, ?_, ?_⟩
  · intro hash
    show hash.toNat &&& mask (2 ^ k) = hash.toNat % 2 ^ k
    rw [hmask, Nat.and_two_pow_sub_one_eq_mod]
  · intro i hi
    show sizeT (i + 1) &&& mask (2 ^ k) = (i + 1) % 2 ^ k
    rw [hmask, Nat.and_two_pow_sub_one_eq_mod, sizeT_of_lt (by omega)]

/-- The shortcut and the loop choose the same size, unless there are no words. -/
theorem hashSize_eq {words : Nat} (h0 : 0 < words) (h : words < 2 ^ 63) :
    hashSize words = some (2 ^ words.size) := by
  unfold hashSize
  rw [mask_of_pos h0 (by omega)]
  by_cases hpow : words &&& (words - 1) = 0
  · obtain ⟨k, rfl⟩ := (Nat.and_sub_one_eq_zero_iff_isPowerOfTwo (Nat.ne_of_gt h0)).1 hpow
    rw [if_pos hpow, sizeT_of_lt (by omega), Nat.size_pow, Nat.pow_succ]
  · rw [if_neg hpow, sizeLoop_eq_size h]

/-- For no words the table is empty, and every look-up ends before its first attempt. -/
theorem inDictionary_nil (hash : StdString → UInt64) (w : StdString) :
    new hash [] = some ⟨[], 0⟩ ∧ inDictionary hash ⟨[], 0⟩ w = some false :=
  ⟨rfl, rfl⟩

theorem new_holds (hash : StdString → UInt64) {words : List StdString} (h0 : words ≠ [])
    (h : words.length < 2 ^ 63) :
    ∃ hashTable, new hash words = some ⟨hashTable, words.length⟩ ∧
      Holds hash (2 ^ words.length.size) hashTable words := by
  have hlt : ([] : List StdString).length + words.length < 2 ^ words.length.size := by
    simpa using Nat.lt_size_self words.length
  obtain ⟨t, ht, hholds⟩ := Holds.insertAll (cyclic (Nat.size_le.2 h)) words (holds_nil hash _) hlt
  refine ⟨t, ?_, hholds⟩
  rw [new, hashSize_eq (List.length_pos_iff.2 h0) h, Option.bind_some, build, ht]
  rfl

/-- In every state of the two constructors' insert loops, the tables are the same. -/
theorem inserts_eq (hash : StdString → UInt64) {words : List StdString} (h : words.length < 2 ^ 63) {N : Nat}
    (hN : N = 2 ^ words.length.size) (j : Nat) :
    ∃ hashTable, (words.take j).foldlM (insert V3.indexing hash) (List.replicate N .empty) = some hashTable ∧
      (words.take j).foldlM (insert indexing hash) (List.replicate N .empty) = some hashTable := by
  subst hN
  have hk : words.length.size ≤ 63 := Nat.size_le.2 h
  have h3 := V3.cyclic (Nat.two_pow_pos _) (Nat.pow_le_pow_right (by decide) hk)
  have hlt : (words.take j).length < 2 ^ words.length.size :=
    Nat.lt_of_le_of_lt (List.length_take_le' j words) (Nat.lt_size_self _)
  have hnil := holds_nil hash (2 ^ words.length.size)
  obtain ⟨t, ht, -⟩ := Holds.insertAll h3 (words.take j) hnil (by simpa using hlt)
  refine ⟨t, ht, ?_⟩
  rw [← ht]
  exact insertAll_congr (cyclic hk) h3 (words.take j) hnil (by simpa using hlt)

/-- Every look-up returns, with membership as its answer. -/
theorem inDictionary_eq (hash : StdString → UInt64) {words : List StdString} (h : words.length < 2 ^ 63) :
    ∃ d, new hash words = some d ∧ ∀ w, inDictionary hash d w = some (decide (w ∈ words)) := by
  by_cases h0 : words = []
  · subst h0
    refine ⟨_, (inDictionary_nil hash []).1, ?_⟩
    intro w
    rw [(inDictionary_nil hash w).2]
    simp
  · obtain ⟨t, hnew, hholds⟩ := new_holds hash h0 h
    refine ⟨_, hnew, ?_⟩
    intro w
    exact hholds.inDictionary (cyclic (Nat.size_le.2 h)) w

/-- **`v4` refines `v3`**, for every hash function and fewer than `2^63` words. Words or no words,
both constructors return and every look-up in `v4` stays in its table, with the answer of `v3`. With
words, the sizes are the same and so are the two tables after each insert. -/
theorem v4_refines_v3 (hash : StdString → UInt64) (words : List StdString) (h : words.length < 2 ^ 63) :
    (words ≠ [] → ∃ N, hashSize words.length = some N ∧ sizeLoop words.length 65 1 = some N ∧
      ∀ j ≤ words.length, ∃ hashTable,
        (words.take j).foldlM (insert V3.indexing hash) (List.replicate N .empty) = some hashTable ∧
        (words.take j).foldlM (insert indexing hash) (List.replicate N .empty) = some hashTable) ∧
    (words = [] → hashSize words.length = some 0 ∧ mask 0 = 2 ^ 64 - 1) ∧
    ∃ d3 d4, V3.new hash words = some d3 ∧ new hash words = some d4 ∧
      ∀ w, ∃ answer, V3.inDictionary hash d3 w = some answer ∧ inDictionary hash d4 w = some answer := by
  refine ⟨?_, ?_, ?_⟩
  · intro h0
    refine ⟨_, hashSize_eq (List.length_pos_iff.2 h0) h, sizeLoop_eq_size h, ?_⟩
    intro j _
    exact inserts_eq hash h rfl j
  · rintro rfl
    exact ⟨rfl, rfl⟩
  · obtain ⟨N, t3, h3, hcyc, hholds⟩ := V3.new_holds hash h
    obtain ⟨d4, h4, hd4⟩ := inDictionary_eq hash h
    refine ⟨_, d4, h3, h4, ?_⟩
    intro w
    exact ⟨_, hholds.inDictionary hcyc w, hd4 w⟩

/-- Four words, where only `v4` takes the shortcut, in one cluster around the end of the table. -/
theorem v4_refines_v3_shortcut :
    ∃ d3 d4, V3.new (fun _ => 6) [[65], [66], [67], [68]] = some d3 ∧
      new (fun _ => 6) [[65], [66], [67], [68]] = some d4 ∧
      ∃ answer, V3.inDictionary (fun _ => 6) d3 [68] = some answer ∧ inDictionary (fun _ => 6) d4 [68] = some answer := by
  obtain ⟨-, -, d3, d4, h3, h4, hall⟩ := v4_refines_v3 (fun _ => 6) [[65], [66], [67], [68]] (by decide)
  exact ⟨d3, d4, h3, h4, hall [68]⟩

end LowLatency.Dictionary.V4
