import LowLatency.Dictionary.V4

/-!
# Insertion by the constructors of `v3` and `v4`

`insert` has no bound of its own: its `while (true)` (`v3/dictionary.hh:63-76`, `v4/dictionary.hh:94-107`)
ends because the sizing code leaves a slot free. `insertSubscripts` is the trace of that loop, and
`subscripts` what is left of it from a slot on: the subscripts `idx` of `hashTable_[idx]` in the order in
which they are made. The last of them is the slot that is written.
-/

namespace LowLatency.Dictionary

open Probing

def subscripts (I : Indexing) : Nat → List Entry → Nat → List Nat
  | 0, _, _ => []
  | fuel + 1, hashTable, idx =>
    match hashTable[idx]? with
    | none => [idx]
    | some entry =>
      if entry.string.isSome then idx :: subscripts I fuel hashTable (I.next hashTable.length idx) else [idx]

def insertSubscripts (I : Indexing) (hash : StdString → UInt64) (hashTable : List Entry) (s : StdString) : List Nat :=
  subscripts I hashTable.length hashTable (I.index hashTable.length (hash s))

/-- One `insert`: it returns after fewer probes than there are slots, all of them in the table, and
what it writes to was empty. -/
structure Inserts (I : Indexing) (hash : StdString → UInt64) (hashTable : List Entry) (s : StdString)
    (hashTable' : List Entry) : Prop where
  returns : insert I hash hashTable s = some hashTable'
  probes : (insertSubscripts I hash hashTable s).length < hashTable.length
  inTable : ∀ idx ∈ insertSubscripts I hash hashTable s, idx < hashTable.length
  writes : ∃ idx entry, (insertSubscripts I hash hashTable s).getLast? = some idx ∧
    hashTable[idx]? = some entry ∧ entry.string = none ∧ hashTable' = hashTable.set idx ⟨hash s, some s⟩

/-- A table of `N` slots after these inserts: as many occupied slots, with the words and their hashes,
a slot that is free, and no free slot between an entry's `index(hash)` and the entry. -/
structure Filled (I : Indexing) (hash : StdString → UInt64) (N : Nat) (hashTable : List Entry)
    (words : List StdString) : Prop where
  length : hashTable.length = N
  occupied : ((Finset.range N).filter fun i => (slots hashTable i).isSome = true).card = words.length
  contents : contents N (slots hashTable) = (words.map fun w => (hash w, w) : Multiset _)
  free : ∃ i < N, slots hashTable i = none
  linked : Linked N (fun key => I.index N key.1) (slots hashTable)

/-- The constructor's inserts into a table of `N` slots, one table after the other. -/
structure Constructs (I : Indexing) (hash : StdString → UInt64) (N : Nat) (words : List StdString)
    (tables : Nat → List Entry) : Prop where
  start : tables 0 = List.replicate N .empty
  inserts : ∀ j w, words[j]? = some w → Inserts I hash (tables j) w (tables (j + 1))
  filled : ∀ j ≤ words.length, Filled I hash N (tables j) (words.take j)

section
variable {I : Indexing} {hash : StdString → UInt64} {hashTable : List Entry}

theorem subscripts_eq (hI : I.Cyclic hashTable.length) {d fuel idx : Nat} (hd : d < fuel)
    (hidx : idx < hashTable.length) (hnone : slots hashTable (probe hashTable.length idx d) = none)
    (hrun : Run hashTable.length (slots hashTable) idx d) :
    subscripts I fuel hashTable idx = (List.range (d + 1)).map (probe hashTable.length idx) := by
  induction fuel generalizing d idx with
  | zero => exact absurd hd (Nat.not_lt_zero d)
  | succ fuel ih =>
    have hget : hashTable[idx]? = some hashTable[idx] := List.getElem?_eq_getElem hidx
    have hslot := slots_of_getElem? hget
    simp only [subscripts, hget]
    cases d with
    | zero =>
      rw [probe_zero hidx, hslot] at hnone
      rw [if_neg (by rw [← key_isSome, hnone]; simp)]
      rw [map_probe_succ hidx, List.range_zero, List.map_nil]
    | succ d =>
      obtain ⟨hocc, hrun'⟩ := (run_next hidx).1 hrun
      rw [hslot, key_isSome] at hocc
      rw [← probe_next] at hnone
      rw [if_pos hocc, hI.next idx hidx, ih (Nat.lt_of_succ_lt_succ hd) (Nat.mod_lt _ hI.pos) hnone hrun']
      exact (map_probe_succ hidx (d + 1)).symm

theorem string_of_slots {i : Nat} (hi : i < hashTable.length) (h : slots hashTable i = none) :
    ∃ entry, hashTable[i]? = some entry ∧ entry.string = none := by
  have hget : hashTable[i]? = some hashTable[i] := List.getElem?_eq_getElem hi
  refine ⟨_, hget, ?_⟩
  rw [slots_of_getElem? hget, Entry.key, Option.map_eq_none_iff] at h
  exact h

variable {N : Nat} {words : List StdString}

/-- With a slot to spare even after it, the insert stops before it has probed them all. -/
theorem Holds.inserts (h : Holds hash N hashTable words) (hI : I.Cyclic N) (hlt : words.length + 1 < N)
    (w : StdString) {hashTable' : List Entry} (hins : Dictionary.insert I hash hashTable w = some hashTable') :
    Inserts I hash hashTable w hashTable' := by
  obtain rfl := h.length
  obtain ⟨d, hd, hnone, hrun⟩ := exists_empty (N := hashTable.length) (f := slots hashTable)
    (by rw [h.card]; omega) (I.index hashTable.length (hash w))
  rw [h.card] at hd
  have hidx : I.index hashTable.length (hash w) < hashTable.length := by
    rw [hI.index]
    exact Nat.mod_lt _ hI.pos
  have hsub : insertSubscripts I hash hashTable w =
      (List.range (d + 1)).map (probe hashTable.length (I.index hashTable.length (hash w))) :=
    subscripts_eq hI (by omega) hidx hnone hrun
  have hloop : Dictionary.insert I hash hashTable w = some (hashTable.set _ ⟨hash w, some w⟩) :=
    insertLoop_eq hI (by omega) hidx hnone hrun
  refine ⟨hins, ?_, ?_, ?_⟩
  · rw [hsub, List.length_map, List.length_range]
    omega
  · intro idx hmem
    rw [hsub] at hmem
    obtain ⟨e, -, rfl⟩ := List.mem_map.1 hmem
    exact probe_lt hI.pos _ e
  · obtain ⟨entry, hget, hstr⟩ := string_of_slots (probe_lt hI.pos _ d) hnone
    refine ⟨_, entry, ?_, hget, hstr, Option.some.inj (hins.symm.trans hloop)⟩
    rw [hsub, List.range_succ, List.map_append]
    simp

theorem Holds.filled (h : Holds hash N hashTable words) (hI : I.Cyclic N) (hlt : words.length < N) :
    Filled I hash N hashTable words := by
  refine ⟨h.length, ?_, h.contents, ?_, ?_⟩
  · rw [← card_contents, h.card]
  · obtain ⟨d, -, hnone, -⟩ := exists_empty (N := N) (f := slots hashTable) (by rw [h.card]; exact hlt) 0
    exact ⟨_, probe_lt hI.pos 0 d, hnone⟩
  · have hhome : (fun key : UInt64 × StdString => I.index N key.1) = home N := by
      funext key
      exact hI.index key.1
    rw [hhome]
    exact h.linked

/-- **All inserts of a constructor** whose table has more slots than there are words. -/
theorem constructs_of_cyclic (hI : I.Cyclic N) (hash : StdString → UInt64) (hlt : words.length < N) :
    ∃ tables, Constructs I hash N words tables ∧
      build I hash N words = some ⟨tables words.length, words.length⟩ := by
  have hprefix : ∀ j, ∃ t, (words.take j).foldlM (insert I hash) (List.replicate N .empty) = some t ∧
      Holds hash N t (words.take j) := by
    intro j
    have hj : (words.take j).length ≤ words.length := List.length_take_le' j words
    exact Holds.insertAll hI (words.take j) (holds_nil hash N) (by simpa using Nat.lt_of_le_of_lt hj hlt)
  choose tables hfold hholds using hprefix
  refine ⟨tables, ⟨?_, ?_, ?_⟩, ?_⟩
  · exact (Option.some.inj (hfold 0)).symm
  · intro j w hw
    obtain ⟨hj, -⟩ := List.getElem?_eq_some_iff.1 hw
    have hstep := hfold (j + 1)
    rw [List.take_add_one, hw, List.foldlM_append, hfold j] at hstep
    refine (hholds j).inserts hI ?_ w (by simpa using hstep)
    rw [List.length_take]
    omega
  · intro j hj
    refine (hholds j).filled hI ?_
    rw [List.length_take]
    omega
  · have hall := hfold words.length
    rw [List.take_length] at hall
    rw [build, hall]
    rfl

end

/-- **Insertion terminates and keeps the probing invariant**, for every hash function and fewer than
`2^63` words. Both sizing codes end with a power of two above the number of words, except that `v4` has
no table for no words, and in the tables of that size every insert of the constructor returns. -/
theorem constructors_insert (hash : StdString → UInt64) (words : List StdString) (h : words.length < 2 ^ 63) :
    (∃ k tables, sizeLoop words.length 65 1 = some (2 ^ k) ∧ words.length < 2 ^ k ∧
      Constructs V3.indexing hash (2 ^ k) words tables ∧
      V3.new hash words = some ⟨tables words.length, words.length⟩) ∧
    (words = [] → V4.hashSize words.length = some 0 ∧ V4.new hash words = some ⟨[], 0⟩) ∧
    (words ≠ [] → ∃ k tables, V4.hashSize words.length = some (2 ^ k) ∧ words.length < 2 ^ k ∧
      Constructs V4.indexing hash (2 ^ k) words tables ∧
      V4.new hash words = some ⟨tables words.length, words.length⟩) := by
  have hk : words.length.size ≤ 63 := Nat.size_le.2 h
  have hlt : words.length < 2 ^ words.length.size := Nat.lt_size_self words.length
  refine ⟨?_, ?_, ?_⟩
  · have hcyc := V3.cyclic (Nat.two_pow_pos _) (Nat.pow_le_pow_right (by decide) hk)
    obtain ⟨tables, hcons, hbuild⟩ := constructs_of_cyclic hcyc hash hlt
    refine ⟨_, tables, sizeLoop_eq_size h, hlt, hcons, ?_⟩
    rw [V3.new, sizeLoop_eq_size h, Option.bind_some, hbuild]
  · rintro rfl
    exact ⟨rfl, (V4.inDictionary_nil hash []).1⟩
  · intro h0
    have hsize := V4.hashSize_eq (List.length_pos_iff.2 h0) h
    obtain ⟨tables, hcons, hbuild⟩ := constructs_of_cyclic (V4.cyclic hk) hash hlt
    refine ⟨_, tables, hsize, hlt, hcons, ?_⟩
    rw [V4.new, hsize, Option.bind_some, hbuild]

/-- Three words that all hash to the last of four slots: the probes of the third wrap around. -/
theorem constructors_insert_wrap :
    ∃ k tables, V4.hashSize 3 = some (2 ^ k) ∧ 3 < 2 ^ k ∧
      Constructs V4.indexing (fun _ => 3) (2 ^ k) [[65], [66], [65]] tables ∧
      V4.new (fun _ => 3) [[65], [66], [65]] = some ⟨tables 3, 3⟩ :=
  (constructors_insert (fun _ => 3) [[65], [66], [65]] (by decide)).2.2 (by decide)

end LowLatency.Dictionary
