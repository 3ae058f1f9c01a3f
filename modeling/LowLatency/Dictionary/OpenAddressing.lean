import Mathlib.Data.Nat.Size
import LowLatency.Basic
import LowLatency.Lib.Probing

/-!
# The open-addressing tables of `v3::Dictionary` and `v4::Dictionary`

The two classes have the same `insert` and the same `in_dictionary`; they differ in how a hash
becomes a subscript and how a subscript moves on, and in how the table is sized. What they share is
here, over an `Indexing`.

| here | there |
| --- | --- |
| `Entry`         | `struct Entry` (`v3/dictionary.hh:83-87`, `v4/dictionary.hh:114-118`) |
| `Indexing`      | the two private functions `index` and `next` |
| `insertLoop`    | the `while (true)` of `insert` (`v3:63-76`, `v4:94-107`) |
| `lookupLoop`    | the `while (attempts < size_)` of `in_dictionary` (`v3:39-51`, `v4:48-60`) |
| `sizeLoop`      | `while (hashSize <= words.size()) hashSize <<= 1;` (`v3:18-21`, `v4:22-28`) |

A subscript outside the table is undefined behaviour and a loop that does not end has no result:
both are `none`. `insertLoop` gets as much fuel as the table has slots; it does not change the table
while it probes, so a loop that has seen all slots occupied goes on forever. After 64 doublings a
`size_t` is 0, and `sizeLoop` would stay there.

The string pointers of the entries point into the caller's collection; an entry holds the string
itself here.
-/

namespace LowLatency.Dictionary

open Probing

structure Entry where
  hash : UInt64
  string : Option StdString
deriving DecidableEq

/-- What `resize` fills the table with. -/
def Entry.empty : Entry := ⟨0, none⟩

structure Table where
  hashTable : List Entry
  size : Nat
deriving DecidableEq

/-- `index` and `next`, as functions of `hashTable_.size()`. -/
structure Indexing where
  index : Nat → UInt64 → Nat
  next : Nat → Nat → Nat

def insertLoop (I : Indexing) (hash : UInt64) (s : StdString) : Nat → List Entry → Nat → Option (List Entry)
  | 0, _, _ => none
  | fuel + 1, hashTable, idx =>
    match hashTable[idx]? with
    | none => none
    | some entry =>
      if entry.string.isSome then insertLoop I hash s fuel hashTable (I.next hashTable.length idx)
      else some (hashTable.set idx ⟨hash, some s⟩)

def insert (I : Indexing) (hash : StdString → UInt64) (hashTable : List Entry) (s : StdString) :
    Option (List Entry) :=
  insertLoop I (hash s) s hashTable.length hashTable (I.index hashTable.length (hash s))

/-- The argument counts the attempts that are left, `size_ - attempts`. -/
def lookupLoop (I : Indexing) (hash : UInt64) (word : StdString) (hashTable : List Entry) :
    Nat → Nat → Option Bool
  | 0, _ => some false
  | left + 1, idx =>
    match hashTable[idx]? with
    | none => none
    | some entry =>
      match entry.string with
      | none => some false
      | some string =>
        if entry.hash = hash ∧ string = word then some true
        else lookupLoop I hash word hashTable left (I.next hashTable.length idx)

def inDictionary (I : Indexing) (hash : StdString → UInt64) (t : Table) (word : StdString) : Option Bool :=
  lookupLoop I (hash word) word t.hashTable t.size (I.index t.hashTable.length (hash word))

def sizeLoop (words : Nat) : Nat → Nat → Option Nat
  | 0, _ => none
  | fuel + 1, hashSize => if hashSize ≤ words then sizeLoop words fuel (sizeT (hashSize * 2)) else some hashSize

/-- The constructor, once the size of the table is chosen. -/
def build (I : Indexing) (hash : StdString → UInt64) (hashSize : Nat) (words : List StdString) : Option Table :=
  (words.foldlM (insert I hash) (List.replicate hashSize .empty)).map (⟨·, words.length⟩)

/-! ## The table as slots -/

/-- The hash and the string of an occupied entry. -/
def Entry.key (e : Entry) : Option (UInt64 × StdString) := e.string.map fun s => (e.hash, s)

def slots (hashTable : List Entry) (i : Nat) : Option (UInt64 × StdString) := hashTable[i]?.bind Entry.key

theorem key_isSome (e : Entry) : e.key.isSome = e.string.isSome := by simp [Entry.key]

theorem key_eq_some {e : Entry} {h : UInt64} {s : StdString} : e.key = some (h, s) ↔ e.hash = h ∧ e.string = some s := by
  unfold Entry.key
  cases e.string <;> simp [and_comm]

theorem slots_of_getElem? {hashTable : List Entry} {i : Nat} {e : Entry} (h : hashTable[i]? = some e) :
    slots hashTable i = e.key := by
  simp [slots, h]

theorem slots_set {hashTable : List Entry} {i : Nat} (hi : i < hashTable.length) (h : UInt64) (s : StdString) :
    slots (hashTable.set i ⟨h, some s⟩) = Function.update (slots hashTable) i (some (h, s)) := by
  funext j
  by_cases hij : j = i
  · subst hij
    simp [slots, hi, Entry.key]
  · simp [slots, Function.update_of_ne hij, List.getElem?_set_ne (Ne.symm hij)]

theorem slots_replicate (n : Nat) : slots (List.replicate n .empty) = fun _ => none := by
  funext i
  simp only [slots, List.getElem?_replicate]
  split <;> rfl

/-! ## The loops, for any cyclic indexing -/

/-- On a table of `N` slots, `index` and `next` go around it. -/
structure Indexing.Cyclic (I : Indexing) (N : Nat) : Prop where
  pos : 0 < N
  index : ∀ hash, I.index N hash = hash.toNat % N
  next : ∀ i < N, I.next N i = (i + 1) % N

/-- The slot an entry hashes to. -/
def home (N : Nat) (key : UInt64 × StdString) : Nat := key.1.toNat % N

section
variable {I : Indexing} {hashTable : List Entry} {hash : UInt64} {s : StdString}

/-- `insert` writes to the first empty slot. -/
theorem insertLoop_eq (hI : I.Cyclic hashTable.length) {d fuel idx : Nat} (hd : d < fuel)
    (hidx : idx < hashTable.length) (hnone : slots hashTable (probe hashTable.length idx d) = none)
    (hrun : Run hashTable.length (slots hashTable) idx d) :
    insertLoop I hash s fuel hashTable idx =
      some (hashTable.set (probe hashTable.length idx d) ⟨hash, some s⟩) := by
  induction fuel generalizing d idx with
  | zero => exact absurd hd (Nat.not_lt_zero d)
  | succ fuel ih =>
    have hget : hashTable[idx]? = some hashTable[idx] := List.getElem?_eq_getElem hidx
    have hslot := slots_of_getElem? hget
    simp only [insertLoop, hget]
    cases d with
    | zero =>
      rw [probe_zero hidx, hslot] at hnone
      rw [probe_zero hidx, if_neg (by rw [← key_isSome, hnone]; simp)]
    | succ d =>
      obtain ⟨hocc, hrun'⟩ := (run_next hidx).1 hrun
      rw [hslot, key_isSome] at hocc
      rw [if_pos hocc, hI.next idx hidx, ← probe_next]
      rw [← probe_next] at hnone
      exact ih (Nat.lt_of_succ_lt_succ hd) (Nat.mod_lt _ hI.pos) hnone hrun'

/-- `in_dictionary` answers whether the word is met within its attempts, before an empty slot. -/
theorem lookupLoop_eq (hI : I.Cyclic hashTable.length) (hash : UInt64) (word : StdString) (left : Nat) {idx : Nat}
    (hidx : idx < hashTable.length) :
    ∃ b, lookupLoop I hash word hashTable left idx = some b ∧
      (b = true ↔ ∃ d < left, slots hashTable (probe hashTable.length idx d) = some (hash, word) ∧
        Run hashTable.length (slots hashTable) idx d) := by
  induction left generalizing idx with
  | zero => exact ⟨false, rfl, by simp⟩
  | succ left ih =>
    have hget : hashTable[idx]? = some hashTable[idx] := List.getElem?_eq_getElem hidx
    have hslot := slots_of_getElem? hget
    simp only [lookupLoop, hget]
    cases hstr : hashTable[idx].string with
    | none =>
      refine ⟨false, rfl, ?_⟩
      simp only [Bool.false_eq_true, false_iff]
      have hnone : slots hashTable idx = none := by rw [hslot]; simp [Entry.key, hstr]
      rintro ⟨d, -, hd, hrun⟩
      cases d with
      | zero =>
        rw [probe_zero hidx, hnone] at hd
        cases hd
      | succ d =>
        have := ((run_next hidx).1 hrun).1
        rw [hnone] at this
        cases this
    | some string =>
      by_cases hmatch : hashTable[idx].hash = hash ∧ string = word
      · refine ⟨true, by simp [hmatch], ?_⟩
        simp only [true_iff]
        refine ⟨0, Nat.succ_pos _, ?_, run_zero idx⟩
        rw [probe_zero hidx, hslot, key_eq_some]
        exact ⟨hmatch.1, by rw [hstr, hmatch.2]⟩
      · obtain ⟨b, hb, hiff⟩ := ih (Nat.mod_lt (idx + 1) hI.pos)
        refine ⟨b, by simp [hmatch, hI.next idx hidx, hb], hiff.trans ⟨?_, ?_⟩⟩
        · rintro ⟨d, hd, hfound, hrun⟩
          rw [probe_next] at hfound
          refine ⟨d + 1, Nat.succ_lt_succ hd, hfound, (run_next hidx).2 ⟨?_, hrun⟩⟩
          rw [hslot, key_isSome, hstr]
          rfl
        · rintro ⟨d, hd, hfound, hrun⟩
          cases d with
          | zero =>
            rw [probe_zero hidx, hslot, key_eq_some, hstr] at hfound
            exact absurd ⟨hfound.1, Option.some.inj hfound.2⟩ hmatch
          | succ d =>
            rw [← probe_next] at hfound
            exact ⟨d, Nat.lt_of_succ_lt_succ hd, hfound, ((run_next hidx).1 hrun).2⟩

end

/-! ## Tables that hold a list of words -/

/-- The table of `N` slots holds exactly these words, each with its own hash, and the slots from an
entry's home to the entry are occupied. -/
structure Holds (hash : StdString → UInt64) (N : Nat) (hashTable : List Entry) (words : List StdString) : Prop where
  length : hashTable.length = N
  contents : contents N (slots hashTable) = (words.map fun w => (hash w, w) : Multiset _)
  linked : Linked N (home N) (slots hashTable)

theorem holds_nil (hash : StdString → UInt64) (N : Nat) : Holds hash N (List.replicate N .empty) [] where
  length := List.length_replicate
  contents := by
    rw [slots_replicate, contents_none]
    rfl
  linked := by
    rw [slots_replicate]
    exact linked_empty _

section
variable {I : Indexing} {hash : StdString → UInt64} {N : Nat} {hashTable : List Entry} {words : List StdString}

theorem Holds.card (h : Holds hash N hashTable words) : (Probing.contents N (slots hashTable)).card = words.length := by
  rw [h.contents]
  simp

theorem Holds.mem (h : Holds hash N hashTable words) (w : StdString) :
    (hash w, w) ∈ Probing.contents N (slots hashTable) ↔ w ∈ words := by
  rw [h.contents]
  simp

/-- One `insert` into a table that is not full. -/
theorem Holds.insert (h : Holds hash N hashTable words) (hI : I.Cyclic N) (hlt : words.length < N) (w : StdString) :
    ∃ hashTable', insert I hash hashTable w = some hashTable' ∧ Holds hash N hashTable' (words ++ [w]) := by
  obtain rfl := h.length
  have hcard := h.card
  obtain ⟨d, hd, hnone, hrun⟩ := exists_empty (hcard ▸ hlt) (home hashTable.length (hash w, w))
  have hd' : d < hashTable.length := by omega
  have hidx := probe_lt hI.pos (home hashTable.length (hash w, w)) d
  refine ⟨hashTable.set (probe hashTable.length (home hashTable.length (hash w, w)) d) ⟨hash w, some w⟩, ?_, ?_⟩
  · unfold Dictionary.insert
    rw [hI.index]
    exact insertLoop_eq hI hd' (Nat.mod_lt _ hI.pos) hnone hrun
  · refine ⟨List.length_set, ?_, ?_⟩
    · rw [slots_set hidx, contents_update hidx hnone, h.contents, Multiset.cons_coe, Multiset.coe_eq_coe,
        List.map_append]
      exact (List.perm_append_singleton _ _).symm
    · rw [slots_set hidx]
      exact h.linked.insert hd' hrun

/-- All inserts of the constructor. -/
theorem Holds.insertAll (hI : I.Cyclic N) (rest : List StdString) (h : Holds hash N hashTable words)
    (hlt : words.length + rest.length < N) :
    ∃ hashTable', rest.foldlM (Dictionary.insert I hash) hashTable = some hashTable' ∧
      Holds hash N hashTable' (words ++ rest) := by
  induction rest generalizing words hashTable with
  | nil => exact ⟨hashTable, rfl, by simpa using h⟩
  | cons w rest ih =>
    obtain ⟨t, ht, hholds⟩ := h.insert hI (by simp at hlt; omega) w
    obtain ⟨t', ht', hholds'⟩ := ih hholds (by simp at hlt ⊢; omega)
    refine ⟨t', ?_, by simpa using hholds'⟩
    rw [List.foldlM_cons, ht]
    exact ht'

/-- **Lookup**: with the number of words as the limit of attempts, the answer is membership. -/
theorem Holds.inDictionary (h : Holds hash N hashTable words) (hI : I.Cyclic N) (w : StdString) :
    inDictionary I hash ⟨hashTable, words.length⟩ w = some (decide (w ∈ words)) := by
  obtain rfl := h.length
  obtain ⟨b, hb, hiff⟩ := lookupLoop_eq hI (hash w) w words.length (Nat.mod_lt (hash w).toNat hI.pos)
  unfold Dictionary.inDictionary
  rw [hI.index, hb]
  have hmem : b = true ↔ w ∈ words := by
    rw [hiff, ← h.mem w]
    constructor
    · rintro ⟨d, -, hfound, -⟩
      exact mem_contents.2 ⟨_, probe_lt hI.pos _ d, hfound⟩
    · intro hw
      have := h.linked.find hw
      rwa [h.card] at this
  rw [Option.some_inj, Bool.eq_iff_iff, hmem, decide_eq_true_iff]

end

/-! ## The size of the table -/

/-- The doubling loop ends with the least power of two above the number of words, without overflow. -/
theorem sizeLoop_eq_size {words : Nat} (h : words < 2 ^ 63) : sizeLoop words 65 1 = some (2 ^ words.size) := by
  have hk : words.size ≤ 63 := Nat.size_le.2 h
  have hloop : ∀ i j fuel, j + i = words.size → i < fuel → sizeLoop words fuel (2 ^ j) = some (2 ^ words.size) := by
    intro i
    induction i with
    | zero =>
      intro j fuel hj hfuel
      obtain ⟨fuel, rfl⟩ := Nat.exists_eq_succ_of_ne_zero (Nat.ne_of_gt hfuel)
      have hlt : words < 2 ^ j := by rw [show j = words.size from hj]; exact Nat.lt_size_self words
      rw [sizeLoop, if_neg (Nat.not_le.2 hlt), show j = words.size from hj]
    | succ i ih =>
      intro j fuel hj hfuel
      obtain ⟨fuel, rfl⟩ := Nat.exists_eq_succ_of_ne_zero (Nat.ne_of_gt (Nat.zero_lt_of_lt hfuel))
      have hle : 2 ^ j ≤ words := Nat.lt_size.1 (by omega)
      have hov : 2 ^ (j + 1) < 2 ^ 64 := (Nat.pow_lt_pow_iff_right (by decide)).2 (by omega)
      rw [sizeLoop, if_pos hle, ← Nat.pow_succ, sizeT_of_lt hov]
      exact ih (j + 1) fuel (by omega) (by omega)
  exact hloop words.size 0 65 (Nat.zero_add _) (by omega)

theorem sizeLoop_eq {words : Nat} (h : words < 2 ^ 63) :
    ∃ k ≤ 63, sizeLoop words 65 1 = some (2 ^ k) ∧ words < 2 ^ k :=
  ⟨words.size, Nat.size_le.2 h, sizeLoop_eq_size h, Nat.lt_size_self words⟩

/-! ## Two indexings of one table -/

section
variable {I J : Indexing} {N : Nat}

theorem insertLoop_congr (hI : I.Cyclic N) (hJ : J.Cyclic N) (hash : UInt64) (s : StdString) (fuel : Nat)
    {hashTable : List Entry} (hN : hashTable.length = N) {idx : Nat} (hidx : idx < N) :
    insertLoop I hash s fuel hashTable idx = insertLoop J hash s fuel hashTable idx := by
  induction fuel generalizing idx with
  | zero => rfl
  | succ fuel ih =>
    subst hN
    have hget : hashTable[idx]? = some hashTable[idx] := List.getElem?_eq_getElem hidx
    simp only [insertLoop, hget]
    by_cases hocc : hashTable[idx].string.isSome
    · rw [if_pos hocc, if_pos hocc, hI.next idx hidx, hJ.next idx hidx]
      exact ih (Nat.mod_lt _ hI.pos)
    · rw [if_neg hocc, if_neg hocc]

/-- Indexings that go around the table in the same way insert in the same slot. -/
theorem insert_congr (hI : I.Cyclic N) (hJ : J.Cyclic N) (hash : StdString → UInt64) {hashTable : List Entry}
    (hN : hashTable.length = N) (s : StdString) : insert I hash hashTable s = insert J hash hashTable s := by
  unfold insert
  rw [hN, hI.index, hJ.index]
  exact insertLoop_congr hI hJ (hash s) s N hN (Nat.mod_lt _ hI.pos)

/-- The tables of the two constructors agree after every insert. -/
theorem insertAll_congr (hI : I.Cyclic N) (hJ : J.Cyclic N) {hash : StdString → UInt64} (rest : List StdString)
    {hashTable : List Entry} {words : List StdString} (h : Holds hash N hashTable words)
    (hlt : words.length + rest.length < N) :
    rest.foldlM (insert I hash) hashTable = rest.foldlM (insert J hash) hashTable := by
  induction rest generalizing hashTable words with
  | nil => rfl
  | cons w rest ih =>
    rw [List.length_cons] at hlt
    obtain ⟨t, ht, hholds⟩ := h.insert hJ (by omega) w
    rw [List.foldlM_cons, List.foldlM_cons, insert_congr hI hJ hash h.length w, ht]
    apply ih hholds
    rw [List.length_append, List.length_singleton]
    omega

end

end LowLatency.Dictionary
