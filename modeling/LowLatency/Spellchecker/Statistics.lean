import Mathlib.Algebra.BigOperators.Ring.Finset
import Mathlib.Data.List.AList
import LowLatency.Basic

/-!
# `Statistics`: counting the errors, and the ten most frequent ones

| here | there |
| --- | --- |
| `Statistics.errors`     | `std::unordered_map<std::string, int> _errors` (`statistics.hh:42`), in some order |
| `Statistics.addError`   | `add_error` (lines 16-20) |
| `Statistics.printStats` | `print_stats` (lines 22-37), as the lines that it prints |
| `printLoop`             | its loop (lines 32-36) |
| `SortsByFreq`           | what `std::sort` with the comparator of line 28 promises |

The order of an unordered map is not specified, and neither is what `std::sort` does with equal
counts: `printStats` takes the sorting function as an argument, and the theorems hold for every
one that sorts. Incrementing the largest `int` and printing past the end are undefined, and `none`.
-/

namespace LowLatency.Spellchecker

structure Statistics where
  numErrors : Nat
  errors : AList fun _ : StdString => Int

def Statistics.new : Statistics := ⟨0, ∅⟩

/-- `_errors[error]` makes an entry with the value 0 if there is none. -/
def Statistics.addError (s : Statistics) (error : StdString) : Option Statistics :=
  (intIncrement ((s.errors.lookup error).getD 0)).map fun count =>
    ⟨sizeT (s.numErrors + 1), s.errors.insert error count⟩

/-- A line of the report: `Errors found: …`, `Top 10 errors: `, and `count\t: word`. -/
inductive Line where
  | errorsFound (numErrors : Nat)
  | top
  | error (count : Int) (word : StdString)
deriving DecidableEq

/-- `for (int i = 0; i < last; i++, it++)`, from `i` on. -/
def printLoop (last : Int) : Int → List (StdString × Int) → Option (List Line)
  | i, [] => if i < last then none else some []
  | i, e :: it => if i < last then (printLoop last (i + 1) it).map (.error e.2 e.1 :: ·) else some []

/-- `size_t` to `int`. -/
def sizeToInt (n : Nat) : Int := Int.bmod n (2 ^ 32)

def Statistics.pairs (s : Statistics) : List (StdString × Int) := s.errors.entries.map fun e => (e.1, e.2)

def Statistics.printStats (sort : List (StdString × Int) → List (StdString × Int)) (s : Statistics) :
    Option (List Line) :=
  let errorsByFreq := sort s.pairs
  (printLoop (min 10 (sizeToInt errorsByFreq.length)) 0 errorsByFreq).map fun lines =>
    .errorsFound s.numErrors :: .top :: lines

structure SortsByFreq (sort : List (StdString × Int) → List (StdString × Int)) : Prop where
  perm : ∀ l, (sort l).Perm l
  sorted : ∀ l, (sort l).Pairwise fun a b => ¬b.2 > a.2

/-! ## Counting -/

/-- The statistics after the errors of a list, in whatever order. -/
structure Counts (s : Statistics) (found : List StdString) : Prop where
  lookup : ∀ w, s.errors.lookup w = if w ∈ found then some (found.count w : Int) else none
  numErrors : s.numErrors = found.length

theorem counts_new : Counts .new [] := ⟨fun w => by simp [Statistics.new], rfl⟩

section
variable {s : Statistics} {found : List StdString}

theorem Counts.getD (h : Counts s found) (w : StdString) : (s.errors.lookup w).getD 0 = found.count w := by
  rw [h.lookup]
  by_cases hw : w ∈ found
  · rw [if_pos hw, Option.getD_some]
  · rw [if_neg hw, Option.getD_none, List.count_eq_zero_of_not_mem hw]
    rfl

/-- One more error. -/
theorem Counts.addError (h : Counts s found) (hlen : found.length + 1 < 2 ^ 31) (error : StdString) :
    ∃ s', s.addError error = some s' ∧ Counts s' (found ++ [error]) := by
  have hcount : found.count error ≤ found.length := List.count_le_length
  refine ⟨⟨found.length + 1, s.errors.insert error (found.count error + 1)⟩, ?_, ?_, ?_⟩
  · rw [Statistics.addError, h.getD, intIncrement, if_pos (by omega), h.numErrors, sizeT_of_lt (by omega)]
    rfl
  · intro w
    by_cases hw : w = error
    · subst hw
      rw [AList.lookup_insert, if_pos (by simp)]
      simp
    · have hne : error ≠ w := Ne.symm hw
      rw [AList.lookup_insert_ne hw, h.lookup]
      simp [hw, hne]
  · simp

/-- The words with an entry are the errors, each once. -/
theorem Counts.mem_keys (h : Counts s found) (w : StdString) : w ∈ s.errors.keys ↔ w ∈ found := by
  rw [← AList.mem_keys, ← AList.lookup_isSome, h.lookup]
  by_cases hw : w ∈ found <;> simp [hw]

theorem Counts.mem_entries (h : Counts s found) {w : StdString} {n : Int} (he : ⟨w, n⟩ ∈ s.errors.entries) :
    n = found.count w := by
  have hlookup := AList.mem_lookup_iff.2 he
  have hmem : w ∈ found := (h.mem_keys w).1 (List.mem_map_of_mem he)
  rw [Option.mem_def, h.lookup, if_pos hmem] at hlookup
  exact (Option.some.inj hlookup).symm

/-- The counts add up to the number of errors. -/
theorem Counts.sum (h : Counts s found) : (s.pairs.map Prod.snd).sum = s.numErrors := by
  have hcounts : s.pairs.map Prod.snd = s.errors.keys.map fun w => (found.count w : Int) := by
    rw [Statistics.pairs, List.map_map, AList.keys, List.keys, List.map_map]
    refine List.map_congr_left ?_
    rintro ⟨w, n⟩ he
    exact h.mem_entries he
  have hkeys : s.errors.keys.toFinset = found.toFinset := by
    ext w
    rw [List.mem_toFinset, List.mem_toFinset, h.mem_keys]
  calc (s.pairs.map Prod.snd).sum
      = ∑ w ∈ s.errors.keys.toFinset, (found.count w : Int) := by
        rw [hcounts, List.sum_toFinset _ s.errors.keys_nodup]
    _ = ((∑ w ∈ found.toFinset, found.count w : Nat) : Int) := by
        rw [hkeys, Nat.cast_sum]
    _ = s.numErrors := by
        rw [h.numErrors]
        congr 1
        convert List.sum_toFinset_count_eq_length found

/-- There are at most as many different errors as errors. -/
theorem Counts.length_pairs_le (h : Counts s found) : s.pairs.length ≤ found.length := by
  have hlen : s.pairs.length = s.errors.keys.length := by
    rw [Statistics.pairs, List.length_map, AList.keys, List.keys, List.length_map]
  rw [hlen]
  exact (List.subperm_of_subset s.errors.keys_nodup fun w hw => (h.mem_keys w).1 hw).length_le

end

/-! ## The report -/

theorem printLoop_eq {last : Nat} {i : Nat} {it : List (StdString × Int)} (h : last ≤ i + it.length) :
    printLoop last i it = some ((it.take (last - i)).map fun e => .error e.2 e.1) := by
  induction it generalizing i with
  | nil =>
    rw [printLoop, if_neg (by simpa using h)]
    simp
  | cons e it ih =>
    rw [printLoop]
    by_cases hi : i < last
    · have hsucc : last - i = (last - (i + 1)) + 1 := by omega
      have hnext := ih (show last ≤ (i + 1) + it.length by rw [List.length_cons] at h; omega)
      rw [Int.natCast_succ] at hnext
      rw [if_pos (Int.ofNat_lt.2 hi), hnext, hsucc, List.take_succ_cons]
      rfl
    · rw [if_neg (mt Int.ofNat_lt.1 hi), Nat.sub_eq_zero_of_le (by omega), List.take_zero]
      rfl

/-- **The report**: ten different errors or all of them, with their counts, the most frequent first,
and no error left out is more frequent than one printed. -/
theorem printStats_spec {sort : List (StdString × Int) → List (StdString × Int)} (hsort : SortsByFreq sort)
    {s : Statistics} (hlen : s.pairs.length < 2 ^ 31) :
    ∃ printed, s.printStats sort =
        some (.errorsFound s.numErrors :: .top :: printed.map fun e => .error e.2 e.1) ∧
      printed.length = min 10 s.pairs.length ∧ (printed.map Prod.fst).Nodup ∧ printed ⊆ s.pairs ∧
      printed.Pairwise (fun a b => b.2 ≤ a.2) ∧
      ∀ e ∈ s.pairs, e ∉ printed → ∀ e' ∈ printed, e.2 ≤ e'.2 := by
  have hperm := hsort.perm s.pairs
  have hsorted : (sort s.pairs).Pairwise fun a b => b.2 ≤ a.2 := (hsort.sorted _).imp fun h => Int.not_lt.1 h
  have hsize : sizeToInt s.pairs.length = s.pairs.length := bmod_of_lt hlen
  have hint : min (10 : Int) (sizeToInt (sort s.pairs).length) = (min 10 s.pairs.length : Nat) := by
    rw [hperm.length_eq, hsize]
    omega
  refine ⟨(sort s.pairs).take (min 10 s.pairs.length), ?_, ?_, ?_, ?_, ?_, ?_⟩
  · simp only [Statistics.printStats, hint]
    rw [show (0 : Int) = (0 : Nat) from rfl, printLoop_eq (by rw [hperm.length_eq]; omega)]
    rfl
  · rw [List.length_take, hperm.length_eq]
    omega
  · have hnodup : (s.pairs.map Prod.fst).Nodup := by
      rw [Statistics.pairs, List.map_map]
      exact s.errors.keys_nodup
    exact (((hperm.map Prod.fst).nodup_iff).2 hnodup).sublist ((List.take_sublist _ _).map _)
  · exact fun e he => hperm.subset (List.take_subset _ _ he)
  · exact hsorted.sublist (List.take_sublist _ _)
  · intro e he hnot e' he'
    -- `e` comes after all that is printed
    rw [← List.take_append_drop (min 10 s.pairs.length) (sort s.pairs), List.pairwise_append] at hsorted
    have hmem := hperm.mem_iff.2 he
    rw [← List.take_append_drop (min 10 s.pairs.length) (sort s.pairs)] at hmem
    rcases List.mem_append.1 hmem with hmem | hmem
    · exact absurd hmem hnot
    · exact hsorted.2.2 e' he' e hmem

end LowLatency.Spellchecker
