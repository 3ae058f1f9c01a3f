import LowLatency.Dictionary.V0
import LowLatency.Spellchecker.Statistics
import LowLatency.Spellchecker.Tokenizer

/-!
# The spellchecker

| here | there |
| --- | --- |
| `toLower`     | `std::tolower` on a byte, in the C locale |
| `resize`, `transform` | `lower.resize(word.size())` and the `std::transform` into it (`spellchecker.cc:49-50`) |
| `checkWord`   | the body of the inner loop (lines 46-55) |
| `checkLoop`, `checkLine` | the inner loop (lines 43-56) |
| `spellcheck`  | the outer loop (lines 41-57), over the lines of the dictionary and of the input |

The buffer `lower` is one variable for the whole run: it keeps its contents from one word to the next,
and `resize` keeps what fits. Writing past its end would be undefined, and `none`.
-/

namespace LowLatency.Spellchecker

open Words Dictionary

def toLower (c : UInt8) : UInt8 := if 65 ≤ c ∧ c ≤ 90 then c + 32 else c

def resize (s : StdString) (n : Nat) : StdString := s.take n ++ List.replicate (n - s.length) 0

/-- Writes the lower-case bytes of `word` over `lower`, from its first byte on. -/
def transform : StdString → StdString → Option StdString
  | [], lower => some lower
  | _ :: _, [] => none
  | c :: word, _ :: lower => (transform word lower).map (toLower c :: ·)

structure Checker where
  stats : Statistics
  lower : StdString

def checkWord (dict : Finset StdString) (s : Checker) (word : StdString) : Option Checker :=
  if V0.inDictionary dict word then some s
  else
    (transform word (resize s.lower word.length)).bind fun lower =>
      if V0.inDictionary dict lower then some { s with lower }
      else (s.stats.addError word).map fun stats => ⟨stats, lower⟩

/-- `none` also when the calls run out. -/
def checkLoop (dict : Finset StdString) : Nat → StdString → Checker → Option Checker
  | 0, _, _ => none
  | calls + 1, next, s => (getNext next).bind fun (word, next) =>
    if word = [] then some s else (checkWord dict s word).bind (checkLoop dict calls next)

def checkLine (dict : Finset StdString) (s : Checker) (line : StdString) : Option Checker :=
  checkLoop dict (line.length + 1) line s

def spellcheck (dictionary lines : List StdString) : Option Statistics :=
  (lines.foldlM (checkLine (V0.new dictionary)) ⟨.new, []⟩).map Checker.stats

/-! ## The loops over the words -/

/-- `resize` makes room for exactly the word. -/
theorem length_resize (s : StdString) (n : Nat) : (resize s n).length = n := by
  rw [resize, List.length_append, List.length_take, List.length_replicate]
  omega

/-- Nothing of the old contents of the buffer is left. -/
theorem transform_eq {word lower : StdString} (h : lower.length = word.length) :
    transform word lower = some (word.map toLower) := by
  induction word generalizing lower with
  | nil => rw [List.length_eq_zero_iff.1 h]; rfl
  | cons c word ih =>
    cases lower with
    | nil => cases h
    | cons d lower =>
      rw [transform, ih (Nat.succ.inj h)]
      rfl

/-- Neither the word nor its lower-case form is in the dictionary. -/
def isError (dictionary : List StdString) (word : StdString) : Bool :=
  decide (word ∉ dictionary ∧ word.map toLower ∉ dictionary)

/-- One word. -/
theorem checkWord_counts (dictionary : List StdString) {s : Checker} {found : List StdString}
    (h : Counts s.stats found) (hlen : found.length + 1 < 2 ^ 31) (word : StdString) :
    ∃ s', checkWord (V0.new dictionary) s word = some s' ∧
      Counts s'.stats (found ++ [word].filter (isError dictionary)) := by
  unfold checkWord
  rw [V0.inDictionary_new]
  by_cases hword : word ∈ dictionary
  · refine ⟨s, by rw [if_pos (decide_eq_true hword)], ?_⟩
    simpa [isError, hword] using h
  · rw [if_neg (by simpa using hword), transform_eq (length_resize s.lower word.length), Option.bind_some,
      V0.inDictionary_new]
    by_cases hlower : word.map toLower ∈ dictionary
    · refine ⟨{ s with lower := word.map toLower }, by rw [if_pos (decide_eq_true hlower)], ?_⟩
      simpa [isError, hlower] using h
    · obtain ⟨stats, hadd, hcounts⟩ := h.addError hlen word
      refine ⟨⟨stats, word.map toLower⟩, by rw [if_neg (by simpa using hlower), hadd]; rfl, ?_⟩
      simpa [isError, hword, hlower] using hcounts

/-- All words of a list. -/
theorem checkWords_counts {dictionary : List StdString} (tokens : List StdString) {s : Checker}
    {found : List StdString} (h : Counts s.stats found) (hlen : found.length + tokens.length < 2 ^ 31) :
    ∃ s', tokens.foldlM (checkWord (V0.new dictionary)) s = some s' ∧
      Counts s'.stats (found ++ tokens.filter (isError dictionary)) := by
  induction tokens generalizing s found with
  | nil => exact ⟨s, rfl, by simpa using h⟩
  | cons word tokens ih =>
    rw [List.length_cons] at hlen
    obtain ⟨s₁, hs₁, hcounts₁⟩ := checkWord_counts dictionary h (by omega) word
    have hle : ([word].filter (isError dictionary)).length ≤ 1 := List.length_filter_le _ _
    obtain ⟨s₂, hs₂, hcounts₂⟩ := ih hcounts₁ (by rw [List.length_append]; omega)
    refine ⟨s₂, by rw [List.foldlM_cons, hs₁]; exact hs₂, ?_⟩
    rwa [List.append_assoc, ← List.filter_append] at hcounts₂

/-- The inner loop checks the words of the line one after the other. -/
theorem checkLoop_eq (dict : Finset StdString) {next : StdString} (h : ∀ c ∈ next, c < 128) {calls : Nat}
    (hcalls : next.length < calls) (s : Checker) :
    checkLoop dict calls next s = (words isDelimiter next).foldlM (checkWord dict) s := by
  induction calls generalizing next s with
  | zero => exact absurd hcalls (Nat.not_lt_zero _)
  | succ calls ih =>
    obtain ⟨skipped, word, rest, hnext, hcall⟩ := getNext_spec h
    simp only [checkLoop, hnext, Option.bind_some]
    by_cases hw : word = []
    · rw [if_pos hw, words_eq_nil_iff.2 (hcall.empty hw).1]
      rfl
    · have hlen := hcall.length_lt hw
      rw [if_neg hw, hcall.words hw, List.foldlM_cons]
      apply congrArg
      funext s'
      exact ih (fun c hc => h c (hcall.suffix.subset hc)) (by omega) s'

theorem checkLines_eq (dict : Finset StdString) {lines : List StdString} (h : ∀ line ∈ lines, ∀ c ∈ line, c < 128)
    (s : Checker) :
    lines.foldlM (checkLine dict) s = (lines.flatMap (words isDelimiter)).foldlM (checkWord dict) s := by
  induction lines generalizing s with
  | nil => rfl
  | cons line lines ih =>
    rw [List.forall_mem_cons] at h
    rw [List.foldlM_cons, List.flatMap_cons, List.foldlM_append, checkLine,
      checkLoop_eq dict h.1 (Nat.lt_succ_self _)]
    apply congrArg
    funext s'
    exact ih h.2 s'

/-! ## The report -/

/-- The statistics count the errors among the words of all lines. -/
theorem spellcheck_counts (dictionary : List StdString) {lines : List StdString}
    (hascii : ∀ line ∈ lines, ∀ c ∈ line, c < 128)
    (htokens : (lines.flatMap (words isDelimiter)).length < 2 ^ 31) :
    ∃ stats, spellcheck dictionary lines = some stats ∧
      Counts stats ((lines.flatMap (words isDelimiter)).filter (isError dictionary)) := by
  obtain ⟨s, hs, hcounts⟩ := checkWords_counts (lines.flatMap (words isDelimiter)) (s := ⟨.new, []⟩) counts_new
    (by simpa using htokens)
  refine ⟨s.stats, ?_, hcounts⟩
  rw [spellcheck, checkLines_eq _ hascii, hs]
  rfl

/-- **The spellchecker end to end.** After the main loop, a word that is in the dictionary, or whose
lower-case form is, has no entry; every other word has its number of occurrences among the words of
all lines (no entry for none). The number of errors is the sum of the counts. The report prints the
number of errors and ten different words, or all if there are fewer, with their counts, the most
frequent first, and no other error is more frequent than one of these. -/
theorem spellchecker_report (sort : List (StdString × Int) → List (StdString × Int)) (hsort : SortsByFreq sort)
    (dictionary lines : List StdString) (hascii : ∀ line ∈ lines, ∀ c ∈ line, c < 128)
    (htokens : (lines.flatMap (words isDelimiter)).length < 2 ^ 31) :
    ∃ stats printed, spellcheck dictionary lines = some stats ∧
      (∀ w, stats.errors.lookup w =
        if w ∉ dictionary ∧ w.map toLower ∉ dictionary ∧ w ∈ lines.flatMap (words isDelimiter)
        then some ((lines.flatMap (words isDelimiter)).count w : Int) else none) ∧
      (stats.numErrors : Int) = (stats.pairs.map Prod.snd).sum ∧
      stats.printStats sort =
        some (.errorsFound stats.numErrors :: .top :: printed.map fun e => .error e.2 e.1) ∧
      printed.length = min 10 stats.pairs.length ∧ (printed.map Prod.fst).Nodup ∧ printed ⊆ stats.pairs ∧
      printed.Pairwise (fun a b => b.2 ≤ a.2) ∧
      ∀ e ∈ stats.pairs, e ∉ printed → ∀ e' ∈ printed, e.2 ≤ e'.2 := by
  obtain ⟨stats, hstats, hcounts⟩ := spellcheck_counts dictionary hascii htokens
  have hfilter := List.length_filter_le (isError dictionary) (lines.flatMap (words isDelimiter))
  have hpairs := hcounts.length_pairs_le
  obtain ⟨printed, hprinted, hreport⟩ := printStats_spec hsort (s := stats) (by omega)
  refine ⟨stats, printed, hstats, ?_, hcounts.sum.symm, hprinted, hreport⟩
  intro w
  rw [hcounts.lookup]
  by_cases herr : isError dictionary w
  · have h := of_decide_eq_true herr
    rw [List.count_filter herr]
    simp only [List.mem_filter, herr, and_true, h, not_false_eq_true, true_and]
  · have h := of_decide_eq_false (Bool.eq_false_iff.2 herr)
    rw [if_neg (by simp [herr]), if_neg (by rintro ⟨h₁, h₂, -⟩; exact h ⟨h₁, h₂⟩)]

theorem sortsByFreq_mergeSort : SortsByFreq fun l => l.mergeSort fun a b => decide (b.2 ≤ a.2) where
  perm l := List.mergeSort_perm l _
  sorted l := by
    refine (List.pairwise_mergeSort ?_ ?_ l).imp ?_
    · intro a b c hab hbc
      simp only [decide_eq_true_eq] at *
      omega
    · intro a b
      simp only [Bool.or_eq_true, decide_eq_true_eq]
      omega
    · intro a b hab
      simpa using hab

/-- The dictionary has `a`; the lines are `A b` and `b.`: one error, found twice. -/
theorem spellchecker_report_twice :
    ∃ stats, spellcheck [[97]] [[65, 32, 98], [98, 46]] = some stats ∧ stats.errors.lookup [98] = some 2 ∧
      stats.errors.lookup [65] = none ∧ (stats.numErrors : Int) = (stats.pairs.map Prod.snd).sum := by
  obtain ⟨stats, printed, hstats, hlookup, hsum, -⟩ := spellchecker_report _ sortsByFreq_mergeSort
    [[97]] [[65, 32, 98], [98, 46]] (by simp) (by decide)
  refine ⟨stats, hstats, ?_, ?_, hsum⟩
  · rw [hlookup]
    decide
  · rw [hlookup]
    decide

end LowLatency.Spellchecker
