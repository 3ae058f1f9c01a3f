import LowLatency.Dictionary.V1
import LowLatency.Dictionary.V2
import LowLatency.Dictionary.V4
import LowLatency.Dictionary.V5
import LowLatency.Spellchecker.Files

/-!
# The dictionary benchmark

`dictionary.cc` runs the same three benchmarks over every version of the dictionary, and two of them check
the answers while they measure.

| here | there (`dictionary.cc`) |
| --- | --- |
| `Version`, `versions` | the classes that `DictType` stands for (lines 132-149) |
| `createStrings`       | `CreateVectorOfUniqueRandomStrings` (lines 42-51) |
| `setUp`               | `main` (lines 154-157) |
| `queryLoop`           | the loops of `InDictionary` and `NotInDictionary` |
| `inDictionary`, `notInDictionary` | lines 53-104, with what they print |
| `checkText`           | lines 106-130 |
-/

namespace LowLatency.Dictionary

/-! ## The versions -/

structure Version where
  Container : Type
  new : List StdString → Option Container
  inDictionary : Container → StdString → Option Bool

/-- The words are in a vector, so the iterators of `v5` have random access. -/
def versions (hash : StdString → UInt64) (E : RawHashSet.Env StdString) : List Version :=
  [⟨_, fun words => some (V0.new words), fun d w => some (V0.inDictionary d w)⟩,
    ⟨_, fun words => some (V1.new words), fun d w => some (V1.inDictionary d w)⟩,
    ⟨_, fun words => some (V2.new words), fun d w => some (V2.inDictionary d w)⟩,
    ⟨_, V3.new hash, V3.inDictionary hash⟩,
    ⟨_, V4.new hash, V4.inDictionary hash⟩,
    ⟨_, V5.new E true, V5.inDictionary E⟩]

/-- The constructor and every look-up return, and the answer is membership. -/
theorem decides_of_mem_versions {hash : StdString → UInt64} {E : RawHashSet.Env StdString} {words : List StdString}
    (h : words.length < 2 ^ 58) {v : Version} (hv : v ∈ versions hash E) :
    ∃ d, v.new words = some d ∧ ∀ w, v.inDictionary d w = some (decide (w ∈ words)) := by
  simp only [versions, List.mem_cons, List.not_mem_nil, or_false] at hv
  rcases hv with rfl | rfl | rfl | rfl | rfl | rfl
  · exact ⟨_, rfl, fun w => congrArg some (V0.inDictionary_new words w)⟩
  · exact ⟨_, rfl, fun w => congrArg some (V1.inDictionary_new words w)⟩
  · exact ⟨_, rfl, fun w => congrArg some (V2.inDictionary_new words w)⟩
  · obtain ⟨N, hashTable, hnew, hcyc, hholds⟩ := V3.new_holds hash (show words.length < 2 ^ 63 by omega)
    exact ⟨_, hnew, fun w => hholds.inDictionary hcyc w⟩
  · exact V4.inDictionary_eq hash (by omega)
  · obtain ⟨d, hnew, hfind, -⟩ := V5.inDictionary_eq E true h
    exact ⟨d, hnew, hfind⟩

/-! ## The words -/

namespace Benchmark

/-- `while (strings.size() < len) strings.insert(CreateRandomString())`, from the `i`-th string drawn on. In which order the
set is copied to the vector is up to the library. -/
def createStrings (order : Finset StdString → List StdString) (draw : Nat → StdString) (len : Nat) :
    Nat → Nat → Finset StdString → Option (List StdString)
  | 0, _, _ => none
  | fuel + 1, i, strings =>
    if strings.card < len then createStrings order draw len fuel (i + 1) (Insert.insert (draw i) strings)
    else some (order strings)

/-- `wordsIn` and `wordsNotIn`. `DICT_SIZE*2` is an `int`. -/
def setUp (order : Finset StdString → List StdString) (draw : Nat → StdString) (dictSize fuel : Nat) :
    Option (List StdString × List StdString) := do
  let len ← intMul dictSize 2
  let words ← createStrings order draw (longToSizeT len) fuel 0 ∅
  some (words.take dictSize, words.drop dictSize)

/-! ## The benchmarks -/

/-- `word = words[idx]; idx = (idx + 1) % words.size(); acc = combine acc (in_dictionary(word))`, for every iteration. The
subscript is an `int`. -/
def queryLoop (combine : Bool → Bool → Bool) (query : StdString → Option Bool) (words : List StdString) :
    Nat → Int → Bool → Option Bool
  | 0, _, acc => some acc
  | iterations + 1, idx, acc => do
    let word ← words[longToSizeT idx]?
    let next ← intIncrement idx
    let found ← query word
    queryLoop combine query words iterations (intWrap (longToSizeT next % words.length : Nat)) (combine acc found)

def inDictionary (v : Version) (wordsIn : List StdString) (iterations : Nat) : Option (List String) := do
  let dict ← v.new wordsIn
  let allFound ← queryLoop (· && ·) (v.inDictionary dict) wordsIn iterations 0 true
  some (if !allFound then ["InDictionary consistency check failed"] else [])

def notInDictionary (v : Version) (wordsIn wordsNotIn : List StdString) (iterations : Nat) : Option (List String) := do
  let dict ← v.new wordsIn
  let someFound ← queryLoop (· || ·) (v.inDictionary dict) wordsNotIn iterations 0 false
  some (if someFound then ["NotInDictionary consistency check failed"] else [])

inductive TextResult where
  | skipped (message : String)
  | errorsFound (count : Nat)
deriving DecidableEq

/-- The inner loop: the number of errors after the text. -/
def countErrors (query : StdString → Option Bool) : Nat → StdString → Nat → Option Nat
  | 0, _, _ => none
  | calls + 1, next, numErrors => do
    let (word, next) ← Spellchecker.getNext next
    if word = [] then some numErrors
    else do
      let found ← query word
      countErrors query calls next (if !found then sizeT (numErrors + 1) else numErrors)

def countLoop (query : StdString → Option Bool) (contents : StdString) : Nat → Nat → Option Nat
  | 0, numErrors => some numErrors
  | iterations + 1, numErrors => do
    let numErrors ← countErrors query (contents.length + 1) contents numErrors
    countLoop query contents iterations numErrors

/-- Of the files with these contents. -/
def checkText (v : Version) (dictionary contents : StdString) (iterations : Nat) : Option TextResult := do
  let words ← Spellchecker.readLines dictionary
  let dict ← v.new words
  if words.isEmpty || contents.isEmpty then some (.skipped "Could not read files")
  else do
    let numErrors ← countLoop (v.inDictionary dict) contents iterations 0
    if iterations = 0 then none else some (.errorsFound (numErrors / iterations))

/-! ## The consistency checks -/

/-- The loop stops once the set is large enough, with that many different strings. -/
theorem createStrings_spec {order : Finset StdString → List StdString} (horder : ∀ S, (order S : Multiset StdString) = S.val)
    (draw : Nat → StdString) {len m : Nat} (fuel i : Nat) (strings : Finset StdString) (hcard : strings.card ≤ len)
    (hstrings : strings = ((List.range i).map draw).toFinset) (hm : len ≤ ((List.range m).map draw).toFinset.card) (him : i ≤ m)
    (hfuel : m < i + fuel) :
    ∃ words, createStrings order draw len fuel i strings = some words ∧ words.Nodup ∧ words.length = len := by
  induction fuel generalizing i strings with
  | zero => omega
  | succ fuel ih =>
    rw [createStrings]
    by_cases hlt : strings.card < len
    · have hne : i ≠ m := by
        rintro rfl
        rw [hstrings] at hlt
        omega
      have hnext : Insert.insert (draw i) strings = ((List.range (i + 1)).map draw).toFinset := by
        rw [List.range_succ, List.map_append, List.toFinset_append, hstrings]
        ext w
        simp
      rw [if_pos hlt]
      exact ih (i + 1) _ (Nat.le_trans (Finset.card_insert_le _ _) hlt) hnext (by omega) (by omega)
    · rw [if_neg hlt]
      refine ⟨order strings, rfl, ?_, ?_⟩
      · exact Multiset.coe_nodup.1 (horder strings ▸ strings.nodup)
      · rw [← Multiset.coe_card, horder]
        show strings.card = len
        omega

/-- Enough different strings make two vectors of words, with none in both. -/
theorem setUp_spec {order : Finset StdString → List StdString} (horder : ∀ S, (order S : Multiset StdString) = S.val)
    (draw : Nat → StdString) {dictSize m : Nat} (hlt : dictSize < 2 ^ 30)
    (hm : dictSize * 2 ≤ ((List.range m).map draw).toFinset.card) :
    ∃ wordsIn wordsNotIn, setUp order draw dictSize (m + 1) = some (wordsIn, wordsNotIn) ∧
      wordsIn.length = dictSize ∧ wordsNotIn.length = dictSize ∧ ∀ w ∈ wordsNotIn, w ∉ wordsIn := by
  obtain ⟨words, hcreate, hnodup, hlen⟩ := createStrings_spec horder draw (m + 1) 0 ∅ (Nat.zero_le _) rfl hm (Nat.zero_le _)
    (by omega)
  have hint : intMul dictSize 2 = some ((dictSize * 2 : Nat) : Int) := by
    rw [intMul, if_pos (by omega), Int.natCast_mul]
    rfl
  have hsize : longToSizeT ((dictSize * 2 : Nat) : Int) = dictSize * 2 := by
    rw [longToSizeT_natCast, Nat.mod_eq_of_lt (by omega)]
  refine ⟨words.take dictSize, words.drop dictSize, ?_, ?_, ?_, ?_⟩
  · rw [setUp, hint, Option.bind_eq_bind, Option.bind_some, hsize, hcreate, Option.bind_eq_bind, Option.bind_some]
  · rw [List.length_take]
    omega
  · rw [List.length_drop]
    omega
  · intro w hdrop htake
    rw [← List.take_append_drop dictSize words] at hnodup
    exact (List.nodup_append.1 hnodup).2.2 w htake w hdrop rfl

/-- The subscript goes around in the vector, and every word it comes to is there. -/
theorem queryLoop_eq {combine : Bool → Bool → Bool} {query : StdString → Option Bool} {words : List StdString} {answer acc : Bool}
    (hlen : words.length < 2 ^ 31) (hquery : ∀ w ∈ words, query w = some answer) (hacc : combine acc answer = acc)
    (iterations : Nat) {idx : Nat} (hidx : idx < words.length) :
    queryLoop combine query words iterations idx acc = some acc := by
  induction iterations generalizing idx with
  | zero => rfl
  | succ iterations ih =>
    have hsub : longToSizeT idx = idx := by rw [longToSizeT_natCast, Nat.mod_eq_of_lt (by omega)]
    have hinc : intIncrement idx = some ((idx + 1 : Nat) : Int) := by
      rw [intIncrement, if_pos (by omega)]
      rfl
    have hnext : longToSizeT ((idx + 1 : Nat) : Int) = idx + 1 := by rw [longToSizeT_natCast, Nat.mod_eq_of_lt (by omega)]
    have hmod : (idx + 1) % words.length < words.length := Nat.mod_lt _ (by omega)
    rw [queryLoop, hsub, List.getElem?_eq_getElem hidx, Option.bind_eq_bind, Option.bind_some, hinc, Option.bind_eq_bind,
      Option.bind_some, hquery _ (List.getElem_mem hidx), Option.bind_eq_bind, Option.bind_some, hnext, hacc,
      show intWrap ((idx + 1) % words.length : Nat) = ((idx + 1) % words.length : Nat) from bmod_of_lt (by omega)]
    exact ih hmod

/-- **No consistency check fails**: once enough different strings have been drawn, `main` has a dictionary and as many words
that are not in it, and in every version of the dictionary and for every number of iterations the first benchmark finds all
words that it looks up, and the second none. -/
theorem consistency_checks (order : Finset StdString → List StdString) (horder : ∀ S, (order S : Multiset StdString) = S.val)
    (draw : Nat → StdString) (dictSize m : Nat) (hpos : 0 < dictSize) (hlt : dictSize < 2 ^ 30)
    (hm : dictSize * 2 ≤ ((List.range m).map draw).toFinset.card) (hash : StdString → UInt64) (E : RawHashSet.Env StdString) :
    ∃ wordsIn wordsNotIn, setUp order draw dictSize (m + 1) = some (wordsIn, wordsNotIn) ∧
      wordsIn.length = dictSize ∧ wordsNotIn.length = dictSize ∧
      ∀ v ∈ versions hash E, ∀ iterations,
        inDictionary v wordsIn iterations = some [] ∧ notInDictionary v wordsIn wordsNotIn iterations = some [] := by
  obtain ⟨wordsIn, wordsNotIn, hsetUp, hin, hout, hdisjoint⟩ := setUp_spec horder draw hlt hm
  refine ⟨wordsIn, wordsNotIn, hsetUp, hin, hout, ?_⟩
  intro v hv iterations
  obtain ⟨d, hnew, hfind⟩ := decides_of_mem_versions (show wordsIn.length < 2 ^ 58 by omega) hv
  constructor
  · have hall : ∀ w ∈ wordsIn, v.inDictionary d w = some true := fun w hw => by rw [hfind, decide_eq_true hw]
    have hloop : queryLoop (· && ·) (v.inDictionary d) wordsIn iterations (0 : Nat) true = some true :=
      queryLoop_eq (by omega) hall rfl iterations (by omega)
    rw [inDictionary, hnew, Option.bind_eq_bind, Option.bind_some]
    exact congrArg (Option.bind · _) hloop
  · have hnone : ∀ w ∈ wordsNotIn, v.inDictionary d w = some false := fun w hw => by
      rw [hfind, decide_eq_false (hdisjoint w hw)]
    have hloop : queryLoop (· || ·) (v.inDictionary d) wordsNotIn iterations (0 : Nat) false = some false :=
      queryLoop_eq (by omega) hnone rfl iterations (by omega)
    rw [notInDictionary, hnew, Option.bind_eq_bind, Option.bind_some]
    exact congrArg (Option.bind · _) hloop

/-- Every string is drawn twice; four different ones make a dictionary of two words and two that are not in it. -/
theorem consistency_checks_two :
    ∃ wordsIn wordsNotIn, setUp Finset.toList (fun i => [UInt8.ofNat (i / 2)]) 2 9 = some (wordsIn, wordsNotIn) ∧
      wordsIn.length = 2 ∧ wordsNotIn.length = 2 ∧
      ∀ v ∈ versions (fun _ => 5) V5.colliding, ∀ iterations,
        inDictionary v wordsIn iterations = some [] ∧ notInDictionary v wordsIn wordsNotIn iterations = some [] :=
  consistency_checks Finset.toList Finset.coe_toList (fun i => [UInt8.ofNat (i / 2)]) 2 8 (by decide) (by decide) (by decide) _ _

/-! ## The errors in a text -/

open Words Spellchecker

theorem countErrors_eq {query : StdString → Option Bool} {lines : List StdString} (hquery : ∀ w, query w = some (decide (w ∈ lines)))
    {next : StdString} (h : ∀ c ∈ next, c < 128) {calls : Nat} (hcalls : next.length < calls) {numErrors : Nat}
    (hlt : numErrors + (words isDelimiter next).length < 2 ^ 64) :
    countErrors query calls next numErrors = some (numErrors + (words isDelimiter next).countP fun w => decide (w ∉ lines)) := by
  induction calls generalizing next numErrors with
  | zero => exact absurd hcalls (Nat.not_lt_zero _)
  | succ calls ih =>
    obtain ⟨skipped, word, rest, hnext, hcall⟩ := getNext_spec h
    rw [countErrors, hnext, Option.bind_eq_bind, Option.bind_some]
    by_cases hw : word = []
    · simp [hw, words_eq_nil_iff.2 (hcall.empty hw).1]
    · have hshort := hcall.length_lt hw
      have hascii : ∀ c ∈ rest, c < 128 := fun c hc => h c (hcall.suffix.subset hc)
      rw [hcall.words hw, List.length_cons] at hlt
      rw [hcall.words hw, List.countP_cons]
      simp only [if_neg hw, hquery, Option.bind_eq_bind, Option.bind_some]
      by_cases hmem : word ∈ lines
      · rw [if_neg (by simp [hmem]), ih hascii (by omega) (by omega)]
        simp [hmem]
      · rw [if_pos (by simp [hmem]), sizeT_of_lt (by omega), ih hascii (by omega) (by omega)]
        simp [hmem]
        omega

theorem countLoop_eq {query : StdString → Option Bool} {lines : List StdString} (hquery : ∀ w, query w = some (decide (w ∈ lines)))
    {contents : StdString} (h : ∀ c ∈ contents, c < 128) (iterations : Nat) {numErrors : Nat}
    (hlt : numErrors + iterations * (words isDelimiter contents).length < 2 ^ 64) :
    countLoop query contents iterations numErrors =
      some (numErrors + iterations * (words isDelimiter contents).countP fun w => decide (w ∉ lines)) := by
  induction iterations generalizing numErrors with
  | zero => simp [countLoop]
  | succ iterations ih =>
    have hle : (words isDelimiter contents).countP (fun w => decide (w ∉ lines)) ≤ (words isDelimiter contents).length :=
      List.countP_le_length
    rw [Nat.succ_mul] at hlt ⊢
    rw [countLoop, countErrors_eq hquery h (Nat.lt_succ_self _) (by omega), Option.bind_eq_bind, Option.bind_some, ih (by omega)]
    congr 1
    omega

/-- A line is taken from at least one byte. -/
theorem length_le_of_linesLoop {fuel : Nat} {rest : StdString} {lines : List StdString} (h : linesLoop fuel rest = some lines) :
    lines.length ≤ rest.length := by
  induction fuel generalizing rest lines with
  | zero => cases h
  | succ fuel ih =>
    rw [linesLoop] at h
    cases hline : getline rest with
    | none =>
      rw [hline] at h
      obtain rfl := Option.some.inj h
      exact Nat.zero_le _
    | some r =>
      obtain ⟨line, rest'⟩ := r
      rw [hline] at h
      obtain ⟨lines', hlines', rfl⟩ := Option.map_eq_some_iff.1 h
      have hlt := (getline_spec hline).2.2.2
      have hle := ih hlines'
      rw [List.length_cons]
      omega

/-- **`CheckText`** prints the number of words of the text that are no line of the dictionary, each counted as often as it
occurs: the same number for every version and every number of iterations. It skips if one of the files is empty. -/
theorem checkText_eq (hash : StdString → UInt64) (E : RawHashSet.Env StdString) (dictionary contents : StdString)
    (hdict : dictionary.length < 2 ^ 58) (h : ∀ c ∈ contents, c < 128) (iterations : Nat) (hpos : 0 < iterations)
    (hlt : iterations * (words isDelimiter contents).length < 2 ^ 64) :
    ∃ lines, readLines dictionary = some lines ∧ ∀ v ∈ versions hash E, checkText v dictionary contents iterations =
      some (if dictionary = [] ∨ contents = [] then .skipped "Could not read files"
        else .errorsFound ((words isDelimiter contents).countP fun w => decide (w ∉ lines))) := by
  obtain ⟨lines, hlines, -⟩ := readLines_spec dictionary
  have hcount := length_le_of_linesLoop hlines
  refine ⟨lines, hlines, fun v hv => ?_⟩
  obtain ⟨d, hnew, hfind⟩ := decides_of_mem_versions (show lines.length < 2 ^ 58 by omega) hv
  rw [checkText, hlines, Option.bind_eq_bind, Option.bind_some, hnew, Option.bind_eq_bind, Option.bind_some]
  have hempty : (lines.isEmpty || contents.isEmpty) = true ↔ dictionary = [] ∨ contents = [] := by
    rw [Bool.or_eq_true, List.isEmpty_iff, List.isEmpty_iff, readLines_eq_nil_iff hlines]
  by_cases hskip : dictionary = [] ∨ contents = []
  · rw [if_pos (hempty.2 hskip), if_pos hskip]
  · rw [if_neg (mt hempty.1 hskip), if_neg hskip, countLoop_eq hfind h iterations (by omega), Option.bind_eq_bind,
      Option.bind_some, if_neg (Nat.ne_of_gt hpos), Nat.zero_add, Nat.mul_div_cancel_left _ hpos]

/-- The dictionary has the line `a`; in `a b b` two words are not in it. -/
theorem checkText_eq_twice :
    readLines [97, 10] = some [[97]] ∧ ∀ v ∈ versions (fun _ => 5) V5.colliding,
      checkText v [97, 10] [97, 32, 98, 32, 98] 3 = some (.errorsFound 2) := by
  obtain ⟨lines, hlines, htext⟩ := checkText_eq (fun _ => 5) V5.colliding [97, 10] [97, 32, 98, 32, 98] (by decide) (by simp) 3
    (by decide) (by decide)
  obtain rfl : [[97]] = lines := Option.some.inj hlines
  exact ⟨hlines, htext⟩

end Benchmark

end LowLatency.Dictionary
