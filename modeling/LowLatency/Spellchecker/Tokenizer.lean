import LowLatency.Basic
import LowLatency.Lib.Words

/-!
# The `Tokenizer`

| here | there |
| --- | --- |
| `delimiters`, `isDropped` | `DELIMITERS` and the table `is_dropped` (`tokenizer.hh:6-13`) |
| `charIndex`    | the subscript `*next`: a `const char*` is dereferenced, and the `char` becomes a `size_t` |
| `skipDropped`  | the first loop of `get_next` (line 25) |
| `scanWord`     | the second loop, with the bytes from `start` to `next` (lines 28-33) |
| `getNext`      | `get_next` |
| `wordsLoop`    | `for (word = get_next(); !word.empty(); word = get_next())` (`spellchecker.cc:44`, `dictionary.cc:121`) |

An iterator is the part of the input from it up to `end`: `next == end` is `next = []`, and a view is
the bytes that it covers. A subscript outside the table is undefined behaviour, and `none`.

`char` is signed on x86. A byte from 128 on is a negative `char`, and as a `size_t` it is at least
`2^64 - 128`, where the table has 256 entries.
-/

namespace LowLatency.Spellchecker

open Words

/-- A signed `char` as a subscript. -/
def charIndex (c : UInt8) : Nat := longToSizeT c.toInt8.toInt

/-- Space, tab, and the 22 punctuation characters `. , : ; ? ! " ' [ ] { } | & * = + - _ ( ) #`. -/
def delimiters : StdString :=
  [32, 9, 46, 44, 58, 59, 63, 33, 34, 39, 91, 93, 123, 125, 124, 38, 42, 61, 43, 45, 95, 40, 41, 35]

def isDropped : List Bool :=
  delimiters.foldl (fun table c => table.set (charIndex c) true) (List.replicate 256 false)

/-- `is_dropped[*next]`. -/
def dropped (c : UInt8) : Option Bool := isDropped[charIndex c]?

def skipDropped : StdString → Option StdString
  | [] => some []
  | c :: next => (dropped c).bind fun d => if d then skipDropped next else some (c :: next)

def scanWord : StdString → Option (StdString × StdString)
  | [] => some ([], [])
  | c :: next => (dropped c).bind fun d =>
    if d then some ([], c :: next) else (scanWord next).map fun (word, next) => (c :: word, next)

/-- The view returned, and `next` afterwards. -/
def getNext (next : StdString) : Option (StdString × StdString) := (skipDropped next).bind scanWord

/-- The views of `n` calls. -/
def getNexts : Nat → StdString → Option (List StdString × StdString)
  | 0, next => some ([], next)
  | n + 1, next => (getNext next).bind fun (word, next) =>
    (getNexts n next).map fun (words, next) => (word :: words, next)

/-- `none` also when the calls run out. -/
def wordsLoop : Nat → StdString → Option (List StdString)
  | 0, _ => none
  | calls + 1, next => (getNext next).bind fun (word, next) =>
    if word = [] then some [] else (wordsLoop calls next).map (word :: ·)

/-- Each call but the last takes a byte at least. -/
def tokenize (text : StdString) : Option (List StdString) := wordsLoop (text.length + 1) text

/-! ## The table -/

def isDelimiter (c : UInt8) : Bool := delimiters.contains c

theorem charIndex_of_lt {c : UInt8} (h : c < 128) : charIndex c = c.toNat := by
  have hc : c.toNat < 128 := h
  have hint : c.toInt8.toInt = c.toNat := by
    show c.toBitVec.toInt = _
    rw [BitVec.toInt_eq_toNat_of_lt (by show 2 * c.toNat < 2 ^ 8; omega)]
    rfl
  rw [charIndex, hint, longToSizeT_natCast, Nat.mod_eq_of_lt (by omega)]

theorem charIndex_of_ge {c : UInt8} (h : ¬c < 128) : 2 ^ 64 - 128 ≤ charIndex c := by
  have hc : ¬c.toNat < 128 := h
  have hlt : c.toNat < 256 := c.toNat_lt
  have hint : c.toInt8.toInt = c.toNat - 256 := by
    show c.toBitVec.toInt = _
    rw [BitVec.toInt_eq_toNat_cond, if_neg (by show ¬2 * c.toNat < 2 ^ 8; omega)]
    rfl
  rw [charIndex, hint, longToSizeT]
  omega

/-- A look-up stays in the table exactly for the bytes below 128. -/
theorem charIndex_lt_iff {c : UInt8} : charIndex c < 256 ↔ c < 128 := by
  by_cases h : c < 128
  · have hc : c.toNat < 128 := h
    rw [charIndex_of_lt h]
    exact ⟨fun _ => h, fun _ => by omega⟩
  · have := charIndex_of_ge h
    exact ⟨fun _ => by omega, fun h' => absurd h' h⟩

theorem getElem?_foldl_set (f : UInt8 → Nat) (cs : StdString) (table : List Bool) {i : Nat} (hi : i < table.length) :
    (cs.foldl (fun table c => table.set (f c) true) table)[i]? = if i ∈ cs.map f then some true else table[i]? := by
  induction cs generalizing table with
  | nil => simp
  | cons c cs ih =>
    rw [List.foldl_cons, ih _ (by rwa [List.length_set])]
    simp only [List.map_cons, List.mem_cons]
    by_cases hmem : i ∈ cs.map f
    · simp [hmem]
    · by_cases hic : i = f c
      · subst hic
        simp [hmem, hi]
      · simp [hmem, hic, List.getElem?_set_ne (Ne.symm hic)]

theorem length_isDropped : isDropped.length = 256 := by
  have hlen : ∀ (cs : StdString) (table : List Bool),
      (cs.foldl (fun table c => table.set (charIndex c) true) table).length = table.length := by
    intro cs
    induction cs with
    | nil => exact fun _ => rfl
    | cons c cs ih =>
      intro table
      rw [List.foldl_cons, ih, List.length_set]
  exact (hlen _ _).trans List.length_replicate

theorem delimiters_ascii : ∀ c ∈ delimiters, c < 128 := by simp [delimiters]

/-- The table answers whether a byte is a delimiter. -/
theorem dropped_of_lt {c : UInt8} (h : c < 128) : dropped c = some (isDelimiter c) := by
  have hlt : charIndex c < 256 := charIndex_lt_iff.2 h
  have hmem : charIndex c ∈ delimiters.map charIndex ↔ c ∈ delimiters := by
    constructor
    · intro hc
      obtain ⟨d, hd, heq⟩ := List.mem_map.1 hc
      rw [charIndex_of_lt (delimiters_ascii d hd), charIndex_of_lt h] at heq
      exact UInt8.toNat_inj.1 heq ▸ hd
    · exact fun hc => List.mem_map_of_mem hc
  unfold dropped isDropped
  rw [getElem?_foldl_set _ _ _ (by rwa [List.length_replicate])]
  by_cases hc : c ∈ delimiters
  · rw [if_pos (hmem.2 hc), isDelimiter, List.contains_iff_mem.2 hc]
  · rw [if_neg (mt hmem.1 hc), List.getElem?_replicate_of_lt hlt, isDelimiter,
      Bool.eq_false_iff.2 (mt List.contains_iff_mem.1 hc)]

theorem dropped_of_ge {c : UInt8} (h : ¬c < 128) : dropped c = none := by
  have hge := mt charIndex_lt_iff.1 h
  exact List.getElem?_eq_none (by rw [length_isDropped]; omega)

/-! ## One call -/

theorem skipDropped_eq {next : StdString} (h : ∀ c ∈ next, c < 128) :
    skipDropped next = some (next.dropWhile isDelimiter) := by
  induction next with
  | nil => rfl
  | cons c next ih =>
    rw [skipDropped, dropped_of_lt (h c List.mem_cons_self), Option.bind_some]
    by_cases hc : isDelimiter c
    · rw [if_pos hc, List.dropWhile_cons_of_pos hc, ih fun d hd => h d (List.mem_cons_of_mem c hd)]
    · rw [if_neg hc, List.dropWhile_cons_of_neg hc]

theorem scanWord_eq {next : StdString} (h : ∀ c ∈ next, c < 128) :
    scanWord next = some (next.takeWhile fun c => !isDelimiter c, next.dropWhile fun c => !isDelimiter c) := by
  induction next with
  | nil => rfl
  | cons c next ih =>
    rw [scanWord, dropped_of_lt (h c List.mem_cons_self), Option.bind_some]
    by_cases hc : isDelimiter c
    · rw [if_pos hc, List.takeWhile_cons_of_neg (by simp [hc]), List.dropWhile_cons_of_neg (by simp [hc])]
    · rw [if_neg hc, List.takeWhile_cons_of_pos (by simp [hc]), List.dropWhile_cons_of_pos (by simp [hc]),
        ih fun d hd => h d (List.mem_cons_of_mem c hd)]
      rfl

/-- What one call does: it passes over delimiters, returns a run of other bytes, and stops at the next
delimiter or at the end. The view is empty only if no such byte is left. -/
structure Call (next skipped word rest : StdString) : Prop where
  split : next = skipped ++ word ++ rest
  skipped : ∀ c ∈ skipped, isDelimiter c
  empty : word = [] → (∀ c ∈ next, isDelimiter c) ∧ rest = []
  words : word ≠ [] → words isDelimiter next = word :: words isDelimiter rest

theorem Call.suffix {next skipped word rest : StdString} (h : Call next skipped word rest) : rest <:+ next := by
  rw [h.split]
  exact List.suffix_append _ rest

theorem Call.length_lt {next skipped word rest : StdString} (h : Call next skipped word rest) (hw : word ≠ []) :
    rest.length < next.length := by
  have := List.length_pos_iff.2 hw
  rw [h.split, List.length_append, List.length_append]
  omega

theorem getNext_spec {next : StdString} (h : ∀ c ∈ next, c < 128) :
    ∃ skipped word rest, getNext next = some (word, rest) ∧ Call next skipped word rest := by
  have hskip : ∀ c ∈ next.dropWhile isDelimiter, c < 128 := fun c hc => h c (List.dropWhile_subset _ hc)
  refine ⟨next.takeWhile isDelimiter, (next.dropWhile isDelimiter).takeWhile fun c => !isDelimiter c,
    (next.dropWhile isDelimiter).dropWhile fun c => !isDelimiter c, ?_, ?_, ?_, ?_, ?_⟩
  · rw [getNext, skipDropped_eq h, Option.bind_some, scanWord_eq hskip]
  · rw [List.append_assoc, List.takeWhile_append_dropWhile, List.takeWhile_append_dropWhile]
  · exact fun c hc => List.mem_takeWhile_imp hc
  · intro hempty
    have hnil : next.dropWhile isDelimiter = [] := by
      cases hrest : next.dropWhile isDelimiter with
      | nil => rfl
      | cons c rest =>
        -- the first loop stopped at `c`, so the second one takes it
        have hc : isDelimiter c = false := by
          have := List.head?_dropWhile_not isDelimiter next
          simpa [hrest] using this
        rw [hrest, List.takeWhile_cons_of_pos (by rw [hc]; rfl)] at hempty
        cases hempty
    refine ⟨List.dropWhile_eq_nil_iff.1 hnil, ?_⟩
    rw [hnil]
    rfl
  · intro hword
    rw [← words_dropWhile, words_eq_cons hword]

/-! ## All calls -/

/-- The callers' loop returns the words, after at most one call for each byte and one more. -/
theorem wordsLoop_eq {next : StdString} (h : ∀ c ∈ next, c < 128) {calls : Nat} (hcalls : next.length < calls) :
    wordsLoop calls next = some (words isDelimiter next) := by
  induction calls generalizing next with
  | zero => exact absurd hcalls (Nat.not_lt_zero _)
  | succ calls ih =>
    obtain ⟨skipped, word, rest, hnext, hcall⟩ := getNext_spec h
    simp only [wordsLoop, hnext, Option.bind_some]
    by_cases hw : word = []
    · rw [if_pos hw, words_eq_nil_iff.2 (hcall.empty hw).1]
    · have hlen := hcall.length_lt hw
      rw [if_neg hw, ih (fun c hc => h c (hcall.suffix.subset hc)) (by omega), hcall.words hw]
      rfl

theorem tokenize_eq {text : StdString} (h : ∀ c ∈ text, c < 128) : tokenize text = some (words isDelimiter text) :=
  wordsLoop_eq h (Nat.lt_succ_self _)

/-- At the end, every call returns an empty view. -/
theorem getNexts_nil (n : Nat) : getNexts n [] = some (List.replicate n [], []) := by
  induction n with
  | zero => rfl
  | succ n ih =>
    have hcall : getNext [] = some ([], []) := rfl
    simp only [getNexts, hcall, Option.bind_some, ih, Option.map_some]
    rfl

/-- After any number of calls, `next` is at a suffix of the input. -/
theorem getNexts_suffix {next : StdString} (h : ∀ c ∈ next, c < 128) (n : Nat) :
    ∃ views rest, getNexts n next = some (views, rest) ∧ rest <:+ next := by
  induction n generalizing next with
  | zero => exact ⟨[], next, rfl, List.suffix_refl next⟩
  | succ n ih =>
    obtain ⟨skipped, word, rest, hnext, hcall⟩ := getNext_spec h
    obtain ⟨views, rest', hrest', hsuffix⟩ := ih fun c hc => h c (hcall.suffix.subset hc)
    refine ⟨word :: views, rest', ?_, hsuffix.trans hcall.suffix⟩
    simp only [getNexts, hnext, Option.bind_some, hrest', Option.map_some]

/-- **The tokenizer returns the words of its input**, for bytes below 128: the callers' loop ends with
the pieces between delimiters that are not empty, which are together the input without its
delimiters. Every call, after any number of others, returns a range of what is left, with only
delimiters before it; an empty view means that nothing but delimiters was left, and then all later
calls return empty views with `next` at the end. -/
theorem tokenizer_splits (input : StdString) (h : ∀ c ∈ input, c < 128) :
    (∀ calls, input.length < calls → wordsLoop calls input = some (words isDelimiter input)) ∧
    (∀ word ∈ words isDelimiter input, word ≠ [] ∧ ∀ c ∈ word, c ∉ delimiters) ∧
    (words isDelimiter input).flatten = input.filter (· ∉ delimiters) ∧
    ∀ n, ∃ views next, getNexts n input = some (views, next) ∧ next <:+ input ∧
      ∃ skipped word rest, getNext next = some (word, rest) ∧ next = skipped ++ word ++ rest ∧
        (∀ c ∈ skipped, c ∈ delimiters) ∧
        (word = [] → (∀ c ∈ next, c ∈ delimiters) ∧ rest = [] ∧
          ∀ later, getNexts later rest = some (List.replicate later [], [])) := by
  have hmem : ∀ c, isDelimiter c ↔ c ∈ delimiters := fun c => List.contains_iff_mem
  refine ⟨?_, ?_, ?_, ?_⟩
  · intro calls hcalls
    exact wordsLoop_eq h hcalls
  · intro word hword
    refine ⟨ne_nil_of_mem_words hword, ?_⟩
    intro c hc
    rw [← hmem, (mem_of_mem_words hword hc).2]
    exact Bool.false_ne_true
  · rw [flatten_words]
    refine List.filter_congr ?_
    intro c _
    rw [decide_not, Bool.not_inj_iff, Bool.eq_iff_iff, hmem, decide_eq_true_iff]
  · intro n
    obtain ⟨views, next, hnexts, hsuffix⟩ := getNexts_suffix h n
    obtain ⟨skipped, word, rest, hnext, hcall⟩ := getNext_spec fun c hc => h c (hsuffix.subset hc)
    refine ⟨views, next, hnexts, hsuffix, skipped, word, rest, hnext, hcall.split,
      fun c hc => (hmem c).1 (hcall.skipped c hc), ?_⟩
    intro hw
    obtain ⟨hall, rfl⟩ := hcall.empty hw
    exact ⟨fun c hc => (hmem c).1 (hall c hc), rfl, getNexts_nil⟩

/-- `" a,,b."`: delimiters before, between, twice in a row, and at the end. -/
theorem tokenizer_splits_punctuation : wordsLoop 7 [32, 97, 44, 44, 98, 46] = some [[97], [98]] := by
  have := (tokenizer_splits [32, 97, 44, 44, 98, 46] (by simp)).1 7 (by decide)
  rw [this]
  decide

/-! ## The subscripts -/

/-- The subscripts of a loop that goes on while `is_dropped[*next]` is `on`; nothing follows one outside
the table. -/
def loopIndices (on : Bool) : StdString → List Nat
  | [] => []
  | c :: next => charIndex c :: if dropped c = some on then loopIndices on next else []

/-- The first loop goes on at delimiters, the second at everything else. -/
def getNextIndices (next : StdString) : List Nat :=
  loopIndices true next ++ ((skipDropped next).map (loopIndices false)).getD []

/-- The subscripts of `n` calls. -/
def getNextsIndices : Nat → StdString → List Nat
  | 0, _ => []
  | n + 1, next => getNextIndices next ++ ((getNext next).map fun (_, next) => getNextsIndices n next).getD []

theorem skip_of_indices {next : StdString} (h : ∀ i ∈ loopIndices true next, i < 256) :
    ∃ skipped rest, skipDropped next = some rest ∧ next = skipped ++ rest ∧ (∀ c ∈ skipped, c < 128) ∧
      ∀ c ∈ rest.head?, dropped c = some false := by
  induction next with
  | nil => exact ⟨[], [], rfl, rfl, by simp, by simp⟩
  | cons c next ih =>
    have hc : c < 128 := charIndex_lt_iff.1 (h _ (by simp [loopIndices]))
    rw [skipDropped, dropped_of_lt hc, Option.bind_some]
    by_cases hd : isDelimiter c
    · obtain ⟨skipped, rest, hskip, hsplit, hlt, hhead⟩ :=
        ih fun i hi => h i (by simp [loopIndices, dropped_of_lt hc, hd, hi])
      refine ⟨c :: skipped, rest, by rw [if_pos hd, hskip], by rw [hsplit]; rfl, ?_, hhead⟩
      exact List.forall_mem_cons.2 ⟨hc, hlt⟩
    · refine ⟨[], c :: next, by rw [if_neg hd], rfl, by simp, ?_⟩
      rintro d ⟨⟩
      rw [dropped_of_lt hc, Bool.eq_false_iff.2 hd]

theorem scan_of_indices {next : StdString} (h : ∀ i ∈ loopIndices false next, i < 256) :
    ∃ word rest, scanWord next = some (word, rest) ∧ next = word ++ rest ∧ (∀ c ∈ word, c < 128) := by
  induction next with
  | nil => exact ⟨[], [], rfl, rfl, by simp⟩
  | cons c next ih =>
    have hc : c < 128 := charIndex_lt_iff.1 (h _ (by simp [loopIndices]))
    rw [scanWord, dropped_of_lt hc, Option.bind_some]
    by_cases hd : isDelimiter c
    · exact ⟨[], c :: next, by rw [if_pos hd], rfl, by simp⟩
    · obtain ⟨word, rest, hscan, hsplit, hlt⟩ :=
        ih fun i hi => h i (by simp [loopIndices, dropped_of_lt hc, hd, hi])
      refine ⟨c :: word, rest, by rw [if_neg hd, hscan]; rfl, by rw [hsplit]; rfl, ?_⟩
      exact List.forall_mem_cons.2 ⟨hc, hlt⟩

/-- A call whose subscripts are all in the table has passed over bytes below 128 only, and over one at
least unless it was at the end. -/
theorem getNext_of_indices {next : StdString} (h : ∀ i ∈ getNextIndices next, i < 256) :
    ∃ passed word rest, getNext next = some (word, rest) ∧ next = passed ++ rest ∧ (∀ c ∈ passed, c < 128) ∧
      (next ≠ [] → passed ≠ []) := by
  obtain ⟨skipped, rest, hskip, rfl, hskipped, hhead⟩ := skip_of_indices fun i hi => h i (List.mem_append_left _ hi)
  have hscanned : ∀ i ∈ loopIndices false rest, i < 256 := by
    intro i hi
    refine h i (List.mem_append_right _ ?_)
    rw [hskip]
    exact hi
  obtain ⟨word, rest', hscan, rfl, hword⟩ := scan_of_indices hscanned
  refine ⟨skipped ++ word, word, rest', by rw [getNext, hskip, Option.bind_some, hscan],
    (List.append_assoc _ _ _).symm, ?_, ?_⟩
  · intro c hc
    rcases List.mem_append.1 hc with hc | hc
    · exact hskipped c hc
    · exact hword c hc
  · intro hne hnil
    obtain ⟨rfl, rfl⟩ := List.append_eq_nil_iff.1 hnil
    cases rest' with
    | nil => exact hne rfl
    | cons c rest' =>
      -- where the first loop stops, the second one goes on
      rw [List.nil_append, scanWord, hhead c rfl, Option.bind_some, if_neg Bool.false_ne_true,
        Option.map_eq_some_iff] at hscan
      obtain ⟨view, -, heq⟩ := hscan
      cases heq

theorem skip_none {next : StdString} {i : Nat} (hi : i ∈ loopIndices true next) (h : 256 ≤ i) :
    skipDropped next = none := by
  induction next with
  | nil => cases hi
  | cons c next ih =>
    by_cases hc : c < 128
    · rw [skipDropped, dropped_of_lt hc, Option.bind_some]
      rw [loopIndices, dropped_of_lt hc] at hi
      rcases List.mem_cons.1 hi with rfl | hi
      · exact absurd (charIndex_lt_iff.2 hc) (Nat.not_lt.2 h)
      · split at hi
        · rename_i hd
          rw [if_pos (Option.some.inj hd)]
          exact ih hi
        · cases hi
    · rw [skipDropped, dropped_of_ge hc]
      rfl

theorem scan_none {next : StdString} {i : Nat} (hi : i ∈ loopIndices false next) (h : 256 ≤ i) :
    scanWord next = none := by
  induction next with
  | nil => cases hi
  | cons c next ih =>
    by_cases hc : c < 128
    · rw [scanWord, dropped_of_lt hc, Option.bind_some]
      rw [loopIndices, dropped_of_lt hc] at hi
      rcases List.mem_cons.1 hi with rfl | hi
      · exact absurd (charIndex_lt_iff.2 hc) (Nat.not_lt.2 h)
      · split at hi
        · rename_i hd
          rw [Option.some.inj hd, if_neg Bool.false_ne_true, ih hi]
          rfl
        · cases hi
    · rw [scanWord, dropped_of_ge hc]
      rfl

/-- A call is undefined exactly when one of its subscripts is outside the table. -/
theorem getNext_eq_none_iff (next : StdString) : getNext next = none ↔ ∃ i ∈ getNextIndices next, 256 ≤ i := by
  constructor
  · intro hnone
    by_contra hall
    have hlt : ∀ i ∈ getNextIndices next, i < 256 := by
      intro i hi
      by_contra hge
      exact hall ⟨i, hi, Nat.not_lt.1 hge⟩
    obtain ⟨passed, word, rest, hnext, -⟩ := getNext_of_indices hlt
    rw [hnone] at hnext
    cases hnext
  · rintro ⟨i, hi, hge⟩
    rw [getNext]
    rcases List.mem_append.1 hi with hi | hi
    · rw [skip_none hi hge]
      rfl
    · cases hskip : skipDropped next with
      | none => rfl
      | some rest =>
        rw [hskip] at hi
        exact scan_none hi hge

/-- Enough calls pass over everything, unless one leaves the table. -/
theorem ascii_of_indices {next : StdString} {n : Nat} (hn : next.length ≤ n)
    (h : ∀ i ∈ getNextsIndices n next, i < 256) : ∀ c ∈ next, c < 128 := by
  induction n generalizing next with
  | zero =>
    rw [List.length_eq_zero_iff.1 (Nat.le_zero.1 hn)]
    exact fun c hc => absurd hc List.not_mem_nil
  | succ n ih =>
    obtain ⟨passed, word, rest, hnext, rfl, hpassed, hpos⟩ :=
      getNext_of_indices fun i hi => h i (List.mem_append_left _ hi)
    have hrest : ∀ i ∈ getNextsIndices n rest, i < 256 := by
      intro i hi
      refine h i (List.mem_append_right _ ?_)
      rw [hnext]
      exact hi
    have hlen : rest.length ≤ n := by
      by_cases hnil : passed ++ rest = []
      · rw [(List.append_eq_nil_iff.1 hnil).2]
        exact Nat.zero_le n
      · have := List.length_pos_iff.2 (hpos hnil)
        rw [List.length_append] at hn
        omega
    intro c hc
    rcases List.mem_append.1 hc with hc | hc
    · exact hpassed c hc
    · exact ih hlen hrest c hc

theorem mem_loopIndices {on : Bool} {next : StdString} {i : Nat} (h : i ∈ loopIndices on next) :
    ∃ c ∈ next, charIndex c = i := by
  induction next with
  | nil => cases h
  | cons c next ih =>
    rcases List.mem_cons.1 h with rfl | h
    · exact ⟨c, List.mem_cons_self, rfl⟩
    · split at h
      · obtain ⟨d, hd, hi⟩ := ih h
        exact ⟨d, List.mem_cons_of_mem c hd, hi⟩
      · cases h

/-- On bytes below 128 all subscripts are in the table. -/
theorem indices_of_ascii {next : StdString} (h : ∀ c ∈ next, c < 128) (n : Nat) :
    ∀ i ∈ getNextsIndices n next, i < 256 := by
  induction n generalizing next with
  | zero => exact fun i hi => absurd hi List.not_mem_nil
  | succ n ih =>
    obtain ⟨skipped, word, rest, hnext, hcall⟩ := getNext_spec h
    intro i hi
    rcases List.mem_append.1 hi with hi | hi
    · rcases List.mem_append.1 hi with hi | hi
      · obtain ⟨c, hc, rfl⟩ := mem_loopIndices hi
        exact charIndex_lt_iff.2 (h c hc)
      · rw [skipDropped_eq h] at hi
        obtain ⟨c, hc, rfl⟩ := mem_loopIndices hi
        exact charIndex_lt_iff.2 (h c (List.dropWhile_subset _ hc))
    · rw [hnext] at hi
      exact ih (fun c hc => h c (hcall.suffix.subset hc)) i hi

/-- **Look-ups stay in the table exactly for bytes below 128.** -/
theorem lookups_in_table_iff (input : StdString) :
    (∀ n, ∀ i ∈ getNextsIndices n input, i < 256) ↔ ∀ c ∈ input, c < 128 := by
  constructor
  · intro h
    exact ascii_of_indices (Nat.le_refl _) (h input.length)
  · intro h n
    exact indices_of_ascii h n

/-- The first byte of a two-byte UTF-8 character. -/
theorem lookup_outside_table : ¬∀ n, ∀ i ∈ getNextsIndices n [195, 169], i < 256 := by
  intro h
  have := h 1 (charIndex 195) (by decide)
  exact absurd this (by decide)

end LowLatency.Spellchecker
