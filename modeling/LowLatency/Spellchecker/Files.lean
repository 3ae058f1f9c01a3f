import LowLatency.Spellchecker.Tokenizer

/-!
# Tokenizing a file as a whole and by lines

The benchmark `CheckText` runs one tokenizer over the contents of a file, `spellchecker.cc` one over
each line. A newline is no delimiter: `DELIMITERS` has the space and the tab, but not `'\n'`. So in
`CheckText` the last word of a line, the newline and the first word of the next line are one token.
The file it reads, `/usr/share/dict/cracklib-small`, has one word on each line.

| here | there |
| --- | --- |
| `getline`    | `std::getline(input, line)` on what is left of the file; `none` when it fails |
| `readLines`  | `read_lines` (`util.hh:6-16`), `load_dictionary` and the outer loop of `spellchecker.cc` (lines 15-25, 41) |
| `fileWords`  | the words of `CheckText` (`dictionary.cc:120-127`); `read_full_file` is the contents itself |
| `lineWords`  | the words of the main loop of `spellchecker.cc` (lines 41-44) |
-/

namespace LowLatency.Spellchecker

open Words

def newline : UInt8 := 10

/-- The newline is taken from the input and not put into the line. At the end of the file there is no
line any more, also after a final newline. -/
def getline (rest : StdString) : Option (StdString × StdString) :=
  if rest = [] then none
  else some (rest.takeWhile (· ≠ newline), (rest.dropWhile (· ≠ newline)).drop 1)

def linesLoop : Nat → StdString → Option (List StdString)
  | 0, _ => none
  | fuel + 1, rest =>
    match getline rest with
    | none => some []
    | some (line, rest) => (linesLoop fuel rest).map (line :: ·)

def readLines (contents : StdString) : Option (List StdString) := linesLoop (contents.length + 1) contents

def fileWords (contents : StdString) : Option (List StdString) := tokenize contents

def lineWords (contents : StdString) : Option (List StdString) :=
  (readLines contents).bind fun lines => (lines.mapM tokenize).map List.flatten

/-! ## Lines -/

/-- Without a newline, the rest of the file is one line. -/
theorem getline_of_not_mem {rest : StdString} (h : newline ∉ rest) (hne : rest ≠ []) :
    getline rest = some (rest, []) := by
  have hall : ∀ c ∈ rest, decide (c ≠ newline) = true := by
    intro c hc
    rw [decide_eq_true_iff]
    rintro rfl
    exact h hc
  rw [getline, if_neg hne, List.takeWhile_eq_self_iff.2 hall, List.dropWhile_eq_nil_iff.2 hall]
  rfl

/-- A line has no newline in it, and the file gets shorter. -/
theorem getline_spec {rest line rest' : StdString} (h : getline rest = some (line, rest')) :
    newline ∉ line ∧ line ⊆ rest ∧ rest' ⊆ rest ∧ rest'.length < rest.length := by
  unfold getline at h
  split at h
  · cases h
  · rename_i hne
    obtain ⟨rfl, rfl⟩ := Prod.mk.inj (Option.some.inj h)
    have hpos := List.length_pos_iff.2 hne
    refine ⟨?_, List.takeWhile_subset _, ?_, ?_⟩
    · intro hmem
      simpa using List.mem_takeWhile_imp hmem
    · exact fun c hc => List.dropWhile_subset _ (List.drop_subset _ _ hc)
    · have hle := (List.dropWhile_suffix (· ≠ newline) (l := rest)).length_le
      rw [List.length_drop]
      omega

theorem linesLoop_spec {rest : StdString} {fuel : Nat} (hfuel : rest.length < fuel) :
    ∃ lines, linesLoop fuel rest = some lines ∧ ∀ line ∈ lines, newline ∉ line ∧ line ⊆ rest := by
  induction fuel generalizing rest with
  | zero => exact absurd hfuel (Nat.not_lt_zero _)
  | succ fuel ih =>
    rw [linesLoop]
    cases hline : getline rest with
    | none => exact ⟨[], rfl, by simp⟩
    | some r =>
      obtain ⟨line, rest'⟩ := r
      obtain ⟨hnot, hsub, hsub', hlen⟩ := getline_spec hline
      obtain ⟨lines, hlines, hall⟩ := ih (show rest'.length < fuel by omega)
      refine ⟨line :: lines, by simp only [hlines, Option.map_some], ?_⟩
      rw [List.forall_mem_cons]
      refine ⟨⟨hnot, hsub⟩, ?_⟩
      intro l hl
      exact ⟨(hall l hl).1, fun c hc => hsub' ((hall l hl).2 hc)⟩

/-- The whole file is read, and its lines have no newlines. -/
theorem readLines_spec (contents : StdString) :
    ∃ lines, readLines contents = some lines ∧ ∀ line ∈ lines, newline ∉ line ∧ line ⊆ contents :=
  linesLoop_spec (Nat.lt_succ_self _)

/-- Only an empty file has no lines. -/
theorem readLines_eq_nil_iff {contents : StdString} {lines : List StdString} (h : readLines contents = some lines) :
    lines = [] ↔ contents = [] := by
  rw [readLines, linesLoop, getline] at h
  by_cases hne : contents = []
  · rw [if_pos hne] at h
    obtain rfl := Option.some.inj h
    simp [hne]
  · rw [if_neg hne] at h
    obtain ⟨rest, -, rfl⟩ := Option.map_eq_some_iff.1 h
    simp [hne]

theorem readLines_of_not_mem {contents : StdString} (h : newline ∉ contents) :
    readLines contents = some (if contents = [] then [] else [contents]) := by
  by_cases hne : contents = []
  · subst hne
    rfl
  · obtain ⟨n, hn⟩ := Nat.exists_eq_succ_of_ne_zero (mt List.length_eq_zero_iff.1 hne)
    rw [readLines, linesLoop, getline_of_not_mem h hne, if_neg hne, hn]
    rfl

/-! ## Words -/

theorem mapM_tokenize {lines : List StdString} (h : ∀ line ∈ lines, ∀ c ∈ line, c < 128) :
    lines.mapM tokenize = some (lines.map (words isDelimiter)) := by
  induction lines with
  | nil => rfl
  | cons line lines ih =>
    rw [List.forall_mem_cons] at h
    rw [List.mapM_cons, tokenize_eq h.1, ih h.2]
    rfl

/-- By lines, no word has a newline in it. -/
theorem lineWords_spec {contents : StdString} (h : ∀ c ∈ contents, c < 128) :
    ∃ lines, readLines contents = some lines ∧ lineWords contents = some (lines.flatMap (words isDelimiter)) ∧
      ∀ word ∈ lines.flatMap (words isDelimiter), newline ∉ word := by
  obtain ⟨lines, hlines, hall⟩ := readLines_spec contents
  have hascii : ∀ line ∈ lines, ∀ c ∈ line, c < 128 := fun line hl c hc => h c ((hall line hl).2 hc)
  refine ⟨lines, hlines, ?_, ?_⟩
  · rw [lineWords, hlines, Option.bind_some, mapM_tokenize hascii]
    rfl
  · intro word hword hmem
    obtain ⟨line, hline, hw⟩ := List.mem_flatMap.1 hword
    exact (hall line hline).1 (mem_of_mem_words hw hmem).1

/-- As a whole, a newline ends up in a word. -/
theorem newline_mem_word {contents : StdString} (h : newline ∈ contents) :
    ∃ word ∈ words isDelimiter contents, newline ∈ word := by
  refine List.mem_flatten.1 ?_
  rw [flatten_words, List.mem_filter]
  exact ⟨h, rfl⟩

/-- **The two ways to tokenize a file agree exactly when there is no newline in it.** -/
theorem fileWords_eq_lineWords_iff (contents : StdString) (h : ∀ c ∈ contents, c < 128) :
    fileWords contents = lineWords contents ↔ newline ∉ contents := by
  obtain ⟨lines, hlines, hwords, hall⟩ := lineWords_spec h
  rw [fileWords, tokenize_eq h, hwords, Option.some_inj]
  constructor
  · intro heq hmem
    obtain ⟨word, hword, hnl⟩ := newline_mem_word hmem
    rw [heq] at hword
    exact hall word hword hnl
  · intro hnot
    rw [readLines_of_not_mem hnot, Option.some_inj] at hlines
    subst hlines
    by_cases hne : contents = []
    · rw [if_pos hne, hne]
      rfl
    · rw [if_neg hne, List.flatMap_singleton]

/-- A line without its newline. -/
theorem fileWords_eq_lineWords_line : fileWords [97, 32, 98] = lineWords [97, 32, 98] :=
  (fileWords_eq_lineWords_iff [97, 32, 98] (by simp)).2 (by decide)

/-- `"a\nb"`: one token in `CheckText`, two in the spellchecker. -/
theorem fileWords_ne_lineWords :
    (∀ c ∈ ([97, 10, 98] : StdString), c < 128) ∧ fileWords [97, 10, 98] ≠ lineWords [97, 10, 98] :=
  ⟨by simp, by decide⟩

end LowLatency.Spellchecker
