import SystemProgramming.Lib.Fields
import SystemProgramming.MapReduce.Splitter

namespace SystemProgramming.MapReduce

open Lib

/-!
# The word count mapper

The mapper reads a line, takes the line's end off, and writes a record for each token that `strtok`
finds.  A stream is a list of bytes, and what a string function reads of it ends before the first
zero byte.

* `run_mapper_on_fds`, `mapper` — the mapper.
* `words` — the words of a file, in terms of the text.
* `run_mapper_records` — the mapper writes a record for each word.
* `words_portions` — the words of the portions are those of the file.
-/

/-- `'\r'` -/
def carriage_return : UInt8 := 13

/-- `' '` -/
def space : UInt8 := 32

/-- `':'` -/
def colon : UInt8 := 58

/-- `';'` -/
def semicolon : UInt8 := 59

/-- What a string function reads. -/
def c_str (s : Bytes) : Bytes := s.takeWhile (· ≠ 0)

def replace_char (c : UInt8) : UInt8 :=
  let c := if c = colon then semicolon else c
  if c = newline then space else c

def replace_chars (str : Bytes) : Bytes := str.map replace_char

/-- The next token and what is left behind it. -/
def strtok (s : Bytes) : Option (Bytes × Bytes) :=
  match s.dropWhile (· = space) with
  | [] => none
  | c :: s => some (c :: s.takeWhile (· ≠ space), (s.dropWhile (· ≠ space)).tail)

theorem strtok_eq (s : Bytes) : strtok s = Lib.strtok (· = space) s := by
  rw [strtok, Lib.strtok]
  cases s.dropWhile (· = space) with
  | nil => rfl
  | cons c s => simp only [ne_eq, decide_not]

theorem strtok_length {s datum rest : Bytes} (h : strtok s = some (datum, rest)) :
    rest.length < s.length :=
  Lib.strtok_length (strtok_eq s ▸ h)

/-- The tokens of the `while` loop. -/
def datums (s : Bytes) : List Bytes :=
  match _h : strtok s with
  | none => []
  | some (datum, rest) => datum :: datums rest
termination_by s.length
decreasing_by exact strtok_length _h

/-- The line `"%s: 1\n"`. -/
def record (datum : Bytes) : Bytes := datum ++ [colon, space, 49, newline]

def mapper (data : Bytes) : List Bytes :=
  (datums (replace_chars (c_str data))).map record

/-- `line` without its newline and carriage return. -/
def remove_newline (line : Bytes) : Bytes :=
  if line.getLast? = some newline then
    let line := line.dropLast
    if line.getLast? = some carriage_return then line.dropLast else line
  else line

/-- What the mapper writes, record by record. -/
def run_mapper_on_fds (input : Bytes) : List Bytes :=
  (lines newline input).flatMap fun line => mapper (remove_newline line)

/-! ### The words of a text -/

/-- A line stripped of its `\n` or `\r\n`. -/
def stripped (line : Bytes) : Bytes :=
  if [carriage_return, newline] <:+ line then line.dropLast.dropLast
  else if [newline] <:+ line then line.dropLast
  else line

/-- The maximal runs of characters other than a blank. -/
def runs (s : Bytes) : List Bytes := (s.splitOn space).filter (· ≠ [])

def semicolons (word : Bytes) : Bytes := word.map fun c => if c = colon then semicolon else c

/-- The words of a file, in the order of the text. -/
def words (file : Bytes) : List Bytes :=
  (lines newline file).flatMap fun line => (runs (stripped line)).map semicolons

variable {s line : Bytes}

theorem c_str_eq (hs : 0 ∉ s) : c_str s = s := by
  rw [c_str, List.takeWhile_eq_self_iff]
  intro c hc
  have hne : c ≠ 0 := fun h => hs (h ▸ hc)
  simpa using hne

theorem remove_newline_eq (line : Bytes) : remove_newline line = stripped line := by
  rw [remove_newline, stripped]
  by_cases hnl : line.getLast? = some newline
  · obtain ⟨l, rfl⟩ := List.getLast?_eq_some_iff.mp hnl
    have hpair : [carriage_return, newline] <:+ l ++ [newline] ↔
        l.getLast? = some carriage_return := by
      rw [List.suffix_concat_iff, ← List.singleton_suffix_iff_getLast?_eq_some]
      refine ⟨?_, fun h => .inr ⟨_, rfl, h⟩⟩
      rintro (h | ⟨t, ht, h⟩)
      · cases h
      · have ht : [carriage_return] ++ [newline] = t ++ [newline] := ht
        exact List.append_cancel_right ht ▸ h
    have hsuffix : [newline] <:+ l ++ [newline] := List.suffix_append l [newline]
    simp only [hnl, if_true, List.dropLast_concat, hpair, hsuffix]
  · have hpair : ¬ [carriage_return, newline] <:+ line := by
      rintro ⟨l, rfl⟩
      exact hnl (by simp)
    have hsuffix : ¬ [newline] <:+ line := by
      rwa [List.singleton_suffix_iff_getLast?_eq_some]
    rw [if_neg hnl, if_neg hpair, if_neg hsuffix]

/-! ### Tokens -/

theorem datums_eq_tokens (s : Bytes) : datums s = tokens (· = space) s := by
  induction hn : s.length using Nat.strong_induction_on generalizing s with
  | _ n ih =>
    rw [datums, tokens]
    split
    · rename_i hnone
      rw [strtok_eq] at hnone
      split
      · rfl
      · rename_i hsome
        rw [hnone] at hsome
        cases hsome
    · rename_i datum rest hsome
      rw [ih rest.length (hn ▸ strtok_length hsome) rest rfl]
      rw [strtok_eq] at hsome
      split
      · rename_i hnone
        rw [hsome] at hnone
        cases hnone
      · rename_i hsome'
        rw [hsome] at hsome'
        cases hsome'
        rfl

/-- **The tokens** are the maximal runs. -/
theorem datums_eq (s : Bytes) : datums s = runs s := by
  rw [datums_eq_tokens, tokens_eq, runs, List.splitOn_eq_splitOnP]
  rfl

/-- Replacing characters other than the blank commutes with splitting at blanks. -/
theorem splitOn_map {f : UInt8 → UInt8} (hf : ∀ c, f c = space ↔ c = space) (s : Bytes) :
    (s.map f).splitOn space = (s.splitOn space).map (List.map f) := by
  induction s with
  | nil => rfl
  | cons c s ih =>
    rw [List.map_cons, List.splitOn_cons_eq_if_modifyHead, List.splitOn_cons_eq_if_modifyHead, ih]
    by_cases hc : c = space
    · rw [if_pos (by simpa using (hf c).mpr hc), if_pos (by simpa using hc)]
      rfl
    · rw [if_neg (by simpa using mt (hf c).mp hc), if_neg (by simpa using hc)]
      cases hs : s.splitOn space with
      | nil => rfl
      | cons l ls => rfl

theorem runs_map {f : UInt8 → UInt8} (hf : ∀ c, f c = space ↔ c = space) (s : Bytes) :
    runs (s.map f) = (runs s).map (List.map f) := by
  rw [runs, runs, splitOn_map hf, List.filter_map]
  congr 1
  apply List.filter_congr
  intro l _
  simp

/-- On a line the mapper replaces the colons only. -/
theorem replace_chars_eq (hs : newline ∉ s) : replace_chars s = semicolons s := by
  apply List.map_congr_left
  intro c hc
  have hne : c ≠ newline := fun h => hs (h ▸ hc)
  show (if (if c = colon then semicolon else c) = newline then space
    else if c = colon then semicolon else c) = _
  rw [if_neg]
  split
  · decide
  · exact hne

/-- What a line is stripped to is part of it, and has no newline. -/
theorem stripped_subset (line : Bytes) : stripped line ⊆ line := by
  rw [stripped]
  split
  · exact List.Subset.trans (List.dropLast_subset _) (List.dropLast_subset line)
  · split
    · exact List.dropLast_subset line
    · exact List.Subset.refl line

theorem newline_not_mem_stripped {file : Bytes} (hline : line ∈ lines newline file) :
    newline ∉ stripped line := by
  obtain hnone | ⟨l, rfl, hl⟩ := line_cases hline
  · exact fun h => hnone (stripped_subset line h)
  · rw [← remove_newline_eq, remove_newline, if_pos List.getLast?_concat, List.dropLast_concat]
    show newline ∉ if l.getLast? = some carriage_return then l.dropLast else l
    split
    · exact fun h => hl (List.dropLast_subset l h)
    · exact hl

/-- **The mapper** writes a record for each word. -/
theorem run_mapper_records {input : Bytes} (hnul : 0 ∉ input) :
    run_mapper_on_fds input = (words input).map record := by
  rw [run_mapper_on_fds, words, List.map_flatMap]
  apply List.flatMap_congr
  intro line hline
  have hzero : 0 ∉ stripped line :=
    fun h => hnul (mem_of_mem_lines hline (stripped_subset line h))
  have hblank : ∀ c : UInt8, (if c = colon then semicolon else c) = space ↔ c = space := by
    intro c
    split
    · rename_i hc
      exact iff_of_false (by decide) (by rw [hc]; decide)
    · exact Iff.rfl
  rw [mapper, remove_newline_eq, c_str_eq hzero, datums_eq,
    replace_chars_eq (newline_not_mem_stripped hline)]
  exact congrArg (List.map record) (runs_map hblank (stripped line))

/-! ### The words of the portions -/

/-- **The words of the portions** are those of the file. -/
theorem words_portions {file : Bytes} {count : ℕ} (hcount : 0 < count)
    (hsize : file.length * count < 2 ^ 64) :
    ((List.range count).map fun i => words (write_portion file file.length count i)).flatten =
      words file := by
  rw [words, ← lines_portions hcount hsize]
  simp only [words, List.flatMap_def, List.map_flatten, List.flatten_flatten, List.map_map]
  rfl

/-- What a word may consist of. -/
theorem mem_words {file word : Bytes} (hword : word ∈ words file) :
    newline ∉ word ∧ space ∉ word ∧ colon ∉ word ∧ (0 ∉ file → 0 ∉ word) := by
  obtain ⟨line, hline, hword⟩ := List.mem_flatMap.mp hword
  obtain ⟨run, hrun, rfl⟩ := List.mem_map.mp hword
  obtain ⟨hblank, hsub⟩ := splitOn_pieces _ run (List.mem_of_mem_filter hrun)
  -- a character of a word is a semicolon for a colon, or one of the run
  have hchar : ∀ c ∈ semicolons run, c = semicolon ∨ c ≠ colon ∧ c ∈ run := by
    intro c hc
    obtain ⟨d, hd, rfl⟩ := List.mem_map.mp hc
    split
    · exact .inl rfl
    · rename_i hne
      exact .inr ⟨hne, hd⟩
  refine ⟨fun h => ?_, fun h => ?_, fun h => ?_, fun hnul h => ?_⟩
  · exact newline_not_mem_stripped hline (hsub ((hchar _ h).resolve_left (by decide)).2)
  · exact hblank ((hchar _ h).resolve_left (by decide)).2
  · exact ((hchar _ h).resolve_left (by decide)).1 rfl
  · have hzero := hsub ((hchar _ h).resolve_left (by decide)).2
    exact hnul (mem_of_mem_lines hline (stripped_subset line hzero))

end SystemProgramming.MapReduce
