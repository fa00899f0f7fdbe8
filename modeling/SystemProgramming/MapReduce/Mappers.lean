import SystemProgramming.Lib.CString
import SystemProgramming.Lib.Ctype
import SystemProgramming.MapReduce.Pipeline

namespace SystemProgramming.MapReduce

open Lib
open Lib.CString (lit)
open Lib.Ctype (isalpha isupper tolower forall_of_fin)

/-!
# The other mappers

`mappers/` has four programs, which differ in what they write for a line.  What each of them counts
is said in terms of the text; the keys of a text are the words of another text, so that what holds
of the word count holds of all four.

* `asciicount.mapper`, `lettercount.mapper`, `wordlengths.mapper` — the code.
* `Mapper.keys` — what a program counts in a text.
* `Mapper.run_mapper_records` — the program writes a record for each key.
* `Mapper.reduce_records` — the reducer prints how often each key is there.
* `Mapper.counts_sequential` — the result, for any number of mappers and any interleaving.
-/

/-- The programs of `mappers/`. -/
inductive Mapper
  | wordcount
  | asciicount
  | lettercount
  | wordlengths
  deriving DecidableEq

def asciicount.mapper (data : Bytes) : List Bytes :=
  ((c_str data).filter isalpha).map fun c => record [tolower c]

def lettercount.mapper (data : Bytes) : List Bytes :=
  ((c_str data).filter isalpha).map fun _ => record (lit "letters")

/-- The number is printed with `"%zu"`. -/
def wordlengths.mapper (data : Bytes) : List Bytes :=
  (datums ((c_str data).map fun c => if c = newline then space else c)).map fun datum =>
    record (decimal datum.length)

namespace Mapper

/-- The function that `MAKE_MAPPER_MAIN` is called with. -/
def func : Mapper → Bytes → List Bytes
  | wordcount => mapper
  | asciicount => asciicount.mapper
  | lettercount => lettercount.mapper
  | wordlengths => wordlengths.mapper

/-- What the program writes for a line that it has read. -/
def line (m : Mapper) (l : Bytes) : List Bytes := m.func (remove_newline l)

/-- What the program writes, record by record. -/
def run_mapper_on_fds (m : Mapper) (input : Bytes) : List Bytes :=
  (lines newline input).flatMap m.line

/-- What is counted in a text. -/
def keys (m : Mapper) (file : Bytes) : List Bytes :=
  match m with
  | wordcount => words file
  | asciicount => (file.filter isalpha).map fun c => [tolower c]
  | lettercount => (file.filter isalpha).map fun _ => lit "letters"
  | wordlengths => (words file).map fun word => decimal word.length

end Mapper

/-- Each key once, in order, with the number of times it is there. -/
def key_counts (ks : List Bytes) : List (Bytes × ℕ) :=
  (ks.dedup.insertionSort before).map fun key => (key, ks.count key)

variable {m : Mapper} {file input line key : Bytes} {ks : List Bytes}

/-! ### The keys of a line -/

theorem isalpha_newline : isalpha newline = false := by decide

theorem isalpha_carriage_return : isalpha carriage_return = false := by decide

/-- Only the end of a line is taken off, and it has no letters. -/
theorem filter_isalpha_stripped (line : Bytes) :
    (stripped line).filter isalpha = line.filter isalpha := by
  rw [stripped]
  split
  · rename_i h
    obtain ⟨l, rfl⟩ := h
    have hdrop : (l ++ [carriage_return, newline]).dropLast.dropLast = l := by
      simp [List.dropLast_append_of_ne_nil]
    rw [hdrop, List.filter_append]
    simp [isalpha_newline, isalpha_carriage_return]
  · split
    · rename_i h
      obtain ⟨l, rfl⟩ := h
      rw [List.dropLast_concat, List.filter_append]
      simp [isalpha_newline]
    · rfl

/-- The letters of the lines are those of the text. -/
theorem filter_isalpha_lines (file : Bytes) :
    ((lines newline file).flatMap fun l => (stripped l).filter isalpha) = file.filter isalpha := by
  have hflatten : (lines newline file).flatten = file := flatten_lines file
  conv_rhs => rw [← hflatten, ← List.flatMap_id, List.filter_flatMap]
  apply List.flatMap_congr
  intro l _
  exact filter_isalpha_stripped l

theorem c_str_stripped (hnul : 0 ∉ input) (hline : line ∈ lines newline input) :
    c_str (remove_newline line) = stripped line := by
  rw [remove_newline_eq]
  exact c_str_eq fun h => hnul (mem_of_mem_lines hline (stripped_subset line h))

/-- **A mapper** writes a record for each key. -/
theorem Mapper.run_mapper_records (m : Mapper) (hnul : 0 ∉ input) :
    m.run_mapper_on_fds input = (m.keys input).map record := by
  cases m with
  | wordcount => exact MapReduce.run_mapper_records hnul
  | asciicount =>
    rw [keys, ← filter_isalpha_lines input, List.map_flatMap, List.map_flatMap]
    apply List.flatMap_congr
    intro l hl
    show ((c_str (remove_newline l)).filter isalpha).map _ = _
    rw [c_str_stripped hnul hl, List.map_map]
    rfl
  | lettercount =>
    rw [keys, ← filter_isalpha_lines input, List.map_flatMap, List.map_flatMap]
    apply List.flatMap_congr
    intro l hl
    show ((c_str (remove_newline l)).filter isalpha).map _ = _
    rw [c_str_stripped hnul hl, List.map_map]
    rfl
  | wordlengths =>
    rw [keys, words, List.map_flatMap, List.map_flatMap]
    apply List.flatMap_congr
    intro l hl
    -- on a line there is no newline to replace
    have hblank : (stripped l).map (fun c => if c = newline then space else c) = stripped l := by
      refine (List.map_congr_left fun c hc => ?_).trans (List.map_id _)
      refine if_neg ?_
      rintro rfl
      exact newline_not_mem_stripped hl hc
    show (datums ((c_str (remove_newline l)).map _)).map _ = _
    rw [c_str_stripped hnul hl, hblank, datums_eq, List.map_map, List.map_map]
    apply List.map_congr_left
    intro word _
    show record (decimal word.length) = record (decimal (semicolons word).length)
    rw [semicolons, List.length_map]

/-! ### Keys as words -/

/-- What a key may be. -/
structure IsWord (key : Bytes) : Prop where
  ne_nil : key ≠ []
  newline : newline ∉ key
  space : space ∉ key
  colon : colon ∉ key
  nul : 0 ∉ key

theorem isWord_of_letter {c : UInt8} (h : isalpha c = true) : IsWord [tolower c] := by
  have hall : ∀ c, isalpha c = true → tolower c ≠ newline ∧ tolower c ≠ space ∧
      tolower c ≠ colon ∧ tolower c ≠ 0 := forall_of_fin (by decide +kernel)
  obtain ⟨h1, h2, h3, h4⟩ := hall c h
  exact ⟨by simp, by simpa using h1.symm, by simpa using h2.symm, by simpa using h3.symm,
    by simpa using h4.symm⟩

theorem isWord_decimal (n : ℕ) : IsWord (decimal n) := by
  obtain ⟨hne, hall, -⟩ := decimal_digits n
  have hno : ∀ c, isdigit c = false → c ∉ decimal n := by
    intro c hc hmem
    rw [hall c hmem] at hc
    cases hc
  exact ⟨hne, hno _ (by decide), hno _ (by decide), hno _ (by decide), hno _ (by decide)⟩

/-- Every key is a word. -/
theorem Mapper.isWord (m : Mapper) (hnul : 0 ∉ file) (hkey : key ∈ m.keys file) : IsWord key := by
  cases m with
  | wordcount =>
    obtain ⟨hnl, hspace, hcolon, hzero⟩ := mem_words hkey
    refine ⟨?_, hnl, hspace, hcolon, hzero hnul⟩
    obtain ⟨line, -, hword⟩ := List.mem_flatMap.mp hkey
    obtain ⟨run, hrun, rfl⟩ := List.mem_map.mp hword
    have hne : run ≠ [] := by simpa using (List.mem_filter.mp hrun).2
    simpa [semicolons] using hne
  | asciicount =>
    obtain ⟨c, hc, rfl⟩ := List.mem_map.mp hkey
    exact isWord_of_letter (List.mem_filter.mp hc).2
  | lettercount =>
    obtain ⟨c, -, rfl⟩ := List.mem_map.mp hkey
    exact ⟨by decide, by decide, by decide, by decide, by decide⟩
  | wordlengths =>
    obtain ⟨word, -, rfl⟩ := List.mem_map.mp hkey
    exact isWord_decimal _

/-- A text with given words. -/
def unwords (ks : List Bytes) : Bytes := [space].intercalate ks

theorem mem_unwords {c : UInt8} (hc : c ∈ unwords ks) : c = space ∨ ∃ key ∈ ks, c ∈ key := by
  induction ks with
  | nil => cases hc
  | cons key ks ih =>
    by_cases hks : ks = []
    · rw [hks, unwords, List.intercalate_singleton] at hc
      exact .inr ⟨key, List.mem_cons_self, hc⟩
    · rw [unwords, List.intercalate_cons_of_ne_nil hks, List.mem_append, List.mem_append] at hc
      obtain (hc | hc) | hc := hc
      · exact .inr ⟨key, List.mem_cons_self, hc⟩
      · exact .inl (List.mem_singleton.mp hc)
      · exact (ih hc).imp_right fun ⟨k, hk, hc⟩ => ⟨k, List.mem_cons_of_mem _ hk, hc⟩

theorem not_mem_unwords {c : UInt8} (hspace : c ≠ space) (hks : ∀ key ∈ ks, c ∉ key) :
    c ∉ unwords ks := by
  intro hc
  obtain h | ⟨key, hkey, h⟩ := mem_unwords hc
  · exact hspace h
  · exact hks key hkey h

/-- **Any keys** are the words of a text. -/
theorem words_unwords (hks : ∀ key ∈ ks, IsWord key) : words (unwords ks) = ks := by
  have hnl : newline ∉ unwords ks :=
    not_mem_unwords (by decide) fun key hkey => (hks key hkey).newline
  have hstripped : stripped (unwords ks) = unwords ks := by
    rw [← remove_newline_eq, remove_newline, if_neg]
    intro h
    exact hnl (List.mem_of_getLast? h)
  have hsemicolons : ks.map semicolons = ks := by
    refine (List.map_congr_left fun key hkey => ?_).trans (List.map_id _)
    refine (List.map_congr_left fun c hc => ?_).trans (List.map_id _)
    refine if_neg ?_
    rintro rfl
    exact (hks key hkey).colon hc
  by_cases hnil : ks = []
  · rw [hnil]
    rfl
  · have hne : unwords ks ≠ [] := by
      obtain ⟨key, rest, rfl⟩ := List.exists_cons_of_ne_nil hnil
      intro h
      have hkey := (hks key List.mem_cons_self).ne_nil
      by_cases hrest : rest = []
      · rw [hrest, unwords, List.intercalate_singleton] at h
        exact hkey h
      · rw [unwords, List.intercalate_cons_of_ne_nil hrest] at h
        simp [hkey] at h
    have hfilter : ks.filter (· ≠ []) = ks :=
      List.filter_eq_self.mpr fun key hkey => by simpa using (hks key hkey).ne_nil
    have hruns : runs (unwords ks) = ks := by
      rw [runs, unwords, List.splitOn_intercalate space (fun key hkey => (hks key hkey).space) hnil,
        hfilter]
    rw [words, lines_of_not_mem hne hnl, List.flatMap_singleton, hstripped, hruns, hsemicolons]

/-! ### The counts -/

theorem mem_key_counts {n : ℕ} : (key, n) ∈ key_counts ks ↔ key ∈ ks ∧ n = ks.count key := by
  rw [key_counts, List.mem_map]
  constructor
  · rintro ⟨k, hk, heq⟩
    cases heq
    exact ⟨List.mem_dedup.mp ((List.mem_insertionSort before).mp hk), rfl⟩
  · rintro ⟨hk, rfl⟩
    exact ⟨key, (List.mem_insertionSort before).mpr (List.mem_dedup.mpr hk), rfl⟩

/-- **The reducer**, on the records of the keys of a text in any order. -/
theorem Mapper.reduce_records (m : Mapper) {ws : List Bytes} (hws : ws.Perm (m.keys file))
    (hnul : 0 ∉ file) (hcounts : ∀ key, (m.keys file).count key < 2 ^ 31) :
    run_reducer_on reducer (ws.map record).flatten =
      some ((key_counts (m.keys file)).flatMap count_line) := by
  have hwords : words (unwords (m.keys file)) = m.keys file :=
    words_unwords fun key hkey => m.isWord hnul hkey
  have hnul' : 0 ∉ unwords (m.keys file) :=
    not_mem_unwords (by decide) fun key hkey => (m.isWord hnul hkey).nul
  have hresult := run_reducer_records (hwords.symm ▸ hws) hnul' (hwords.symm ▸ hcounts)
  rw [hresult, sequential, word_counts, hwords]
  rfl

/-- What the mappers write for the portions of a file is what one of them writes for the file. -/
theorem Mapper.portions_flatten (m : Mapper) {count : ℕ} (hcount : 0 < count)
    (hsize : file.length * count < 2 ^ 64) :
    ((List.range count).map fun i =>
      m.run_mapper_on_fds (write_portion file file.length count i)).flatten =
      m.run_mapper_on_fds file := by
  conv_rhs => rw [run_mapper_on_fds, ← lines_portions hcount hsize]
  simp only [run_mapper_on_fds, List.flatMap_def, List.map_flatten, List.flatten_flatten,
    List.map_map]
  rfl

/-- **Any of the mappers, in any number**, and the reducer: however the records of the mappers come
    together, each key of the file is printed once, in the order of `strcmp`, with the number of
    times it is there. -/
theorem Mapper.counts_sequential (m : Mapper) {count : ℕ} {records : List Bytes} (hnul : 0 ∉ file)
    (hcounts : ∀ key, (m.keys file).count key < 2 ^ 31) (hcount : 1 ≤ count)
    (hsize : file.length * count < 2 ^ 64)
    (hrecords : Interleaves ((List.range count).map fun i =>
      m.run_mapper_on_fds (write_portion file file.length count i)) records) :
    run_reducer_on reducer records.flatten =
        some ((key_counts (m.keys file)).flatMap count_line) ∧
      (key_counts (m.keys file)).Pairwise (fun a b => compare a.1 b.1 = .lt) ∧
      ∀ key n, (key, n) ∈ key_counts (m.keys file) ↔
        key ∈ m.keys file ∧ n = (m.keys file).count key := by
  have hperm := hrecords.perm
  rw [m.portions_flatten hcount hsize, m.run_mapper_records hnul] at hperm
  obtain ⟨ws, hws, rfl⟩ := exists_map_of_perm hperm
  refine ⟨m.reduce_records hws hnul hcounts, ?_, fun _ _ => mem_key_counts⟩
  have hwords : words (unwords (m.keys file)) = m.keys file :=
    words_unwords fun key hkey => m.isWord hnul hkey
  have hordered := word_counts_ordered (unwords (m.keys file))
  rw [word_counts, hwords] at hordered
  exact hordered

/-- The letters of `"Ba\nb\n"`, by two mappers. -/
theorem Mapper.counts_sequential_some : ∃ records,
    Interleaves ((List.range 2).map fun i =>
      Mapper.asciicount.run_mapper_on_fds (write_portion [66, 97, 10, 98, 10] 5 2 i)) records ∧
    run_reducer_on reducer records.flatten = some [97, 58, 32, 49, 10, 98, 58, 32, 50, 10] := by
  have hmap : ((List.range 2).map fun i =>
      Mapper.asciicount.run_mapper_on_fds (write_portion [66, 97, 10, 98, 10] 5 2 i)) =
      [[record [98], record [97]], [record [98]]] := by
    decide +kernel
  have hresult : (key_counts (Mapper.asciicount.keys [66, 97, 10, 98, 10])).flatMap count_line =
      [97, 58, 32, 49, 10, 98, 58, 32, 50, 10] := by
    decide +kernel
  have hlength : (Mapper.asciicount.keys [66, 97, 10, 98, 10]).length < 2 ^ 31 := by
    decide +kernel
  have hinterleaves : Interleaves ((List.range 2).map fun i =>
      Mapper.asciicount.run_mapper_on_fds (write_portion [66, 97, 10, 98, 10] 5 2 i))
      [record [98], record [98], record [97]] := by
    rw [hmap]
    refine .next (p := []) ?_
    refine .next (p := [[record [97]]]) ?_
    refine .next (p := []) ?_
    exact .done (by simp)
  have hnul : (0 : UInt8) ∉ [66, 97, 10, 98, 10] := by decide
  have hcounts := Mapper.asciicount.counts_sequential hnul
    (fun key => List.count_le_length.trans_lt hlength) (by decide) (by decide) hinterleaves
  exact ⟨_, hinterleaves, hresult ▸ hcounts.1⟩

end SystemProgramming.MapReduce
