import Mathlib.Data.List.Forall2
import SystemProgramming.Lib.CString
import SystemProgramming.Lib.Framing
import SystemProgramming.Lib.Lines

namespace SystemProgramming.KnowYourTools

open Lib CString

/-!
# `know_your_tools/read_wrap.c`

A file is read line by line into one buffer, and every line is cut into strings of 80 characters.
Each string is cut off in place: a null is put behind it, the string is copied, and the character
that was there is put back.  The copies go to an array that doubles when it is full.

* `add_line`, `wrap_loop`, `read_turn`, `read_wrap` — the functions.  There is no result where the
  source would read or write outside of what is allocated.
* `add_line_spec` — a line is added, in memory for it.
* `wrap_line_spec`, `read_turn_spec` — the pieces of a line are added.
* `read_wrap_spec` — the pieces of all the lines, and the number of them.

No allocation fails.  The capacity is at most 10 or twice the number of strings, so that the bytes
of the array are a `size_t` for every file shorter than `2 ^ 59` bytes (`capacity_fits`).
-/

/-- The number of strings, and the slots that are allocated for them; `none` was never written. -/
structure file where
  num_lines : ℕ
  lines : List (Option (List UInt8))
  deriving DecidableEq

/-- `input->lines = realloc(input->lines, sizeof(char *) * capacity)` -/
def file.realloc (input : file) (capacity : ℕ) : file :=
  { input with lines := (input.lines ++ List.replicate capacity none).take capacity }

/-- The file and the new capacity.  `line` is the memory that the argument points to. -/
def add_line (input : file) (capacity : ℕ) (line : Block) : Option (file × ℕ) := do
  let (input, capacity) :=
    if input.num_lines = capacity then (input.realloc (capacity * 2), capacity * 2)
    else (input, capacity)
  let copy ← text line
  if input.num_lines < input.lines.length then
    some (⟨input.num_lines + 1, input.lines.set input.num_lines (some copy)⟩, capacity)
  else none

def new_file (capacity : ℕ) : file := ⟨0, List.replicate capacity none⟩

/-- The variables of `read_wrap` that outlive a line. -/
structure Reading where
  output : file
  capacity : ℕ
  lines : ℕ
  file_buf : Block

def limit : ℕ := 80

/-- `capacity = add_line(output, capacity, wrapped_string); lines++;` -/
def Reading.add (s : Reading) (wrapped_string : ℕ) : Option Reading := do
  let (output, capacity) ← add_line s.output s.capacity (s.file_buf.drop wrapped_string)
  some { s with output := output, capacity := capacity, lines := s.lines + 1 }

/-- A round of the inner loop. -/
def Reading.cut (s : Reading) (wrapped_string : ℕ) : Option Reading := do
  let saved ← s.file_buf[wrapped_string + limit]?
  let file_buf ← write s.file_buf (wrapped_string + limit) [0]
  let s ← Reading.add { s with file_buf := file_buf } wrapped_string
  let file_buf ← write s.file_buf (wrapped_string + limit) [saved]
  some { s with file_buf := file_buf }

/-- The inner loop, with what `wrapped_string` and `read` are behind it. -/
def wrap_loop (s : Reading) (wrapped_string read : ℕ) : Option (Reading × ℕ × ℕ) :=
  if limit < read then do
    let s ← s.cut wrapped_string
    wrap_loop s (wrapped_string + limit) (read - limit)
  else some (s, wrapped_string, read)
termination_by read
decreasing_by
  rename_i h
  rw [limit] at h ⊢
  omega

/-- The inner loop, and the rest that is left of the line. -/
def wrap_line (s : Reading) (wrapped_string read : ℕ) : Option Reading := do
  let (s, wrapped_string, read) ← wrap_loop s wrapped_string read
  if 0 < read then s.add wrapped_string else some s

/-- `getline` puts the line in front of what is in the buffer, with a null behind it. -/
def getline (file_buf : Block) (line : List UInt8) : Block :=
  line ++ 0 :: file_buf.drop (line.length + 1)

def strchr (b : Block) (c : UInt8) : Option (Option ℕ) := (text b).map (·.idxOf? c)

/-- A round of the outer loop, for a line that `getline` returns. -/
def read_turn (s : Reading) (line : List UInt8) : Option Reading := do
  let file_buf := getline s.file_buf line
  let newline ← strchr file_buf 10
  match newline with
  | some p => do
    let file_buf ← write file_buf p [0]
    wrap_line { s with file_buf := file_buf } 0 (line.length - 1)
  | none => wrap_line { s with file_buf := file_buf } 0 line.length

/-- The argument is what the file has in it, unless it cannot be opened. -/
def read_wrap (file_obj : Option (List UInt8)) : Option (Option file) :=
  match file_obj with
  | none => some none
  | some content => do
    let s ← (lines 10 content).foldlM read_turn ⟨new_file 10, 10, 0, []⟩
    some (some (s.output.realloc s.lines))

variable {s : Reading} {f : file} {capacity : ℕ} {ls : List (List UInt8)} {line : Block}
  {content pre a t post : List UInt8} {c : UInt8}

/-! ### The array -/

/-- The strings are in the array, and behind them are the slots that are left of it. -/
structure file.Holds (f : file) (capacity : ℕ) (ls : List (List UInt8)) : Prop where
  num_lines : f.num_lines = ls.length
  lines : f.lines = ls.map some ++ List.replicate (capacity - ls.length) none
  le : ls.length ≤ capacity
  pos : 0 < capacity
  bound : capacity ≤ max 10 (2 * ls.length)

theorem holds_new_file : (new_file 10).Holds 10 [] where
  num_lines := rfl
  lines := rfl
  le := Nat.zero_le _
  pos := Nat.succ_pos _
  bound := le_max_left _ _

/-- A full array is doubled. -/
theorem file.Holds.grow (h : f.Holds capacity ls) (hfull : ls.length = capacity) :
    (f.realloc (capacity * 2)).Holds (capacity * 2) ls where
  num_lines := h.num_lines
  lines := by
    rw [file.realloc, h.lines, hfull, Nat.sub_self, List.replicate_zero, List.append_nil,
      List.take_append, List.length_map, hfull, List.take_of_length_le, List.take_replicate]
    · rw [Nat.min_eq_left (Nat.sub_le _ _)]
    · rw [List.length_map]
      omega
  le := by omega
  pos := Nat.mul_pos h.pos Nat.two_pos
  bound := by omega

/-- A string goes to the first slot that is left. -/
theorem file.Holds.put (h : f.Holds capacity ls) (hlt : ls.length < capacity) :
    file.Holds ⟨f.num_lines + 1, f.lines.set f.num_lines (some t)⟩ capacity (ls ++ [t]) where
  num_lines := by rw [List.length_append, List.length_singleton, h.num_lines]
  lines := by
    obtain ⟨k, hk⟩ : ∃ k, capacity - ls.length = k + 1 := ⟨capacity - ls.length - 1, by omega⟩
    have hk' : capacity - (ls ++ [t]).length = k := by
      rw [List.length_append, List.length_singleton]
      omega
    dsimp only
    rw [h.lines, h.num_lines, hk, hk', List.set_append_right _ _ (by rw [List.length_map]),
      List.length_map, Nat.sub_self, List.replicate_succ, List.set_cons_zero, List.map_append,
      List.append_assoc]
    rfl
  le := by
    rw [List.length_append, List.length_singleton]
    exact hlt
  pos := h.pos
  bound := by
    have hbound := h.bound
    rw [List.length_append, List.length_singleton]
    omega

/-- **`add_line`** has memory for the line. -/
theorem add_line_spec (h : f.Holds capacity ls) (hline : text line = some t) :
    ∃ f' capacity', add_line f capacity line = some (f', capacity') ∧
      f'.Holds capacity' (ls ++ [t]) := by
  have hnum := h.num_lines
  have hput : ∀ {f' : file} {capacity' : ℕ}, f'.Holds capacity' ls → ls.length < capacity' →
      f'.num_lines < f'.lines.length := by
    intro f' capacity' h' hlt
    rw [h'.num_lines, h'.lines, List.length_append, List.length_map, List.length_replicate]
    omega
  by_cases hfull : ls.length = capacity
  · -- the array is doubled, and `add_line` goes on with the new capacity
    have hgrow := h.grow hfull
    have hlt : ls.length < capacity * 2 := by have := h.pos; omega
    refine ⟨_, _, ?_, hgrow.put hlt⟩
    rw [add_line, if_pos (hnum.trans hfull)]
    dsimp only
    rw [hline, Option.bind_eq_bind, Option.bind_some, if_pos (hput hgrow hlt)]
  · have hlt : ls.length < capacity := lt_of_le_of_ne h.le hfull
    refine ⟨_, _, ?_, h.put hlt⟩
    rw [add_line, if_neg (by rw [hnum]; exact hfull)]
    dsimp only
    rw [hline, Option.bind_eq_bind, Option.bind_some, if_pos (hput h hlt)]

/-! ### A line -/

/-- The strings so far are in the array, and they were counted. -/
structure Reading.Holds (s : Reading) (ls : List (List UInt8)) : Prop where
  output : s.output.Holds s.capacity ls
  lines : s.lines = ls.length

theorem Reading.Holds.add (h : s.Holds ls) (hbuf : s.file_buf = pre ++ t ++ 0 :: post)
    (ht : 0 ∉ t) :
    ∃ s', s.add pre.length = some s' ∧ s'.Holds (ls ++ [t]) ∧ s'.file_buf = s.file_buf := by
  have htext : text (s.file_buf.drop pre.length) = some t := by
    rw [hbuf, List.append_assoc, List.drop_left, text_eq ht]
  obtain ⟨f, capacity, hrun, hholds⟩ := add_line_spec h.output htext
  refine ⟨{ s with output := f, capacity := capacity, lines := s.lines + 1 }, ?_,
    ⟨hholds, ?_⟩, rfl⟩
  · rw [Reading.add, hrun]
    rfl
  · rw [List.length_append, List.length_singleton]
    exact congrArg (· + 1) h.lines

/-- A character of a block is replaced. -/
theorem write_middle (x y : List UInt8) (c d : UInt8) :
    write (x ++ c :: y) x.length [d] = some (x ++ d :: y) := by
  rw [write_eq, List.take_left, List.length_singleton, List.drop_length_add_append]
  · simp
  · simp

/-- **A round of the inner loop** leaves the buffer as it was. -/
theorem Reading.Holds.cut (h : s.Holds ls) (hbuf : s.file_buf = pre ++ a ++ c :: post)
    (ha : a.length = limit) (hnul : 0 ∉ a) :
    ∃ s', s.cut pre.length = some s' ∧ s'.Holds (ls ++ [a]) ∧ s'.file_buf = s.file_buf := by
  have hat : pre.length + limit = (pre ++ a).length := by rw [List.length_append, ha]
  obtain ⟨s', hadd, hholds, hbuf'⟩ :=
    Reading.Holds.add (s := { s with file_buf := pre ++ a ++ 0 :: post }) ⟨h.output, h.lines⟩
      rfl hnul
  -- `c` is put back where the null was
  refine ⟨{ s' with file_buf := pre ++ a ++ c :: post }, ?_, ⟨hholds.output, hholds.lines⟩,
    hbuf.symm⟩
  rw [Reading.cut, hbuf, hat, List.getElem?_append_right le_rfl, Nat.sub_self,
    List.getElem?_cons_zero, write_middle]
  simp only [Option.bind_eq_bind, Option.bind_some, hadd, hbuf', write_middle]

theorem wrap_line_cut {w read : ℕ} (hlt : limit < read) :
    wrap_line s w read =
      (s.cut w).bind fun s => wrap_line s (w + limit) (read - limit) := by
  rw [wrap_line, wrap_loop, if_pos hlt]
  cases s.cut w <;> rfl

theorem wrap_line_last {w read : ℕ} (hle : read ≤ limit) :
    wrap_line s w read = if 0 < read then s.add w else some s := by
  rw [wrap_line, wrap_loop, if_neg (not_lt.mpr hle)]
  rfl

/-- **The pieces of a line** are added, from the place in the buffer that was reached. -/
theorem wrap_line_spec (pre : List UInt8) (h : s.Holds ls)
    (hbuf : s.file_buf = pre ++ t ++ 0 :: post) (ht : 0 ∉ t) :
    ∃ s', wrap_line s pre.length t.length = some s' ∧ s'.Holds (ls ++ chunks 79 t) := by
  induction hn : t.length using Nat.strong_induction_on generalizing s ls pre t with
  | _ n ih =>
    by_cases hlt : limit < n
    · -- a piece is cut off, and the line goes on behind it
      obtain ⟨c, d, hdrop⟩ : ∃ c d, t.drop limit = c :: d :=
        List.exists_cons_of_ne_nil (by simpa [hn] using hlt)
      have htake : (t.take limit).length = limit := List.length_take_of_le (by omega)
      have hsplit : t = t.take limit ++ c :: d := by rw [← hdrop, List.take_append_drop]
      have hlen : (c :: d).length = n - limit := by rw [← hdrop, List.length_drop, hn]
      have hbuf' : s.file_buf = pre ++ t.take limit ++ c :: (d ++ 0 :: post) :=
        calc s.file_buf = pre ++ (t.take limit ++ t.drop limit) ++ 0 :: post := by
              rw [List.take_append_drop, hbuf]
          _ = pre ++ t.take limit ++ c :: (d ++ 0 :: post) := by
              rw [hdrop, ← List.append_assoc, List.append_assoc, List.cons_append]
      obtain ⟨s', hcut, hholds, hkeep⟩ := h.cut hbuf' htake
        fun hmem => ht (List.mem_of_mem_take hmem)
      obtain ⟨s'', hrun, hholds'⟩ := ih (n - limit) (by rw [limit] at hlt ⊢; omega)
        (pre ++ t.take limit) hholds (t := c :: d) (by rw [hkeep, hbuf']; simp)
        (fun hmem => ht (by rw [hsplit]; exact List.mem_append_right _ hmem)) hlen
      refine ⟨s'', ?_, ?_⟩
      · rw [wrap_line_cut hlt, hcut, Option.bind_some, ← hrun, List.length_append, htake]
      · rw [chunks_of_ne_nil 79 (List.ne_nil_of_length_pos (by omega))]
        rwa [List.append_assoc, List.singleton_append, ← hdrop] at hholds'
    · -- at most one piece is left, and none of an empty line
      rw [wrap_line_last (not_lt.mp hlt)]
      by_cases hpos : 0 < n
      · obtain ⟨s', hadd, hholds, -⟩ := h.add hbuf ht
        refine ⟨s', by rw [if_pos hpos, hadd], ?_⟩
        rwa [chunks_of_le (List.ne_nil_of_length_pos (by omega)) (by rw [limit] at hlt; omega)]
      · have hnil : t = [] := List.eq_nil_of_length_eq_zero (by omega)
        refine ⟨s, if_neg hpos, ?_⟩
        rwa [hnil, chunks_nil, List.append_nil]

/-- The line without its newline. -/
def stripped (line : List UInt8) : List UInt8 := line.filter (· ≠ 10)

theorem stripped_eq {l : List UInt8} (hl : 10 ∉ l) : stripped l = l :=
  List.filter_eq_self.mpr fun _ hc => decide_eq_true fun h => hl (h ▸ hc)

theorem idxOf?_concat {l : List UInt8} (hl : c ∉ l) : (l ++ [c]).idxOf? c = some l.length := by
  rw [List.idxOf?_eq_some_iff]
  refine ⟨by simp, by simp, fun j hj => ?_⟩
  rw [List.getElem_append_left hj]
  exact fun h => hl (h ▸ List.getElem_mem hj)

/-- **A round of the outer loop** adds the pieces of a line. -/
theorem read_turn_spec (h : s.Holds ls) {line : List UInt8} (hline : line ∈ lines 10 content)
    (hnul : 0 ∉ content) :
    ∃ s', read_turn s line = some s' ∧ s'.Holds (ls ++ chunks 79 (stripped line)) := by
  have hnul' : 0 ∉ line := fun hmem => hnul (mem_of_mem_lines hline hmem)
  rw [read_turn, strchr, getline, text_eq hnul']
  dsimp only [Option.map_some, Option.bind_eq_bind, Option.bind_some]
  rcases line_cases hline with hlast | ⟨l, rfl, hl⟩
  · -- the last line, without a newline
    rw [List.idxOf?_eq_none_iff.mpr hlast, stripped_eq hlast]
    exact wrap_line_spec [] ⟨h.output, h.lines⟩ rfl hnul'
  · -- the newline becomes the null
    have hstripped : stripped (l ++ [10]) = l := by
      rw [stripped, List.filter_append, ← stripped, stripped_eq hl]
      exact List.append_nil l
    rw [idxOf?_concat hl, List.append_assoc, List.singleton_append]
    dsimp only
    rw [write_middle, Option.bind_some, List.length_append, List.length_singleton,
      Nat.add_sub_cancel, hstripped]
    exact wrap_line_spec [] ⟨h.output, h.lines⟩ rfl
      fun hmem => hnul' (List.mem_append_left _ hmem)

theorem holds_start : Reading.Holds ⟨new_file 10, 10, 0, []⟩ [] := ⟨holds_new_file, rfl⟩

/-- **The outer loop** -/
theorem read_loop_spec (h : s.Holds ls) (hnul : 0 ∉ content) (rest : List (List UInt8))
    (hrest : ∀ line ∈ rest, line ∈ lines 10 content) :
    ∃ s', rest.foldlM read_turn s = some s' ∧
      s'.Holds (ls ++ (rest.map fun line => chunks 79 (stripped line)).flatten) := by
  induction rest generalizing s ls with
  | nil => exact ⟨s, rfl, by rwa [List.map_nil, List.flatten_nil, List.append_nil]⟩
  | cons line rest ih =>
    obtain ⟨s₁, hturn, hholds⟩ := read_turn_spec h (hrest line List.mem_cons_self) hnul
    obtain ⟨s₂, hrun, hholds'⟩ := ih hholds fun l hl => hrest l (List.mem_cons_of_mem _ hl)
    refine ⟨s₂, ?_, ?_⟩
    · rw [List.foldlM_cons, hturn]
      exact hrun
    · rwa [List.map_cons, List.flatten_cons, ← List.append_assoc]

/-- A line is cut into no more strings than it has characters. -/
theorem length_chunks_le_length (line : List UInt8) :
    (chunks 79 (stripped line)).length ≤ line.length := by
  have hle : ∀ ps : List (List UInt8), (∀ p ∈ ps, p ≠ []) → ps.length ≤ ps.flatten.length := by
    intro ps hps
    induction ps with
    | nil => exact Nat.zero_le _
    | cons p ps ih =>
      have hpos := List.length_pos_iff.mpr (hps p List.mem_cons_self)
      have hrest := ih fun q hq => hps q (List.mem_cons_of_mem p hq)
      rw [List.length_cons, List.flatten_cons, List.length_append]
      omega
  calc (chunks 79 (stripped line)).length
      ≤ (chunks 79 (stripped line)).flatten.length := hle _ (chunks_ne_nil 79 _)
    _ = (stripped line).length := by rw [flatten_chunks]
    _ ≤ line.length := List.length_filter_le _ _

/-- **The bytes of the array** stay in the range of `size_t`, line by line. -/
theorem capacity_fits (hnul : 0 ∉ content) (hcontent : content.length < 2 ^ 59) (k : ℕ) :
    ∃ s, ((lines 10 content).take k).foldlM read_turn ⟨new_file 10, 10, 0, []⟩ = some s ∧
      8 * s.capacity < 2 ^ 64 := by
  obtain ⟨s, hrun, hholds⟩ := read_loop_spec holds_start hnul ((lines 10 content).take k)
    fun _ hline => List.mem_of_mem_take hline
  have hcount : ∀ rest : List (List UInt8),
      (rest.map fun line => chunks 79 (stripped line)).flatten.length ≤ rest.flatten.length := by
    intro rest
    induction rest with
    | nil => exact Nat.le_refl _
    | cons line rest ih =>
      rw [List.map_cons, List.flatten_cons, List.flatten_cons, List.length_append,
        List.length_append]
      exact Nat.add_le_add (length_chunks_le_length line) ih
  have hsplit : content.length = ((lines 10 content).take k).flatten.length +
      ((lines 10 content).drop k).flatten.length := by
    rw [← List.length_append, ← List.flatten_append, List.take_append_drop, flatten_lines]
  -- a string is at least one byte of the file
  have hbound := hholds.output.bound
  have hle := hcount ((lines 10 content).take k)
  rw [List.nil_append] at hbound
  exact ⟨s, hrun, by omega⟩

/-! ### A file -/

/-- The strings that a line of a file is cut into. -/
structure Pieces (line : List UInt8) (ps : List (List UInt8)) : Prop where
  flatten : ps.flatten = line
  le : ∀ p ∈ ps, p ≠ [] ∧ p.length ≤ 80
  full : ∀ p ∈ ps.dropLast, p.length = 80

theorem pieces_chunks (line : List UInt8) : Pieces line (chunks 79 line) where
  flatten := flatten_chunks 79 line
  le p hp := ⟨chunks_ne_nil 79 line p hp, length_chunks_le 79 line p hp⟩
  full := length_of_mem_dropLast_chunks 79 line

/-- **The pieces of a line** are determined by what they are. -/
theorem Pieces.eq_chunks {line : List UInt8} {ps : List (List UInt8)} (h : Pieces line ps) :
    ps = chunks 79 line := by
  induction ps generalizing line with
  | nil => rw [← h.flatten, List.flatten_nil, chunks_nil]
  | cons p ps ih =>
    obtain ⟨hne, hle⟩ := h.le p List.mem_cons_self
    have hflatten := h.flatten
    rw [List.flatten_cons] at hflatten
    by_cases hps : ps = []
    · rw [hps, List.flatten_nil, List.append_nil] at hflatten
      rw [hps, ← hflatten, chunks_of_le hne hle]
    · have hfull := h.full
      rw [List.dropLast_cons_of_ne_nil hps] at hfull
      have hp : p.length = 79 + 1 := hfull p List.mem_cons_self
      have hrest : ps = chunks 79 ps.flatten := ih ⟨rfl,
        fun q hq => h.le q (List.mem_cons_of_mem p hq),
        fun q hq => hfull q (List.mem_cons_of_mem p hq)⟩
      rw [← hflatten, chunks_of_ne_nil 79 (by simp [hne]), List.take_left' hp, List.drop_left' hp,
        ← hrest]

/-- The array is cut down to the strings in it. -/
theorem file.Holds.fit (h : f.Holds capacity ls) :
    f.realloc ls.length = ⟨ls.length, ls.map some⟩ := by
  rw [file.realloc, h.num_lines, h.lines, List.append_assoc, List.take_left' (List.length_map _)]

/-- **`read_wrap`** keeps the text: its strings are the pieces of the lines, in order, and it has
    counted them. -/
theorem read_wrap_spec (content : List UInt8) (hnul : 0 ∉ content) :
    ∃ (out : file) (pieces : List (List (List UInt8))),
      read_wrap (some content) = some (some out) ∧
      List.Forall₂ Pieces (content.splitOn 10) pieces ∧
      out.lines = pieces.flatten.map some ∧ out.num_lines = pieces.flatten.length := by
  obtain ⟨s, hrun, hholds⟩ := read_loop_spec holds_start hnul (lines 10 content)
    fun _ hline => hline
  obtain ⟨rest, hrest, hsplit⟩ := splitOn_eq_lines 10 content
  have hpieces : ((content.splitOn 10).map (chunks 79)).flatten =
      ((lines 10 content).map fun line => chunks 79 (stripped line)).flatten := by
    rw [hsplit, List.map_append, List.flatten_append, List.map_map]
    rcases hrest with rfl | rfl
    · exact List.append_nil _
    · -- behind a last newline is an empty line
      rw [List.map_singleton, chunks_nil]
      exact List.append_nil _
  rw [List.nil_append, ← hpieces] at hholds
  have hfit := hholds.output.fit
  rw [← hholds.lines] at hfit
  refine ⟨s.output.realloc s.lines, (content.splitOn 10).map (chunks 79), ?_, ?_, ?_, ?_⟩
  · rw [read_wrap, hrun]
    rfl
  · rw [List.forall₂_map_right_iff, List.forall₂_same]
    exact fun line _ => pieces_chunks line
  · rw [hfit]
  · rw [hfit, hholds.lines]

/-- Three lines, one of them empty, and the last one without a newline. -/
theorem read_wrap_three :
    ∃ (out : file) (pieces : List (List (List UInt8))),
      read_wrap (some [97, 98, 10, 10, 99]) = some (some out) ∧
      List.Forall₂ Pieces [[97, 98], [], [99]] pieces ∧
      out.lines = pieces.flatten.map some ∧ out.num_lines = pieces.flatten.length :=
  read_wrap_spec [97, 98, 10, 10, 99] (by decide)

end SystemProgramming.KnowYourTools
