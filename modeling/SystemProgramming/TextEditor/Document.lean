import SystemProgramming.Lib.Owned

namespace SystemProgramming.TextEditor

open Lib

/-!
# `text_editor/document.c` — the lines of a document

A document is a vector of strings.  The vector is the list that owns its elements, which is what
`vector.c` makes of it: the elements are copies of what is passed in, and live until they are
destroyed.  A function has no result where an assertion fails, where the vector is accessed out of
its bounds, and where a string is read that was destroyed.

Memory does not run out, on the stack either, and a line number and one more is a `size_t`.

* `document_set_line_spec`, `document_insert_line_spec`, `document_delete_line_spec` — what the
  functions do to the lines.
* `line_spec` — a line that is borrowed from the document.
-/

/-- A character of a C string, which is not the terminator. -/
abbrev Ch := {c : UInt8 // c ≠ 0}

abbrev Str := List Ch

def newline : Ch := ⟨10, by decide⟩
def backslash : Ch := ⟨92, by decide⟩
def letter_n : Ch := ⟨110, by decide⟩

structure document where
  vector : Owned Str

def document_create : document := ⟨.empty⟩

/-! ### The vector -/

abbrev document.size (this : document) : ℕ := this.vector.items.length

/-- A pointer to a string of the document. -/
def document.vector_get (this : document) (position : ℕ) : Option (Object Str) :=
  this.vector.items[position]?

/-- The string behind a pointer, if it was not destroyed. -/
def document.deref (this : document) (p : Object Str) : Option Str :=
  if p ∈ this.vector.destroyed then none else some p.1

def document.vector_push_back (this : document) (element : Str) : document :=
  ⟨this.vector.grow [element]⟩

def document.vector_set (this : document) (position : ℕ) (element : Str) : Option document :=
  if h : position < this.size then some ⟨this.vector.set position element h⟩ else none

def document.vector_insert (this : document) (position : ℕ) (element : Str) : Option document :=
  if h : position ≤ this.size then some ⟨this.vector.insert position element h⟩ else none

def document.vector_erase (this : document) (position : ℕ) : Option document :=
  if h : position < this.size then some ⟨this.vector.erase position h⟩ else none

/-! ### The functions -/

def document_size (this : document) : ℕ := this.size

/-- Line 0 has the last index of all, which no vector has. -/
def document_set_line (this : document) (line_number : ℕ) (str : Str) : Option document :=
  if line_number = 0 then none else this.vector_set (line_number - 1) str

def document_get_line (this : document) (line_number : ℕ) : Option (Object Str) :=
  if line_number = 0 then none else this.vector_get (line_number - 1)

/-- The loop that fills up with empty lines, for `n` rounds from `i` on. -/
def fill_up : ℕ → ℕ → document → Option document
  | 0, _, this => some this
  | n + 1, i, this => do
    let this ← this.vector_insert i []
    fill_up n (i + 1) this

def document_insert_line (this : document) (line_number : ℕ) (str : Str) : Option document :=
  if line_number = 0 then none
  else do
    let this ←
      if line_number > this.size then fill_up (line_number - 1 - this.size) this.size this
      else pure this
    this.vector_insert (line_number - 1) str

def document_delete_line (this : document) (line_number : ℕ) : Option document :=
  if line_number = 0 then none else this.vector_erase (line_number - 1)

/-! ### What they do to the lines -/

def document.lines (this : document) : List Str := this.vector.values

variable {d : document} {str : Str} {line_number n i : ℕ}

theorem length_lines (d : document) : d.lines.length = document_size d := Owned.length_values _

theorem document_set_line_spec (str : Str) (hpos : 0 < line_number)
    (hle : line_number ≤ d.lines.length) :
    ∃ d', document_set_line d line_number str = some d' ∧
      d'.lines = d.lines.set (line_number - 1) str := by
  rw [length_lines] at hle
  have h : line_number - 1 < d.size := by
    show line_number - 1 < document_size d
    omega
  refine ⟨⟨d.vector.set (line_number - 1) str h⟩, ?_, Owned.values_set h⟩
  rw [document_set_line, if_neg (by omega), document.vector_set, dif_pos h]

theorem document_delete_line_spec (hpos : 0 < line_number) (hle : line_number ≤ d.lines.length) :
    ∃ d', document_delete_line d line_number = some d' ∧
      d'.lines = d.lines.eraseIdx (line_number - 1) := by
  rw [length_lines] at hle
  have h : line_number - 1 < d.size := by
    show line_number - 1 < document_size d
    omega
  refine ⟨⟨d.vector.erase (line_number - 1) h⟩, ?_, Owned.values_erase h⟩
  rw [document_delete_line, if_neg (by omega), document.vector_erase, dif_pos h]

/-- **The loop that fills up** adds empty lines and destroys nothing. -/
theorem fill_up_spec (n : ℕ) (d : document) :
    ∃ d', fill_up n d.size d = some d' ∧ d'.lines = d.lines ++ List.replicate n [] ∧
      d'.vector.destroyed = d.vector.destroyed := by
  induction n generalizing d with
  | zero => exact ⟨d, rfl, (List.append_nil _).symm, rfl⟩
  | succ n ih =>
    have hle : d.size ≤ d.vector.items.length := le_rfl
    obtain ⟨d', hrun, hlines, hdestroyed⟩ := ih ⟨d.vector.insert d.size [] hle⟩
    have hsize : document.size ⟨d.vector.insert d.size [] hle⟩ = d.size + 1 :=
      List.length_insertIdx_of_le_length hle _
    have hvalues : document.lines ⟨d.vector.insert d.size [] hle⟩ = d.lines ++ [[]] := by
      rw [document.lines, Owned.values_insert, document.size, ← Owned.length_values,
        List.insertIdx_length_self]
      rfl
    refine ⟨d', ?_, ?_, hdestroyed⟩
    · rw [hsize] at hrun
      rw [fill_up, document.vector_insert, dif_pos hle]
      exact hrun
    · rw [hlines, hvalues, List.append_assoc, List.singleton_append, List.replicate_succ]

/-- The lines, with empty ones behind them up to a length. -/
def padded (ls : List Str) (n : ℕ) : List Str := ls ++ List.replicate (n - ls.length) []

theorem length_padded (ls : List Str) (n : ℕ) : (padded ls n).length = max n ls.length := by
  rw [padded, List.length_append, List.length_replicate]
  omega

theorem padded_of_le {ls : List Str} (h : n ≤ ls.length) : padded ls n = ls := by
  rw [padded, Nat.sub_eq_zero_of_le h, List.replicate_zero, List.append_nil]

theorem document_insert_line_spec (str : Str) (hpos : 0 < line_number) :
    ∃ d', document_insert_line d line_number str = some d' ∧
      d'.lines = (padded d.lines (line_number - 1)).insertIdx (line_number - 1) str ∧
      d'.vector.destroyed = d.vector.destroyed := by
  have hinsert (d₁ : document) (hle : line_number - 1 ≤ d₁.size) :
      ∃ d', d₁.vector_insert (line_number - 1) str = some d' ∧
        d'.lines = d₁.lines.insertIdx (line_number - 1) str ∧
        d'.vector.destroyed = d₁.vector.destroyed :=
    ⟨_, dif_pos hle, Owned.values_insert hle, rfl⟩
  have hlength : d.lines.length = d.size := length_lines d
  rw [document_insert_line, if_neg (by omega)]
  by_cases hgt : line_number > d.size
  · -- the lines in between come first
    obtain ⟨d₁, hrun, hlines, hdestroyed⟩ := fill_up_spec (line_number - 1 - d.size) d
    have hsize : d₁.size = line_number - 1 := by
      rw [← show d₁.lines.length = d₁.size from length_lines d₁, hlines, List.length_append,
        List.length_replicate]
      omega
    obtain ⟨d', hrun', hlines', hdestroyed'⟩ := hinsert d₁ (by omega)
    refine ⟨d', ?_, ?_, hdestroyed'.trans hdestroyed⟩
    · rw [if_pos hgt, hrun]
      exact hrun'
    · rw [hlines', hlines, padded, hlength]
  · obtain ⟨d', hrun', hlines', hdestroyed'⟩ := hinsert d (by omega)
    refine ⟨d', ?_, ?_, hdestroyed'⟩
    · rw [if_neg hgt]
      exact hrun'
    · rw [hlines', padded_of_le (by omega)]

/-- The text of a line, which is empty if the line is missing. -/
def text (ls : List Str) (line_number : ℕ) : Str := ls[line_number - 1]?.getD []

theorem drop_padded (ls : List Str) (n : ℕ) : (padded ls n).drop n = ls.drop n := by
  rw [padded, List.drop_append, List.drop_replicate, Nat.sub_self, List.replicate_zero,
    List.append_nil]

/-- The lines that fill up are empty, as the missing ones. -/
theorem text_padded (hpos : 0 < line_number) (ls : List Str) :
    text (padded ls line_number) line_number = text ls line_number := by
  rw [text, padded, text]
  by_cases hlt : line_number - 1 < ls.length
  · rw [List.getElem?_append_left hlt]
  · rw [List.getElem?_append_right (by omega), List.getElem?_replicate, if_pos (by omega),
      List.getElem?_eq_none (by omega)]
    rfl

theorem set_eq {ls : List Str} (hpos : 0 < line_number) (hle : line_number ≤ ls.length)
    (s : Str) :
    ls.set (line_number - 1) s = ls.take (line_number - 1) ++ s :: ls.drop line_number := by
  rw [List.set_eq_take_append_cons_drop, if_pos (by omega), Nat.sub_add_cancel hpos]

theorem insertIdx_append (before after : List Str) (s : Str) :
    (before ++ after).insertIdx before.length s = before ++ s :: after := by
  induction before with
  | nil => rfl
  | cons l before ih =>
    rw [List.cons_append, List.length_cons, List.insertIdx_succ_cons, ih, List.cons_append]

theorem insertIdx_eq {ls : List Str} (h : n ≤ ls.length) (s : Str) :
    ls.insertIdx n s = ls.take n ++ s :: ls.drop n := by
  have hlen : (ls.take n).length = n := List.length_take_of_le h
  calc ls.insertIdx n s
      = (ls.take n ++ ls.drop n).insertIdx (ls.take n).length s := by
        rw [List.take_append_drop, hlen]
    _ = ls.take n ++ s :: ls.drop n := insertIdx_append _ _ s

/-- **A line that is borrowed** can be read as long as nothing destroys it. -/
theorem line_spec (hpos : 0 < line_number) (hle : line_number ≤ d.lines.length) :
    ∃ p, document_get_line d line_number = some p ∧
      ∀ d' : document, d'.vector.destroyed = d.vector.destroyed →
        d'.deref p = some (text d.lines line_number) := by
  rw [length_lines] at hle
  have h : line_number - 1 < d.vector.items.length := by
    show line_number - 1 < document_size d
    omega
  have htext : text d.lines line_number = d.vector.items[line_number - 1].1 := by
    rw [text, document.lines, Owned.values, List.getElem?_map, List.getElem?_eq_getElem h]
    rfl
  refine ⟨d.vector.items[line_number - 1], ?_, fun d' hd' => ?_⟩
  · rw [document_get_line, if_neg (by omega), document.vector_get, List.getElem?_eq_getElem h]
  · rw [document.deref, hd', if_neg (Owned.not_mem_destroyed (List.getElem_mem h)), htext]

end SystemProgramming.TextEditor
