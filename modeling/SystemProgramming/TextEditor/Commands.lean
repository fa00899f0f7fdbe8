import SystemProgramming.Lib.Lines
import SystemProgramming.TextEditor.Append
import SystemProgramming.TextEditor.Edits

namespace SystemProgramming.TextEditor

open Lib
open SystemProgramming.Vector (int)

/-!
# Runs of commands

All the commands that change the document.

* `Free` — no line of the document has a newline in it.
* `Command.free` — every command keeps it so, if no newline is inserted.
* `Command.defined` — a command in its range that fits has a result.
-/

/-- `strlen(line) - num_chars + 1`, which is a `size_t` -/
def temp_size (line : Str) (num_chars : ℕ) : ℕ :=
  if num_chars ≤ line.length + 1 then line.length + 1 - num_chars
  else line.length + 1 + 2 ^ 64 - num_chars

def handle_delete_command (d : document) (loc : location) (num_chars : ℕ) : Option document :=
  if loc.line_no > document_size d then some d
  else do
    let line ← d.deref (← document_get_line d loc.line_no)
    if (loc.idx + num_chars) % 2 ^ 64 ≥ line.length then do
      let line ← sstring_slice line 0 (int loc.idx)
      document_set_line d loc.line_no line
    else do
      let temp ← sstring_slice line 0 (int loc.idx)
      let temp' := temp ++ line.drop ((num_chars + loc.idx) % 2 ^ 64)
      if temp'.length < temp_size line num_chars then document_set_line d loc.line_no temp' else none

inductive Command
  | edit (e : Edit)
  | append (line_no : ℕ) (line : Str)
  | write (line_no : ℕ) (line : Str)
  | delete (loc : location) (num_chars : ℕ)

def Command.run (d : document) : Command → Option document
  | edit e => e.run d
  | append line_no line => handle_append_command d line_no line
  | write line_no line => handle_write_command d line_no line
  | delete loc num_chars => handle_delete_command d loc num_chars

/-- The text that is inserted. -/
def Command.inserted : Command → Str
  | edit (.insert _ line) => line
  | append _ line => line
  | write _ line => line
  | _ => []

/-- The range of the command. -/
def Command.Allowed (ls : List Str) : Command → Prop
  | edit e => e.Allowed ls
  | append line_no _ => 1 ≤ line_no
  | write line_no _ => 1 ≤ line_no
  | delete loc _ => 1 ≤ loc.line_no

/-- The edit fits, and a deletion is at an `int` to which one can be added and ends at a `size_t`. -/
def Command.Fits (ls : List Str) : Command → Prop
  | edit e => e.Fits ls
  | delete loc num_chars =>
    loc.line_no ≤ ls.length → loc.idx < 2 ^ 31 - 1 ∧ loc.idx + num_chars < 2 ^ 64
  | _ => True

def Command.runs (d : document) (cs : List Command) : Option document := cs.foldlM Command.run d

/-- A condition on the commands, each on the document that it comes to. -/
def Command.Along (P : List Str → Command → Prop) : document → List Command → Prop
  | _, [] => True
  | d, c :: cs => P d.lines c ∧ ∀ d', c.run d = some d' → Along P d' cs

/-! ### Lines without newlines -/

/-- No line has a newline in it. -/
def Free (d : document) : Prop := ∀ l ∈ d.lines, newline ∉ l

variable {d d₁ d' : document} {l line str : Str} {v : List Str} {loc : location} {p : Object Str}
  {line_no num_chars n : ℕ} {e : Edit} {c : Command} {cs : List Command}

theorem Free.set_line (h : Free d) (hstr : newline ∉ str)
    (hrun : document_set_line d n str = some d') : Free d' := by
  rw [document_set_line] at hrun
  split at hrun
  · cases hrun
  · rw [document.vector_set] at hrun
    split at hrun
    · obtain rfl := Option.some.inj hrun
      intro l hl
      rw [document.lines, Owned.values_set] at hl
      obtain hl | rfl := List.mem_or_eq_of_mem_set hl
      · exact h l hl
      · exact hstr
    · cases hrun

theorem Free.insert_line (h : Free d) (hstr : newline ∉ str)
    (hrun : document_insert_line d n str = some d') : Free d' := by
  by_cases hpos : 0 < n
  · obtain ⟨d₁, hrun₁, hlines, -⟩ := document_insert_line_spec (d := d) str hpos
    obtain rfl := Option.some.inj (hrun₁.symm.trans hrun)
    intro l hl
    rw [hlines] at hl
    obtain rfl | hl := List.eq_or_mem_of_mem_insertIdx hl
    · exact hstr
    · obtain hl | hl := List.mem_append.mp hl
      · exact h l hl
      · exact List.eq_of_mem_replicate hl ▸ List.not_mem_nil
  · rw [document_insert_line, if_pos (by omega)] at hrun
    cases hrun

theorem Free.delete_line (h : Free d) (hrun : document_delete_line d n = some d') : Free d' := by
  rw [document_delete_line] at hrun
  split at hrun
  · cases hrun
  · rw [document.vector_erase] at hrun
    split at hrun
    · obtain rfl := Option.some.inj hrun
      intro l hl
      rw [document.lines, Owned.values_erase] at hl
      exact h l (List.mem_of_mem_eraseIdx hl)
    · cases hrun

/-- What is read through a pointer into the document. -/
theorem Free.borrow (h : Free d) (hget : document_get_line d n = some p)
    (hderef : d₁.deref p = some l) : newline ∉ l := by
  rw [document_get_line] at hget
  rw [document.deref] at hderef
  split at hget
  · cases hget
  · split at hderef
    · cases hderef
    · obtain rfl := Option.some.inj hderef
      exact h p.1 (List.mem_map_of_mem (List.mem_of_getElem? hget))

theorem not_mem_slice {start end_ : ℤ} (hl : newline ∉ l)
    (hrun : sstring_slice l start end_ = some str) : newline ∉ str := by
  rw [sstring_slice] at hrun
  split at hrun
  · obtain rfl := Option.some.inj hrun
    exact fun hmem => hl (List.mem_of_mem_drop (List.mem_of_mem_take hmem))
  · cases hrun

/-! ### The commands -/

theorem Free.edit (h : Free d) (hfree : newline ∉ (Command.edit e).inserted)
    (hrun : e.run d = some d') : Free d' := by
  cases e with
  | insert loc line =>
    simp only [Edit.run, handle_insert_command] at hrun
    split at hrun
    · cases hrun
    · split at hrun
      · exact h.insert_line hfree hrun
      · obtain ⟨p, hget, hrun⟩ := Option.bind_eq_some_iff.mp hrun
        obtain ⟨tmp, hderef, hrun⟩ := Option.bind_eq_some_iff.mp hrun
        -- the new line is made of parts of the old one and of the text
        have htmp : newline ∉ tmp := h.borrow hget hderef
        split at hrun
        · refine h.set_line ?_ hrun
          exact List.not_mem_append
            (List.not_mem_append (fun hmem => htmp (List.mem_of_mem_take hmem)) hfree)
            fun hmem => htmp (List.mem_of_mem_drop hmem)
        · cases hrun
  | split loc =>
    obtain ⟨p, hget, hrun⟩ := Option.bind_eq_some_iff.mp hrun
    obtain ⟨line, hderef, hrun⟩ := Option.bind_eq_some_iff.mp hrun
    have hline : newline ∉ line := h.borrow hget hderef
    split at hrun
    · exact Option.some.inj hrun ▸ h
    · obtain ⟨d₁, hinsert, hrun⟩ := Option.bind_eq_some_iff.mp hrun
      obtain ⟨mystr, hderef₁, hrun⟩ := Option.bind_eq_some_iff.mp hrun
      obtain ⟨temp, hslice, hrun⟩ := Option.bind_eq_some_iff.mp hrun
      -- both halves are parts of the line
      have h₁ : Free d₁ := h.insert_line (fun hmem => hline (List.mem_of_mem_drop hmem)) hinsert
      exact h₁.set_line (not_mem_slice (h.borrow hget hderef₁) hslice) hrun
  | merge line_no =>
    simp only [Edit.run, handle_merge_line] at hrun
    split at hrun
    · obtain ⟨p, hget, hrun⟩ := Option.bind_eq_some_iff.mp hrun
      obtain ⟨temp, hderef, hrun⟩ := Option.bind_eq_some_iff.mp hrun
      obtain ⟨q, hgetq, hrun⟩ := Option.bind_eq_some_iff.mp hrun
      obtain ⟨next, hderefq, hrun⟩ := Option.bind_eq_some_iff.mp hrun
      obtain ⟨d₁, hset, hrun⟩ := Option.bind_eq_some_iff.mp hrun
      have h₁ : Free d₁ :=
        h.set_line (List.not_mem_append (h.borrow hget hderef) (h.borrow hgetq hderefq)) hset
      exact h₁.delete_line hrun
    · cases hrun
  | delete_line line_no =>
    simp only [Edit.run, handle_delete_line] at hrun
    split at hrun
    · exact Option.some.inj hrun ▸ h
    · exact h.delete_line hrun

theorem Free.insert_rest (h : Free d) (hv : ∀ l ∈ v, newline ∉ l)
    (hrun : insert_rest v line_no d = some d') : Free d' := by
  induction v generalizing d line_no with
  | nil => exact Option.some.inj hrun ▸ h
  | cons l v ih =>
    obtain ⟨d₁, hinsert, hrun⟩ := Option.bind_eq_some_iff.mp hrun
    exact ih (h.insert_line (hv l List.mem_cons_self) hinsert)
      (fun l' hl' => hv l' (List.mem_cons_of_mem _ hl')) hrun

theorem Free.create_missing (h : Free d) (hrun : create_missing d line_no = some d') :
    Free d' := by
  rw [TextEditor.create_missing] at hrun
  split at hrun
  · exact h.insert_line List.not_mem_nil hrun
  · exact Option.some.inj hrun ▸ h

/-- The pieces of a text have no newlines, whatever the text. -/
theorem not_mem_piece (s : Str) : ∀ l ∈ pieces s, newline ∉ l := by
  rw [pieces_eq]
  exact fun l hl => (splitOn_pieces s l hl).1

theorem Free.append (h : Free d) (hrun : handle_append_command d line_no line = some d') :
    Free d' := by
  rw [handle_append_command] at hrun
  split at hrun
  · cases hrun
  · obtain ⟨d₁, hcreate, hrun⟩ := Option.bind_eq_some_iff.mp hrun
    obtain ⟨first, hfirst, hrun⟩ := Option.bind_eq_some_iff.mp hrun
    obtain ⟨p, hget, hrun⟩ := Option.bind_eq_some_iff.mp hrun
    obtain ⟨origin, hderef, hrun⟩ := Option.bind_eq_some_iff.mp hrun
    obtain ⟨d₂, hset, hrun⟩ := Option.bind_eq_some_iff.mp hrun
    have h₁ : Free d₁ := h.create_missing hcreate
    have h₂ : Free d₂ := h₁.set_line (List.not_mem_append (h₁.borrow hget hderef)
      (not_mem_piece _ first (List.mem_of_mem_head? hfirst))) hset
    exact h₂.insert_rest (fun l hl => not_mem_piece _ l (List.mem_of_mem_tail hl)) hrun

theorem Free.write (h : Free d) (hrun : handle_write_command d line_no line = some d') :
    Free d' := by
  rw [handle_write_command] at hrun
  split at hrun
  · cases hrun
  · obtain ⟨d₁, hcreate, hrun⟩ := Option.bind_eq_some_iff.mp hrun
    obtain ⟨first, hfirst, hrun⟩ := Option.bind_eq_some_iff.mp hrun
    obtain ⟨d₂, hset, hrun⟩ := Option.bind_eq_some_iff.mp hrun
    have h₂ : Free d₂ := (h.create_missing hcreate).set_line
      (not_mem_piece _ first (List.mem_of_mem_head? hfirst)) hset
    exact h₂.insert_rest (fun l hl => not_mem_piece _ l (List.mem_of_mem_tail hl)) hrun

theorem Free.delete (h : Free d) (hrun : handle_delete_command d loc num_chars = some d') :
    Free d' := by
  rw [handle_delete_command] at hrun
  split at hrun
  · exact Option.some.inj hrun ▸ h
  · obtain ⟨p, hget, hrun⟩ := Option.bind_eq_some_iff.mp hrun
    obtain ⟨line, hderef, hrun⟩ := Option.bind_eq_some_iff.mp hrun
    have hline : newline ∉ line := h.borrow hget hderef
    split at hrun
    · obtain ⟨temp, hslice, hrun⟩ := Option.bind_eq_some_iff.mp hrun
      exact h.set_line (not_mem_slice hline hslice) hrun
    · obtain ⟨temp, hslice, hrun⟩ := Option.bind_eq_some_iff.mp hrun
      dsimp only at hrun
      split at hrun
      · exact h.set_line (List.not_mem_append (not_mem_slice hline hslice)
          fun hmem => hline (List.mem_of_mem_drop hmem)) hrun
      · cases hrun

/-- **Every command** keeps the lines without newlines. -/
theorem Command.free (h : Free d) (hfree : newline ∉ c.inserted) (hrun : c.run d = some d') :
    Free d' := by
  cases c with
  | edit e => exact h.edit hfree hrun
  | append line_no line => exact h.append hrun
  | write line_no line => exact h.write hrun
  | delete loc num_chars => exact h.delete hrun

/-- **A run of commands** does. -/
theorem Command.runs_free (h : Free d) (hfree : ∀ c ∈ cs, newline ∉ c.inserted)
    (hrun : Command.runs d cs = some d') : Free d' := by
  induction cs generalizing d with
  | nil => exact Option.some.inj hrun ▸ h
  | cons c cs ih =>
    obtain ⟨d₁, hstep, hrun⟩ := Option.bind_eq_some_iff.mp hrun
    exact ih (Command.free h (hfree c List.mem_cons_self) hstep)
      (fun c' hc' => hfree c' (List.mem_cons_of_mem _ hc')) hrun

/-! ### Commands that have a result -/

theorem delete_defined (hpos : 1 ≤ loc.line_no)
    (hfits : loc.line_no ≤ d.lines.length → loc.idx < 2 ^ 31 - 1 ∧ loc.idx + num_chars < 2 ^ 64) :
    ∃ d', handle_delete_command d loc num_chars = some d' := by
  rw [handle_delete_command]
  by_cases hgt : loc.line_no > document_size d
  · exact ⟨d, if_pos hgt⟩
  · have hle : loc.line_no ≤ d.lines.length := by
      rw [length_lines]
      omega
    obtain ⟨hidx, hend⟩ := hfits hle
    obtain ⟨p, hget, hderef⟩ := line_spec hpos hle
    have hset (str : Str) : ∃ d', document_set_line d loc.line_no str = some d' := by
      obtain ⟨d', hset, -⟩ := document_set_line_spec str hpos hle
      exact ⟨d', hset⟩
    generalize hline : text d.lines loc.line_no = line at hderef
    simp only [if_neg hgt, hget, hderef d rfl, sstring_slice_of_lt hidx, Option.bind_eq_bind,
      Option.bind_some, Nat.mod_eq_of_lt hend, Nat.add_comm num_chars]
    split
    · exact hset _
    · -- nothing is written behind the end of `temp`
      have hroom : (line.take loc.idx ++ line.drop (loc.idx + num_chars)).length <
          temp_size line num_chars := by
        rw [List.length_append, List.length_take, List.length_drop, temp_size, if_pos (by omega)]
        omega
      rw [if_pos hroom]
      exact hset _

/-- **A command that fits** has a result. -/
theorem Command.defined (hallowed : c.Allowed d.lines) (hfits : c.Fits d.lines) :
    ∃ d', c.run d = some d' := by
  cases c with
  | edit e =>
    obtain ⟨d', hrun, -⟩ := (Edit.step hallowed).mpr hfits
    exact ⟨d', hrun⟩
  | append line_no line =>
    obtain ⟨first, v, hv⟩ := splitOn_cons (unescape line)
    obtain ⟨d', hrun, -⟩ := handle_append_command_lines hallowed d hv
    exact ⟨d', hrun⟩
  | write line_no line =>
    obtain ⟨first, v, hv⟩ := splitOn_cons (unescape line)
    obtain ⟨d', hrun, -⟩ := handle_write_command_lines hallowed d hv
    exact ⟨d', hrun⟩
  | delete loc num_chars => exact delete_defined hallowed hfits

/-- **A run** of commands that fit has a result. -/
theorem Command.runs_defined (hallowed : Command.Along Command.Allowed d cs)
    (hfits : Command.Along Command.Fits d cs) : ∃ d', Command.runs d cs = some d' := by
  induction cs generalizing d with
  | nil => exact ⟨d, rfl⟩
  | cons c cs ih =>
    obtain ⟨d₁, hrun⟩ := Command.defined hallowed.1 hfits.1
    obtain ⟨d', hrun'⟩ := ih (hallowed.2 d₁ hrun) (hfits.2 d₁ hrun)
    exact ⟨d', Option.bind_eq_some_iff.mpr ⟨d₁, hrun, hrun'⟩⟩

end SystemProgramming.TextEditor
