import SystemProgramming.TextEditor.Commands

namespace SystemProgramming.TextEditor

open Lib
open SystemProgramming.Vector (int int_eq int_le int_lt)

/-!
# Saving and loading

A file is a string.  The document is written by a loop that counts with an `int` up to the size as an
`int`, and read by `getline`.

* `Savable` — the document has fewer than `2 ^ 31` lines, and `dprintf` can write each of them.
* `save_load` — what is read from a saved file.
* `save_reload` — runs of commands, saved and loaded again.
-/

/-- `dprintf(fildes, "%s\n", l)`, which fails if the number of characters is no `int`; what it has
    written then is not specified. -/
def dprintf (l : Str) : Option Str := if l.length + 1 < 2 ^ 31 then some (l ++ [newline]) else none

/-- The loop of `document_write_to_file`, for `n` rounds from `i` on, and what is in the file. -/
def save_loop (d : document) : ℕ → ℕ → Str → Option Str
  | 0, _, file => some file
  | n + 1, i, file => do
    let l ← d.deref (← d.vector_get i)
    let written ← dprintf l
    save_loop d n (i + 1) (file ++ written)

def document_write_to_file (d : document) : Option Str :=
  save_loop d (int (document_size d)).toNat 0 []

/-- `if(line[read - 1] == '\n'){line[read - 1] = '\0';}` -/
def chomp (line : Str) : Str := if line.getLast? = some newline then line.dropLast else line

/-- A file that is not there gives an empty document. -/
def document_create_from_file : Option Str → document
  | none => document_create
  | some file =>
    (lines newline file).foldl (fun dd line => dd.vector_push_back (chomp line)) document_create

/-! ### Saving -/

/-- The lines can be saved. -/
structure Savable (d : document) : Prop where
  size : document_size d < 2 ^ 31
  short : ∀ l ∈ d.lines, l.length + 1 < 2 ^ 31

/-- A file with a line for each string. -/
def file_of (ls : List Str) : Str := (ls.map (· ++ [newline])).flatten

variable {d d' : document} {ls : List Str} {l file : Str} {i n : ℕ}

/-- The line at an index, as the loop reads it. -/
theorem read_line (hi : i < d.lines.length) :
    ∃ p, d.vector_get i = some p ∧ d.deref p = some d.lines[i] := by
  obtain ⟨p, hget, hderef⟩ := line_spec (d := d) (Nat.succ_pos i) hi
  refine ⟨p, ?_, ?_⟩
  · rwa [document_get_line, if_neg (Nat.succ_ne_zero i)] at hget
  · rw [hderef d rfl, text, Nat.succ_sub_one, List.getElem?_eq_getElem hi]
    rfl

/-- **The loop** writes the lines that it counts, if they are short. -/
theorem save_loop_spec (hn : i + n ≤ d.lines.length) (file file' : Str) :
    save_loop d n i file = some file' ↔
      (∀ l ∈ (d.lines.drop i).take n, l.length + 1 < 2 ^ 31) ∧
        file' = file ++ file_of ((d.lines.drop i).take n) := by
  induction n generalizing i file with
  | zero =>
    rw [save_loop, List.take_zero, file_of, List.map_nil, List.flatten_nil, List.append_nil,
      Option.some_inj]
    exact ⟨fun h => ⟨fun _ hl => absurd hl List.not_mem_nil, h.symm⟩, fun h => h.2.symm⟩
  | succ n ih =>
    have hi : i < d.lines.length := by omega
    have hstep : save_loop d (n + 1) i file =
        (dprintf d.lines[i]).bind fun written => save_loop d n (i + 1) (file ++ written) := by
      obtain ⟨p, hget, hderef⟩ := read_line hi
      simp only [save_loop, hget, hderef, Option.bind_eq_bind, Option.bind_some]
    rw [hstep, List.drop_eq_getElem_cons hi, List.take_succ_cons, List.forall_mem_cons, dprintf]
    by_cases hshort : d.lines[i].length + 1 < 2 ^ 31
    · rw [if_pos hshort, Option.bind_some, ih (by omega), List.append_assoc,
        and_iff_right hshort]
      rfl
    · rw [if_neg hshort]
      exact iff_of_false (fun h => by cases h) fun h => hshort h.1.1

/-- The number of lines that are written. -/
def counted (d : document) : ℕ := (int (document_size d)).toNat

theorem counted_le (d : document) : counted d ≤ d.lines.length := by
  have hle := int_le (document_size d)
  rw [length_lines, counted]
  omega

theorem write_spec (d : document) (file : Str) :
    document_write_to_file d = some file ↔
      (∀ l ∈ d.lines.take (counted d), l.length + 1 < 2 ^ 31) ∧
        file = file_of (d.lines.take (counted d)) := by
  have hn : 0 + counted d ≤ d.lines.length := by
    rw [Nat.zero_add]
    exact counted_le d
  show save_loop d (counted d) 0 [] = some file ↔ _
  rw [save_loop_spec hn, List.drop_zero, List.nil_append]

theorem Savable.take_counted (h : Savable d) : d.lines.take (counted d) = d.lines := by
  refine List.take_of_length_le ?_
  rw [length_lines, counted, int_eq h.size, Int.toNat_natCast]

/-- A document that can be saved is. -/
theorem Savable.write (h : Savable d) : document_write_to_file d = some (file_of d.lines) := by
  rw [write_spec, h.take_counted]
  exact ⟨h.short, rfl⟩

/-! ### Loading -/

theorem lines_load (file : Str) :
    (document_create_from_file (some file)).lines = (lines newline file).map chomp := by
  have hpush (ls : List Str) (dd : document) :
      (ls.foldl (fun dd line => dd.vector_push_back (chomp line)) dd).lines =
        dd.lines ++ ls.map chomp := by
    induction ls generalizing dd with
    | nil => exact (List.append_nil _).symm
    | cons l ls ih =>
      have hlines : (dd.vector_push_back (chomp l)).lines = dd.lines ++ [chomp l] :=
        Owned.values_grow _
      rw [List.foldl_cons, ih, hlines, List.map_cons, List.append_assoc, List.singleton_append]
  exact hpush (lines newline file) document_create

theorem chomp_newline (l : Str) : chomp (l ++ [newline]) = l := by
  rw [chomp, if_pos List.getLast?_concat, List.dropLast_concat]

theorem chomp_of_not_mem (hl : newline ∉ l) : chomp l = l :=
  if_neg fun h => hl (List.mem_of_getLast? h)

/-- **What is loaded** has no newlines. -/
theorem load_free (file : Option Str) : Free (document_create_from_file file) := by
  cases file with
  | none => exact fun l hl => absurd hl List.not_mem_nil
  | some file =>
    intro l hl
    rw [lines_load] at hl
    obtain ⟨line, hline, rfl⟩ := List.mem_map.mp hl
    obtain h | ⟨l, rfl, h⟩ := line_cases hline
    · rwa [chomp_of_not_mem h]
    · rwa [chomp_newline]

/-- **A file with a line for each string** is loaded as these strings. -/
theorem load_file_of (hls : ∀ l ∈ ls, newline ∉ l) :
    (document_create_from_file (some (file_of ls))).lines = ls := by
  have hrecords : ∀ r ∈ ls.map (· ++ [newline]), ∃ l, r = l ++ [newline] ∧ newline ∉ l := by
    intro r hr
    obtain ⟨l, hl, rfl⟩ := List.mem_map.mp hr
    exact ⟨l, rfl, hls l hl⟩
  have hchomp : chomp ∘ (· ++ [newline]) = id := funext chomp_newline
  rw [lines_load, file_of, lines_flatten hrecords, List.map_map, hchomp, List.map_id]

/-- **Saving and loading** gives the lines back exactly if the document can be saved. -/
theorem save_load (h : Free d) :
    (∃ file, document_write_to_file d = some file ∧
      (document_create_from_file (some file)).lines = d.lines) ↔ Savable d := by
  constructor
  · rintro ⟨file, hwrite, hload⟩
    rw [write_spec] at hwrite
    obtain ⟨hshort, hfile⟩ := hwrite
    rw [hfile, load_file_of fun l hl => h l (List.mem_of_mem_take hl)] at hload
    rw [hload] at hshort
    -- as many lines are written as there are
    have hcounted := congrArg List.length hload
    have hlt := int_lt (document_size d)
    rw [List.length_take, length_lines, counted] at hcounted
    exact ⟨by omega, hshort⟩
  · intro hsavable
    exact ⟨file_of d.lines, hsavable.write, load_file_of h⟩

/-! ### A file that is saved as it was loaded -/

/-- The file with a newline at its end, if it is not empty. -/
def with_newline (file : Str) : Str :=
  if file = [] ∨ file.getLast? = some newline then file else file ++ [newline]

theorem with_newline_cons (c : Ch) (h : file ≠ []) :
    with_newline (c :: file) = c :: with_newline file := by
  obtain ⟨last, hlast⟩ := Option.ne_none_iff_exists'.mp (mt List.getLast?_eq_none_iff.mp h)
  rw [with_newline, with_newline, List.getLast?_cons, hlast, Option.getD_some]
  by_cases hnl : some last = some newline
  · rw [if_pos (.inr hnl), if_pos (.inr hnl)]
  · rw [if_neg (by simp [hnl]), if_neg (by simp [hnl, h]), List.cons_append]

theorem chomp_cons (c : Ch) (h : l ≠ []) : chomp (c :: l) = c :: chomp l := by
  obtain ⟨last, hlast⟩ := Option.ne_none_iff_exists'.mp (mt List.getLast?_eq_none_iff.mp h)
  rw [chomp, chomp, List.getLast?_cons, hlast, Option.getD_some, List.dropLast_cons_of_ne_nil h]
  split <;> rfl

/-- The lines of a file, each with a newline, are the file with a newline at its end. -/
theorem file_of_load (file : Str) : file_of ((lines newline file).map chomp) = with_newline file := by
  induction file with
  | nil => rfl
  | cons c file ih =>
    by_cases hc : c = newline
    · have hfirst : file_of ((lines newline (newline :: file)).map chomp) =
          newline :: with_newline file := by
        rw [lines_newline, List.map_cons, ← ih]
        rfl
      rw [hc, hfirst]
      cases file with
      | nil => rfl
      | cons d file => exact (with_newline_cons newline (List.cons_ne_nil d file)).symm
    · cases hlines : lines newline file with
      | nil =>
        obtain rfl : file = [] := (flatten_lines file).symm.trans (congrArg List.flatten hlines)
        have hone : newline ∉ [c] := fun h => hc (List.mem_singleton.mp h).symm
        have hlast : ¬([c] = [] ∨ [c].getLast? = some newline) := by
          rintro (h | h)
          · cases h
          · exact hc (Option.some.inj h)
        rw [show lines newline [c] = [[c]] by rw [lines, if_neg hc]; rfl, with_newline, if_neg hlast,
          List.map_singleton, chomp_of_not_mem hone]
        rfl
      | cons l ls =>
        have hl : l ≠ [] := fun h =>
          nil_not_mem_lines file (by rw [hlines, h]; exact List.mem_cons_self)
        have hfile : file ≠ [] := by
          rintro rfl
          cases hlines
        rw [hlines] at ih
        rw [lines_cons hc hlines, List.map_cons, chomp_cons c hl, with_newline_cons c hfile, ← ih]
        rfl

/-- **A file that is loaded and saved** gets a newline at its end exactly if it can be saved. -/
theorem load_save (file : Option Str) :
    document_write_to_file (document_create_from_file file) = some (with_newline (file.getD [])) ↔
      Savable (document_create_from_file file) := by
  have hfile : file_of (document_create_from_file file).lines = with_newline (file.getD []) := by
    cases file with
    | none => rfl
    | some file =>
      rw [lines_load]
      exact file_of_load file
  rw [← hfile]
  refine ⟨fun hwrite => ?_, Savable.write⟩
  exact (save_load (load_free file)).mp ⟨_, hwrite, load_file_of (load_free file)⟩

/-- **Save and reload.**  In every run of commands on a loaded file, with texts without newlines, no
    line has a newline in it, and the document that is saved and loaded has the same lines exactly
    if it can be saved.  A run of commands that fit has a result.  A file that is saved as it was
    loaded gets a newline at its end exactly if it can be saved. -/
theorem save_reload (file : Option Str) {cs : List Command} (hfree : ∀ c ∈ cs, newline ∉ c.inserted) :
    (∀ d', Command.runs (document_create_from_file file) cs = some d' → Free d' ∧
      ((∃ saved, document_write_to_file d' = some saved ∧
        (document_create_from_file (some saved)).lines = d'.lines) ↔ Savable d')) ∧
    (Command.Along Command.Allowed (document_create_from_file file) cs →
      Command.Along Command.Fits (document_create_from_file file) cs →
      ∃ d', Command.runs (document_create_from_file file) cs = some d') ∧
    (document_write_to_file (document_create_from_file file) = some (with_newline (file.getD [])) ↔
      Savable (document_create_from_file file)) := by
  refine ⟨fun d' hrun => ?_, Command.runs_defined, load_save file⟩
  have hd' : Free d' := Command.runs_free (load_free file) hfree hrun
  exact ⟨hd', save_load hd'⟩

/-- A file with an empty line and an unterminated one: a line break is appended, the first line is
    split, and the second one loses its only character. -/
theorem save_reload_three :
    ∃ d', Command.runs (document_create_from_file (some [backslash, letter_n, newline, newline,
        letter_n])) [.append 2 [letter_n, backslash, letter_n], .edit (.split ⟨1, 1⟩),
          .delete ⟨2, 0⟩ 1] = some d' ∧ d'.lines = [[backslash], [], [letter_n], [], [letter_n]] ∧
      ∃ saved, document_write_to_file d' = some saved ∧
        (document_create_from_file (some saved)).lines = d'.lines := by
  have hlines : (Command.runs (document_create_from_file (some [backslash, letter_n, newline,
      newline, letter_n])) [.append 2 [letter_n, backslash, letter_n], .edit (.split ⟨1, 1⟩),
        .delete ⟨2, 0⟩ 1]).map document.lines =
      some [[backslash], [], [letter_n], [], [letter_n]] := by decide
  obtain ⟨d', hrun, hlines⟩ := Option.map_eq_some_iff.mp hlines
  have hsavable : Savable d' := by
    constructor
    · rw [← length_lines, hlines]
      decide
    · rw [hlines]
      decide
  exact ⟨d', hrun, hlines, ((save_reload _ (by decide)).1 d' hrun).2.mpr hsavable⟩

/-- **A file that is lost**: of `2 ^ 31` empty lines none is saved. -/
theorem save_loses_lines :
    ∃ file, (document_create_from_file (some file)).lines = List.replicate (2 ^ 31) [] ∧
      document_write_to_file (document_create_from_file (some file)) = some [] ∧
      (document_create_from_file (some [])).lines ≠ List.replicate (2 ^ 31) [] := by
  have hfree : ∀ l ∈ List.replicate (2 ^ 31) ([] : Str), newline ∉ l :=
    fun l hl => List.eq_of_mem_replicate hl ▸ List.not_mem_nil
  have hload := load_file_of hfree
  refine ⟨file_of (List.replicate (2 ^ 31) []), hload, ?_, ?_⟩
  · have hcounted : counted (document_create_from_file
        (some (file_of (List.replicate (2 ^ 31) [])))) = 0 := by
      rw [counted, ← length_lines, hload, List.length_replicate]
      rfl
    rw [write_spec, hcounted, List.take_zero]
    exact ⟨fun _ hl => absurd hl List.not_mem_nil, rfl⟩
  · intro h
    have hlen := congrArg List.length h
    rw [List.length_replicate] at hlen
    cases hlen

end SystemProgramming.TextEditor
