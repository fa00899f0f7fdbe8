import SystemProgramming.TextEditor.Commands

namespace SystemProgramming.TextEditor

open Lib
open SystemProgramming.Vector (int int_eq)

/-!
# Deleting characters

`handle_delete_command` adds the position and the number of characters as `size_t`s, and takes the
sum for the place from which on the line is kept.

* `removed` — the line without the characters.
* `handle_delete_command_eq` — the command on a line of the document.
* `deletes_iff` — when the command removes what it should.
-/

/-- The line without `num_chars` characters at `idx`, as far as it has them. -/
def removed (line : Str) (idx num_chars : ℕ) : Str :=
  line.take idx ++ line.drop (min (idx + num_chars) line.length)

variable {d d' : document} {line : Str} {loc : location} {num_chars : ℕ}

theorem length_removed_le (line : Str) (idx num_chars : ℕ) :
    (removed line idx num_chars).length ≤ line.length := by
  rw [removed, List.length_append, List.length_take, List.length_drop]
  omega

/-- The command has a result, in which the line is replaced by what is left of it and no other
    line is changed. -/
def Deletes (d : document) (loc : location) (num_chars : ℕ) : Prop :=
  ∃ d', handle_delete_command d loc num_chars = some d' ∧
    d'.lines = d.lines.set (loc.line_no - 1)
      (removed (text d.lines loc.line_no) loc.idx num_chars) ∧
    (text d'.lines loc.line_no).length ≤ (text d.lines loc.line_no).length

/-- **The command** on a line of the document. -/
theorem handle_delete_command_eq (hpos : 1 ≤ loc.line_no) (hle : loc.line_no ≤ d.lines.length)
    (hline : text d.lines loc.line_no = line) :
    handle_delete_command d loc num_chars =
      if (loc.idx + num_chars) % 2 ^ 64 ≥ line.length then
        (sstring_slice line 0 (int loc.idx)).bind (document_set_line d loc.line_no)
      else (sstring_slice line 0 (int loc.idx)).bind fun temp =>
        if (temp ++ line.drop ((num_chars + loc.idx) % 2 ^ 64)).length < temp_size line num_chars
        then document_set_line d loc.line_no (temp ++ line.drop ((num_chars + loc.idx) % 2 ^ 64))
        else none := by
  have hgt : ¬ loc.line_no > document_size d := by
    rw [← length_lines]
    omega
  obtain ⟨p, hget, hderef⟩ := line_spec hpos hle
  rw [hline] at hderef
  rw [handle_delete_command, if_neg hgt, hget, Option.bind_eq_bind, Option.bind_some,
    hderef d rfl]
  rfl

theorem text_set (hpos : 1 ≤ loc.line_no) (hle : loc.line_no ≤ d.lines.length) (str : Str) :
    text (d.lines.set (loc.line_no - 1) str) loc.line_no = str := by
  rw [text, List.getElem?_set_self (by omega)]
  rfl

/-- What the command sets the line to is known from the document it leaves. -/
theorem text_of_set_line (hpos : 1 ≤ loc.line_no) (hle : loc.line_no ≤ d.lines.length) {str : Str}
    (h : document_set_line d loc.line_no str = some d') : text d'.lines loc.line_no = str := by
  obtain ⟨d₁, hset, hlines⟩ := document_set_line_spec str hpos hle
  obtain rfl := Option.some.inj (hset.symm.trans h)
  rw [hlines, text_set hpos hle]

theorem Deletes.of_fits (hpos : 1 ≤ loc.line_no) (hle : loc.line_no ≤ d.lines.length)
    (hidx : loc.idx < 2 ^ 31 - 1) (hend : loc.idx + num_chars < 2 ^ 64) :
    Deletes d loc num_chars := by
  have hset : ∀ str, str = removed (text d.lines loc.line_no) loc.idx num_chars →
      ∃ d', document_set_line d loc.line_no str = some d' ∧
        d'.lines = d.lines.set (loc.line_no - 1)
          (removed (text d.lines loc.line_no) loc.idx num_chars) ∧
        (text d'.lines loc.line_no).length ≤ (text d.lines loc.line_no).length := by
    rintro str rfl
    obtain ⟨d', hrun, hlines⟩ := document_set_line_spec
      (removed (text d.lines loc.line_no) loc.idx num_chars) hpos hle
    refine ⟨d', hrun, hlines, ?_⟩
    rw [text_of_set_line hpos hle hrun]
    exact length_removed_le _ _ _
  rw [Deletes, handle_delete_command_eq hpos hle rfl]
  simp only [sstring_slice_of_lt hidx, Option.bind_some, Nat.mod_eq_of_lt hend,
    Nat.add_comm num_chars]
  split
  · rename_i hge
    refine hset _ ?_
    rw [removed, Nat.min_eq_right hge, List.drop_length, List.append_nil]
  · rename_i hlt
    have hroom : ((text d.lines loc.line_no).take loc.idx ++
        (text d.lines loc.line_no).drop (loc.idx + num_chars)).length <
          temp_size (text d.lines loc.line_no) num_chars := by
      rw [List.length_append, List.length_take, List.length_drop, temp_size, if_pos (by omega)]
      omega
    rw [if_pos hroom]
    refine hset _ ?_
    rw [removed, Nat.min_eq_left (by omega)]

/-- The position `2 ^ 31 - 1` is an `int` to which one cannot be added. -/
theorem sstring_slice_last (h : ¬ loc.idx < 2 ^ 31 - 1) (hlen : line.length < 2 ^ 31)
    (hidx : loc.idx ≤ line.length) : sstring_slice line 0 (int loc.idx) = none := by
  rw [sstring_slice, if_neg]
  rw [int_eq (by omega)]
  omega

/-- Where the sum wraps around, the line would become longer. -/
theorem Deletes.fits (hpos : 1 ≤ loc.line_no) (hle : loc.line_no ≤ d.lines.length)
    (hlen : (text d.lines loc.line_no).length < 2 ^ 31)
    (hidx : loc.idx ≤ (text d.lines loc.line_no).length) (hnum : num_chars < 2 ^ 64)
    (h : Deletes d loc num_chars) : loc.idx < 2 ^ 31 - 1 ∧ loc.idx + num_chars < 2 ^ 64 := by
  obtain ⟨d', hrun, -, hshorter⟩ := h
  rw [handle_delete_command_eq hpos hle rfl] at hrun
  have hslice : loc.idx < 2 ^ 31 - 1 := by
    by_contra hlast
    rw [sstring_slice_last hlast hlen hidx] at hrun
    split at hrun <;> cases hrun
  refine ⟨hslice, ?_⟩
  by_contra hend
  have hmod : (loc.idx + num_chars) % 2 ^ 64 = loc.idx + num_chars - 2 ^ 64 := by omega
  rw [Nat.add_comm num_chars, hmod, if_neg (by omega), sstring_slice_of_lt hslice,
    Option.bind_some] at hrun
  split at hrun
  · rw [text_of_set_line hpos hle hrun, List.length_append, List.length_take,
      List.length_drop] at hshorter
    omega
  · cases hrun

/-- **Deleting** does what it should just when the sum is a `size_t`, and the position is an `int`
    to which one can be added. -/
theorem deletes_iff (d : document) (hpos : 1 ≤ loc.line_no) (hle : loc.line_no ≤ d.lines.length)
    (hlen : (text d.lines loc.line_no).length < 2 ^ 31)
    (hidx : loc.idx ≤ (text d.lines loc.line_no).length) (hnum : num_chars < 2 ^ 64) :
    Deletes d loc num_chars ↔ loc.idx < 2 ^ 31 - 1 ∧ loc.idx + num_chars < 2 ^ 64 :=
  ⟨Deletes.fits hpos hle hlen hidx hnum, fun h => Deletes.of_fits hpos hle h.1 h.2⟩

/-- A document with one line. -/
def one_line (line : Str) : document := document_create.vector_push_back line

theorem deletes_iff_one : Deletes (one_line [backslash, letter_n]) ⟨1, 1⟩ 1 ↔
    1 < 2 ^ 31 - 1 ∧ 1 + 1 < 2 ^ 64 :=
  @deletes_iff ⟨1, 1⟩ 1 (one_line [backslash, letter_n]) (by decide) (by decide) (by decide)
    (by decide) (by decide)

/-- To delete as much as a `size_t` can say is to insert. -/
theorem not_deletes : ¬ Deletes (one_line [backslash, letter_n]) ⟨1, 1⟩ (2 ^ 64 - 1) := fun h =>
  absurd (Deletes.fits (by decide) (by decide) (by decide) (by decide) (by decide) h).2 (by decide)

end SystemProgramming.TextEditor
