import SystemProgramming.TextEditor.Unescape

namespace SystemProgramming.TextEditor

/-!
# The append and write commands

Both commands create the line if it is missing, unescape the text, split it at the newlines, change
the line with the first piece and insert the others behind it.

* `insert_rest_spec` — the loop that inserts the other pieces.
* `handle_append_command_lines`, `handle_write_command_lines` — the lines after the commands.
* `append_write_agree` — the two commands side by side.
-/

/-! ### The functions -/

/-- `document_insert_line(editor->document, ++line_no, vector_get(v, i))`, for the pieces behind the
    first -/
def insert_rest : List Str → ℕ → document → Option document
  | [], _, d => some d
  | s :: v, line_no, d => do
    let d ← document_insert_line d (line_no + 1) s
    insert_rest v (line_no + 1) d

/-- `if(line_no > document_size(editor->document))` the line is inserted, an empty one. -/
def create_missing (d : document) (line_no : ℕ) : Option document :=
  if line_no > document_size d then document_insert_line d line_no [] else some d

def handle_append_command (d : document) (line_no : ℕ) (line : Str) : Option document :=
  if line_no = 0 then none
  else do
    let d ← create_missing d line_no
    let v := pieces (append_loop line [])
    let first ← v.head?
    let origin ← document_get_line d line_no
    let mystr := (← d.deref origin) ++ first
    let d ← document_set_line d line_no mystr
    insert_rest v.tail line_no d

def handle_write_command (d : document) (line_no : ℕ) (line : Str) : Option document :=
  if line_no = 0 then none
  else do
    let d ← create_missing d line_no
    let temp := buffer line 1
    let temp := write_loop (strlen temp) 0 temp
    let v := pieces (c_str temp)
    let first ← v.head?
    let d ← document_set_line d line_no first
    insert_rest v.tail line_no d

/-! ### The lines -/

/-- The lines with others in the place of one, which is there or is created with empty lines in
    between. -/
def replaced (ls : List Str) (line_no : ℕ) (ps : List Str) : List Str :=
  (padded ls line_no).take (line_no - 1) ++ ps ++ ls.drop line_no

variable {d : document} {ls v before after : List Str} {s first : Str} {line_no : ℕ}

/-- **A missing line is created** with empty lines in between. -/
theorem create_missing_spec (hpos : 0 < line_no) (d : document) :
    ∃ d', create_missing d line_no = some d' ∧ d'.lines = padded d.lines line_no := by
  have hlength : d.lines.length = document_size d := length_lines d
  rw [create_missing]
  by_cases hgt : line_no > document_size d
  · obtain ⟨d', hrun, hlines, -⟩ := document_insert_line_spec (d := d) [] hpos
    have hend : (padded d.lines (line_no - 1)).length = line_no - 1 := by
      rw [length_padded]
      omega
    refine ⟨d', by rw [if_pos hgt, hrun], ?_⟩
    rw [hlines]
    nth_rewrite 2 [← hend]
    rw [List.insertIdx_length_self, padded, padded, List.append_assoc, ← List.replicate_succ']
    congr 2
    omega
  · exact ⟨d, if_neg hgt, (padded_of_le (by omega)).symm⟩

/-- **The loop** inserts the pieces one behind the other. -/
theorem insert_rest_spec (hlen : before.length = line_no) (hlines : d.lines = before ++ after) :
    ∃ d', insert_rest v line_no d = some d' ∧ d'.lines = before ++ v ++ after := by
  induction v generalizing before line_no d with
  | nil => exact ⟨d, rfl, by rw [hlines, List.append_nil]⟩
  | cons s v ih =>
    obtain ⟨d₁, hrun, hlines₁, -⟩ :=
      document_insert_line_spec (d := d) s (Nat.succ_pos line_no)
    have hinsert : d₁.lines = (before ++ [s]) ++ after := by
      have hle : line_no ≤ (before ++ after).length := by
        rw [List.length_append]
        omega
      rw [hlines₁, hlines, Nat.succ_sub_one, padded_of_le hle, ← hlen, insertIdx_append,
        List.append_cons]
    obtain ⟨d', hrest, hlines'⟩ := ih (hlen ▸ length_append_singleton before s) hinsert
    refine ⟨d', ?_, ?_⟩
    · rw [insert_rest, hrun]
      exact hrest
    · rw [hlines', List.append_assoc before, List.singleton_append]

/-- The line becomes the first piece and the others go behind it. -/
theorem set_insert_rest (first : Str) (v : List Str) (hpos : 0 < line_no)
    (hlines : d.lines = padded ls line_no) :
    ∃ d₁ d', document_set_line d line_no first = some d₁ ∧ insert_rest v line_no d₁ = some d' ∧
      d'.lines = replaced ls line_no (first :: v) := by
  have hle : line_no ≤ d.lines.length := by
    rw [hlines, length_padded]
    exact le_max_left _ _
  obtain ⟨d₁, hset, hlines₁⟩ := document_set_line_spec first hpos hle
  have hsplit : d₁.lines = ((padded ls line_no).take (line_no - 1) ++ [first]) ++
      ls.drop line_no := by
    rw [hlines₁, set_eq hpos hle, hlines, drop_padded, ← List.append_cons]
  have hbefore : ((padded ls line_no).take (line_no - 1) ++ [first]).length = line_no := by
    rw [length_append_singleton, List.length_take, ← hlines]
    omega
  obtain ⟨d', hrest, hlines'⟩ := insert_rest_spec (v := v) hbefore hsplit
  refine ⟨d₁, d', hset, hrest, ?_⟩
  rw [hlines', replaced, List.append_assoc _ [first], List.singleton_append]

/-- **The write command** puts the pieces in the place of the line. -/
theorem handle_write_command_lines (hpos : 0 < line_no) (d : document)
    (hv : (unescape s).splitOn newline = first :: v) :
    ∃ d', handle_write_command d line_no s = some d' ∧
      d'.lines = replaced d.lines line_no (first :: v) := by
  obtain ⟨d₁, hcreate, hlines₁⟩ := create_missing_spec hpos d
  obtain ⟨d₂, d', hset, hrest, hlines'⟩ := set_insert_rest first v hpos hlines₁
  have htemp : pieces (c_str (write_loop (strlen (buffer s 1)) 0 (buffer s 1))) = first :: v := by
    rw [strlen_buffer, pieces_eq, ← hv]
    exact congrArg (List.splitOn newline) (write_loop_spec [] Nat.one_pos le_rfl)
  refine ⟨d', ?_, hlines'⟩
  simp only [handle_write_command, if_neg (Nat.ne_of_gt hpos), hcreate, htemp, List.head?_cons,
    List.tail_cons, hset, hrest, Option.bind_eq_bind, Option.bind_some]

/-- **The append command** puts the pieces there as well, with the old text before the first. -/
theorem handle_append_command_lines (hpos : 0 < line_no) (d : document)
    (hv : (unescape s).splitOn newline = first :: v) :
    ∃ d', handle_append_command d line_no s = some d' ∧
      d'.lines = replaced d.lines line_no ((text d.lines line_no ++ first) :: v) := by
  obtain ⟨d₁, hcreate, hlines₁⟩ := create_missing_spec hpos d
  have hle : line_no ≤ d₁.lines.length := by
    rw [hlines₁, length_padded]
    exact le_max_left _ _
  obtain ⟨origin, horigin, hderef⟩ := line_spec hpos hle
  have hmystr : d₁.deref origin = some (text d.lines line_no) := by
    rw [hderef d₁ rfl, hlines₁, text_padded hpos]
  obtain ⟨d₂, d', hset, hrest, hlines'⟩ :=
    set_insert_rest (text d.lines line_no ++ first) v hpos hlines₁
  have hpieces : pieces (append_loop s []) = first :: v := by
    rw [pieces_eq, append_loop_eq, List.nil_append, hv]
  refine ⟨d', ?_, hlines'⟩
  simp only [handle_append_command, if_neg (Nat.ne_of_gt hpos), hcreate, hpieces, List.head?_cons,
    List.tail_cons, horigin, hmystr, hset, hrest, Option.bind_eq_bind,
    Option.bind_some]

/-- **Append and write agree.**  The write command makes the line the first piece of the unescaped
    text, the append command its old text and the first piece; both insert the other pieces behind
    it and create a missing line with empty ones in between.  On an empty line they do the same. -/
theorem append_write_agree (d : document) (hpos : 0 < line_no) (s : Str) :
    ∃ p₀ ps d_append d_write, (unescape s).splitOn newline = p₀ :: ps ∧
      handle_write_command d line_no s = some d_write ∧
      d_write.lines = replaced d.lines line_no (p₀ :: ps) ∧
      handle_append_command d line_no s = some d_append ∧
      d_append.lines = replaced d.lines line_no ((text d.lines line_no ++ p₀) :: ps) ∧
      (text d.lines line_no = [] → d_append.lines = d_write.lines) := by
  obtain ⟨p₀, ps, hv⟩ := splitOn_cons (unescape s)
  obtain ⟨d_write, hwrite, hwrite_lines⟩ := handle_write_command_lines hpos d hv
  obtain ⟨d_append, happend, happend_lines⟩ := handle_append_command_lines hpos d hv
  refine ⟨p₀, ps, d_append, d_write, hv, hwrite, hwrite_lines, happend, happend_lines, ?_⟩
  intro hempty
  rw [happend_lines, hwrite_lines, hempty, List.nil_append]

/-- An escaped backslash, an `n`, a line break and a backslash alone, written to the third line of a
    document without lines. -/
theorem append_write_agree_three :
    ∃ d', handle_write_command document_create 3
        [backslash, backslash, letter_n, backslash, letter_n, backslash] = some d' ∧
      d'.lines = [[], [], [backslash, letter_n], []] := by
  obtain ⟨p₀, ps, -, d', hv, hrun, hlines, -⟩ :=
    append_write_agree document_create (show 0 < 3 by decide)
      [backslash, backslash, letter_n, backslash, letter_n, backslash]
  obtain ⟨rfl, rfl⟩ := List.cons.inj ((show [[backslash, letter_n], []] = _ by decide).trans hv)
  exact ⟨d', hrun, hlines⟩

end SystemProgramming.TextEditor
