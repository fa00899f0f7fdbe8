import Mathlib.Algebra.Order.Ring.Nat
import Mathlib.Data.List.DropRight
import SystemProgramming.Lib.CString
import SystemProgramming.Lib.Ctype
import SystemProgramming.Lib.Fields
import SystemProgramming.Lib.Lines
import SystemProgramming.ParMake.GraphLib

namespace SystemProgramming.ParMake

open Lib Lib.Ctype Lib.CString

/-!
# `parallel_make/parser.c` — the makefile parser

`parser_parse_makefile` reads a makefile line by line and builds the graph of the rules.  A line
is a C string: it ends at its first null.  `exit` is an exception with the status and the message;
the warnings, which change nothing, are left out.

* `strip_back_comments` — the end of a line that is a comment.
* `parse_line` — one turn of the loop over the lines.
* `parser_parse_makefile` — the parser.
-/

/-- A string without its final null. -/
abbrev Str := List UInt8

/-- `rule_t` -/
structure Rule where
  target : Str
  commands : List Str
  state : ℤ
  deriving Inhabited

def str_to_rule_constructor (s : Str) : Rule := ⟨s, [], 0⟩

/-! ### Strings -/

def split_line_on_spaces (line : Str) : List Str := (tokens (· == 32) line).filter (· ≠ [])

/-- A letter, a digit, `'.'` or `'/'` comes first. -/
def is_makefile_target : Str → Bool
  | [] => false
  | c :: _ => isalnum c || c == 46 || c == 47

def skip_whitespace (s : Str) : Str := s.dropWhile isspace

def terminate_whitespace (s : Str) : Str := s.takeWhile (! isspace ·)

def strip_back_whitespace (s : Str) : Str := s.rdropWhile isspace

/-- The loop of `in_quotes` over the characters in front of a place. -/
def in_quotes : Bool → Str → Bool
  | inQuotes, [] => inQuotes
  | inQuotes, [c] => if c = 92 then inQuotes else if c = 34 then ! inQuotes else inQuotes
  | inQuotes, c :: d :: s =>
    if c = 92 then in_quotes inQuotes s
    else in_quotes (if c = 34 then ! inQuotes else inQuotes) (d :: s)

/-- The loop of `strip_back_comments`, when `seen` is behind `comment_str`. -/
def strip_comments_from (seen rest : Str) : Str :=
  match _h : rest.dropWhile (· ≠ 35) with
  | [] => seen ++ rest
  | _ :: rest' =>
    let before := seen ++ rest.takeWhile (· ≠ 35)
    if ! in_quotes false before then before else strip_comments_from (before ++ [35]) rest'
termination_by rest.length
decreasing_by
  have hle : (rest.dropWhile (· ≠ 35)).length ≤ rest.length := (List.dropWhile_sublist _).length_le
  rw [_h, List.length_cons] at hle
  exact hle

def strip_back_comments (str : Str) : Str := strip_comments_from [] str

/-- The newline and the carriage return of a line are removed, and what is behind a null is not
    looked at. -/
def chomp (buf : Str) : Str :=
  let buf :=
    if buf.getLast? = some 10 then
      if buf.dropLast.getLast? = some 13 then buf.dropLast.dropLast else buf.dropLast
    else buf
  buf.takeWhile (· ≠ 0)

/-! ### Errors -/

structure Exit where
  status : ℕ
  message : Str

def missing_separator (makeFileName : Str) (line_number : ℕ) : Exit :=
  ⟨2, makeFileName ++ lit ":" ++ lit (toString line_number) ++
    lit ": *** missing separator.  Stop.\n"⟩

def recipe_commences (makeFileName : Str) (line_number : ℕ) : Exit :=
  ⟨2, makeFileName ++ lit ":" ++ lit (toString line_number) ++
    lit ": *** recipe commences before first target.  Stop.\n"⟩

def no_rule (status : ℕ) (goal : Str) : Exit :=
  ⟨status, lit "parmake: *** No rule to make target '" ++ goal ++ lit "'.  Stop.\n"⟩

/-- The contents of the makefile. -/
def open_makefile (files : Str → Option Str) (makefile_name : Option Str) (goals : List Str) :
    Except Exit (Str × Str) :=
  match makefile_name, goals with
  | none, [] =>
    throw ⟨2, lit "parmake: *** No targets specified and no makefile found.  Stop.\n"⟩
  | none, goal :: _ => throw (no_rule 2 goal)
  | some name, _ =>
    match files name with
    | none => throw ⟨2, lit "parmake: " ++ name ++ lit ": No such file or directory\n"⟩
    | some text => return (name, text)

/-! ### The loop over the lines -/

section
variable (lib : GraphLib Str Rule)

/-- The variables of the loop; `curr_rule` is the key of the vertex that has the rule. -/
structure State where
  graph : lib.G
  first_target : Option Str
  curr_rule : Option Str
  in_command_block : Bool
  line_number : ℕ

variable {lib}

/-- What a command does to its rule. -/
def push_command (line : Str) (line_number : ℕ) (in_command_block : Bool) (rule : Rule) : Rule :=
  let rule :=
    if in_command_block then rule
    else
      { rule with
        -- `(int)line_number`
        state := (line_number : ℤ).bmod (2 ^ 32)
        commands := if rule.state = 0 then rule.commands else [] }
  { rule with commands := rule.commands ++ [line] }

def recipe_line (makeFileName line : Str) (st : State lib) : Except Exit (State lib) :=
  match st.curr_rule with
  | none => throw (recipe_commences makeFileName st.line_number)
  | some t =>
    let rule := push_command line st.line_number st.in_command_block
      (lib.graph_get_vertex_value st.graph t)
    return { st with graph := lib.write st.graph t rule, in_command_block := true }

/-- A vertex is made for a key that has none. -/
def add_rule (g : lib.G) (s : Str) : lib.G :=
  if lib.graph_contains_vertex g s then g
  else lib.graph_set_vertex_value g s (str_to_rule_constructor s)

def add_dependency (target : Str) (g : lib.G) (dep : Str) : lib.G :=
  lib.graph_add_edge (add_rule g dep) target dep

/-- The rule of a target that is new is made before its dependencies are added. -/
def new_rule (target : Str) (dependencies : List Str) (st : State lib) : State lib :=
  let isNew := ! lib.graph_contains_vertex st.graph target
  { graph := dependencies.foldl (add_dependency target) (add_rule st.graph target)
    first_target := if isNew && st.first_target.isNone then some target else st.first_target
    curr_rule := some target
    in_command_block := false
    line_number := st.line_number }

def rule_line (makeFileName line : Str) (st : State lib) : Except Exit (State lib) :=
  match line.dropWhile (· ≠ 58) with
  | [] => throw (missing_separator makeFileName st.line_number)
  | _ :: depLine =>
    return new_rule (terminate_whitespace (line.takeWhile (· ≠ 58)))
      (split_line_on_spaces depLine) st

def parse_line (makeFileName : Str) (st : State lib) (buf : Str) : Except Exit (State lib) :=
  let st := { st with line_number := st.line_number + 1 }
  let lineBuf := strip_back_whitespace (chomp buf)
  let line := strip_back_comments (skip_whitespace lineBuf)
  if line = [] then return st
  else if lineBuf.head? = some 9 then recipe_line makeFileName line st
  else if is_makefile_target line then rule_line makeFileName line st
  else throw (missing_separator makeFileName st.line_number)

/-! ### The parser -/

/-- The graph with the sentinel. -/
def start : State lib where
  graph := lib.graph_set_vertex_value lib.graph_create [] (str_to_rule_constructor [])
  first_target := none
  curr_rule := none
  in_command_block := false
  line_number := 0

/-- The goals, or the first target. -/
def default_targets (first_target : Option Str) (goals : List Str) : Except Exit (List Str) :=
  if goals = [] then
    match first_target with
    | none => throw ⟨2, lit "parmake: *** No targets.  Stop.\n"⟩
    | some t => return [t]
  else return goals

def add_goal (g : lib.G) (goal : Str) : Except Exit lib.G :=
  if lib.graph_contains_vertex g goal then return lib.graph_add_edge g [] goal
  else throw (no_rule 1 goal)

def zero_out_states (g : lib.G) : lib.G :=
  (lib.graph_vertices g).foldl
    (fun g target => lib.write g target { lib.graph_get_vertex_value g target with state := 0 }) g

variable (lib)

def parser_parse_makefile (files : Str → Option Str) (makeFileName : Option Str)
    (goals : List Str) : Except Exit lib.G := do
  let (name, text) ← open_makefile files makeFileName goals
  let st ← (lines 10 text).foldlM (parse_line name) (start : State lib)
  let goals ← default_targets st.first_target goals
  let g ← goals.foldlM add_goal st.graph
  return zero_out_states g

end

end SystemProgramming.ParMake
