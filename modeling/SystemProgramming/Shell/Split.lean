import SystemProgramming.Lib.CString
import SystemProgramming.Lib.Fields

namespace SystemProgramming.Shell

open Lib Lib.CString

/-!
# `shell.c` — how a command line is taken apart

Both functions push every field that `strsep` finds on a vector, and then erase the empty ones
from it in a loop over the index, which does not look again at an index where it has erased.

* `split`, `process_logical_operation` — the code.
* `erase_empty_eq_filter_iff` — when the loop leaves no empty field.
* `tokenised_iff` — for which lines the functions return what they should.
-/

/-- A string without its final null. -/
abbrev Str := List UInt8

/-- `' '` -/
def blank : UInt8 := 32

/-- The loop that erases empty strings, from index `i` on. -/
def erase_empty (v : List Str) (i : ℕ) : List Str :=
  if h : i < v.length then erase_empty (if v[i] = [] then v.eraseIdx i else v) (i + 1) else v
termination_by v.length - i
decreasing_by
  split
  · have hle := List.length_eraseIdx_le v i
    omega
  · omega

def split (cmd : Str) : List Str := erase_empty (fields (· == blank) cmd) 0

inductive Operator
  | or
  | and
  | seq
  deriving DecidableEq

/-- The string that `strstr` and `strsep` are called with. -/
def Operator.str : Operator → Str
  | or => lit "||"
  | and => lit "&&"
  | seq => lit ";"

/-- The tests of `process_logical_operation`, in their order. -/
def operator (input : Str) : Option Operator :=
  if Operator.or.str <:+: input then some .or
  else if Operator.and.str <:+: input then some .and
  else if Operator.seq.str <:+: input then some .seq
  else none

def process_logical_operation (input : Str) : Option (List Str) :=
  (operator input).map fun op =>
    erase_empty (op.str :: fields (op.str.contains ·) input) 0

/-! ### The loop that erases -/

/-- What the loop leaves: behind an empty string, the next one stays whatever it is. -/
def erased : List Str → List Str
  | [] => []
  | [] :: [] => []
  | [] :: g :: fs => g :: erased fs
  | (c :: f) :: fs => (c :: f) :: erased fs

theorem erase_empty_append (pre fs : List Str) :
    erase_empty (pre ++ fs) pre.length = pre ++ erased fs := by
  induction fs using erased.induct generalizing pre with
  | case1 => rw [erase_empty, dif_neg (by simp), erased]
  | case2 =>
    have herase : (pre ++ [[]]).eraseIdx pre.length = pre := by
      simp [List.eraseIdx_append_of_length_le]
    rw [erase_empty, dif_pos (by simp), if_pos (by simp), herase, erase_empty,
      dif_neg (by omega), erased, List.append_nil]
  | case3 g fs ih =>
    rw [erase_empty, dif_pos (by simp), if_pos (by simp), erased]
    have herase : (pre ++ [] :: g :: fs).eraseIdx pre.length = (pre ++ [g]) ++ fs := by
      simp [List.eraseIdx_append_of_length_le]
    have ih := ih (pre ++ [g])
    rw [List.length_append, List.length_singleton] at ih
    rw [herase, ih, List.append_assoc, List.singleton_append]
  | case4 c f fs ih =>
    rw [erase_empty, dif_pos (by simp), if_neg (by simp), erased]
    have ih := ih (pre ++ [c :: f])
    rw [List.length_append, List.length_singleton, List.append_assoc,
      List.singleton_append] at ih
    rw [ih, List.append_assoc, List.singleton_append]

theorem erase_empty_eq (fs : List Str) : erase_empty fs 0 = erased fs := erase_empty_append [] fs

theorem filter_erased (fs : List Str) : (erased fs).filter (· ≠ []) = fs.filter (· ≠ []) := by
  induction fs using erased.induct with
  | case1 => rfl
  | case2 => rfl
  | case3 g fs ih =>
    rw [erased, List.filter_cons, ih, List.filter_cons_of_neg (by simp), List.filter_cons]
  | case4 c f fs ih =>
    rw [erased, List.filter_cons_of_pos (by simp), ih, List.filter_cons_of_pos (by simp)]

/-- An empty string stays where there were two next to each other. -/
theorem nil_mem_erased (fs : List Str) : [] ∈ erased fs ↔ [[], []] <:+: fs := by
  induction fs using erased.induct with
  | case1 => simp [erased]
  | case2 => simp [erased, List.infix_cons_iff]
  | case3 g fs ih =>
    rw [erased, List.mem_cons, ih, List.infix_cons_iff, List.infix_cons_iff, List.cons_prefix_cons,
      List.cons_prefix_cons, List.cons_prefix_cons]
    simp only [List.nil_prefix, true_and, and_true]
    constructor
    · exact fun h => h.imp_right .inr
    · rintro (h | ⟨h, -⟩ | h)
      · exact .inl h
      · exact .inl h
      · exact .inr h
  | case4 c f fs ih =>
    rw [erased, List.mem_cons, ih, List.infix_cons_iff, List.cons_prefix_cons]
    simp

/-- The loop erases all of them just when no two are next to each other. -/
theorem erase_empty_eq_filter_iff (fs : List Str) :
    erase_empty fs 0 = fs.filter (· ≠ []) ↔ ¬ [[], []] <:+: fs := by
  rw [erase_empty_eq, ← filter_erased, ← nil_mem_erased, eq_comm, List.filter_eq_self]
  constructor
  · intro h hmem
    simpa using h [] hmem
  · intro h f hf
    have hne : f ≠ [] := fun hf' => h (hf' ▸ hf)
    simpa using hne

/-! ### The tokens -/

/-- `"|"`, `"&"` and `";"`: the characters at which a line is taken apart. -/
def Operator.char : Operator → UInt8
  | or => 124
  | and => 38
  | seq => 59

/-- The maximal runs of characters other than `d`. -/
def pieces (d : UInt8) (s : Str) : List Str := (s.splitOn d).filter (· ≠ [])

/-- There are no three separators in a row, no two at an end, and the line is not just one. -/
def Apart (d : UInt8) (s : Str) : Prop := ¬ [d, d, d] <:+: d :: s ++ [d]

/-- Both functions return the pieces, and no empty string. -/
def Tokenised (cmd : Str) : Prop :=
  split cmd = pieces blank cmd ∧ ∀ op, operator cmd = some op →
    process_logical_operation cmd = some (op.str :: pieces op.char cmd)

theorem apart_iff (d : UInt8) (s : Str) : Apart d s ↔ ¬ [[], []] <:+: s.splitOn d :=
  not_congr (replicate_nil_infix_iff d s 2).symm

theorem contains_str (op : Operator) : (op.str.contains ·) = (· == op.char) := by
  funext c
  rw [Bool.eq_iff_iff]
  cases op <;> simp [Operator.str, Operator.char, lit]

theorem split_eq_iff (cmd : Str) : split cmd = pieces blank cmd ↔ Apart blank cmd := by
  rw [split, pieces, apart_iff, fields_eq, ← List.splitOn_eq_splitOnP]
  exact erase_empty_eq_filter_iff _

theorem process_logical_operation_eq_iff {cmd : Str} {op : Operator} (h : operator cmd = some op) :
    process_logical_operation cmd = some (op.str :: pieces op.char cmd) ↔ Apart op.char cmd := by
  have hstr : ∃ c f, op.str = c :: f := by cases op <;> exact ⟨_, _, rfl⟩
  obtain ⟨c, f, hstr⟩ := hstr
  rw [process_logical_operation, h, Option.map_some, fields_eq, contains_str,
    ← List.splitOn_eq_splitOnP, Option.some.injEq, apart_iff, ← erase_empty_eq_filter_iff,
    erase_empty_eq, erase_empty_eq, hstr, erased, List.cons.injEq]
  exact and_iff_right rfl

/-- **The tokens** are right just when the separators stand apart. -/
theorem tokenised_iff (cmd : Str) :
    Tokenised cmd ↔ Apart blank cmd ∧ ∀ op, operator cmd = some op → Apart op.char cmd := by
  rw [Tokenised, split_eq_iff]
  refine and_congr_right fun _ => forall₂_congr fun op h => ?_
  exact process_logical_operation_eq_iff h

/-- An argument that is empty, and a command that is. -/
theorem not_tokenised : ¬ Tokenised (lit "a   b") ∧ ¬ Tokenised (lit "a|||| b") := by
  constructor
  · intro h
    exact (split_eq_iff _).mp h.1 (by decide)
  · intro h
    have hop : operator (lit "a|||| b") = some .or := by decide
    exact (process_logical_operation_eq_iff hop).mp (h.2 .or hop) (by decide)

end SystemProgramming.Shell
