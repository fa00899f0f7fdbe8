import SystemProgramming.Lib.Ctype
import SystemProgramming.Lib.Procedure
import SystemProgramming.Shell.Split
import Mathlib.Data.Int.DivMod

namespace SystemProgramming.Shell

open Lib Lib.CString Lib.Ctype

/-!
# `shell.c` — expansion of history lines

`logic_exec` runs a command line; `exec_buildin` calls it with a line of the history for a command
`#n` or `!prefix`.  The functions are programs that call `logic_exec` as a procedure, whose
argument is the history and the line, and which returns the history.

What the outside decides is asked for: whether a system call succeeds, whether a program that ran
succeeded, and whether the input has ended.  `exit`, a failed assertion and an access that is not
defined end the shell.  What is printed, and the list of background processes, are left out.

* `logic_exec`, `exec_cmd`, `exec_buildin` — the code.
* `meets_logic_exec` — what is expanded is a line of the history, which has not become longer.
* `logic_exec_terminates_iff` — when a command line is carried out in finitely many steps.
-/

/-- The lines, the oldest one first. -/
abbrev Hist := List Str

/-- Programs that may call `logic_exec`. -/
abbrev Program := Prog (Hist × Str) Hist Bool

/-- Yes or no, from outside. -/
def outside : Program Bool := Prog.answer

/-- `exit`, `abort`, or an access that is not defined. -/
def quit {τ : Type} : Program τ := Prog.stop

/-- `vector_get`, `vector_front` and `vector_back` are defined where there is an element. -/
def element (x : Option Str) : Program Str :=
  match x with
  | some x => .ret x
  | none => quit

/-- `vector_pop_back` is defined for a vector that is not empty. -/
def pop_back (hist : Hist) : Program Hist := if hist = [] then quit else .ret hist.dropLast

/-- The conversion to an `int`. -/
def toInt (n : ℤ) : ℤ := n.bmod (2 ^ 32)

/-- `atoi` is `strtol`, which stops at the ends of `long`, converted to an `int`. -/
def atoi (s : Str) : ℤ :=
  let digits (s : Str) : ℤ := (s.takeWhile isdigit).foldl (fun n c => 10 * n + (c.toNat - 48 : ℕ)) 0
  let n := match s.dropWhile isspace with
    | 45 :: s => -digits s
    | 43 :: s => digits s
    | s => digits s
  toInt (max (-2 ^ 63) (min n (2 ^ 63 - 1)))

/-- The newest line with the prefix, from index `start` down; the last index if there is no
    prefix, and `-1` if there is no such line. -/
def find_prefix (pre : Str) (hist : Hist) (szh : ℕ) : ℤ :=
  let start := toInt (szh - 2)
  let found := (List.range (start + 1).toNat).reverse.find? fun i => pre.isPrefixOf (hist.getD i [])
  if pre.length = 0 then start else
    match found with
    | some i => i
    | none => -1

def exec_buildin (cmd : Str) (hist : Hist) : Program (ℤ × Hist) := do
  let vec := split cmd
  let sz := vec.length
  let szh := hist.length
  let front ← element vec.head?
  if front = lit "cd" then
    if sz ≠ 2 then return (1, hist)
    else return (if ← outside then 0 else 1, hist)
  else if front = lit "!history" then
    let hist ← pop_back hist
    return (0, hist)
  else if sz = 1 ∧ front.head? = some 35 then
    let hist ← pop_back hist
    let num := atoi (front.drop 1)
    if num < 0 then quit
    else if szh - 1 ≤ num.toNat then return (0, hist)
    else
      let mystr ← element hist[num.toNat]?
      return (0, ← Prog.recurse (hist, mystr))
  else if cmd.head? = some 33 then
    let hist ← pop_back hist
    let idx := find_prefix (cmd.drop 1) hist szh
    if -1 < idx then
      let mystr ← element hist[idx.toNat]?
      return (0, ← Prog.recurse (hist, mystr))
    else return (0, hist)
  else if front = lit "ps" then return (0, hist)
  else if front = lit "kill" ∨ front = lit "stop" ∨ front = lit "cont" then
    if sz ≠ 2 then return (1, hist)
    else return (if ← outside then 0 else 1, hist)
  else return (2, hist)

/-- In an empty last argument the byte in front of it is looked at. -/
def is_backgrounding (v : List Str) : Program Bool := do
  let last ← element v.getLast?
  if last = [] then outside
  else return last.head? = some 38 || last.getLast? = some 38

/-- The line is pushed on the history, and popped again when it is a part of a line. -/
def push (cmd : Str) (hist : Hist) (logic : Bool) : Program Hist :=
  if logic then pop_back (hist ++ [cmd]) else return hist ++ [cmd]

/-- The external command, which runs in a process of its own. -/
def exec_external (cmd : Str) (hist : Hist) : Program (ℤ × Hist) := do
  let bck ← is_backgrounding (split cmd)
  -- `fork`
  if ! (← outside) then quit
  -- `setpgid` or `waitpid`
  else if ! (← outside) then quit
  else if bck then return (0, hist)
  else return (if ← outside then 0 else 1, hist)

def exec_cmd (cmd : Str) (hist : Hist) (logic : Bool) : Program (ℤ × Hist) := do
  if cmd.length = 0 then return (1, hist)
  else
    let front ← element (split cmd).head?
    if front = lit "exit" then quit
    -- `feof(stdin)`
    else if ← outside then quit
    else
      let hist ← push cmd hist logic
      let (flag, hist) ← exec_buildin cmd hist
      if flag = 0 then return (0, hist)
      else if flag = 1 then return (1, hist)
      else exec_external cmd hist

/-- The body of `logic_exec`. -/
def logic_exec : Hist × Str → Program Hist
  | (hist, command) => do
    match process_logical_operation command with
    | some logicv =>
      let hist := hist ++ [command]
      let log ← element logicv.head?
      let cmd1 ← element logicv[1]?
      let cmd2 ← element logicv[2]?
      let (success, hist) ← exec_cmd cmd1 hist true
      if log = lit "&&" then
        if success = 0 then return (← exec_cmd cmd2 hist true).2 else return hist
      else if log = lit "||" then
        if success ≠ 0 then return (← exec_cmd cmd2 hist true).2 else return hist
      else return (← exec_cmd cmd2 hist true).2
    | none => return (← exec_cmd command hist false).2

/-! ### What is expanded -/

section
variable {pre : Hist × Str → Prop} {bound : Hist}

/-- What `logic_exec` leaves is, but for its last line, what it got or the beginning of it. -/
def post (x : Hist × Str) (r : Hist) : Prop := r.dropLast <+: x.1

theorem meets_element (x : Option Str) : (element x).Meets pre post fun line => x = some line := by
  cases x with
  | none => trivial
  | some line => exact rfl

theorem meets_outside : outside.Meets pre post fun _ => True := fun _ => trivial

theorem meets_pop_back (hist : Hist) : (pop_back hist).Meets pre post (· = hist.dropLast) := by
  rw [pop_back]
  split
  · trivial
  · exact rfl

theorem meets_return {τ : Type} {Q : τ → Prop} {r : τ} (h : Q r) :
    (return r : Program τ).Meets pre post Q := h

/-- A line that is looked up is expanded with the history it was found in. -/
theorem meets_expand {hist : Hist} {i : ℕ} (hpre : ∀ x, x.1 <+: bound → x.2 ∈ bound → pre x)
    (hle : hist <+: bound) :
    (do
      let mystr ← element hist[i]?
      return ((0 : ℤ), ← Prog.recurse (hist, mystr)) : Program (ℤ × Hist)).Meets pre post
        fun r => r.2.dropLast <+: bound := by
  refine (meets_element _).bind fun mystr hmystr => ⟨?_, fun r hr => ?_⟩
  · exact hpre _ hle (hle.subset (List.mem_of_getElem? hmystr))
  · exact hr.trans hle

theorem meets_exec_buildin {hist : Hist} (cmd : Str)
    (hpre : ∀ x, x.1 <+: bound → x.2 ∈ bound → pre x) (hle : hist.dropLast <+: bound) :
    (exec_buildin cmd hist).Meets pre post fun r => r.2.dropLast <+: bound := by
  have hpop : hist.dropLast.dropLast <+: bound := (List.dropLast_prefix _).trans hle
  refine (meets_element _).bind fun front _ => ?_
  split_ifs
  · exact hle
  · exact meets_outside.bind fun _ _ => hle
  · exact (meets_pop_back hist).bind fun _ h => h ▸ hpop
  · refine (meets_pop_back hist).bind fun _ h => ?_
    subst h
    dsimp only
    split_ifs
    · trivial
    · exact hpop
    · exact meets_expand hpre hle
  · refine (meets_pop_back hist).bind fun _ h => ?_
    subst h
    dsimp only
    split_ifs
    · exact meets_expand hpre hle
    · exact hpop
  · exact hle
  · exact hle
  · exact meets_outside.bind fun _ _ => hle
  · exact hle

theorem meets_is_backgrounding (v : List Str) :
    (is_backgrounding v).Meets pre post fun _ => True := by
  refine (meets_element _).bind fun last _ => ?_
  split_ifs
  · exact meets_outside
  · trivial

theorem meets_exec_external {hist : Hist} (cmd : Str) (hle : hist.dropLast <+: bound) :
    (exec_external cmd hist).Meets pre post fun r => r.2.dropLast <+: bound := by
  refine (meets_is_backgrounding _).bind fun bck _ => ?_
  refine meets_outside.bind fun forked _ => ?_
  split
  · trivial
  · refine meets_outside.bind fun waited _ => ?_
    split_ifs
    · trivial
    · exact hle
    · exact meets_outside.bind fun _ _ => hle

/-- A line by itself is pushed on the history, a part of a line is not. -/
theorem meets_push {hist : Hist} {logic : Bool} (cmd : Str)
    (hle : (if logic then hist.dropLast else hist) <+: bound) :
    (push cmd hist logic).Meets pre post (·.dropLast <+: bound) := by
  cases logic with
  | false => exact meets_return (List.dropLast_concat ▸ hle)
  | true =>
    refine (meets_pop_back _).mono fun r hr => ?_
    rw [hr, List.dropLast_concat]
    exact hle

theorem meets_exec_cmd {hist : Hist} {logic : Bool} (cmd : Str)
    (hpre : ∀ x, x.1 <+: bound → x.2 ∈ bound → pre x)
    (hle : (if logic then hist.dropLast else hist) <+: bound) :
    (exec_cmd cmd hist logic).Meets pre post fun r => r.2.dropLast <+: bound := by
  have hdrop : hist.dropLast <+: bound := by
    cases logic with
    | false => exact (List.dropLast_prefix _).trans hle
    | true => exact hle
  rw [exec_cmd]
  split_ifs
  · exact hdrop
  · refine (meets_element _).bind fun front _ => ?_
    split_ifs
    · trivial
    · refine meets_outside.bind fun eof _ => ?_
      split_ifs
      · trivial
      · refine (meets_push cmd hle).bind fun hist hle => ?_
        refine (meets_exec_buildin cmd hpre hle).bind fun r hr => ?_
        obtain ⟨flag, hist⟩ := r
        dsimp only
        split_ifs
        · exact hr
        · exact hr
        · exact meets_exec_external cmd hr

/-- What a line expands is a line of its history, with the history or the beginning of it. -/
theorem meets_logic_exec (x : Hist × Str) (hpre : ∀ y, y.1 <+: x.1 → y.2 ∈ x.1 → pre y) :
    (logic_exec x).Meets pre post (post x) := by
  obtain ⟨hist, command⟩ := x
  have hpart : ∀ cmd {hist' : Hist}, hist'.dropLast <+: hist →
      (exec_cmd cmd hist' true).Meets pre post fun r => r.2.dropLast <+: hist :=
    fun cmd _ h => meets_exec_cmd cmd hpre h
  rw [logic_exec]
  split
  · refine (meets_element _).bind fun log _ => (meets_element _).bind fun cmd1 _ =>
      (meets_element _).bind fun cmd2 _ => ?_
    have hpush : (hist ++ [command]).dropLast <+: hist := by
      rw [List.dropLast_concat]
    refine (hpart cmd1 hpush).bind fun r hr => ?_
    obtain ⟨success, hist'⟩ := r
    dsimp only
    split_ifs
    · exact (hpart cmd2 hr).bind fun _ h => h
    · exact hr
    · exact (hpart cmd2 hr).bind fun _ h => h
    · exact hr
    · exact (hpart cmd2 hr).bind fun _ h => h
  · refine (meets_exec_cmd command hpre ?_).bind fun _ h => h
    exact List.prefix_refl _

end

/-! ### Termination -/

/-- The lines and histories that a call may come to. -/
def Reachable (x y : Hist × Str) : Prop := y = x ∨ y.1 <+: x.1 ∧ y.2 ∈ x.1

theorem Reachable.expand {x y z : Hist × Str} (h : Reachable x y) (hle : z.1 <+: y.1)
    (hmem : z.2 ∈ y.1) : Reachable x z := by
  rcases h with rfl | ⟨h, -⟩
  · exact .inr ⟨hle, hmem⟩
  · exact .inr ⟨hle.trans h, h.subset hmem⟩

theorem finite_reachable (x : Hist × Str) : {y | Reachable x y}.Finite := by
  refine ((x :: x.1.inits ×ˢ x.1).finite_toSet).subset fun y hy => ?_
  rcases hy with rfl | ⟨hle, hmem⟩
  · exact List.mem_cons_self
  · exact List.mem_cons_of_mem _ (List.mem_product.mpr ⟨(List.mem_inits _ _).mpr hle, hmem⟩)

/-- **Termination.**  A run in which no expansion comes to a line that is being expanded, with the
    history it was expanded with, has an end; all runs have one just when this holds of all. -/
theorem logic_exec_terminates_iff (hist : Hist) (command : Str) :
    (¬ ∃ run, Prog.Endless logic_exec (hist, command) run ∧ ∀ n, Prog.Fresh (run n)) ∧
      (Prog.Terminates logic_exec (hist, command) ↔
        ¬ Prog.Reenters logic_exec (hist, command)) := by
  have hbody : ∀ x, Reachable (hist, command) x →
      (logic_exec x).Meets (Reachable (hist, command)) post (post x) :=
    fun x hx => meets_logic_exec x fun _ => hx.expand
  have hdom : ∀ y k fs, Relation.ReflTransGen (Prog.Step logic_exec)
      (Prog.start (hist, command)) (.call y k, fs) → Reachable (hist, command) y :=
    fun y k fs => Prog.pre_of_reach hbody (.inl rfl)
  exact ⟨Prog.not_endless_of_fresh (finite_reachable _) hdom,
    Prog.terminates_iff (finite_reachable _) hdom⟩

/-- The line `#0`, when it is the oldest of the history, is expanded to itself. -/
theorem logic_exec_zero : ∃ k, logic_exec ([lit "#0"], lit "#0") =
    .ask fun eof => if eof then .stop else .call ([lit "#0"], lit "#0") k := by
  have hsplit : split (lit "#0") = [lit "#0"] :=
    ((split_eq_iff _).mpr (by rw [Apart]; decide)).trans (by decide)
  have hnone : process_logical_operation (lit "#0") = none := by
    rw [process_logical_operation, show operator (lit "#0") = none by decide]
    rfl
  refine ⟨?_, ?_⟩
  rotate_left
  · rw [logic_exec, hnone]
    dsimp only
    rw [exec_cmd, if_neg (by decide), hsplit]
    change Prog.ask _ = Prog.ask _
    congr 1
    ext eof
    cases eof with
    | true => rfl
    | false =>
      change Prog.bind (Prog.bind (exec_buildin _ _) _) _ = _
      rw [exec_buildin, hsplit]
      rfl

theorem reenters_zero : Prog.Reenters logic_exec ([lit "#0"], lit "#0") := by
  obtain ⟨k, hk⟩ := logic_exec_zero
  let x : Hist × Str := ([lit "#0"], lit "#0")
  have hcall : Prog.Step logic_exec (Prog.start x) (logic_exec x, [⟨x, .ret⟩]) := .call x .ret []
  rw [hk] at hcall
  refine ⟨(.call x k, [⟨x, .ret⟩]), .tail (.single hcall) (.ask _ false _), fun hfresh => ?_⟩
  exact hfresh x k rfl (List.mem_singleton_self x)

theorem not_terminates : ¬ Prog.Terminates logic_exec ([lit "#0"], lit "#0") :=
  Prog.not_terminates_of_reenters reenters_zero

end SystemProgramming.Shell
