import Mathlib.Data.List.GetD
import SystemProgramming.Lib.CString
import SystemProgramming.Lib.Ctype
import SystemProgramming.Lib.Fields
import SystemProgramming.MapReduce.Reducer

namespace SystemProgramming.UtilitiesUnleashed

open Lib Lib.CString Lib.Ctype
open MapReduce (atoi decimal)

/-!
# `utilities_unleashed/env.c`

A command is run a number of times, each time with the next values of the variables that are
given.  `strtok` divides the arguments where they are, so that of a list of values its beginning is
left, up to the end of the first one.  The functions of `format.c` that report an error do not
return, and `fork` does not fail.

* `parse` — the arguments, as the loops of `main` take them apart.
* `main` — the environments of the runs, one after the other, and the exit status.
* `Command` — a command line by its parts, with its text and its meaning.
* `main_render` — `main` does what a command line means.
* `main_safe` — what holds for every command line that is not rejected.
-/

abbrev Str := List UInt8

abbrev Environment := Str → Option Str

def equals : UInt8 := 61

def comma : UInt8 := 44

def percent : UInt8 := 37

/-! ### The arguments -/

inductive Stop
  /-- `print_env_usage()` -/
  | usage
  /-- an array of negative size -/
  | undefined
  deriving DecidableEq

/-- A letter, a digit or an underscore. -/
def wordChar (c : UInt8) : Bool := isalpha c || isdigit c || c == 95

/-- The name and the values of an argument; what is behind a second `=` is dropped. -/
def parse_variable (arg : Str) : Option (Str × Str) := do
  let (name, rest) ← strtok (· = equals) arg
  if name.all wordChar then
    let (vars, _) ← strtok (· = equals) rest
    some (name, vars)
  else none

/-- A value that is used. -/
def validToken (token : Str) : Bool :=
  (if token.head? = some percent then token.tail else token).all wordChar

/-- The loop over at most `num` tokens. -/
def parse_tokens : ℕ → Option (Str × Str) → Option (List Str)
  | 0, _ => some []
  | _ + 1, none => some []
  | num + 1, some (token, rest) =>
    if validToken token then
      (parse_tokens num (strtok (· = comma) rest)).map (token :: ·)
    else none

/-- The string at `vars` when `strtok` has cut it: a comma in front of the first token is left. -/
def cut (vars : Str) : Str :=
  vars.takeWhile (· = comma) ++ (vars.dropWhile (· = comma)).takeWhile (· ≠ comma)

/-- The row of `var` for one variable. -/
def parse_values (num : ℕ) (vars : Str) : Option (List Str) :=
  (parse_tokens num (strtok (· = comma) vars)).map fun tokens =>
    tokens ++ List.replicate (num - tokens.length) (cut vars)

structure Plan where
  num : ℕ
  /-- `names[j]` and `var[j]` -/
  vars : List (Str × List Str)
  /-- `argv + split + 1` -/
  command : List Str

/-- `main`, until it forks. -/
def parse (argv : List Str) : Except Stop Plan :=
  if argv.length < 3 then .error .usage
  else
    let split := argv.findIdx (· = lit "--")
    if split = 0 ∨ argv.length ≤ split + 1 then .error .usage
    else
      let (f, num) : ℕ × ℤ :=
        if argv.getD 1 [] = lit "-n" then (3, atoi (argv.getD 2 [])) else (1, 1)
      if split < f ∨ num < 0 ∨ 2 ^ 31 ≤ num then .error .undefined
      else
        match ((argv.take split).drop f).mapM parse_variable with
        | none => .error .usage
        | some args =>
          match args.mapM fun p => (parse_values num.toNat p.2).map (p.1, ·) with
          | none => .error .usage
          | some vars => .ok ⟨num.toNat, vars, argv.drop (split + 1)⟩

/-! ### The runs -/

/-- The value of the last of the variables before this one that has the name. -/
def lookup (before : List (Str × Str)) (name : Str) : Str :=
  before.foldl (fun value p => if name = p.1 then p.2 else value) []

/-- `var[j][i]` when a reference was replaced. -/
def resolve (before : List (Str × Str)) (value : Str) : Str :=
  match value.dropWhile (· ≠ percent) with
  | [] => value
  | _ :: target => lookup before target

/-- `setenv(name, value, 1)`; a name that is empty or has a `=` is not one. -/
def setenv (env : Environment) (name value : Str) : Option Environment :=
  if name = [] ∨ equals ∈ name then none else some (Function.update env name (some value))

/-- The loop of child `i`; `none` is `print_environment_change_failed()`. -/
def set_variables (i : ℕ) : List (Str × List Str) → List (Str × Str) → Environment →
    Option Environment
  | [], _, env => some env
  | (name, values) :: vars, before, env =>
    let value := resolve before (values.getD i [])
    (setenv env name value).bind (set_variables i vars (before ++ [(name, value)]))

/-- The loop of the parent; `failed i` says that child `i` exits with a status that is not 0. -/
def fork_loop {α : Type*} (child : ℕ → α) (failed : ℕ → Bool) : List ℕ → List α × ℕ
  | [] => ([], 0)
  | i :: is =>
    if failed i then ([child i], 1)
    else ((child i) :: (fork_loop child failed is).1, (fork_loop child failed is).2)

structure Result where
  /-- the environments in which the command is run -/
  children : List (Option Environment)
  command : List Str
  status : ℕ

def main (argv : List Str) (env : Environment) (failed : ℕ → Bool) : Except Stop Result :=
  match parse argv with
  | .error e => .error e
  | .ok plan =>
    let (children, status) :=
      fork_loop (fun i => set_variables i plan.vars [] env) failed (List.range plan.num)
    .ok ⟨children, plan.command, status⟩

/-! ### Command lines -/

inductive Value
  | word (s : Str)
  /-- `%NAME` -/
  | ref (name : Str)

/-- A command line by its parts. -/
structure Command where
  /-- the number after `-n`, if there is one -/
  count : Option ℕ
  vars : List (Str × List Value)
  command : List Str

def Value.render : Value → Str
  | word s => s
  | ref name => percent :: name

def renderVariable (p : Str × List Value) : Str :=
  p.1 ++ equals :: [comma].intercalate (p.2.map Value.render)

/-- The text of a command line. -/
def Command.render (c : Command) (program : Str) : List Str :=
  program :: ((c.count.elim [] fun n => [lit "-n", decimal n]) ++ c.vars.map renderVariable) ++
    lit "--" :: c.command

/-- A value means itself, or what the variable has been set to. -/
def Value.eval (set : List Str) (env : Environment) : Value → Str
  | word s => s
  | ref name => if set.any (· = name) then (env name).getD [] else []

/-- Run `i` takes value `i` of each variable, or the first one if it has fewer. -/
def evalVariables (i : ℕ) : List (Str × List Value) → List Str → Environment → Environment
  | [], _, env => env
  | (name, values) :: vars, set, env =>
    let value := values.getD i (values.headD (.word []))
    evalVariables i vars (name :: set) (Function.update env name (some (value.eval set env)))

def Value.Valid : Value → Prop
  | word s => s ≠ [] ∧ s.all wordChar
  | ref name => name.all wordChar

instance : (v : Value) → Decidable v.Valid
  | .word s => inferInstanceAs (Decidable (s ≠ [] ∧ s.all wordChar))
  | .ref name => inferInstanceAs (Decidable (name.all wordChar))

structure Command.Valid (c : Command) : Prop where
  count : ∀ n, c.count = some n → n < 2 ^ 31
  names : ∀ p ∈ c.vars, p.1 ≠ [] ∧ p.1.all wordChar
  values : ∀ p ∈ c.vars, p.2 ≠ [] ∧ ∀ v ∈ p.2, v.Valid
  command : c.command ≠ []

variable {c : Command} {env env' : Environment} {failed : ℕ → Bool} {name value arg : Str}
  {values : List Value} {ws : List Str} {set : List Str} {before : List (Str × Str)} {i num : ℕ}

/-! ### Characters -/

theorem wordChar_ne {x : UInt8} (h : wordChar x = true) : x ≠ equals ∧ x ≠ comma ∧ x ≠ percent := by
  refine ⟨?_, ?_, ?_⟩ <;> rintro rfl <;> exact absurd h (by decide)

theorem notMem_word (h : value.all wordChar = true) :
    equals ∉ value ∧ comma ∉ value ∧ percent ∉ value := by
  rw [List.all_eq_true] at h
  exact ⟨fun hmem => (wordChar_ne (h _ hmem)).1 rfl, fun hmem => (wordChar_ne (h _ hmem)).2.1 rfl,
    fun hmem => (wordChar_ne (h _ hmem)).2.2 rfl⟩

/-- Characters that are no separator. -/
theorem ne_of_notMem {d : UInt8} (h : d ∉ value) : ∀ x ∈ value, decide (x = d) = false := by
  intro x hx
  rw [decide_eq_false_iff_not]
  rintro rfl
  exact h hx

/-- What a value is rendered to is one token. -/
theorem Value.Valid.token {v : Value} (h : v.Valid) :
    v.render ≠ [] ∧ comma ∉ v.render ∧ equals ∉ v.render ∧ validToken v.render = true := by
  cases v with
  | word s =>
    obtain ⟨hne, hall⟩ := h
    obtain ⟨heq, hcomma, hpercent⟩ := notMem_word hall
    refine ⟨hne, hcomma, heq, ?_⟩
    have hhead : s.head? ≠ some percent := fun hs => hpercent (List.mem_of_head? hs)
    rw [validToken, Value.render, if_neg hhead]
    exact hall
  | ref name =>
    obtain ⟨heq, hcomma, -⟩ := notMem_word h
    refine ⟨List.cons_ne_nil _ _, ?_, ?_, h⟩
    · exact List.not_mem_cons_of_ne_of_not_mem (by decide) hcomma
    · exact List.not_mem_cons_of_ne_of_not_mem (by decide) heq

/-! ### Taking an argument apart -/

/-- A list of values begins with the first one, and a comma comes behind it. -/
theorem intercalate_cons (w : Str) (ws : List Str) :
    [comma].intercalate (w :: ws) =
      w ++ if ws = [] then [] else comma :: [comma].intercalate ws := by
  cases ws with
  | nil => simp
  | cons w' ws =>
    rw [List.intercalate_cons_cons, if_neg (List.cons_ne_nil _ _), List.append_assoc]
    rfl

theorem notMem_intercalate {d : UInt8} (hd : d ≠ comma) (hws : ∀ w ∈ ws, d ∉ w) :
    d ∉ [comma].intercalate ws := by
  induction ws with
  | nil => simp
  | cons w ws ih =>
    have hrest := ih fun w hw => hws w (List.mem_cons_of_mem _ hw)
    rw [intercalate_cons, List.mem_append, not_or]
    refine ⟨hws w List.mem_cons_self, ?_⟩
    split
    · exact List.not_mem_nil
    · exact List.not_mem_cons_of_ne_of_not_mem hd hrest

/-- The tokens of a list of values. -/
theorem strtok_values {w : Str} (hne : w ≠ []) (hw : comma ∉ w) (ws : List Str) :
    strtok (· = comma) ([comma].intercalate (w :: ws)) = some (w, [comma].intercalate ws) := by
  rw [intercalate_cons]
  split
  · rename_i hnil
    rw [hnil, List.append_nil, strtok_self hne (ne_of_notMem hw)]
    rfl
  · exact strtok_append hne (ne_of_notMem hw) (by decide) _

theorem parse_tokens_values (num : ℕ)
    (hws : ∀ w ∈ ws, w ≠ [] ∧ comma ∉ w ∧ validToken w = true) :
    parse_tokens num (strtok (· = comma) ([comma].intercalate ws)) = some (ws.take num) := by
  induction num generalizing ws with
  | zero => rfl
  | succ num ih =>
    cases ws with
    | nil => rfl
    | cons w ws =>
      obtain ⟨hne, hw, hvalid⟩ := hws w List.mem_cons_self
      rw [strtok_values hne hw, parse_tokens, if_pos hvalid,
        ih fun w hw => hws w (List.mem_cons_of_mem _ hw)]
      rfl

/-- What is left in front of the first comma. -/
theorem cut_values {w : Str} (hne : w ≠ []) (hw : comma ∉ w) (ws : List Str) :
    cut ([comma].intercalate (w :: ws)) = w := by
  obtain ⟨x, w, rfl⟩ := List.exists_cons_of_ne_nil hne
  have hx : x ≠ comma := fun h => hw (h ▸ List.mem_cons_self)
  have hall : ∀ y ∈ w, y ≠ comma := fun y hy h => hw (h ▸ List.mem_cons_of_mem _ hy)
  rw [intercalate_cons, cut]
  split
  · simpa [hx, List.takeWhile_eq_self_iff] using hall
  · rw [List.cons_append, List.takeWhile_cons_of_neg (by simp [hx]),
      List.dropWhile_cons_of_neg (by simp [hx]), List.nil_append, ← List.cons_append,
      List.takeWhile_append_of_pos (by simpa [hx] using hall), List.takeWhile_cons_of_neg (by simp),
      List.append_nil]

/-- **The row of a variable**: value `i`, or the first one. -/
theorem parse_values_render (num : ℕ) (hne : values ≠ []) (hvalid : ∀ v ∈ values, v.Valid) :
    ∃ row, parse_values num ([comma].intercalate (values.map Value.render)) = some row ∧
      ∀ i < num, row.getD i [] = (values.getD i (values.headD (.word []))).render := by
  have hws : ∀ w ∈ values.map Value.render, w ≠ [] ∧ comma ∉ w ∧ validToken w = true := by
    intro w hw
    obtain ⟨v, hv, rfl⟩ := List.mem_map.mp hw
    have htoken := (hvalid v hv).token
    exact ⟨htoken.1, htoken.2.1, htoken.2.2.2⟩
  rw [parse_values, parse_tokens_values num hws]
  refine ⟨_, rfl, fun i hi => ?_⟩
  obtain ⟨v, values, rfl⟩ := List.exists_cons_of_ne_nil hne
  have hv := (hvalid v List.mem_cons_self).token
  rw [List.map_cons, cut_values hv.1 hv.2.1, ← List.map_cons, List.headD_cons]
  by_cases hlt : i < (v :: values).length
  · -- the value is one of the tokens
    have hlen : i < (((v :: values).map Value.render).take num).length := by
      rw [List.length_take, List.length_map]
      omega
    rw [List.getD_append _ _ _ _ hlen, List.getD_eq_getElem _ _ hlen, List.getElem_take,
      List.getElem_map, List.getD_eq_getElem _ _ hlt]
  · -- the row is filled up with the first one
    have hlen : (((v :: values).map Value.render).take num).length = (v :: values).length := by
      rw [List.length_take, List.length_map]
      omega
    rw [List.getD_append_right _ _ _ _ (by omega), hlen,
      List.getD_eq_getElem _ _ (by rw [List.length_replicate]; omega), List.getElem_replicate,
      List.getD_eq_default _ _ (by omega)]

theorem parse_variable_render {p : Str × List Value} (hname : p.1 ≠ [] ∧ p.1.all wordChar)
    (hne : p.2 ≠ []) (hvalid : ∀ v ∈ p.2, v.Valid) :
    parse_variable (renderVariable p) =
      some (p.1, [comma].intercalate (p.2.map Value.render)) := by
  have heq := (notMem_word hname.2).1
  have hvalues : equals ∉ [comma].intercalate (p.2.map Value.render) := by
    refine notMem_intercalate (by decide) fun w hw => ?_
    obtain ⟨v, hv, rfl⟩ := List.mem_map.mp hw
    exact (hvalid v hv).token.2.2.1
  have hsome : [comma].intercalate (p.2.map Value.render) ≠ [] := by
    obtain ⟨v, values, hvs⟩ := List.exists_cons_of_ne_nil hne
    have hv := (hvalid v (hvs ▸ List.mem_cons_self)).token
    rw [hvs, List.map_cons, intercalate_cons]
    exact List.append_ne_nil_of_left_ne_nil hv.1 _
  rw [parse_variable, renderVariable, strtok_append hname.1 (ne_of_notMem heq) (by decide)]
  show (if p.1.all wordChar = true then _ else none) = _
  rw [if_pos hname.2, strtok_self hsome (ne_of_notMem hvalues)]
  rfl

theorem mapM_eq_some {α β : Type*} {f : α → Option β} {g : α → β} {l : List α}
    (h : ∀ x ∈ l, f x = some (g x)) : l.mapM f = some (l.map g) := by
  induction l with
  | nil => rfl
  | cons x l ih =>
    rw [List.mapM_cons, h x List.mem_cons_self, ih fun y hy => h y (List.mem_cons_of_mem _ hy)]
    rfl

/-- Where the text of a command line is divided. -/
theorem findIdx_split {pre : List Str} (hpre : ∀ a ∈ pre, a ≠ lit "--") (post : List Str) :
    (pre ++ lit "--" :: post).findIdx (· = lit "--") = pre.length := by
  rw [List.findIdx_append, List.findIdx_eq_length_of_false (by simpa using hpre)]
  simp [List.findIdx_cons]

/-- What is rendered has a `=`. -/
theorem renderVariable_ne {p : Str × List Value} {a : Str} (ha : equals ∉ a) :
    renderVariable p ≠ a := by
  rintro rfl
  exact ha (by simp [renderVariable])

/-- The rows of the variables stand for their values. -/
def Rows (num : ℕ) (rows : List (Str × List Str)) (vars : List (Str × List Value)) : Prop :=
  List.Forall₂ (fun row p => row.1 = p.1 ∧
    ∀ i < num, row.2.getD i [] = (p.2.getD i (p.2.headD (.word []))).render) rows vars

theorem mapM_values (num : ℕ) {vars : List (Str × List Value)}
    (hvalues : ∀ p ∈ vars, p.2 ≠ [] ∧ ∀ v ∈ p.2, v.Valid) :
    ∃ rows, (vars.map fun p => (p.1, [comma].intercalate (p.2.map Value.render))).mapM
        (fun p => (parse_values num p.2).map (p.1, ·)) = some rows ∧ Rows num rows vars := by
  induction vars with
  | nil => exact ⟨[], rfl, .nil⟩
  | cons p vars ih =>
    obtain ⟨row, hrow, hget⟩ := parse_values_render num (hvalues p List.mem_cons_self).1
      (hvalues p List.mem_cons_self).2
    obtain ⟨rows, hrows, hall⟩ := ih fun q hq => hvalues q (List.mem_cons_of_mem _ hq)
    rw [List.map_cons, List.mapM_cons, hrow, hrows]
    exact ⟨(p.1, row) :: rows, rfl, .cons ⟨rfl, hget⟩ hall⟩

theorem atoi_decimal (n : ℕ) : atoi (decimal n) = n := by
  have hprinted : MapReduce.asprintf n = decimal n := by
    rw [MapReduce.asprintf, if_neg (by omega), Int.natAbs_natCast]
  rw [← hprinted, MapReduce.atoi_asprintf]

theorem decimal_ne (n : ℕ) : decimal n ≠ lit "--" := by
  intro h
  have hdash := (MapReduce.decimal_digits n).2.1 45 (by rw [h]; decide)
  exact absurd hdash (by decide)

/-- What is in front of the variables. -/
def Command.flags (c : Command) : List Str := c.count.elim [] fun n => [lit "-n", decimal n]

theorem Command.flags_ne (c : Command) : ∀ a ∈ c.flags, a ≠ lit "--" := by
  unfold Command.flags
  cases c.count with
  | none => exact fun a ha => absurd ha List.not_mem_nil
  | some n =>
    intro a ha
    rcases List.mem_cons.mp ha with rfl | ha
    · decide
    · rw [List.mem_singleton.mp ha]
      exact decimal_ne n

/-- The number of the first variable, and of the runs. -/
theorem flags_spec (c : Command) (program : Str) :
    (if (c.render program).getD 1 [] = lit "-n" then (3, atoi ((c.render program).getD 2 []))
      else (1, 1) : ℕ × ℤ) = (1 + c.flags.length, ((c.count.getD 1 : ℕ) : ℤ)) := by
  unfold Command.render Command.flags
  cases hcount : c.count with
  | some n => simp [atoi_decimal]
  | none =>
    refine if_neg ?_
    cases hvars : c.vars with
    | nil => simp [lit]
    | cons p vars =>
      intro h
      exact renderVariable_ne (p := p) (a := lit "-n") (by decide) (by simpa using h)

/-- **The text is taken apart** into what it was made of. -/
theorem parse_render (hc : c.Valid) {program : Str} (hprogram : program ≠ lit "--") :
    ∃ rows, parse (c.render program) = .ok ⟨c.count.getD 1, rows, c.command⟩ ∧
      Rows (c.count.getD 1) rows c.vars := by
  obtain ⟨rows, hrows, hall⟩ := mapM_values (c.count.getD 1) hc.values
  have hargs : (c.vars.map renderVariable).mapM parse_variable =
      some (c.vars.map fun p => (p.1, [comma].intercalate (p.2.map Value.render))) := by
    rw [List.mapM_map]
    exact mapM_eq_some fun p hp =>
      parse_variable_render (hc.names p hp) (hc.values p hp).1 (hc.values p hp).2
  obtain ⟨pre, hpre⟩ : ∃ pre, program :: (c.flags ++ c.vars.map renderVariable) = pre := ⟨_, rfl⟩
  have htext : c.render program = pre ++ lit "--" :: c.command := by rw [← hpre]; rfl
  have hno : ∀ a ∈ pre, a ≠ lit "--" := by
    intro a ha
    rw [← hpre] at ha
    rcases List.mem_cons.mp ha with rfl | ha
    · exact hprogram
    rcases List.mem_append.mp ha with ha | ha
    · exact c.flags_ne a ha
    · obtain ⟨p, -, rfl⟩ := List.mem_map.mp ha
      exact renderVariable_ne (by decide)
  have hsplit : (c.render program).findIdx (· = lit "--") = pre.length := by
    rw [htext, findIdx_split hno]
  have hpos : 1 + c.flags.length ≤ pre.length := by
    rw [← hpre, List.length_cons, List.length_append]
    omega
  have hcommand := List.length_pos_iff.mpr hc.command
  have hlen : (c.render program).length = pre.length + 1 + c.command.length := by
    rw [htext, List.length_append, List.length_cons]
    omega
  have hnum : c.count.getD 1 < 2 ^ 31 := by
    cases hcount : c.count with
    | none => decide
    | some n => exact hc.count n hcount
  have htake : ((c.render program).take pre.length).drop (1 + c.flags.length) =
      c.vars.map renderVariable := by
    rw [htext, List.take_left, ← hpre, Nat.add_comm, List.drop_succ_cons, List.drop_left]
  have hdrop : (c.render program).drop (pre.length + 1) = c.command := by
    rw [htext, ← List.drop_drop, List.drop_left]
    rfl
  refine ⟨rows, ?_, hall⟩
  rw [parse, if_neg (by omega)]
  dsimp only
  rw [flags_spec c, hsplit, if_neg (by omega)]
  dsimp only
  rw [if_neg (by omega), htake, hargs]
  dsimp only
  rw [Int.toNat_natCast, hrows]
  dsimp only
  rw [hdrop]

/-! ### Setting the variables -/

theorem lookup_concat (p : Str × Str) (name : Str) :
    lookup (before ++ [p]) name = if name = p.1 then p.2 else lookup before name := by
  rw [lookup, List.foldl_append]
  rfl

/-- What the variables before this one have been set to is in the environment. -/
def Tracks (before : List (Str × Str)) (set : List Str) (env : Environment) : Prop :=
  ∀ name, lookup before name = if set.any (· = name) then (env name).getD [] else []

theorem Tracks.step (h : Tracks before set env) (name value : Str) :
    Tracks (before ++ [(name, value)]) (name :: set)
      (Function.update env name (some value)) := by
  intro q
  rw [lookup_concat, h q]
  by_cases hq : q = name
  · simp [hq]
  · simp [hq, Ne.symm hq]

/-- A value that was rendered is replaced by what it means. -/
theorem resolve_render (h : Tracks before set env) {v : Value} (hv : v.Valid) :
    resolve before v.render = v.eval set env := by
  cases v with
  | word s =>
    have hno := (notMem_word hv.2).2.2
    have hall : s.dropWhile (· ≠ percent) = [] := by
      refine List.dropWhile_eq_nil_iff.mpr fun x hx => ?_
      rw [decide_eq_true_eq]
      rintro rfl
      exact hno hx
    rw [resolve, Value.render, hall]
    rfl
  | ref name =>
    rw [resolve, Value.render, List.dropWhile_cons_of_neg (by simp)]
    exact h name

/-- **A child** sets the variables to what they mean. -/
theorem set_variables_eq {rows : List (Str × List Str)} {vars : List (Str × List Value)}
    (hrows : Rows num rows vars) (hi : i < num)
    (hnames : ∀ p ∈ vars, p.1 ≠ [] ∧ p.1.all wordChar)
    (hvalues : ∀ p ∈ vars, p.2 ≠ [] ∧ ∀ v ∈ p.2, v.Valid) (h : Tracks before set env) :
    set_variables i rows before env = some (evalVariables i vars set env) := by
  induction hrows generalizing before set env with
  | nil => rfl
  | @cons row p rows vars hrow hrest ih =>
    obtain ⟨name, values⟩ := row
    obtain ⟨q, vs⟩ := p
    obtain ⟨rfl, hget⟩ := hrow
    obtain ⟨hne, hall⟩ := hnames (name, vs) List.mem_cons_self
    obtain ⟨hvs, hvalid⟩ := hvalues (name, vs) List.mem_cons_self
    have hvalue : (vs.getD i (vs.headD (.word []))).Valid := by
      obtain ⟨v, vs, rfl⟩ := List.exists_cons_of_ne_nil hvs
      by_cases hlt : i < (v :: vs).length
      · rw [List.getD_eq_getElem _ _ hlt]
        exact hvalid _ (List.getElem_mem hlt)
      · rw [List.getD_eq_default _ _ (by omega)]
        exact hvalid v List.mem_cons_self
    have hset : ∀ value, setenv env name value = some (Function.update env name (some value)) :=
      fun value => if_neg (by simp [hne, (notMem_word hall).1])
    rw [set_variables, evalVariables, hset]
    dsimp only
    rw [Option.bind_some, hget i hi, resolve_render h hvalue]
    exact ih (fun p hp => hnames p (List.mem_cons_of_mem _ hp))
      (fun p hp => hvalues p (List.mem_cons_of_mem _ hp)) (h.step _ _)

/-! ### The runs -/

/-- A parent stops at the first child that fails, with the status 1. -/
def Ran {α : Type*} (child : ℕ → α) (failed : ℕ → Bool) (num : ℕ) (r : List α × ℕ) : Prop :=
  ∃ m ≤ num, r.1 = (List.range m).map child ∧ (∀ i, i + 1 < m → failed i = false) ∧
    (r.2 = 0 ∧ m = num ∧ (∀ i < num, failed i = false) ∨
      r.2 = 1 ∧ ∃ i, i + 1 = m ∧ failed i = true)

theorem fork_loop_map {α : Type*} (child : ℕ → α) (failed : ℕ → Bool) (is : List ℕ) :
    fork_loop child failed (is.map (· + 1)) =
      fork_loop (fun i => child (i + 1)) (fun i => failed (i + 1)) is := by
  induction is with
  | nil => rfl
  | cons i is ih => rw [List.map_cons, fork_loop, fork_loop, ih]

theorem ran_fork_loop {α : Type*} (child : ℕ → α) (failed : ℕ → Bool) (num : ℕ) :
    Ran child failed num (fork_loop child failed (List.range num)) := by
  induction num generalizing child failed with
  | zero => exact ⟨0, le_rfl, rfl, by simp, .inl ⟨rfl, rfl, by simp⟩⟩
  | succ num ih =>
    rw [List.range_succ_eq_map, fork_loop]
    split
    · rename_i hfail
      exact ⟨1, by omega, rfl, by simp, .inr ⟨rfl, 0, rfl, hfail⟩⟩
    · rename_i hok
      have hok : failed 0 = false := by simpa using hok
      obtain ⟨m, hle, hchildren, hbefore, hstatus⟩ :=
        ih (fun i => child (i + 1)) (fun i => failed (i + 1))
      have hall : ∀ {k}, (∀ i < k, failed (i + 1) = false) → ∀ i < k + 1, failed i = false := by
        intro k hk i hi
        cases i with
        | zero => exact hok
        | succ i => exact hk i (by omega)
      rw [show List.map Nat.succ (List.range num) = (List.range num).map (· + 1) from rfl,
        fork_loop_map]
      refine ⟨m + 1, by omega, ?_, fun i hi => ?_, ?_⟩
      · rw [hchildren, List.range_succ_eq_map, List.map_cons, List.map_map]
        rfl
      · cases i with
        | zero => exact hok
        | succ i => exact hbefore i (by omega)
      · rcases hstatus with ⟨h0, rfl, hno⟩ | ⟨h1, i, rfl, hfail⟩
        · exact .inl ⟨h0, rfl, hall hno⟩
        · exact .inr ⟨h1, i + 1, rfl, hfail⟩

/-- **A command line does what it means**: each run has the inherited environment, with the
    variables set from the left to the right to their values, and the first run that fails is the
    last one. -/
theorem main_render (hc : c.Valid) {program : Str} (hprogram : program ≠ lit "--")
    (env : Environment) (failed : ℕ → Bool) :
    ∃ r, main (c.render program) env failed = .ok r ∧ r.command = c.command ∧
      Ran (fun i => some (evalVariables i c.vars [] env)) failed (c.count.getD 1)
        (r.children, r.status) := by
  obtain ⟨rows, hparse, hrows⟩ := parse_render hc hprogram
  have htracks : Tracks [] [] env := fun name => by simp [lookup]
  have hran := ran_fork_loop (fun i => set_variables i rows [] env) failed (c.count.getD 1)
  refine ⟨⟨_, c.command, _⟩, by rw [main, hparse], rfl, ?_⟩
  obtain ⟨m, hle, hchildren, hbefore, hstatus⟩ := hran
  refine ⟨m, hle, hchildren.trans (List.map_congr_left fun i hi => ?_), hbefore, hstatus⟩
  exact set_variables_eq hrows ((List.mem_range.mp hi).trans_le hle) hc.names hc.values htracks

/-- `env -n 3 A=x,y B=%A -- c`, whose second run fails. -/
theorem main_render_some :
    let c : Command := ⟨some 3, [(lit "A", [.word (lit "x"), .word (lit "y")]),
      (lit "B", [.ref (lit "A")])], [lit "c"]⟩
    ∃ r, main (c.render (lit "env")) (fun _ => none) (decide <| · = 1) = .ok r ∧
      r.command = [lit "c"] ∧
      Ran (fun i => some (evalVariables i c.vars [] fun _ => none)) (decide <| · = 1) 3
        (r.children, r.status) :=
  main_render ⟨by decide, by decide, by decide, by decide⟩ (by decide) _ _

/-! ### Every command line that is not rejected -/

theorem parse_variable_some {p : Str × Str} (h : parse_variable arg = some p) :
    p.1 ≠ [] ∧ p.1.all wordChar = true ∧ equals ∉ p.2 := by
  obtain ⟨⟨name, rest⟩, hname, h⟩ := Option.bind_eq_some_iff.mp h
  dsimp only at h
  split at h
  · rename_i hall
    obtain ⟨⟨vars, rest'⟩, hvars, h⟩ := Option.bind_eq_some_iff.mp h
    obtain rfl := Option.some.inj h
    refine ⟨(strtok_spec hname).1, hall, fun hmem => ?_⟩
    have hfalse := (strtok_spec hvars).2.1 _ hmem
    simp at hfalse
  · cases h

theorem parse_tokens_some {next : Option (Str × Str)} {tokens : List Str}
    (h : parse_tokens num next = some tokens)
    (hnext : ∀ p, next = some p → equals ∉ p.1 ∧ equals ∉ p.2) : ∀ t ∈ tokens, equals ∉ t := by
  induction num generalizing next tokens with
  | zero =>
    obtain rfl := Option.some.inj h
    simp
  | succ num ih =>
    cases next with
    | none =>
      obtain rfl := Option.some.inj h
      simp
    | some p =>
      obtain ⟨token, rest⟩ := p
      obtain ⟨htoken, hrest⟩ := hnext _ rfl
      rw [parse_tokens] at h
      split at h
      · obtain ⟨tokens', htokens, rfl⟩ := Option.map_eq_some_iff.mp h
        have hall := ih htokens fun p hp => by
          obtain ⟨-, -, hsub, hsub'⟩ := strtok_spec hp
          exact ⟨fun hmem => hrest (hsub hmem), fun hmem => hrest (hsub' hmem)⟩
        intro t ht
        rcases List.mem_cons.mp ht with rfl | ht
        · exact htoken
        · exact hall t ht
      · cases h

theorem parse_values_some {vars : Str} {row : List Str} (h : parse_values num vars = some row)
    (hvars : equals ∉ vars) : ∀ v ∈ row, equals ∉ v := by
  obtain ⟨tokens, htokens, rfl⟩ := Option.map_eq_some_iff.mp h
  have hall := parse_tokens_some htokens fun p hp => by
    obtain ⟨-, -, hsub, hsub'⟩ := strtok_spec hp
    exact ⟨fun hmem => hvars (hsub hmem), fun hmem => hvars (hsub' hmem)⟩
  intro v hv
  rcases List.mem_append.mp hv with hv | hv
  · exact hall v hv
  · rw [List.eq_of_mem_replicate hv, cut, List.mem_append, not_or]
    exact ⟨fun hmem => hvars ((List.takeWhile_sublist _).subset hmem), fun hmem =>
      hvars ((List.dropWhile_sublist _).subset ((List.takeWhile_sublist _).subset hmem))⟩

theorem mem_of_mapM {α β : Type*} {f : α → Option β} {l : List α} {l' : List β}
    (h : l.mapM f = some l') {y : β} (hy : y ∈ l') : ∃ x ∈ l, f x = some y := by
  induction l generalizing l' with
  | nil =>
    obtain rfl := Option.some.inj h
    cases hy
  | cons x l ih =>
    rw [List.mapM_cons] at h
    obtain ⟨y', hx, h⟩ := Option.bind_eq_some_iff.mp h
    obtain ⟨l'', hl, h⟩ := Option.bind_eq_some_iff.mp h
    obtain rfl := Option.some.inj h
    rcases List.mem_cons.mp hy with rfl | hy
    · exact ⟨x, List.mem_cons_self, hx⟩
    · obtain ⟨z, hz, hfz⟩ := ih hl hy
      exact ⟨z, List.mem_cons_of_mem _ hz, hfz⟩

/-- A name that can be set, and values that are not taken for something else. -/
def Row (p : Str × List Str) : Prop :=
  p.1 ≠ [] ∧ p.1.all wordChar = true ∧ ∀ v ∈ p.2, equals ∉ v

theorem parse_ok {argv : List Str} {plan : Plan} (h : parse argv = .ok plan) :
    ∀ p ∈ plan.vars, Row p := by
  unfold parse at h
  split at h
  · cases h
  dsimp only at h
  split at h
  · cases h
  generalize (if argv.getD 1 [] = lit "-n" then (3, atoi (argv.getD 2 [])) else (1, 1) : ℕ × ℤ) = fn
    at h
  split at h
  · cases h
  split at h
  · cases h
  · rename_i args hargs
    split at h
    · cases h
    · rename_i vars hvars
      obtain rfl := Except.ok.inj h
      intro p hp
      obtain ⟨q, hq, hrow⟩ := mem_of_mapM hvars hp
      obtain ⟨row, hparse, rfl⟩ := Option.map_eq_some_iff.mp hrow
      obtain ⟨arg, -, harg⟩ := mem_of_mapM hargs hq
      obtain ⟨hne, hall, heq⟩ := parse_variable_some harg
      exact ⟨hne, hall, parse_values_some hparse heq⟩

/-- A value without a reference and without a `=`. -/
def Plain (value : Str) : Prop := percent ∉ value ∧ equals ∉ value

theorem plain_nil : Plain [] := ⟨List.not_mem_nil, List.not_mem_nil⟩

theorem plain_lookup (h : ∀ p ∈ before, Plain p.2) (name : Str) : Plain (lookup before name) := by
  induction before using List.reverseRecOn with
  | nil => exact plain_nil
  | append_singleton before p ih =>
    rw [lookup_concat]
    split
    · exact h p (by simp)
    · exact ih fun q hq => h q (List.mem_append_left _ hq)

theorem plain_resolve (h : ∀ p ∈ before, Plain p.2) (hvalue : equals ∉ value) :
    Plain (resolve before value) := by
  rw [resolve]
  split
  · rename_i hnone
    refine ⟨fun hmem => ?_, hvalue⟩
    simpa using List.dropWhile_eq_nil_iff.mp hnone _ hmem
  · exact plain_lookup h _

/-- What a child may change of its environment. -/
def Safe (env env' : Environment) : Prop :=
  ∀ name, env' name = env name ∨
    name ≠ [] ∧ name.all wordChar = true ∧ ∃ value, env' name = some value ∧ Plain value

theorem set_variables_safe {rows : List (Str × List Str)} (hrows : ∀ p ∈ rows, Row p)
    (hbefore : ∀ p ∈ before, Plain p.2) (i : ℕ) (env : Environment) :
    ∃ env', set_variables i rows before env = some env' ∧ Safe env env' := by
  induction rows generalizing before env with
  | nil => exact ⟨env, rfl, fun _ => .inl rfl⟩
  | cons p rows ih =>
    obtain ⟨name, values⟩ := p
    obtain ⟨hne, hall, hvalues⟩ := hrows (name, values) List.mem_cons_self
    have hvalue : equals ∉ values.getD i [] := by
      by_cases hlt : i < values.length
      · rw [List.getD_eq_getElem _ _ hlt]
        exact hvalues _ (List.getElem_mem hlt)
      · rw [List.getD_eq_default _ _ (by omega)]
        exact List.not_mem_nil
    have hplain := plain_resolve hbefore hvalue
    have hset : ∀ value, setenv env name value = some (Function.update env name (some value)) :=
      fun value => if_neg (by simp [hne, (notMem_word hall).1])
    have hbefore' :
        ∀ p ∈ before ++ [(name, resolve before (values.getD i []))], Plain p.2 := by
      intro p hp
      rcases List.mem_append.mp hp with hp | hp
      · exact hbefore p hp
      · exact List.mem_singleton.mp hp ▸ hplain
    obtain ⟨env', henv, hsafe⟩ := ih (fun p hp => hrows p (List.mem_cons_of_mem _ hp)) hbefore'
      (Function.update env name (some (resolve before (values.getD i []))))
    refine ⟨env', ?_, fun q => ?_⟩
    · rw [set_variables, hset]
      exact henv
    · obtain hsame | hassigned := hsafe q
      · by_cases hq : q = name
        · subst hq
          rw [Function.update_self] at hsame
          exact .inr ⟨hne, hall, _, hsame, hplain⟩
        · rw [Function.update_of_ne hq] at hsame
          exact .inl hsame
      · exact .inr hassigned

/-- **No command line does more** than it may: `setenv` never refuses a name, a run has the
    inherited value of every other variable, and no value that was set has a reference or a `=` left
    in it. -/
theorem main_safe {argv : List Str} {r : Result} (h : main argv env failed = .ok r) :
    ∀ child ∈ r.children, ∃ env', child = some env' ∧ Safe env env' := by
  rw [main] at h
  split at h
  · cases h
  · rename_i plan hplan
    obtain rfl := Except.ok.inj h
    obtain ⟨m, -, hchildren, -⟩ :=
      ran_fork_loop (fun i => set_variables i plan.vars [] env) failed plan.num
    intro child hmem
    dsimp only at hmem
    rw [hchildren] at hmem
    obtain ⟨i, -, rfl⟩ := List.mem_map.mp hmem
    exact set_variables_safe (parse_ok hplan) (by simp) i env

/-- A value that begins with a comma, and a reference to a variable that is not set. -/
theorem main_safe_some : ∃ r,
    main [lit "env", lit "A=,x", lit "B=%C", lit "--", lit "c"] (fun _ => none) (fun _ => false) =
      .ok r ∧ r.children.length = 1 ∧
    ∀ child ∈ r.children, ∃ env', child = some env' ∧ Safe (fun _ => none) env' := by
  have hrun : (main [lit "env", lit "A=,x", lit "B=%C", lit "--", lit "c"] (fun _ => none)
      fun _ => false).toOption.map (·.children.length) = some 1 := by decide +kernel
  cases hmain : main [lit "env", lit "A=,x", lit "B=%C", lit "--", lit "c"] (fun _ => none)
      fun _ => false with
  | error e =>
    rw [hmain] at hrun
    cases hrun
  | ok r =>
    rw [hmain] at hrun
    exact ⟨r, rfl, Option.some.inj hrun, main_safe hmain⟩

end SystemProgramming.UtilitiesUnleashed
