import SystemProgramming.ParMake.Parser

namespace SystemProgramming.ParMake

open Lib Lib.Ctype

/-!
# What a makefile says

A makefile is a list of lines, and its rule blocks are the rule lines, each with the commands
before the next one.  Nothing here follows the loop of the parser.

* `uncomment` — what is in front of the first `#` outside quotes.
* `Line.ofRaw` — what a line is.
* `blocks` — the rule blocks, with `blocks_concat` for one more line.
* `Lists`, `Mentions` — the dependencies, and everything that has a vertex.
* `recipes`, `commands` — the commands of a target.
-/

/-- Without the whitespace at both ends. -/
def trim (s : Str) : Str := (s.dropWhile isspace).rdropWhile isspace

/-- What is in front of the first `#` outside quotes; `escaped` says that a backslash is in front,
    which is not escaped itself. -/
def uncomment : (quoted escaped : Bool) → Str → Str
  | _, _, [] => []
  | quoted, escaped, c :: s =>
    if c = 35 ∧ ! quoted then []
    else c :: uncomment (if c = 34 ∧ ! escaped then ! quoted else quoted) (c = 92 ∧ ! escaped) s

def content (raw : Str) : Str := uncomment false false (trim raw)

inductive Line
  | blank
  | recipe (command : Str)
  | rule (target : Str) (words : List Str)
  | malformed

def Line.ofRaw (raw : Str) : Line :=
  let c := content raw
  if c = [] then blank
  else if raw.head? = some 9 then recipe c
  else if is_makefile_target c ∧ 58 ∈ c then
    rule ((c.takeWhile (· ≠ 58)).takeWhile (! isspace ·))
      (((c.dropWhile (· ≠ 58)).tail.splitOn 32).filter (· ≠ []))
  else malformed

/-- The lines with their numbers; a line ends at a null. -/
def items (text : Str) : List (Line × ℕ) :=
  ((lines 10 text).map fun l => Line.ofRaw (l.takeWhile (· ≠ 0))).zipIdx 1

/-! ### Blocks -/

/-- Commands with the numbers of their lines. -/
abbrev Recipe := List (Str × ℕ)

structure Block where
  target : Str
  words : List Str
  recipe : Recipe

/-- The commands up to the next rule line. -/
def recipe : List (Line × ℕ) → Recipe
  | [] => []
  | (.recipe c, n) :: its => (c, n) :: recipe its
  | (.rule _ _, _) :: _ => []
  | (.blank, _) :: its => recipe its
  | (.malformed, _) :: its => recipe its

def blocks : List (Line × ℕ) → List Block
  | [] => []
  | (.rule t ws, _) :: its => ⟨t, ws, recipe its⟩ :: blocks its
  | (.recipe _, _) :: its => blocks its
  | (.blank, _) :: its => blocks its
  | (.malformed, _) :: its => blocks its

/-- No command is in front of the first rule line, and every other line is a rule line. -/
def WellFormed (its : List (Line × ℕ)) : Prop := recipe its = [] ∧ ∀ x ∈ its, x.1 ≠ .malformed

/-- A rule of the target lists the dependency. -/
def Lists (bs : List Block) (t d : Str) : Prop := ∃ b ∈ bs, b.target = t ∧ d ∈ b.words

/-- The sentinel, the targets and the dependencies. -/
def Mentions (bs : List Block) (v : Str) : Prop :=
  v = [] ∨ ∃ b ∈ bs, v = b.target ∨ v ∈ b.words

/-- The commands of the blocks of a target that have any. -/
def recipes (t : Str) (bs : List Block) : List Recipe :=
  ((bs.filter (·.target = t)).map Block.recipe).filter (· ≠ [])

/-- The commands of a target: those of its last block that has any. -/
def commands (t : Str) (bs : List Block) : List Str :=
  match (recipes t bs).getLast? with
  | none => []
  | some r => r.map Prod.fst

/-- The number of the first command's line. -/
def Recipe.first (r : Recipe) : ℕ := (r.head?.map Prod.snd).getD 0

/-! ### More lines -/

variable {its its' : List (Line × ℕ)} {bs : List Block} {b : Block} {r : Recipe} {t u : Str}

theorem recipe_append_of_blocks (h : blocks its ≠ []) (its' : List (Line × ℕ)) :
    recipe (its ++ its') = recipe its := by
  induction its with
  | nil => exact absurd rfl h
  | cons x its ih =>
    obtain ⟨l, n⟩ := x
    cases l with
    | blank => exact ih h
    | recipe c => exact congrArg ((c, n) :: ·) (ih h)
    | rule t ws => rfl
    | malformed => exact ih h

theorem recipe_append_of_not_blocks (h : blocks its = []) (its' : List (Line × ℕ)) :
    recipe (its ++ its') = recipe its ++ recipe its' := by
  induction its with
  | nil => rfl
  | cons x its ih =>
    obtain ⟨l, n⟩ := x
    cases l with
    | blank => exact ih h
    | recipe c => exact congrArg ((c, n) :: ·) (ih h)
    | rule t ws => cases h
    | malformed => exact ih h

theorem blocks_append (h : blocks its = []) : blocks (its ++ its') = blocks its' := by
  induction its with
  | nil => rfl
  | cons x its ih =>
    obtain ⟨l, n⟩ := x
    cases l with
    | blank => exact ih h
    | recipe c => exact ih h
    | rule t ws => cases h
    | malformed => exact ih h

/-- A block with more commands. -/
def Block.extend (b : Block) (r : Recipe) : Block := { b with recipe := b.recipe ++ r }

/-- Lines without a rule line belong to the last block. -/
theorem blocks_append_of_not_blocks (h : blocks its' = []) (hbs : blocks its = bs ++ [b]) :
    blocks (its ++ its') = bs ++ [b.extend (recipe its')] := by
  induction its generalizing bs with
  | nil => simp [blocks] at hbs
  | cons x its ih =>
    obtain ⟨l, n⟩ := x
    cases l with
    | blank => exact ih hbs
    | recipe c => exact ih hbs
    | malformed => exact ih hbs
    | rule t ws =>
      rw [blocks] at hbs
      rw [List.cons_append, blocks]
      cases bs with
      | nil =>
        obtain ⟨rfl, hnil⟩ := List.cons.inj hbs
        rw [blocks_append hnil, h, recipe_append_of_not_blocks hnil]
        rfl
      | cons b' bs =>
        obtain ⟨rfl, htail⟩ := List.cons.inj hbs
        rw [ih htail, recipe_append_of_blocks (by rw [htail]; simp)]
        rfl

/-- A rule line begins a block. -/
theorem blocks_concat_rule (its : List (Line × ℕ)) (t : Str) (ws : List Str) (n : ℕ) :
    blocks (its ++ [(.rule t ws, n)]) = blocks its ++ [⟨t, ws, []⟩] := by
  induction its with
  | nil => rfl
  | cons x its ih =>
    obtain ⟨l, n'⟩ := x
    cases l with
    | blank => exact ih
    | recipe c => exact ih
    | malformed => exact ih
    | rule t' ws' =>
      have hrecipe : recipe (its ++ [(.rule t ws, n)]) = recipe its := by
        by_cases hits : blocks its = []
        · rw [recipe_append_of_not_blocks hits]
          exact List.append_nil _
        · exact recipe_append_of_blocks hits _
      rw [List.cons_append, blocks, hrecipe, ih]
      rfl

theorem blocks_concat_blank (its : List (Line × ℕ)) (n : ℕ) :
    blocks (its ++ [(.blank, n)]) = blocks its := by
  rcases List.eq_nil_or_concat' (blocks its) with hnil | ⟨bs, b, hbs⟩
  · rw [blocks_append hnil, hnil]
    rfl
  · rw [blocks_append_of_not_blocks rfl hbs, hbs, recipe, recipe, Block.extend, List.append_nil]

theorem recipe_prefix (its its' : List (Line × ℕ)) : recipe its <+: recipe (its ++ its') := by
  by_cases hits : blocks its = []
  · rw [recipe_append_of_not_blocks hits]
    exact List.prefix_append _ _
  · rw [recipe_append_of_blocks hits]

theorem WellFormed.of_append (h : WellFormed (its ++ its')) : WellFormed its :=
  ⟨List.prefix_nil.mp (h.1 ▸ recipe_prefix its its'), fun x hx => h.2 x (List.mem_append_left _ hx)⟩

theorem wellFormed_concat {l : Line} {n : ℕ} : WellFormed (its ++ [(l, n)]) ↔
    WellFormed its ∧ l ≠ .malformed ∧ (blocks its = [] → ∀ c, l ≠ .recipe c) := by
  have hmalformed : (∀ x ∈ its ++ [(l, n)], x.1 ≠ .malformed) ↔
      (∀ x ∈ its, x.1 ≠ .malformed) ∧ l ≠ .malformed := by
    simp [or_imp, forall_and]
  have hrecipe : recipe (its ++ [(l, n)]) = [] ↔
      recipe its = [] ∧ (blocks its = [] → ∀ c, l ≠ .recipe c) := by
    by_cases hits : blocks its = []
    · rw [recipe_append_of_not_blocks hits, List.append_eq_nil_iff]
      refine and_congr_right fun _ => ?_
      cases l <;> simp [recipe, hits]
    · rw [recipe_append_of_blocks hits]
      simp [hits]
  rw [WellFormed, WellFormed, hmalformed, hrecipe]
  exact ⟨fun h => ⟨⟨h.1.1, h.2.1⟩, h.2.2, h.1.2⟩, fun h => ⟨⟨h.1.1, h.2.2⟩, h.1.2, h.2.1⟩⟩

/-! ### One more block -/

theorem lists_concat {bs : List Block} {b : Block} {t d : Str} :
    Lists (bs ++ [b]) t d ↔ Lists bs t d ∨ b.target = t ∧ d ∈ b.words := by
  simp only [Lists, List.mem_append, List.mem_singleton, or_and_right, exists_or, exists_eq_left]

theorem mentions_concat {bs : List Block} {b : Block} {v : Str} :
    Mentions (bs ++ [b]) v ↔ Mentions bs v ∨ v = b.target ∨ v ∈ b.words := by
  simp only [Mentions, List.mem_append, List.mem_singleton, or_and_right, exists_or,
    exists_eq_left, or_assoc]

theorem recipes_concat (t : Str) (bs : List Block) (b : Block) :
    recipes t (bs ++ [b]) =
      recipes t bs ++ if b.target = t ∧ b.recipe ≠ [] then [b.recipe] else [] := by
  rw [recipes, recipes, List.filter_append, List.map_append, List.filter_append]
  by_cases ht : b.target = t <;> by_cases hr : b.recipe = [] <;> simp [ht, hr]

theorem recipes_eq_nil {bs : List Block} {t : Str} (h : ¬ Mentions bs t) : recipes t bs = [] := by
  have hnone : bs.filter (·.target = t) = [] := List.filter_eq_nil_iff.mpr fun b hb ht =>
    h (.inr ⟨b, hb, .inl (of_decide_eq_true ht).symm⟩)
  rw [recipes, hnone]
  rfl

theorem ne_nil_of_mem_recipes {bs : List Block} {t : Str} {r : Recipe} (h : r ∈ recipes t bs) :
    r ≠ [] := by
  simpa using (List.mem_filter.mp h).2

theorem not_lists {bs : List Block} {t : Str} (h : ¬ Mentions bs t) (d : Str) : ¬ Lists bs t d :=
  fun ⟨b, hb, ht, _⟩ => h (.inr ⟨b, hb, .inl ht.symm⟩)

end SystemProgramming.ParMake
