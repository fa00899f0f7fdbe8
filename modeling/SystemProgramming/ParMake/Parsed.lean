import SystemProgramming.ParMake.Built

namespace SystemProgramming.ParMake

open Lib CString

/-!
# The parser and the meaning of a makefile

While the parser reads, its graph stands for the blocks so far; behind the loop the sentinel gets
its edges, and the line numbers are removed.

* `Reads` — the variables of the loop stand for the lines, with `Reads.line` and `Reads.lines`.
* `parser_parse_makefile_spec` — what is accepted, and the graph that is returned.
* `parser_parse_makefile_meaning_iff` — when the graph says what the makefile does.
-/

variable {lib : GraphLib Str Rule} {g : lib.G} {bs : List Block} {b : Block} {rs : List Recipe}
  {r : Recipe} {t u v w d : Str} {ws : List Str}

/-! ### The loop over the lines -/

/-- The variables of the loop stand for the lines so far. -/
structure Reads (st : State lib) (its : List (Line × ℕ)) : Prop where
  line_number : st.line_number = its.length
  first_target : st.first_target = (blocks its).head?.map Block.target
  curr_rule : st.curr_rule = (blocks its).getLast?.map Block.target
  in_command_block : st.in_command_block = (blocks its).getLast?.any (·.recipe ≠ [])
  built : Built st.graph (blocks its)
  well_formed : WellFormed its

theorem reads_start : Reads (start : State lib) [] where
  line_number := rfl
  first_target := rfl
  curr_rule := rfl
  in_command_block := rfl
  built :=
    { contains := fun v => by
        rw [start, lib.contains_set, or_iff_left (lib.not_contains_create v)]
        simp [Mentions, blocks]
      neighbors := fun t ht d => by
        rw [start, lib.contains_set, or_iff_left (lib.not_contains_create t)] at ht
        subst ht
        rw [start, lib.neighbors_set_new _ _ _ (lib.not_contains_create _)]
        simp [Lists, blocks]
      rules := fun t ht => by
        rw [start, lib.contains_set, or_iff_left (lib.not_contains_create t)] at ht
        subst ht
        rw [start, lib.value_set]
        rfl }
  well_formed := ⟨rfl, by simp⟩

variable {its its' : List (Line × ℕ)} {st st' : State lib} {n : ℕ}

theorem Reads.blank (h : Reads st its) (n : ℕ) :
    Reads { st with line_number := st.line_number + 1 } (its ++ [(.blank, n)]) := by
  have hblocks := blocks_concat_blank its n
  refine ⟨?_, ?_, ?_, ?_, ?_, ?_⟩
  · rw [List.length_append, ← h.line_number]
    rfl
  · rw [hblocks]
    exact h.first_target
  · rw [hblocks]
    exact h.curr_rule
  · rw [hblocks]
    exact h.in_command_block
  · rw [hblocks]
    exact h.built
  · exact wellFormed_concat.mpr ⟨h.well_formed, by simp, by simp⟩

theorem Reads.rule (h : Reads st its) (ht : t ≠ []) (ws : List Str) (n : ℕ) :
    Reads (new_rule t ws { st with line_number := st.line_number + 1 })
      (its ++ [(.rule t ws, n)]) := by
  have hblocks := blocks_concat_rule its t ws n
  refine ⟨?_, ?_, ?_, ?_, ?_, ?_⟩
  · rw [new_rule, h.line_number, List.length_append]
    rfl
  · rw [hblocks, new_rule]
    dsimp only
    rw [h.first_target]
    cases hits : blocks its with
    | nil =>
      -- the graph has only the sentinel
      have hnew : ¬ lib.graph_contains_vertex st.graph t := by
        rw [h.built.contains, hits]
        simp [Mentions, ht]
      simp [hnew]
    | cons b bs => simp
  · rw [hblocks, List.getLast?_concat]
    rfl
  · rw [hblocks, List.getLast?_concat]
    rfl
  · rw [hblocks]
    exact h.built.block t ws
  · exact wellFormed_concat.mpr ⟨h.well_formed, by simp, by simp⟩

theorem Reads.recipe (h : Reads st its) (hbs : blocks its = bs ++ [b]) (name c : Str) :
    ∃ st', recipe_line name c { st with line_number := st.line_number + 1 } = .ok st' ∧
      Reads st' (its ++ [(.recipe c, its.length + 1)]) := by
  have hblocks : blocks (its ++ [(.recipe c, its.length + 1)]) =
      bs ++ [b.extend [(c, its.length + 1)]] := blocks_append_of_not_blocks rfl hbs
  have hrule : st.curr_rule = some b.target := by
    rw [h.curr_rule, hbs, List.getLast?_concat]
    rfl
  have hin : st.in_command_block = decide (b.recipe ≠ []) := by
    rw [h.in_command_block, hbs, List.getLast?_concat]
    rfl
  rw [recipe_line, hrule]
  refine ⟨_, rfl, ?_, ?_, ?_, ?_, ?_, ?_⟩
  · rw [List.length_append, h.line_number]
    rfl
  · rw [hblocks, h.first_target, hbs]
    cases bs <;> rfl
  · rw [hblocks, List.getLast?_concat]
    rfl
  · rw [hblocks, List.getLast?_concat]
    simp [Block.extend]
  · rw [hblocks, h.line_number, hin]
    exact (hbs ▸ h.built).command c _
  · refine wellFormed_concat.mpr ⟨h.well_formed, by simp, fun hnil => ?_⟩
    rw [hnil] at hbs
    simp at hbs

/-- **One line.** -/
theorem Reads.line (h : Reads st its) (name buf : Str) :
    let l := Line.ofRaw (buf.takeWhile (· ≠ 0))
    (∃ st', parse_line name st buf = .ok st' ∧ Reads st' (its ++ [(l, its.length + 1)])) ∨
      ∃ e, parse_line name st buf = .error e ∧ ¬ WellFormed (its ++ [(l, its.length + 1)]) := by
  intro l
  rw [parse_line_eq]
  change (∃ st', line_step name _ l = .ok st' ∧ _) ∨ ∃ e, line_step name _ l = .error e ∧ _
  cases hl : l with
  | blank => exact .inl ⟨_, rfl, h.blank _⟩
  | rule t ws => exact .inl ⟨_, rfl, h.rule (target_ne_nil hl) ws _⟩
  | malformed => exact .inr ⟨_, rfl, fun hwf => (wellFormed_concat.mp hwf).2.1 rfl⟩
  | recipe c =>
    rcases List.eq_nil_or_concat' (blocks its) with hnil | ⟨bs, b, hbs⟩
    · have hrule : st.curr_rule = none := by
        rw [h.curr_rule, hnil]
        rfl
      refine .inr ⟨recipe_commences name (st.line_number + 1), ?_, fun hwf =>
        (wellFormed_concat.mp hwf).2.2 hnil c rfl⟩
      rw [line_step, recipe_line, hrule]
      rfl
    · exact .inl (h.recipe hbs name c)

/-- **The lines.**  The loop exits just when the lines are not well formed. -/
theorem Reads.lines (h : Reads st its) (name : Str) (bufs : List Str) :
    let its' := its ++ (bufs.map fun l => Line.ofRaw (l.takeWhile (· ≠ 0))).zipIdx (its.length + 1)
    (∃ st', bufs.foldlM (parse_line name) st = .ok st' ∧ Reads st' its') ∨
      ∃ e, bufs.foldlM (parse_line name) st = .error e ∧ ¬ WellFormed its' := by
  induction bufs generalizing st its with
  | nil =>
    refine .inl ⟨st, rfl, ?_⟩
    simpa using h
  | cons buf bufs ih =>
    dsimp only
    rw [List.foldlM_cons, List.map_cons, List.zipIdx_cons, List.append_cons]
    rcases h.line name buf with ⟨st', hst', hreads⟩ | ⟨e, he, hwf⟩
    · have ih := ih hreads
      rw [List.length_append, List.length_singleton] at ih
      rw [hst']
      exact ih
    · rw [he]
      exact .inr ⟨e, rfl, fun h => hwf h.of_append⟩

/-! ### Behind the loop -/

/-- What is asked for. -/
def wanted (bs : List Block) (goals : List Str) : List Str :=
  if goals = [] then (bs.head?.map Block.target).toList else goals

theorem default_targets_eq (bs : List Block) (goals : List Str) :
    default_targets (bs.head?.map Block.target) goals =
      if wanted bs goals = [] then
        .error ⟨2, CString.lit "parmake: *** No targets.  Stop.\n"⟩
      else .ok (wanted bs goals) := by
  rw [default_targets.eq_def, wanted]
  by_cases hgoals : goals = []
  · rw [if_pos hgoals, if_pos hgoals]
    cases bs <;> rfl
  · rw [if_neg hgoals, if_neg hgoals, if_neg hgoals]
    rfl

/-- **The goals.**  The sentinel gets an edge to each. -/
theorem foldlM_add_goal (hnil : lib.graph_contains_vertex g []) (goals : List Str) :
    (∃ g', goals.foldlM add_goal g = .ok g' ∧ (∀ d ∈ goals, lib.graph_contains_vertex g d) ∧
      ∀ v, (lib.graph_contains_vertex g' v ↔ lib.graph_contains_vertex g v) ∧
        (lib.graph_contains_vertex g v →
          lib.graph_get_vertex_value g' v = lib.graph_get_vertex_value g v ∧
          ∀ d, d ∈ lib.graph_neighbors g' v ↔
            d ∈ lib.graph_neighbors g v ∨ v = [] ∧ d ∈ goals)) ∨
    ∃ e, goals.foldlM add_goal g = .error e ∧ ¬ ∀ d ∈ goals, lib.graph_contains_vertex g d := by
  induction goals generalizing g with
  | nil =>
    refine .inl ⟨g, rfl, by simp, fun v => ⟨Iff.rfl, fun _ => ⟨rfl, fun d => ?_⟩⟩⟩
    simp
  | cons goal goals ih =>
    rw [List.foldlM_cons, add_goal]
    by_cases hgoal : lib.graph_contains_vertex g goal
    · have hcontains : ∀ v, lib.graph_contains_vertex (lib.graph_add_edge g [] goal) v ↔
          lib.graph_contains_vertex g v := fun v => lib.contains_add g [] goal v hnil hgoal
      rw [if_pos hgoal]
      rcases ih ((hcontains []).mpr hnil) with ⟨g', hg', hall, hspec⟩ | ⟨e, he, hall⟩
      · refine .inl ⟨g', hg', ?_, fun v => ?_⟩
        · simpa [hgoal, hcontains] using hall
        · obtain ⟨hv, hspec⟩ := hspec v
          rw [hcontains] at hv hspec
          refine ⟨hv, fun hmem => ?_⟩
          obtain ⟨hvalue, hneighbors⟩ := hspec hmem
          refine ⟨hvalue.trans (lib.value_add g [] goal v hnil hgoal hmem), fun d => ?_⟩
          rw [hneighbors, lib.mem_neighbors_add g [] goal v d hnil hgoal hmem, List.mem_cons,
            and_or_left, or_assoc]
      · refine .inr ⟨e, he, fun h => hall fun d hd => ?_⟩
        exact (hcontains d).mpr (h d (List.mem_cons_of_mem _ hd))
    · rw [if_neg hgoal]
      exact .inr ⟨_, rfl, fun h => hgoal (h goal List.mem_cons_self)⟩

theorem foldl_write_spec {ts : List Str} (hts : ∀ t ∈ ts, lib.graph_contains_vertex g t)
    (hv : lib.graph_contains_vertex g v) :
    let g' := ts.foldl
      (fun g t => lib.write g t { lib.graph_get_vertex_value g t with state := 0 }) g
    (∀ w, lib.graph_contains_vertex g' w ↔ lib.graph_contains_vertex g w) ∧
      lib.graph_neighbors g' v = lib.graph_neighbors g v ∧
      (lib.graph_get_vertex_value g' v).commands = (lib.graph_get_vertex_value g v).commands ∧
      (v ∈ ts ∨ (lib.graph_get_vertex_value g v).state = 0 →
        (lib.graph_get_vertex_value g' v).state = 0) := by
  induction ts generalizing g with
  | nil => exact ⟨fun _ => Iff.rfl, rfl, rfl, fun h => h.resolve_left List.not_mem_nil⟩
  | cons t ts ih =>
    have ht := hts t List.mem_cons_self
    let g₁ := lib.write g t { lib.graph_get_vertex_value g t with state := 0 }
    have hcontains : ∀ w, lib.graph_contains_vertex g₁ w ↔ lib.graph_contains_vertex g w :=
      fun w => lib.contains_write g t _ w ht
    have hvalue : (lib.graph_get_vertex_value g₁ v).commands =
        (lib.graph_get_vertex_value g v).commands ∧
        (v = t ∨ (lib.graph_get_vertex_value g v).state = 0 →
          (lib.graph_get_vertex_value g₁ v).state = 0) := by
      by_cases hvt : v = t
      · subst hvt
        rw [lib.value_write g v _ ht]
        exact ⟨rfl, fun _ => rfl⟩
      · rw [lib.value_write_ne g t _ v ht hv hvt]
        exact ⟨rfl, fun h => h.resolve_left hvt⟩
    obtain ⟨hc, hn, hcmd, hst⟩ := ih (g := g₁)
      (fun w hw => (hcontains w).mpr (hts w (List.mem_cons_of_mem _ hw))) ((hcontains v).mpr hv)
    refine ⟨fun w => (hc w).trans (hcontains w), hn.trans (lib.neighbors_write g t _ v ht hv),
      hcmd.trans hvalue.1, fun h => hst ?_⟩
    rw [List.mem_cons, or_assoc] at h
    rcases h with h | h | h
    · exact .inr (hvalue.2 (.inl h))
    · exact .inl h
    · exact .inr (hvalue.2 (.inr h))

/-- **Only the states** of the vertices are set. -/
theorem zero_out_states_spec (hv : lib.graph_contains_vertex g v) :
    lib.graph_contains_vertex (zero_out_states g) v ∧
      lib.graph_neighbors (zero_out_states g) v = lib.graph_neighbors g v ∧
      (lib.graph_get_vertex_value (zero_out_states g) v).commands =
        (lib.graph_get_vertex_value g v).commands ∧
      (lib.graph_get_vertex_value (zero_out_states g) v).state = 0 := by
  obtain ⟨hc, hn, hcmd, hst⟩ := foldl_write_spec (fun t => (lib.mem_vertices g t).mp) hv
  exact ⟨(hc v).mpr hv, hn, hcmd, hst (.inl ((lib.mem_vertices g v).mpr hv))⟩

theorem contains_zero_out_states (hnil : lib.graph_contains_vertex g []) (v : Str) :
    lib.graph_contains_vertex (zero_out_states g) v ↔ lib.graph_contains_vertex g v :=
  (foldl_write_spec (fun t => (lib.mem_vertices g t).mp) hnil).1 v

/-! ### The meaning -/

def Edge (g : lib.G) (t d : Str) : Prop :=
  lib.graph_contains_vertex g t ∧ d ∈ lib.graph_neighbors g t

/-- The graph says what the makefile does. -/
structure Meaning (g : lib.G) (bs : List Block) (goals : List Str) : Prop where
  edges t d : t ≠ [] → (Edge g t d ↔ Lists bs t d)
  commands t : lib.graph_contains_vertex g t →
    (lib.graph_get_vertex_value g t).commands = commands t bs
  goals d : Edge g [] d ↔ d ∈ wanted bs goals
  vertices v : lib.graph_contains_vertex g v ↔ Mentions bs v
  states v : lib.graph_contains_vertex g v → (lib.graph_get_vertex_value g v).state = 0

/-- The commands of the last block but one that has any begin on a line whose number is 0 as an
    `int` for no target. -/
def Numbered (bs : List Block) : Prop :=
  ∀ t, ∀ r ∈ (recipes t bs).dropLast.getLast?, ¬ 2 ^ 32 ∣ r.first

/-- The lines are well formed, and there is something to make. -/
def Accepted (its : List (Line × ℕ)) (goals : List Str) : Prop :=
  WellFormed its ∧ wanted (blocks its) goals ≠ [] ∧
    ∀ d ∈ wanted (blocks its) goals, Mentions (blocks its) d

/-- The graph that is returned. -/
structure Finished (g : lib.G) (bs : List Block) (goals : List Str) : Prop where
  contains v : lib.graph_contains_vertex g v ↔ Mentions bs v
  neighbors v : lib.graph_contains_vertex g v →
    ∀ d, d ∈ lib.graph_neighbors g v ↔ Lists bs v d ∨ v = [] ∧ d ∈ wanted bs goals
  kept_commands v : lib.graph_contains_vertex g v →
    (lib.graph_get_vertex_value g v).commands = (kept (recipes v bs)).1
  states v : lib.graph_contains_vertex g v → (lib.graph_get_vertex_value g v).state = 0

theorem Built.finished (h : Built g bs) (goals : List Str) :
    (∃ g', (wanted bs goals).foldlM add_goal g = .ok g' ∧
      (∀ d ∈ wanted bs goals, Mentions bs d) ∧ Finished (zero_out_states g') bs goals) ∨
    ∃ e, (wanted bs goals).foldlM add_goal g = .error e ∧
      ¬ ∀ d ∈ wanted bs goals, Mentions bs d := by
  have hnil : lib.graph_contains_vertex g [] := (h.contains []).mpr (.inl rfl)
  have hall : (∀ d ∈ wanted bs goals, lib.graph_contains_vertex g d) ↔
      ∀ d ∈ wanted bs goals, Mentions bs d := forall₂_congr fun d _ => h.contains d
  rcases foldlM_add_goal hnil (wanted bs goals) with ⟨g', hg', hmem, hspec⟩ | ⟨e, he, hmem⟩
  · have hnil' : lib.graph_contains_vertex g' [] := (hspec []).1.mpr hnil
    refine .inl ⟨g', hg', hall.mp hmem, fun v => ?_, fun v hv d => ?_, fun v hv => ?_,
      fun v hv => ?_⟩
    · rw [contains_zero_out_states hnil', (hspec v).1, h.contains]
    · have hv' := (contains_zero_out_states hnil' v).mp hv
      have hv := (hspec v).1.mp hv'
      rw [(zero_out_states_spec hv').2.1, ((hspec v).2 hv).2, h.neighbors v hv]
    · have hv' := (contains_zero_out_states hnil' v).mp hv
      have hv := (hspec v).1.mp hv'
      rw [(zero_out_states_spec hv').2.2.1, ((hspec v).2 hv).1, ← h.rules v hv]
    · exact (zero_out_states_spec ((contains_zero_out_states hnil' v).mp hv)).2.2.2
  · exact .inr ⟨e, he, fun h => hmem (hall.mpr h)⟩

variable (lib) in
/-- **The parser** accepts a makefile just when its lines are well formed and there is something to
    make, which it knows. -/
theorem parser_parse_makefile_spec {files : Str → Option Str} {name text : Str}
    (hfile : files name = some text) (goals : List Str) :
    (∃ g, parser_parse_makefile lib files (some name) goals = .ok g ∧
      Accepted (items text) goals ∧ Finished g (blocks (items text)) goals) ∨
    ∃ e, parser_parse_makefile lib files (some name) goals = .error e ∧
      ¬ Accepted (items text) goals := by
  have hparse : parser_parse_makefile lib files (some name) goals =
      (lines 10 text).foldlM (parse_line name) (start : State lib) >>= fun st =>
        default_targets st.first_target goals >>= fun goals =>
          goals.foldlM add_goal st.graph >>= fun g => .ok (zero_out_states g) := by
    rw [parser_parse_makefile, open_makefile, hfile]
    rfl
  rw [hparse]
  have hstart : Reads (start : State lib) [] := reads_start
  rcases hstart.lines name (lines 10 text) with ⟨st, hst, hreads⟩ | ⟨e, he, hwf⟩
  · have hreads : Reads st (items text) := hreads
    have hwf := hreads.well_formed
    have htargets := default_targets_eq (blocks (items text)) goals
    rw [← hreads.first_target] at htargets
    rw [hst]
    change (∃ g, (default_targets st.first_target goals >>= _) = _ ∧ _) ∨
      ∃ e, (default_targets st.first_target goals >>= _) = _ ∧ _
    by_cases hnone : wanted (blocks (items text)) goals = []
    · rw [htargets, if_pos hnone]
      exact .inr ⟨_, rfl, fun h => h.2.1 hnone⟩
    · rw [htargets, if_neg hnone]
      change (∃ g, (List.foldlM add_goal st.graph (wanted _ _) >>= _) = _ ∧ _) ∨
        ∃ e, (List.foldlM add_goal st.graph (wanted _ _) >>= _) = _ ∧ _
      rcases hreads.built.finished goals with ⟨g, hg, hall, hfinished⟩ | ⟨e, he, hall⟩
      · rw [hg]
        exact .inl ⟨_, rfl, ⟨hwf, hnone, hall⟩, hfinished⟩
      · rw [he]
        exact .inr ⟨e, rfl, fun h => hall h.2.2⟩
  · rw [he]
    exact .inr ⟨e, rfl, fun h => hwf h.1⟩

/-- A block is a rule line of the makefile. -/
theorem exists_rule_of_mem_blocks {its : List (Line × ℕ)} (hb : b ∈ blocks its) :
    ∃ x ∈ its, x.1 = .rule b.target b.words := by
  induction its with
  | nil => cases hb
  | cons x its ih =>
    obtain ⟨l, n⟩ := x
    have hlater : b ∈ blocks its → ∃ x ∈ (l, n) :: its, x.1 = .rule b.target b.words := fun hb =>
      (ih hb).imp fun x hx => ⟨List.mem_cons_of_mem _ hx.1, hx.2⟩
    cases l with
    | blank => exact hlater hb
    | recipe c => exact hlater hb
    | malformed => exact hlater hb
    | rule t ws =>
      rcases List.mem_cons.mp hb with rfl | hb
      · exact ⟨_, List.mem_cons_self, rfl⟩
      · exact hlater hb

theorem not_lists_nil (text d : Str) : ¬ Lists (blocks (items text)) [] d := by
  rintro ⟨b, hb, ht, -⟩
  obtain ⟨⟨l, n⟩, hx, hl⟩ := exists_rule_of_mem_blocks hb
  have hx := List.fst_mem_of_mem_zipIdx hx
  obtain ⟨buf, -, hbuf⟩ := List.mem_map.mp hx
  exact target_ne_nil (hbuf.trans hl) ht

theorem Finished.meaning_iff {text : Str} {goals : List Str}
    (h : Finished g (blocks (items text)) goals) :
    Meaning g (blocks (items text)) goals ↔ Numbered (blocks (items text)) := by
  have hkept : ∀ t, (kept (recipes t (blocks (items text)))).1 =
      commands t (blocks (items text)) ↔
        ∀ r ∈ (recipes t (blocks (items text))).dropLast.getLast?, ¬ 2 ^ 32 ∣ r.first :=
    fun t => kept_eq_iff fun r hr => ne_nil_of_mem_recipes hr
  constructor
  · intro hm t
    by_cases ht : Mentions (blocks (items text)) t
    · have hmem := (h.contains t).mpr ht
      exact (hkept t).mp ((h.kept_commands t hmem).symm.trans (hm.commands t hmem))
    · rw [recipes_eq_nil ht]
      simp
  · intro hn
    refine ⟨fun t d ht => ?_, fun t ht => ?_, fun d => ?_, h.contains, h.states⟩
    · constructor
      · rintro ⟨hmem, hd⟩
        exact ((h.neighbors t hmem d).mp hd).resolve_right fun hgoal => ht hgoal.1
      · intro hlists
        have hmem : lib.graph_contains_vertex g t :=
          (h.contains t).mpr (by_contra fun hno => not_lists hno d hlists)
        exact ⟨hmem, (h.neighbors t hmem d).mpr (.inl hlists)⟩
    · exact (h.kept_commands t ht).trans ((hkept t).mpr (hn t))
    · have hmem : lib.graph_contains_vertex g [] := (h.contains []).mpr (.inl rfl)
      rw [Edge, and_iff_right hmem, h.neighbors [] hmem, or_iff_right (not_lists_nil text d),
        and_iff_right rfl]

/-- **The meaning of a makefile** that is accepted is in its graph just when no commands that are
    overridden begin on a line whose number is 0 as an `int`. -/
theorem parser_parse_makefile_meaning_iff {files : Str → Option Str} {makeFileName : Option Str}
    {goals : List Str} (h : parser_parse_makefile lib files makeFileName goals = .ok g) :
    ∃ text, makeFileName.bind files = some text ∧
      (Meaning g (blocks (items text)) goals ↔ Numbered (blocks (items text))) := by
  cases makeFileName with
  | none => cases goals <;> cases h
  | some name =>
    cases hfile : files name with
    | none =>
      rw [parser_parse_makefile, open_makefile, hfile] at h
      cases h
    | some text =>
      refine ⟨text, hfile, ?_⟩
      rcases parser_parse_makefile_spec lib hfile goals with ⟨g', hg', -, hg⟩ | ⟨e, he, -⟩
      · obtain rfl := Except.ok.inj (h.symm.trans hg')
        exact hg.meaning_iff
      · cases h.symm.trans he

/-- A file system in which every file is the same. -/
def only (text : Str) : Str → Option Str := fun _ => some text

theorem parser_parse_makefile_meaning_iff_small : ∃ g : Graph.lib.G,
    parser_parse_makefile Graph.lib (only (lit "a: b\n\tx # y\n")) (some (lit "Makefile")) [] =
      .ok g ∧
    ∃ text, (some (lit "Makefile")).bind (only (lit "a: b\n\tx # y\n")) = some text ∧
      (Meaning g (blocks (items text)) [] ↔ Numbered (blocks (items text))) := by
  have haccepted : Accepted (items (lit "a: b\n\tx # y\n")) [] := by
    have hitems : items (lit "a: b\n\tx # y\n") =
        [(.rule (lit "a") [lit "b"], 1), (.recipe (lit "x "), 2)] := rfl
    rw [hitems]
    refine ⟨⟨rfl, by simp⟩, by simp [wanted, blocks], by simp [wanted, blocks, Mentions]⟩
  have hfile : only (lit "a: b\n\tx # y\n") (lit "Makefile") = some (lit "a: b\n\tx # y\n") := rfl
  rcases parser_parse_makefile_spec Graph.lib hfile [] with ⟨g, hg, -⟩ | ⟨e, -, hno⟩
  · exact ⟨g, hg, parser_parse_makefile_meaning_iff hg⟩
  · exact absurd haccepted hno

/-- A rule for `a`, `n` empty lines, its command, and another rule for `a` with another one. -/
def overridden (n : ℕ) : Str :=
  ([lit "a:\n"] ++ List.replicate n (lit "\n") ++ [lit "\tx\n", lit "a:\n", lit "\ty\n"]).flatten

theorem items_overridden (n : ℕ) : items (overridden n) =
    (.rule (lit "a") [], 1) :: (List.replicate n Line.blank).zipIdx 2 ++
      [(.recipe (lit "x"), n + 2), (.rule (lit "a") [], n + 3), (.recipe (lit "y"), n + 4)] := by
  have hlines : lines 10 (overridden n) =
      [lit "a:\n"] ++ List.replicate n (lit "\n") ++ [lit "\tx\n", lit "a:\n", lit "\ty\n"] := by
    refine lines_flatten fun r hr => ?_
    rw [List.append_assoc, List.mem_append, List.mem_append, List.mem_singleton] at hr
    rcases hr with rfl | hr | hr
    · exact ⟨lit "a:", rfl, by decide⟩
    · exact ⟨[], List.eq_of_mem_replicate hr, by simp⟩
    · rcases List.mem_cons.mp hr with rfl | hr
      · exact ⟨lit "\tx", rfl, by decide⟩
      · rcases List.mem_cons.mp hr with rfl | hr
        · exact ⟨lit "a:", rfl, by decide⟩
        · exact ⟨lit "\ty", List.mem_singleton.mp hr, by decide⟩
  have hrule : Line.ofRaw ((lit "a:\n").takeWhile (· ≠ 0)) = .rule (lit "a") [] := rfl
  have hblank : Line.ofRaw ((lit "\n").takeWhile (· ≠ 0)) = .blank := rfl
  have hx : Line.ofRaw ((lit "\tx\n").takeWhile (· ≠ 0)) = .recipe (lit "x") := rfl
  have hy : Line.ofRaw ((lit "\ty\n").takeWhile (· ≠ 0)) = .recipe (lit "y") := rfl
  rw [items, hlines]
  simp only [List.map_append, List.map_cons, List.map_nil, List.map_replicate, hrule, hblank, hx,
    hy]
  simp only [List.zipIdx_append, List.length_cons, List.length_replicate, List.zipIdx_cons,
    List.zipIdx_nil, List.singleton_append, Nat.add_comm 1]

theorem skip_blanks (n k : ℕ) (its : List (Line × ℕ)) :
    recipe ((List.replicate n Line.blank).zipIdx k ++ its) = recipe its ∧
      blocks ((List.replicate n Line.blank).zipIdx k ++ its) = blocks its := by
  induction n generalizing k with
  | zero => exact ⟨rfl, rfl⟩
  | succ n ih => exact ih (k + 1)

theorem blocks_overridden (n : ℕ) : blocks (items (overridden n)) =
    [⟨lit "a", [], [(lit "x", n + 2)]⟩, ⟨lit "a", [], [(lit "y", n + 4)]⟩] := by
  rw [items_overridden, List.cons_append, blocks, (skip_blanks _ _ _).1, (skip_blanks _ _ _).2]
  rfl

theorem accepted_overridden (n : ℕ) : Accepted (items (overridden n)) [] := by
  refine ⟨⟨?_, ?_⟩, ?_, ?_⟩
  · rw [items_overridden]
    rfl
  · rw [items_overridden]
    intro x hx
    rw [List.mem_append, List.mem_cons] at hx
    rcases hx with (rfl | hx) | hx
    · exact Line.noConfusion
    · rw [List.eq_of_mem_replicate (List.fst_mem_of_mem_zipIdx hx)]
      exact Line.noConfusion
    · simp only [List.mem_cons, List.not_mem_nil, or_false] at hx
      rcases hx with rfl | rfl | rfl <;> exact Line.noConfusion
  · rw [blocks_overridden]
    exact List.cons_ne_nil _ _
  · rw [blocks_overridden]
    intro d hd
    obtain rfl := List.mem_singleton.mp hd
    exact .inr ⟨_, List.mem_cons_self, .inl rfl⟩

/-- The command of line `2 ^ 32` is still there when it has been overridden. -/
theorem not_meaning : ∃ g : Graph.lib.G,
    parser_parse_makefile Graph.lib (only (overridden (2 ^ 32 - 2))) (some (lit "Makefile")) [] =
      .ok g ∧ ¬ Meaning g (blocks (items (overridden (2 ^ 32 - 2)))) [] := by
  have hfile : only (overridden (2 ^ 32 - 2)) (lit "Makefile") =
      some (overridden (2 ^ 32 - 2)) := rfl
  rcases parser_parse_makefile_spec Graph.lib hfile [] with ⟨g, hg, -, hfinished⟩ | ⟨e, -, hno⟩
  · refine ⟨g, hg, fun hm => ?_⟩
    have hnumbered := hfinished.meaning_iff.mp hm (lit "a")
    rw [blocks_overridden] at hnumbered
    exact hnumbered [(lit "x", 2 ^ 32 - 2 + 2)] (by decide) ⟨1, by rfl⟩
  · exact absurd (accepted_overridden _) hno

end SystemProgramming.ParMake
