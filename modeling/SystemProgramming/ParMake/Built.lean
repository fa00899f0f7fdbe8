import SystemProgramming.ParMake.ParserLine

namespace SystemProgramming.ParMake

/-!
# The graph of the blocks

The parser's graph stands for the rule blocks that have been read.

* `kept` — what the parser keeps of the commands of a target's blocks, and `kept_eq_iff`.
* `Built` — the graph stands for the blocks.
* `Built.block`, `Built.command` — one more rule line, and one more command.
-/

variable {lib : GraphLib Str Rule} {g : lib.G} {bs : List Block} {b : Block} {rs : List Recipe}
  {r : Recipe} {t u v w d : Str} {ws : List Str}

/-! ### Commands -/

/-- The commands and the state of a rule after a block with commands: the earlier commands are
    kept if the state is 0. -/
def keep (rule : List Str × ℤ) (r : Recipe) : List Str × ℤ :=
  (if rule.2 = 0 then rule.1 ++ r.map Prod.fst else r.map Prod.fst, (r.first : ℤ).bmod (2 ^ 32))

def kept (rs : List Recipe) : List Str × ℤ := rs.foldl keep ([], 0)

/-- One more command of the same block. -/
theorem keep_append (rule : List Str × ℤ) (hr : r ≠ []) (c : Str) (n : ℕ) :
    keep rule (r ++ [(c, n)]) = ((keep rule r).1 ++ [c], (keep rule r).2) := by
  obtain ⟨x, r, rfl⟩ := List.exists_cons_of_ne_nil hr
  have hfirst : Recipe.first (x :: r ++ [(c, n)]) = Recipe.first (x :: r) := rfl
  have hmap : List.map Prod.fst [(c, n)] = [c] := rfl
  rw [keep, keep, List.map_append, hfirst, hmap]
  by_cases hstate : rule.2 = 0
  · simp only [if_pos hstate, List.append_assoc]
  · simp only [if_neg hstate]

theorem push_command_eq (c : Str) (n : ℕ) (in_command_block : Bool) (rule : Rule) :
    ((push_command c n in_command_block rule).commands,
      (push_command c n in_command_block rule).state) =
      if in_command_block then (rule.commands ++ [c], rule.state)
      else keep (rule.commands, rule.state) [(c, n)] := by
  cases in_command_block with
  | true => rfl
  | false =>
    rw [push_command, keep]
    by_cases hstate : rule.state = 0 <;> simp [hstate, Recipe.first]

theorem kept_concat (rs : List Recipe) (r : Recipe) : kept (rs ++ [r]) = keep (kept rs) r :=
  List.foldl_concat ..

theorem keep_ne_nil (rule : List Str × ℤ) (hr : r ≠ []) : (keep rule r).1 ≠ [] := by
  have hmap : r.map Prod.fst ≠ [] := fun h => hr (List.map_eq_nil_iff.mp h)
  rw [keep]
  dsimp only
  split
  · exact fun h => hmap (List.append_eq_nil_iff.mp h).2
  · exact hmap

/-- The state of a rule is 0 when the line number is as an `int`. -/
theorem keep_state (rule : List Str × ℤ) (r : Recipe) : (keep rule r).2 = 0 ↔ 2 ^ 32 ∣ r.first := by
  rw [keep]
  dsimp only
  rw [← Int.dvd_iff_bmod_eq_zero]
  exact Int.natCast_dvd_natCast

/-- Only the commands of the last block are left, unless the state was 0 after the last but one. -/
theorem kept_eq_iff (h : ∀ r ∈ rs, r ≠ []) :
    (kept rs).1 = (match rs.getLast? with | none => [] | some r => r.map Prod.fst) ↔
      ∀ r ∈ rs.dropLast.getLast?, ¬ 2 ^ 32 ∣ r.first := by
  rcases List.eq_nil_or_concat' rs with rfl | ⟨rs, r, rfl⟩
  · simp [kept]
  · rw [kept_concat, List.getLast?_concat, List.dropLast_concat]
    rcases List.eq_nil_or_concat' rs with rfl | ⟨rs, q, rfl⟩
    · simp [kept, keep]
    · have hq := keep_ne_nil (kept rs) (h q (by simp))
      have hstate := keep_state (kept rs) q
      rw [kept_concat, List.getLast?_concat, keep]
      by_cases hdvd : 2 ^ 32 ∣ q.first
      · rw [if_pos (hstate.mpr hdvd)]
        refine iff_of_false (fun heq => hq ?_) fun hall => hall q rfl hdvd
        exact List.append_left_eq_self.mp heq
      · rw [if_neg (hstate.not.mpr hdvd)]
        refine iff_of_true rfl fun r hr => ?_
        obtain rfl := Option.some.inj hr
        exact hdvd

/-! ### The graph -/

/-- The graph stands for the blocks. -/
structure Built (g : lib.G) (bs : List Block) : Prop where
  contains v : lib.graph_contains_vertex g v ↔ Mentions bs v
  neighbors t : lib.graph_contains_vertex g t →
    ∀ d, d ∈ lib.graph_neighbors g t ↔ Lists bs t d
  rules t : lib.graph_contains_vertex g t →
    ((lib.graph_get_vertex_value g t).commands, (lib.graph_get_vertex_value g t).state) =
      kept (recipes t bs)

theorem contains_add_rule : lib.graph_contains_vertex (add_rule g v) w ↔
    w = v ∨ lib.graph_contains_vertex g w := by
  rw [add_rule]
  split
  · rename_i hv
    exact ⟨.inr, fun h => h.elim (· ▸ hv) id⟩
  · exact lib.contains_set g v _ w

/-- A vertex is new, or it is as it was. -/
theorem add_rule_cases (h : lib.graph_contains_vertex (add_rule g v) w) :
    (lib.graph_contains_vertex g w ∧
      lib.graph_neighbors (add_rule g v) w = lib.graph_neighbors g w ∧
      lib.graph_get_vertex_value (add_rule g v) w = lib.graph_get_vertex_value g w) ∨
    (¬ lib.graph_contains_vertex g w ∧ lib.graph_neighbors (add_rule g v) w = [] ∧
      lib.graph_get_vertex_value (add_rule g v) w = str_to_rule_constructor w) := by
  by_cases hw : lib.graph_contains_vertex g w
  · refine .inl ⟨hw, ?_⟩
    rw [add_rule]
    split
    · exact ⟨rfl, rfl⟩
    · rename_i hv
      have hne : w ≠ v := fun h => hv (h ▸ hw)
      exact ⟨lib.neighbors_set g v _ w hw, lib.value_set_ne g v _ w hw hne⟩
  · obtain rfl := (contains_add_rule.mp h).resolve_right hw
    refine .inr ⟨hw, ?_⟩
    rw [add_rule, if_neg hw]
    exact ⟨lib.neighbors_set_new g w _ hw, lib.value_set g w _⟩

theorem Built.neighbors_add_rule (h : Built g bs)
    (hv : lib.graph_contains_vertex (add_rule g u) v) (d : Str) :
    d ∈ lib.graph_neighbors (add_rule g u) v ↔ Lists bs v d := by
  rcases add_rule_cases hv with ⟨hv, hneighbors, -⟩ | ⟨hv, hneighbors, -⟩
  · rw [hneighbors]
    exact h.neighbors v hv d
  · rw [hneighbors]
    exact iff_of_false List.not_mem_nil (not_lists ((h.contains v).not.mp hv) d)

theorem Built.rules_add_rule (h : Built g bs)
    (hv : lib.graph_contains_vertex (add_rule g u) v) :
    ((lib.graph_get_vertex_value (add_rule g u) v).commands,
      (lib.graph_get_vertex_value (add_rule g u) v).state) = kept (recipes v bs) := by
  rcases add_rule_cases hv with ⟨hv, -, hvalue⟩ | ⟨hv, -, hvalue⟩
  · rw [hvalue]
    exact h.rules v hv
  · rw [hvalue, recipes_eq_nil ((h.contains v).not.mp hv)]
    rfl

/-- The block of a rule line, before its dependencies are added. -/
theorem Built.target (h : Built g bs) (t : Str) : Built (add_rule g t) (bs ++ [⟨t, [], []⟩]) where
  contains v := by
    rw [contains_add_rule, h.contains, mentions_concat]
    simp [or_comm]
  neighbors v hv d := by
    rw [lists_concat, or_iff_left fun h => List.not_mem_nil h.2]
    exact h.neighbors_add_rule hv d
  rules v hv := by
    rw [recipes_concat, if_neg (by simp), List.append_nil]
    exact h.rules_add_rule hv

/-- One more dependency. -/
theorem Built.dependency (h : Built g (bs ++ [⟨t, ws, []⟩])) (d : Str) :
    Built (add_dependency t g d) (bs ++ [⟨t, ws ++ [d], []⟩]) := by
  have htarget : lib.graph_contains_vertex (add_rule g d) t :=
    contains_add_rule.mpr (.inr ((h.contains t).mpr (mentions_concat.mpr (.inr (.inl rfl)))))
  have hdep : lib.graph_contains_vertex (add_rule g d) d := contains_add_rule.mpr (.inl rfl)
  have hcontains : ∀ v, lib.graph_contains_vertex (add_dependency t g d) v ↔
      lib.graph_contains_vertex (add_rule g d) v :=
    fun v => lib.contains_add _ t d v htarget hdep
  refine ⟨fun v => ?_, fun v hv w => ?_, fun v hv => ?_⟩
  · rw [hcontains, contains_add_rule, h.contains, mentions_concat, mentions_concat, or_comm]
    simp [or_assoc]
  · have hv := (hcontains v).mp hv
    have hlists : Lists (bs ++ [⟨t, ws ++ [d], []⟩]) v w ↔
        Lists (bs ++ [⟨t, ws, []⟩]) v w ∨ v = t ∧ w = d := by
      rw [lists_concat, lists_concat, or_assoc]
      simp [and_or_left, eq_comm]
    rw [hlists, ← h.neighbors_add_rule hv w]
    exact lib.mem_neighbors_add _ t d v w htarget hdep hv
  · have hv := (hcontains v).mp hv
    have hrecipes : recipes v (bs ++ [⟨t, ws ++ [d], []⟩]) = recipes v (bs ++ [⟨t, ws, []⟩]) := by
      simp [recipes_concat]
    rw [hrecipes, ← h.rules_add_rule hv, add_dependency, lib.value_add _ t d v htarget hdep hv]

/-- **A rule line** begins a block. -/
theorem Built.block (h : Built g bs) (t : Str) (ws : List Str) :
    Built (ws.foldl (add_dependency t) (add_rule g t)) (bs ++ [⟨t, ws, []⟩]) := by
  induction ws using List.reverseRecOn with
  | nil => exact h.target t
  | append_singleton ws d ih =>
    rw [List.foldl_concat]
    exact ih.dependency d

/-- The first command of a block decides whether the earlier ones are kept; the others are
    pushed. -/
theorem kept_extend (bs : List Block) (b : Block) (c : Str) (n : ℕ) :
    kept (recipes b.target (bs ++ [b.extend [(c, n)]])) =
      if b.recipe ≠ [] then
        ((kept (recipes b.target (bs ++ [b]))).1 ++ [c], (kept (recipes b.target (bs ++ [b]))).2)
      else keep (kept (recipes b.target (bs ++ [b]))) [(c, n)] := by
  have hextend : (b.extend [(c, n)]).target = b.target ∧ (b.extend [(c, n)]).recipe ≠ [] :=
    ⟨rfl, by simp [Block.extend]⟩
  rw [recipes_concat, recipes_concat, if_pos hextend, kept_concat]
  by_cases hb : b.recipe = []
  · have hnone : ¬ (b.target = b.target ∧ b.recipe ≠ []) := fun h => h.2 hb
    rw [if_neg hnone, List.append_nil, if_neg (not_not.mpr hb), Block.extend, hb]
    rfl
  · have hsome : b.target = b.target ∧ b.recipe ≠ [] := ⟨rfl, hb⟩
    rw [if_pos hsome, if_pos hb, kept_concat]
    exact keep_append _ hb c n

/-- **A command** belongs to the last block. -/
theorem Built.command (h : Built g (bs ++ [b])) (c : Str) (n : ℕ) :
    Built (lib.write g b.target (push_command c n (b.recipe ≠ [])
      (lib.graph_get_vertex_value g b.target))) (bs ++ [b.extend [(c, n)]]) := by
  have htarget : lib.graph_contains_vertex g b.target :=
    (h.contains _).mpr (mentions_concat.mpr (.inr (.inl rfl)))
  refine ⟨fun v => ?_, fun v hv w => ?_, fun v hv => ?_⟩
  · rw [lib.contains_write _ _ _ _ htarget, h.contains, mentions_concat, mentions_concat]
    rfl
  · have hv := (lib.contains_write _ _ _ _ htarget).mp hv
    rw [lib.neighbors_write _ _ _ _ htarget hv, h.neighbors v hv, lists_concat, lists_concat]
    rfl
  · have hv := (lib.contains_write _ _ _ _ htarget).mp hv
    by_cases hvt : v = b.target
    · subst hvt
      rw [lib.value_write _ _ _ htarget, push_command_eq, kept_extend, ← h.rules _ hv]
      simp only [decide_eq_true_eq]
    · have hrecipes : recipes v (bs ++ [b.extend [(c, n)]]) = recipes v (bs ++ [b]) := by
        rw [recipes_concat, recipes_concat, if_neg fun h => hvt h.1.symm,
          if_neg fun h => hvt h.1.symm]
      rw [lib.value_write_ne _ _ _ _ htarget hv hvt, h.rules v hv, hrecipes]

end SystemProgramming.ParMake
