import SystemProgramming.ParMake.Graph

namespace SystemProgramming.ParMake

open SystemProgramming.Lib Relation

/-!
# What preprocessing leaves

* `checkCyclicFunc_spec` — the recursion ends, says whether a cycle or a visited vertex can
  be reached, and restores the visited set when it says no.
* `find_useful_nodes_helper_spec` — the recursion ends and marks what can be reached.
* `preprocess_pruned` — the graph that is left has no cycle, and all of it can be reached
  from the sentinel.
* `preprocess_exact` — which vertices and edges of the parser's graph are left.
-/

variable {V : Type*} [DecidableEq V] {g g' : Graph V} {s t u v w : V} {fuel : ℕ}
  {visited useful : Finset V}

/-- What the threads may assume of the graph. -/
structure Pruned (sentinel : V) (g : Graph V) : Prop where
  sentinel_mem : sentinel ∈ g.vertices
  reach : ∀ v ∈ g.vertices, ReflTransGen g.Dep sentinel v
  acyclic : Acyclic g.Dep

/-- The vertices that are not in the set. -/
def Graph.fresh (g : Graph V) (visited : Finset V) : List V :=
  g.vertices.filter (fun v => v ∉ visited)

/-- Marking a vertex leaves fewer fresh ones. -/
theorem Graph.fresh_insert_lt (hv : v ∈ g.vertices) (hn : v ∉ visited) :
    (g.fresh (insert v visited)).length < (g.fresh visited).length := by
  have hsub : (v :: g.fresh (insert v visited)).Subperm (g.fresh visited) := by
    refine List.subperm_of_subset ?_ (fun w hw => ?_)
    · refine List.nodup_cons.mpr ⟨by simp [Graph.fresh], g.vertices_nodup.filter _⟩
    · rcases List.mem_cons.mp hw with rfl | hw
      · simpa [Graph.fresh, hv] using hn
      · simp only [Graph.fresh, List.mem_filter, Finset.mem_insert, decide_eq_true_eq,
          not_or] at hw ⊢
        exact ⟨hw.1, hw.2.2⟩
  exact Nat.lt_of_succ_le hsub.length_le

theorem Graph.fresh_mono (hle : visited ⊆ useful) :
    (g.fresh useful).length ≤ (g.fresh visited).length := by
  refine (List.subperm_of_subset (g.vertices_nodup.filter _) (fun w hw => ?_)).length_le
  simp only [Graph.fresh, List.mem_filter, decide_eq_true_eq] at hw ⊢
  exact ⟨hw.1, fun hc => hw.2 (hle hc)⟩

/-! ### Cyclic goals -/

/-- A vertex of the set, or one on a cycle, can be reached from `v`. -/
def Meets (g : Graph V) (visited : Finset V) (v : V) : Prop :=
  ∃ u, ReflTransGen g.Dep v u ∧ (u ∈ visited ∨ TransGen g.Dep u u)

/-- The answer of a check of `v` from the set `visited`. -/
def Answers (g : Graph V) (visited : Finset V) (v : V) (r : Option (Bool × Finset V)) : Prop :=
  (r = some (false, visited) ∧ ¬ Meets g visited v) ∨
    ((∃ vis, r = some (true, vis)) ∧ Meets g visited v)

theorem checkAll_spec {check : V → Finset V → Option (Bool × Finset V)} (ns : List V)
    (hcheck : ∀ n ∈ ns, Answers g visited n (check n visited)) :
    (checkAll check ns visited = some (false, visited) ∧ ∀ n ∈ ns, ¬ Meets g visited n) ∨
      ((∃ vis, checkAll check ns visited = some (true, vis)) ∧ ∃ n ∈ ns, Meets g visited n) := by
  induction ns with
  | nil => exact .inl ⟨rfl, by simp⟩
  | cons n ns ih =>
    rw [checkAll]
    rcases hcheck n (by simp) with ⟨hr, hno⟩ | ⟨⟨vis, hr⟩, hyes⟩
    · rcases ih (fun m hm => hcheck m (by simp [hm])) with ⟨hr', hno'⟩ | ⟨⟨vis, hr'⟩, m, hm, hyes⟩
      · exact .inl ⟨by simp only [hr, hr'], by simpa [hno] using hno'⟩
      · exact .inr ⟨⟨vis, by simp only [hr, hr']⟩, m, by simp [hm], hyes⟩
    · exact .inr ⟨⟨vis, by simp only [hr]⟩, n, by simp, hyes⟩

/-- What can be met from an unvisited vertex is met from one of its neighbours once the
    vertex is visited. -/
theorem meets_iff (hv : v ∉ visited) :
    Meets g visited v ↔ ∃ n ∈ g.neighbors v, Meets g (insert v visited) n := by
  constructor
  · rintro ⟨u, hvu, hu⟩
    by_cases hcyc : TransGen g.Dep v v
    · obtain ⟨n, hvn, hnv⟩ := TransGen.head'_iff.mp hcyc
      exact ⟨n, hvn, v, hnv, .inl (Finset.mem_insert_self v visited)⟩
    · rcases ReflTransGen.cases_head hvu with rfl | ⟨n, hvn, hnu⟩
      · exact absurd (hu.resolve_left hv) hcyc
      · exact ⟨n, hvn, u, hnu, hu.imp_left (Finset.mem_insert_of_mem)⟩
  · rintro ⟨n, hn, u, hnu, hu⟩
    rcases hu with hu | hu
    · rcases Finset.mem_insert.mp hu with rfl | hu
      · exact ⟨u, .refl, .inr (TransGen.head' hn hnu)⟩
      · exact ⟨u, .head hn hnu, .inl hu⟩
    · exact ⟨u, .head hn hnu, .inr hu⟩

/-- **`checkCyclicFunc`** ends with the right answer. -/
theorem checkCyclicFunc_spec (hv : v ∈ g.vertices) (hfuel : (g.fresh visited).length < fuel) :
    Answers g visited v (checkCyclicFunc g fuel v visited) := by
  induction fuel generalizing v visited with
  | zero => omega
  | succ fuel ih =>
    rw [checkCyclicFunc]
    by_cases hvis : v ∈ visited
    · rw [if_pos hvis]
      exact .inr ⟨⟨visited, rfl⟩, v, .refl, .inl hvis⟩
    · rw [if_neg hvis, Answers, meets_iff hvis]
      have hlt := g.fresh_insert_lt hv hvis
      have hall := checkAll_spec (g.neighbors v)
        (fun n hn => (ih (g.target_mem v n hn) (by omega) : Answers g (insert v visited) n _))
      rcases hall with ⟨hr, hno⟩ | ⟨⟨vis, hr⟩, hyes⟩
      · refine .inl ⟨?_, by simpa using hno⟩
        simp only [hr, Finset.erase_insert hvis]
      · exact .inr ⟨⟨vis, by simp only [hr]⟩, hyes⟩

/-- A cycle can be reached from `v`. -/
def Cyclic (g : Graph V) (v : V) : Prop :=
  ∃ u, ReflTransGen g.Dep v u ∧ TransGen g.Dep u u

/-- **`detectCycle`** says whether a cycle can be reached. -/
theorem detectCycle_spec (hv : v ∈ g.vertices) :
    (detectCycle g v = some false ∧ ¬ Cyclic g v) ∨ (detectCycle g v = some true ∧ Cyclic g v) := by
  have hfuel : (g.fresh ∅).length < g.vertices.length + 1 :=
    Nat.lt_succ_of_le (List.length_filter_le ..)
  have hiff : Meets g ∅ v ↔ Cyclic g v := by simp [Meets, Cyclic]
  rcases checkCyclicFunc_spec hv hfuel with ⟨hr, hno⟩ | ⟨⟨vis, hr⟩, hyes⟩
  · exact .inl ⟨by rw [detectCycle, hr]; rfl, fun hc => hno (hiff.mpr hc)⟩
  · exact .inr ⟨by rw [detectCycle, hr]; rfl, hiff.mp hyes⟩

omit [DecidableEq V] in
theorem checkAll_restores {check : V → Finset V → Option (Bool × Finset V)} (ns : List V)
    (hcheck : ∀ n vis, check n visited = some (false, vis) → vis = visited) {vis : Finset V}
    (h : checkAll check ns visited = some (false, vis)) : vis = visited := by
  induction ns with
  | nil => simpa [checkAll, eq_comm] using h
  | cons n ns ih =>
    rw [checkAll] at h
    rcases hr : check n visited with _ | ⟨_ | _, vis'⟩
    · simp [hr] at h
    · obtain rfl := hcheck n vis' hr
      exact ih (by simpa only [hr] using h)
    · simp [hr] at h

/-- Whatever set is passed, a check that answers no leaves it as it was: a vertex of the set
    is answered with yes, and another one is removed again. -/
theorem checkCyclicFunc_restores {vis : Finset V}
    (h : checkCyclicFunc g fuel v visited = some (false, vis)) : vis = visited := by
  induction fuel generalizing v visited vis with
  | zero => simp [checkCyclicFunc] at h
  | succ fuel ih =>
    rw [checkCyclicFunc] at h
    by_cases hvis : v ∈ visited
    · simp [hvis] at h
    · rw [if_neg hvis] at h
      rcases hr : checkAll (checkCyclicFunc g fuel) (g.neighbors v) (insert v visited)
        with _ | ⟨_ | _, vis'⟩
      · simp [hr] at h
      · obtain rfl := checkAll_restores (g.neighbors v) (fun n vis hn => ih hn) hr
        rw [hr] at h
        simp only [Finset.erase_insert hvis, Option.some.injEq, Prod.mk.injEq] at h
        exact h.2.symm
      · simp [hr] at h

/-- **Cycle detection is exact.**  From the empty set the recursion ends, and it answers yes
    just when a cycle can be reached; from any set without `v` an answer no leaves the set as
    it was. -/
theorem checkCyclicFunc_exact (g : Graph V) (hv : v ∈ g.vertices) :
    (∀ fuel, g.vertices.length < fuel → ∃ r vis,
      checkCyclicFunc g fuel v ∅ = some (r, vis) ∧ (r = true ↔ Cyclic g v)) ∧
    ∀ fuel visited vis, v ∉ visited →
      checkCyclicFunc g fuel v visited = some (false, vis) → vis = visited := by
  refine ⟨fun fuel hfuel => ?_, fun fuel visited vis _ h => checkCyclicFunc_restores h⟩
  have hfresh : (g.fresh ∅).length < fuel :=
    lt_of_le_of_lt (List.length_filter_le ..) hfuel
  have hiff : Meets g ∅ v ↔ Cyclic g v := by simp [Meets, Cyclic]
  rcases checkCyclicFunc_spec hv hfresh with ⟨hr, hno⟩ | ⟨⟨vis, hr⟩, hyes⟩
  · exact ⟨false, ∅, hr, by simpa [← hiff] using hno⟩
  · exact ⟨true, vis, hr, by simpa [← hiff] using hyes⟩

theorem checkCyclicFunc_exact_loop :
    (∃ r vis, checkCyclicFunc (Graph.ofEdges [("a", "b"), ("b", "b")]) 3 "a" ∅ = some (r, vis) ∧
      (r = true ↔ Cyclic (Graph.ofEdges [("a", "b"), ("b", "b")]) "a")) :=
  (checkCyclicFunc_exact (Graph.ofEdges [("a", "b"), ("b", "b")]) (v := "a") (by decide)).1 3
    (by decide)

theorem Cyclic.mono (hle : ∀ a b, g'.Dep a b → g.Dep a b) (h : Cyclic g' v) : Cyclic g v := by
  obtain ⟨u, h1, h2⟩ := h
  exact ⟨u, ReflTransGen.mono hle v u h1, TransGen.mono hle u u h2⟩

theorem Graph.removeEdge_dep : (g.removeEdge s t).Dep v w ↔ g.Dep v w ∧ ¬(v = s ∧ w = t) := by
  by_cases hv : v = s
  · simp [Dep, removeEdge, hv, (g.neighbors_nodup s).mem_erase_iff, and_comm]
  · simp [Dep, removeEdge, hv]

/-- **The loop over the goals** ends; it removes edges, and no cycle can be reached from a
    goal whose edge is left. -/
theorem dropCyclic_spec (tgts : List V) (htgts : ∀ v ∈ tgts, v ∈ g.vertices) :
    ∃ g', dropCyclic s tgts g = some g' ∧ g'.vertices = g.vertices ∧
      (∀ a b, g'.Dep a b → g.Dep a b) ∧ ∀ v ∈ tgts, g'.Dep s v → ¬ Cyclic g' v := by
  induction tgts generalizing g with
  | nil => exact ⟨g, rfl, rfl, fun _ _ h => h, by simp⟩
  | cons v tgts ih =>
    rcases detectCycle_spec (htgts v (by simp)) with ⟨hr, hno⟩ | ⟨hr, hyes⟩
    · obtain ⟨g', h1, h2, h3, h4⟩ := ih (g := g) (fun w hw => htgts w (by simp [hw]))
      refine ⟨g', by rw [dropCyclic, hr]; exact h1, h2, h3, fun w hw hsw => ?_⟩
      rcases List.mem_cons.mp hw with rfl | hw
      · exact fun hc => hno (hc.mono h3)
      · exact h4 w hw hsw
    · obtain ⟨g', h1, h2, h3, h4⟩ := ih (g := g.removeEdge s v)
        (fun w hw => htgts w (by simp [hw]))
      refine ⟨g', by rw [dropCyclic, hr]; exact h1, h2,
        fun a b hab => (Graph.removeEdge_dep.mp (h3 a b hab)).1, fun w hw hsw => ?_⟩
      rcases List.mem_cons.mp hw with rfl | hw
      · exact absurd ⟨rfl, rfl⟩ (Graph.removeEdge_dep.mp (h3 s w hsw)).2
      · exact h4 w hw hsw

/-- No cycle can be reached from the sentinel either. -/
theorem not_cyclic_sentinel (h : ∀ v, g.Dep s v → ¬ Cyclic g v) : ¬ Cyclic g s := by
  rintro ⟨u, hsu, hu⟩
  rcases ReflTransGen.cases_head hsu with rfl | ⟨v, hsv, hvu⟩
  · obtain ⟨v, hsv, hvs⟩ := TransGen.head'_iff.mp hu
    exact h v hsv ⟨s, hvs, hu⟩
  · exact h v hsv ⟨u, hvu, hu⟩

/-! ### Useful vertices -/

/-- `marked` grew from `useful` by vertices that `P` holds of, with all their neighbours. -/
structure Grows (g : Graph V) (P : V → Prop) (useful marked : Finset V) : Prop where
  subset : useful ⊆ marked
  new : ∀ x ∈ marked, x ∉ useful → P x
  closed : ∀ x ∈ marked, x ∉ useful → ∀ y, g.Dep x y → y ∈ marked

theorem Grows.refl {P : V → Prop} : Grows g P useful useful :=
  ⟨subset_rfl, fun _ h hn => absurd h hn, fun _ h hn => absurd h hn⟩

theorem Grows.trans {P : V → Prop} {m₁ m₂ : Finset V} (h1 : Grows g P useful m₁)
    (h2 : Grows g P m₁ m₂) : Grows g P useful m₂ where
  subset := h1.subset.trans h2.subset
  new x hx hn := by
    by_cases hm : x ∈ m₁
    · exact h1.new x hm hn
    · exact h2.new x hx hm
  closed x hx hn y hy := by
    by_cases hm : x ∈ m₁
    · exact h2.subset (h1.closed x hm hn y hy)
    · exact h2.closed x hx hm y hy

theorem Grows.imp {P Q : V → Prop} {m : Finset V} (h : Grows g P useful m)
    (hPQ : ∀ x, P x → Q x) : Grows g Q useful m :=
  ⟨h.subset, fun x hx hn => hPQ x (h.new x hx hn), h.closed⟩

/-- The loop of `find_useful_nodes_helper` over the neighbours. -/
theorem foldlM_grows {mark : Finset V → V → Option (Finset V)} {P : V → Prop} (ns : List V)
    (useful : Finset V)
    (hmark : ∀ n ∈ ns, ∀ m, useful ⊆ m → ∃ m', mark m n = some m' ∧ n ∈ m' ∧ Grows g P m m') :
    ∃ m', ns.foldlM mark useful = some m' ∧ (∀ n ∈ ns, n ∈ m') ∧ Grows g P useful m' := by
  induction ns generalizing useful with
  | nil => exact ⟨useful, rfl, by simp, Grows.refl⟩
  | cons n ns ih =>
    obtain ⟨m₁, h1, hn, hg⟩ := hmark n (by simp) useful subset_rfl
    obtain ⟨m₂, h2, hns, hg'⟩ := ih m₁
      (fun k hk m hm => hmark k (by simp [hk]) m (hg.subset.trans hm))
    refine ⟨m₂, by rw [List.foldlM_cons, h1]; exact h2, fun k hk => ?_, hg.trans hg'⟩
    rcases List.mem_cons.mp hk with rfl | hk
    · exact hg'.subset hn
    · exact hns k hk

/-- **`find_useful_nodes_helper`** ends, and marks what can be reached. -/
theorem find_useful_nodes_helper_spec (fuel : ℕ) (useful : Finset V) (ht : t ∈ g.vertices)
    (hfuel : (g.fresh useful).length < fuel) :
    ∃ m, find_useful_nodes_helper g fuel useful t = some m ∧ t ∈ m ∧
      Grows g (ReflTransGen g.Dep t) useful m := by
  induction fuel generalizing t useful with
  | zero => omega
  | succ fuel ih =>
    rw [find_useful_nodes_helper]
    by_cases hin : t ∈ useful
    · exact ⟨useful, if_pos hin, hin, Grows.refl⟩
    · rw [if_neg hin]
      -- every call on a neighbour has one vertex less to mark
      have hlt := g.fresh_insert_lt ht hin
      obtain ⟨m, h1, hns, hg⟩ := foldlM_grows (g := g) (P := ReflTransGen g.Dep t)
        (g.neighbors t) (insert t useful) (fun n hn m hm => by
          have hle := g.fresh_mono hm
          obtain ⟨m', h1, h2, h3⟩ := ih m (g.target_mem t n hn) (by omega)
          exact ⟨m', h1, h2, h3.imp (fun x hx => .head hn hx)⟩)
      refine ⟨m, h1, hg.subset (Finset.mem_insert_self t useful), ⟨?_, fun x hx hn => ?_,
        fun x hx hn y hy => ?_⟩⟩
      · exact (Finset.subset_insert t useful).trans hg.subset
      · by_cases hxt : x = t
        · exact hxt ▸ .refl
        · exact hg.new x hx (by simp [hxt, hn])
      · by_cases hxt : x = t
        · exact hns y (hxt ▸ hy)
        · exact hg.closed x hx (by simp [hxt, hn]) y hy

theorem Graph.removeVertex_dep {k : V} :
    (g.removeVertex k).Dep v w ↔ g.Dep v w ∧ v ≠ k ∧ w ≠ k := by
  by_cases hv : v = k
  · simp [Dep, removeVertex, hv]
  · simp [Dep, removeVertex, hv, (g.neighbors_nodup v).mem_erase_iff, and_comm]

/-- Removing a list of vertices. -/
theorem removeVertices_spec (ks : List V) (g : Graph V) :
    (∀ v, v ∈ (ks.foldl Graph.removeVertex g).vertices ↔ v ∈ g.vertices ∧ v ∉ ks) ∧
      ∀ v w, (ks.foldl Graph.removeVertex g).Dep v w ↔ g.Dep v w ∧ v ∉ ks ∧ w ∉ ks := by
  induction ks generalizing g with
  | nil => simp
  | cons k ks ih =>
    obtain ⟨h1, h2⟩ := ih (g.removeVertex k)
    constructor
    · intro v
      rw [List.foldl_cons, h1]
      simp only [Graph.removeVertex, g.vertices_nodup.mem_erase_iff, List.mem_cons, not_or]
      tauto
    · intro v w
      rw [List.foldl_cons, h2, Graph.removeVertex_dep]
      simp only [List.mem_cons, not_or]
      tauto

/-- **`find_useful_nodes`** leaves what can be reached from the sentinel, with its edges. -/
theorem find_useful_nodes_spec (hs : s ∈ g.vertices) :
    ∃ g', find_useful_nodes s g = some g' ∧
      (∀ v, v ∈ g'.vertices ↔ ReflTransGen g.Dep s v) ∧
      ∀ v w, g'.Dep v w ↔ g.Dep v w ∧ ReflTransGen g.Dep s v := by
  obtain ⟨m, hrun, hsm, hg⟩ := find_useful_nodes_helper_spec (g := g)
    (g.vertices.length + 1) ∅ hs (Nat.lt_succ_of_le (List.length_filter_le ..))
  have hclosed : ∀ v w, v ∈ m → g.Dep v w → w ∈ m :=
    fun v w hv hvw => hg.closed v hv (Finset.notMem_empty v) w hvw
  have hm : ∀ v, v ∈ m ↔ ReflTransGen g.Dep s v := by
    refine fun v => ⟨fun hv => hg.new v hv (Finset.notMem_empty v), fun hv => ?_⟩
    induction hv with
    | refl => exact hsm
    | tail _ hvw ih => exact hclosed _ _ ih hvw
  have hmem : ∀ v ∈ m, v ∈ g.vertices := by
    intro v hv
    rcases ReflTransGen.cases_tail ((hm v).mp hv) with rfl | ⟨u, -, huv⟩
    · exact hs
    · exact g.target_mem u v huv
  -- what is not marked is removed, and no edge leads from a marked vertex to it
  obtain ⟨h1, h2⟩ := removeVertices_spec (g.vertices.filter (fun v => v ∉ m)) g
  refine ⟨_, by rw [find_useful_nodes, hrun], fun v => ?_, fun v w => ?_⟩
  · rw [h1, ← hm v]
    simp only [List.mem_filter, decide_eq_true_eq]
    constructor
    · rintro ⟨hv, hn⟩
      by_contra hc
      exact hn ⟨hv, hc⟩
    · exact fun hv => ⟨hmem v hv, fun hc => hc.2 hv⟩
  · rw [h2, ← hm v]
    simp only [List.mem_filter, decide_eq_true_eq]
    refine and_congr_right fun hvw => ⟨fun hn => ?_, fun hv => ⟨fun hc => hc.2 hv, fun hc => ?_⟩⟩
    · by_contra hc
      exact hn.1 ⟨g.source_mem v w hvw, hc⟩
    · exact hc.2 (hclosed v w hv hvw)

/-- **Preprocessing** ends with a graph that the threads can work on. -/
theorem preprocess_pruned (hs : s ∈ g.vertices) :
    ∃ g', preprocess s g = some g' ∧ Pruned s g' := by
  obtain ⟨g₁, h1, h2, h3, h4⟩ := dropCyclic_spec (s := s) (g.neighbors s)
    (fun v hv => g.target_mem s v hv)
  have hacyc : ¬ Cyclic g₁ s :=
    not_cyclic_sentinel (fun v hv => h4 v (h3 s v hv) hv)
  obtain ⟨g', h5, h6, h7⟩ := find_useful_nodes_spec (g := g₁) (s := s) (h2 ▸ hs)
  have hpath : ∀ v, ReflTransGen g₁.Dep s v → ReflTransGen g'.Dep s v := by
    intro v hv
    induction hv with
    | refl => exact .refl
    | @tail v w hsv hvw ih => exact .tail ih ((h7 v w).mpr ⟨hvw, hsv⟩)
  refine ⟨g', by rw [preprocess, h1]; exact h5, (h6 s).mpr .refl,
    fun v hv => hpath v ((h6 v).mp hv), fun v hcyc => hacyc ⟨v, ?_, ?_⟩⟩
  · obtain ⟨w, hvw, -⟩ := TransGen.head'_iff.mp hcyc
    exact ((h7 v w).mp hvw).2
  · exact TransGen.mono (fun a b hab => ((h7 a b).mp hab).1) v v hcyc

theorem Pruned.of_preprocess {g' : Graph V} (hs : s ∈ g.vertices) (h : preprocess s g = some g') :
    Pruned s g' := by
  obtain ⟨g₁, hg₁, hp⟩ := preprocess_pruned hs
  rwa [Option.some.inj (h.symm.trans hg₁)]

/-! ### What is left of the parser's graph -/

/-- The parser's graph: a target and a dependency are words that are not empty, so that an edge
    into the sentinel can only come from a goal that is the empty word. -/
structure Parsed (s : V) (g : Graph V) : Prop where
  sentinel_mem : s ∈ g.vertices
  only_goal : ∀ v, g.Dep v s → v = s

/-- No path leads back to the sentinel, so its edges do not count. -/
theorem Parsed.path (hp : Parsed s g) (hsame : ∀ a b, a ≠ s → g.Dep a b → g'.Dep a b)
    (hvw : ReflTransGen g.Dep v w) (hv : v ≠ s) : w ≠ s ∧ ReflTransGen g'.Dep v w := by
  induction hvw with
  | refl => exact ⟨hv, .refl⟩
  | @tail b c _ hbc ih =>
    exact ⟨fun hc => ih.1 (hp.only_goal b (hc ▸ hbc)), ih.2.tail (hsame b c ih.1 hbc)⟩

theorem Parsed.cyclic_iff (hp : Parsed s g) (hle : ∀ a b, g'.Dep a b → g.Dep a b)
    (hsame : ∀ a b, a ≠ s → g.Dep a b → g'.Dep a b) (hv : v ≠ s) : Cyclic g' v ↔ Cyclic g v := by
  refine ⟨fun h => h.mono hle, fun ⟨u, hvu, huu⟩ => ?_⟩
  obtain ⟨hu, hvu⟩ := hp.path hsame hvu hv
  obtain ⟨w, huw, hwu⟩ := TransGen.head'_iff.mp huu
  have hw : w ≠ s := fun hw => hu (hp.only_goal u (hw ▸ huw))
  exact ⟨u, hvu, TransGen.head' (hsame u w hu huw) (hp.path hsame hwu hw).2⟩

/-- **The loop over the goals** removes the edges to the goals from which a cycle can be
    reached. -/
theorem dropCyclic_exact (tgts : List V) (hp : Parsed s g) (htgts : ∀ v ∈ tgts, g.Dep s v)
    (hnodup : tgts.Nodup) :
    ∃ g', dropCyclic s tgts g = some g' ∧ g'.vertices = g.vertices ∧
      ∀ a b, g'.Dep a b ↔ g.Dep a b ∧ ¬(a = s ∧ b ∈ tgts ∧ Cyclic g b) := by
  induction tgts generalizing g with
  | nil => exact ⟨g, rfl, rfl, by simp⟩
  | cons v tgts ih =>
    rw [List.nodup_cons] at hnodup
    have htgts' : ∀ w ∈ tgts, g.Dep s w := fun w hw => htgts w (List.mem_cons_of_mem v hw)
    rcases detectCycle_spec (g.target_mem s v (htgts v List.mem_cons_self)) with
      ⟨hr, hno⟩ | ⟨hr, hyes⟩
    · obtain ⟨g', h1, h2, h3⟩ := ih hp htgts' hnodup.2
      refine ⟨g', by rw [dropCyclic, hr]; exact h1, h2, fun a b => ?_⟩
      rw [h3, List.mem_cons]
      refine and_congr_right fun _ => not_congr (and_congr_right fun _ => ?_)
      refine ⟨fun h => ⟨.inr h.1, h.2⟩, fun h => ⟨h.1.resolve_left ?_, h.2⟩⟩
      rintro rfl
      exact hno h.2
    · have hle : ∀ a b, (g.removeEdge s v).Dep a b → g.Dep a b :=
        fun a b h => (Graph.removeEdge_dep.mp h).1
      have hkept : ∀ w ∈ tgts, (g.removeEdge s v).Dep s w := by
        refine fun w hw => Graph.removeEdge_dep.mpr ⟨htgts' w hw, fun h => ?_⟩
        exact hnodup.1 (h.2 ▸ hw)
      obtain ⟨g', h1, h2, h3⟩ := ih (g := g.removeEdge s v)
        ⟨hp.sentinel_mem, fun a h => hp.only_goal a (hle a s h)⟩ hkept hnodup.2
      -- the edge that was removed is none of those that decide about the other goals
      have hcyclic : ∀ w ∈ tgts, (Cyclic (g.removeEdge s v) w ↔ Cyclic g w) := by
        intro w hw
        by_cases hws : w = s
        · subst hws
          exact ⟨fun h => h.mono hle, fun _ => ⟨w, .refl, .single (hkept w hw)⟩⟩
        · exact hp.cyclic_iff hle
            (fun a b ha hab => Graph.removeEdge_dep.mpr ⟨hab, fun h => ha h.1⟩) hws
      refine ⟨g', by rw [dropCyclic, hr]; exact h1, h2, fun a b => ?_⟩
      rw [h3, Graph.removeEdge_dep, and_assoc, List.mem_cons]
      refine and_congr_right fun _ =>
        ⟨fun ⟨hav, hno⟩ hc => ?_, fun hno => ⟨fun hav => ?_, fun hc => ?_⟩⟩
      · rcases hc.2.1 with hb | hb
        · exact hav ⟨hc.1, hb⟩
        · exact hno ⟨hc.1, hb, (hcyclic b hb).mpr hc.2.2⟩
      · exact hno ⟨hav.1, .inl hav.2, hav.2 ▸ hyes⟩
      · exact hno ⟨hc.1, .inr hc.2.1, (hcyclic b hc.2.1).mp hc.2.2⟩

/-- **Preprocessing** leaves the sentinel and what can be reached from the goals from which no
    cycle can be reached, with the edges among them but those to the dropped goals. -/
theorem preprocess_exact (hp : Parsed s g) :
    ∃ g', preprocess s g = some g' ∧
      (∀ v, v ∈ g'.vertices ↔
        v = s ∨ ∃ goal, g.Dep s goal ∧ ¬ Cyclic g goal ∧ ReflTransGen g.Dep goal v) ∧
      (∀ v w, g'.Dep v w ↔
        g.Dep v w ∧ v ∈ g'.vertices ∧ w ∈ g'.vertices ∧ ¬(v = s ∧ Cyclic g w)) ∧
      Acyclic g'.Dep := by
  obtain ⟨g₁, h1, h2, h3⟩ := dropCyclic_exact (g.neighbors s) hp (fun _ h => h)
    (g.neighbors_nodup s)
  obtain ⟨g', h4, h5, h6⟩ := find_useful_nodes_spec (g := g₁) (s := s) (h2 ▸ hp.sentinel_mem)
  have hrun : preprocess s g = some g' := by
    rw [preprocess, h1]
    exact h4
  have hle : ∀ a b, g₁.Dep a b → g.Dep a b := fun a b h => ((h3 a b).mp h).1
  have hmem : ∀ v, v ∈ g'.vertices ↔
      v = s ∨ ∃ goal, g.Dep s goal ∧ ¬ Cyclic g goal ∧ ReflTransGen g.Dep goal v := by
    intro v
    rw [h5]
    constructor
    · intro hsv
      rcases ReflTransGen.cases_head hsv with rfl | ⟨goal, hgoal, hv⟩
      · exact .inl rfl
      · obtain ⟨hdep, hkept⟩ := (h3 s goal).mp hgoal
        exact .inr ⟨goal, hdep, fun hc => hkept ⟨rfl, hdep, hc⟩, ReflTransGen.mono hle goal v hv⟩
    · rintro (rfl | ⟨goal, hdep, hno, hv⟩)
      · exact .refl
      · -- the path from the goal does not use the sentinel's edges
        have hgoal : goal ≠ s := fun h => hno ⟨goal, .refl, .single (h ▸ hdep)⟩
        have hsame : ∀ a b, a ≠ s → g.Dep a b → g₁.Dep a b :=
          fun a b ha hab => (h3 a b).mpr ⟨hab, fun h => ha h.1⟩
        exact .head ((h3 s goal).mpr ⟨hdep, fun h => hno h.2.2⟩) (hp.path hsame hv hgoal).2
  refine ⟨g', hrun, hmem, fun v w => ?_, (Pruned.of_preprocess hp.sentinel_mem hrun).acyclic⟩
  constructor
  · intro hvw
    obtain ⟨hvw₁, -⟩ := (h6 v w).mp hvw
    obtain ⟨hdep, hkept⟩ := (h3 v w).mp hvw₁
    refine ⟨hdep, g'.source_mem v w hvw, g'.target_mem v w hvw, fun h => ?_⟩
    exact hkept ⟨h.1, h.1 ▸ hdep, h.2⟩
  · rintro ⟨hdep, hv, -, hkept⟩
    exact (h6 v w).mpr ⟨(h3 v w).mpr ⟨hdep, fun h => hkept ⟨h.1, h.2.2⟩⟩, (h5 v).mp hv⟩

/-- The rules of `test_makefiles/testfile8` and its goals `all` and `e`. -/
def testfile8 : Graph String :=
  Graph.ofEdges [("all", "a"), ("all", "c"), ("a", "b"), ("b", "c"), ("c", "d"), ("d", "a"),
    ("", "all"), ("", "e")]

theorem preprocess_exact_testfile8 :
    ∃ g', preprocess "" testfile8 = some g' ∧ "" ∈ g'.vertices ∧ Acyclic g'.Dep := by
  obtain ⟨g', hrun, hmem, -, hacyc⟩ := preprocess_exact (s := "") (g := testfile8)
    ⟨by decide, fun v hv => by simp [testfile8, Graph.Dep, Graph.ofEdges] at hv⟩
  exact ⟨g', hrun, (hmem "").mpr (.inl rfl), hacyc⟩

end SystemProgramming.ParMake
