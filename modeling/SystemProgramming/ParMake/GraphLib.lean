import SystemProgramming.ParMake.Graph

namespace SystemProgramming.ParMake

/-!
# `graph.h` — the graph library, with values

The parser builds its graph by calls of the library, whose code is not there.  What is known of
it is what the header says, and the header says nothing of a key that is no vertex.

* `GraphLib` — the functions that the parser calls, with the header's promises.
* `Graph.lib` — a library that keeps them, on the graphs that `parmake` is about.
-/

/-- A graph library for keys in `V` and values in `R`. -/
structure GraphLib (V R : Type) where
  /-- `graph` -/
  G : Type
  graph_create : G
  graph_contains_vertex : G → V → Bool
  graph_vertices : G → List V
  graph_neighbors : G → V → List V
  graph_get_vertex_value : G → V → R
  graph_set_vertex_value : G → V → R → G
  graph_add_edge : G → V → V → G
  /-- What is written through the pointer that `graph_get_vertex_value` returns. -/
  write : G → V → R → G
  not_contains_create v : ¬ graph_contains_vertex graph_create v
  mem_vertices g v : v ∈ graph_vertices g ↔ graph_contains_vertex g v
  contains_set g v r w :
    graph_contains_vertex (graph_set_vertex_value g v r) w ↔ w = v ∨ graph_contains_vertex g w
  value_set g v r : graph_get_vertex_value (graph_set_vertex_value g v r) v = r
  value_set_ne g v r w : graph_contains_vertex g w → w ≠ v →
    graph_get_vertex_value (graph_set_vertex_value g v r) w = graph_get_vertex_value g w
  neighbors_set g v r w : graph_contains_vertex g w →
    graph_neighbors (graph_set_vertex_value g v r) w = graph_neighbors g w
  neighbors_set_new g v r : ¬ graph_contains_vertex g v →
    graph_neighbors (graph_set_vertex_value g v r) v = []
  contains_add g s t w : graph_contains_vertex g s → graph_contains_vertex g t →
    (graph_contains_vertex (graph_add_edge g s t) w ↔ graph_contains_vertex g w)
  value_add g s t w : graph_contains_vertex g s → graph_contains_vertex g t →
    graph_contains_vertex g w →
    graph_get_vertex_value (graph_add_edge g s t) w = graph_get_vertex_value g w
  mem_neighbors_add g s t v w : graph_contains_vertex g s → graph_contains_vertex g t →
    graph_contains_vertex g v →
    (w ∈ graph_neighbors (graph_add_edge g s t) v ↔ w ∈ graph_neighbors g v ∨ v = s ∧ w = t)
  contains_write g v r w : graph_contains_vertex g v →
    (graph_contains_vertex (write g v r) w ↔ graph_contains_vertex g w)
  value_write g v r : graph_contains_vertex g v → graph_get_vertex_value (write g v r) v = r
  value_write_ne g v r w : graph_contains_vertex g v → graph_contains_vertex g w → w ≠ v →
    graph_get_vertex_value (write g v r) w = graph_get_vertex_value g w
  neighbors_write g v r w : graph_contains_vertex g v → graph_contains_vertex g w →
    graph_neighbors (write g v r) w = graph_neighbors g w

/-! ### A library -/

namespace Graph

variable {V R : Type} [DecidableEq V]

/-- `graph_add_vertex(g, v)`: nothing happens if it is there. -/
def addVertex (g : Graph V) (v : V) : Graph V where
  vertices := if v ∈ g.vertices then g.vertices else g.vertices ++ [v]
  neighbors := g.neighbors
  antineighbors := g.antineighbors
  vertices_nodup := by
    split
    · exact g.vertices_nodup
    · rename_i hv
      exact g.vertices_nodup.append (List.nodup_singleton v) (List.disjoint_singleton.mpr hv)
  neighbors_nodup := g.neighbors_nodup
  antineighbors_nodup := g.antineighbors_nodup
  mem_antineighbors := g.mem_antineighbors
  source_mem v w h := by
    have hmem := g.source_mem v w h
    split <;> simp [hmem]
  target_mem v w h := by
    have hmem := g.target_mem v w h
    split <;> simp [hmem]

theorem mem_addVertex {g : Graph V} {v w : V} :
    w ∈ (g.addVertex v).vertices ↔ w = v ∨ w ∈ g.vertices := by
  change w ∈ (if v ∈ g.vertices then g.vertices else g.vertices ++ [v]) ↔ _
  split
  · rename_i hv
    exact ⟨.inr, fun h => h.elim (· ▸ hv) id⟩
  · rw [List.mem_append, List.mem_singleton, or_comm]

/-- `graph_add_edge(g, s, t)`: nothing happens if it is there. -/
def addEdge (g : Graph V) (s t : V) : Graph V :=
  if h : s ∈ g.vertices ∧ t ∈ g.vertices ∧ t ∉ g.neighbors s then
    { g with
      neighbors := fun v => if v = s then g.neighbors v ++ [t] else g.neighbors v
      antineighbors := fun w => if w = t then g.antineighbors w ++ [s] else g.antineighbors w
      neighbors_nodup := fun v => by
        split
        · rename_i hv
          have ht : t ∉ g.neighbors v := hv ▸ h.2.2
          exact (g.neighbors_nodup v).append (List.nodup_singleton t)
            (List.disjoint_singleton.mpr ht)
        · exact g.neighbors_nodup v
      antineighbors_nodup := fun w => by
        split
        · rename_i hw
          have hs : s ∉ g.antineighbors w := fun hs =>
            h.2.2 (hw ▸ (g.mem_antineighbors s w).mp hs)
          exact (g.antineighbors_nodup w).append (List.nodup_singleton s)
            (List.disjoint_singleton.mpr hs)
        · exact g.antineighbors_nodup w
      mem_antineighbors := fun v w => by
        by_cases hv : v = s <;> by_cases hw : w = t <;> simp [hv, hw, g.mem_antineighbors]
      source_mem := fun v w hw => by
        split at hw
        · rename_i hv
          exact hv ▸ h.1
        · exact g.source_mem v w hw
      target_mem := fun v w hw => by
        split at hw
        · rcases List.mem_append.mp hw with hw | hw
          · exact g.target_mem v w hw
          · exact List.mem_singleton.mp hw ▸ h.2.1
        · exact g.target_mem v w hw }
  else g

theorem vertices_addEdge {g : Graph V} {s t : V} : (g.addEdge s t).vertices = g.vertices := by
  rw [addEdge]
  split <;> rfl

theorem mem_neighbors_addEdge {g : Graph V} {s t v w : V} (hs : s ∈ g.vertices)
    (ht : t ∈ g.vertices) :
    w ∈ (g.addEdge s t).neighbors v ↔ w ∈ g.neighbors v ∨ v = s ∧ w = t := by
  rw [addEdge]
  split
  · dsimp only
    split
    · rename_i hv
      rw [List.mem_append, List.mem_singleton, and_iff_right hv]
    · rename_i hv
      rw [or_iff_left fun h => hv h.1]
  · rename_i h
    have hmem : t ∈ g.neighbors s := by_contra fun hmem => h ⟨hs, ht, hmem⟩
    refine ⟨.inl, ?_⟩
    rintro (h | ⟨rfl, rfl⟩)
    · exact h
    · exact hmem

/-- Graphs with a value for each key. -/
def lib [Inhabited R] : GraphLib V R where
  G := Graph V × (V → R)
  graph_create := (ofEdges [], fun _ => default)
  graph_contains_vertex g v := v ∈ g.1.vertices
  graph_vertices g := g.1.vertices
  graph_neighbors g := g.1.neighbors
  graph_get_vertex_value g := g.2
  graph_set_vertex_value g v r := (g.1.addVertex v, Function.update g.2 v r)
  graph_add_edge g s t := (g.1.addEdge s t, g.2)
  write g v r := (g.1, Function.update g.2 v r)
  not_contains_create v := by simp [ofEdges]
  mem_vertices g v := by simp
  contains_set g v r w := by simp [mem_addVertex]
  value_set g v r := Function.update_self v r g.2
  value_set_ne g v r w _ hw := Function.update_of_ne hw r g.2
  neighbors_set _ _ _ _ _ := rfl
  neighbors_set_new g v r hv := by
    refine List.eq_nil_iff_forall_not_mem.mpr fun w hw => hv ?_
    exact decide_eq_true (g.1.source_mem v w hw)
  contains_add g s t w _ _ := by simp [vertices_addEdge]
  value_add _ _ _ _ _ _ _ := rfl
  mem_neighbors_add g s t v w hs ht _ :=
    mem_neighbors_addEdge (of_decide_eq_true hs) (of_decide_eq_true ht)
  contains_write _ _ _ _ _ := Iff.rfl
  value_write g v r _ := Function.update_self v r g.2
  value_write_ne g v r w _ _ hw := Function.update_of_ne hw r g.2
  neighbors_write _ _ _ _ _ _ := rfl

end Graph

end SystemProgramming.ParMake
