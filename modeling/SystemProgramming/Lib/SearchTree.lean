import Mathlib.Data.List.Nodup

namespace SystemProgramming.Lib

/-!
# Binary search trees

A search is directed by a function that tells on which side of a key to look, so that walks that
compare keys in different ways are searches of one tree.

* `SearchTree.search`, `SearchTree.path` — what a search finds and the entries that it meets.
* `SearchTree.Ordered` — smaller keys are on the left, greater ones on the right.
* `SearchTree.search_eq_some_iff`, `SearchTree.Ordered.lookup_entries` — in an ordered tree the
  search for a key finds its entry.
* `SearchTree.search_eq_find` — a search that takes more keys for the right one ends at the first
  of them.
-/

/-- A binary tree with a key and a value at each node. -/
inductive SearchTree (κ ν : Type*)
  | leaf
  | node (left : SearchTree κ ν) (key : κ) (val : ν) (right : SearchTree κ ν)

namespace SearchTree

variable {κ ν : Type*} {t left right : SearchTree κ ν} {f g : κ → Ordering} {k : κ} {v : ν}
  {x : κ × ν}

/-- The entries from left to right. -/
def entries : SearchTree κ ν → List (κ × ν)
  | leaf => []
  | node left key val right => left.entries ++ (key, val) :: right.entries

def height : SearchTree κ ν → ℕ
  | leaf => 0
  | node left _ _ right => max left.height right.height + 1

/-- The value of the first key that `f` takes for the right one. -/
def search (f : κ → Ordering) : SearchTree κ ν → Option ν
  | leaf => none
  | node left key val right =>
    match f key with
    | .lt => left.search f
    | .eq => some val
    | .gt => right.search f

/-- The entries that the search meets. -/
def path (f : κ → Ordering) : SearchTree κ ν → List (κ × ν)
  | leaf => []
  | node left key val right =>
    (key, val) ::
      match f key with
      | .lt => left.path f
      | .eq => []
      | .gt => right.path f

/-- The keys of the left subtrees are smaller and those of the right ones greater. -/
def Ordered [Ord κ] : SearchTree κ ν → Prop
  | leaf => True
  | node left key _ right => left.Ordered ∧ right.Ordered ∧
    (∀ x ∈ left.entries, compare x.1 key = .lt) ∧ ∀ x ∈ right.entries, compare key x.1 = .lt

theorem mem_node : x ∈ (node left k v right).entries ↔
    x ∈ left.entries ∨ x = (k, v) ∨ x ∈ right.entries := by
  rw [entries, List.mem_append, List.mem_cons]

theorem height_le_length (t : SearchTree κ ν) : t.height ≤ t.entries.length := by
  induction t with
  | leaf => exact Nat.zero_le _
  | node left key val right ihl ihr =>
    rw [height, entries, List.length_append, List.length_cons]
    omega

theorem mem_of_mem_path (h : x ∈ t.path f) : x ∈ t.entries := by
  induction t with
  | leaf => exact h
  | node left key val right ihl ihr =>
    rw [mem_node]
    rw [path] at h
    obtain rfl | h := List.mem_cons.mp h
    · exact .inr (.inl rfl)
    · split at h
      · exact .inl (ihl h)
      · exact absurd h List.not_mem_nil
      · exact .inr (.inr (ihr h))

/-- What a search finds is the last entry that it meets. -/
theorem mem_of_search (h : t.search f = some v) : ∃ k, (k, v) ∈ t.path f ∧ f k = .eq := by
  induction t with
  | leaf => cases h
  | node left key val right ihl ihr =>
    rw [search] at h
    rw [path]
    cases hf : f key with
    | lt =>
      rw [hf] at h
      obtain ⟨k, hk, hf⟩ := ihl h
      exact ⟨k, List.mem_cons_of_mem _ hk, hf⟩
    | eq =>
      rw [hf] at h
      obtain rfl := Option.some.inj h
      exact ⟨key, List.mem_cons_self .., hf⟩
    | gt =>
      rw [hf] at h
      obtain ⟨k, hk, hf⟩ := ihr h
      exact ⟨k, List.mem_cons_of_mem _ hk, hf⟩

/-- A search that takes none of the keys that it meets finds nothing. -/
theorem search_eq_none (h : ∀ x ∈ t.path f, f x.1 ≠ .eq) : t.search f = none := by
  rw [Option.eq_none_iff_forall_ne_some]
  intro v hv
  obtain ⟨k, hk, heq⟩ := mem_of_search hv
  exact h (k, v) hk heq

/-- **A search that takes more keys** for the right one, and otherwise looks where the other does,
    ends at the first of them. -/
theorem search_eq_find (h : ∀ k, g k = .eq ∨ g k = f k) (t : SearchTree κ ν) :
    t.search g = ((t.path f).find? fun x => g x.1 = .eq).map Prod.snd := by
  induction t with
  | leaf => rfl
  | node left key val right ihl ihr =>
    rw [search, path]
    obtain hg | hg := h key
    · simp [hg]
    · cases hf : f key with
      | lt => simp only [hg, hf, List.find?_cons, reduceCtorEq, decide_false, ihl]
      | eq => simp only [hg, hf, List.find?_cons, decide_true, Option.map_some]
      | gt => simp only [hg, hf, List.find?_cons, reduceCtorEq, decide_false, ihr]

section Order
variable [Ord κ] [Std.TransOrd κ]

theorem Ordered.pairwise (h : t.Ordered) :
    t.entries.Pairwise fun x y => compare x.1 y.1 = .lt := by
  induction t with
  | leaf => exact .nil
  | node left key val right ihl ihr =>
    obtain ⟨hl, hr, hleft, hright⟩ := h
    refine List.pairwise_append.mpr ⟨ihl hl, List.pairwise_cons.mpr ⟨hright, ihr hr⟩, ?_⟩
    intro x hx y hy
    obtain rfl | hy := List.mem_cons.mp hy
    · exact hleft x hx
    · exact Std.TransCmp.lt_trans (hleft x hx) (hright y hy)

theorem Ordered.nodup (h : t.Ordered) : (t.entries.map Prod.fst).Nodup := by
  refine List.pairwise_map.mpr (h.pairwise.imp fun {x y} hlt heq => ?_)
  rw [heq, Std.compare_self] at hlt
  cases hlt

/-- **The search for a key.** -/
theorem search_eq_some_iff [Std.LawfulEqOrd κ] (h : t.Ordered) :
    t.search (compare k) = some v ↔ (k, v) ∈ t.entries := by
  constructor
  · intro hsearch
    obtain ⟨k', hk', heq⟩ := mem_of_search hsearch
    rw [Std.LawfulEqCmp.eq_of_compare heq]
    exact mem_of_mem_path hk'
  · intro hmem
    induction t with
    | leaf => cases hmem
    | node left key val right ihl ihr =>
      obtain ⟨hl, hr, hleft, hright⟩ := h
      rw [search]
      obtain hmem | hmem | hmem := mem_node.mp hmem
      · rw [hleft _ hmem]
        exact ihl hl hmem
      · obtain ⟨rfl, rfl⟩ := Prod.mk.inj hmem
        rw [Std.compare_self]
      · rw [Std.OrientedCmp.gt_of_lt (hright _ hmem)]
        exact ihr hr hmem

/-- The search finds what the list of the entries has for the key. -/
theorem Ordered.lookup_entries [Std.LawfulEqOrd κ] [BEq κ] [LawfulBEq κ] (h : t.Ordered) (k : κ) :
    t.entries.lookup k = t.search (compare k) := by
  refine Option.ext fun v => ?_
  rw [search_eq_some_iff h, List.lookup_eq_some_iff]
  constructor
  · rintro ⟨l₁, l₂, heq, -⟩
    simp [heq]
  · intro hmem
    obtain ⟨l₁, l₂, heq⟩ := List.append_of_mem hmem
    have hnodup := h.nodup
    rw [heq, List.map_append, List.map_cons, List.nodup_middle, List.nodup_cons] at hnodup
    refine ⟨l₁, l₂, heq, fun x hx => bne_iff_ne.mpr ?_⟩
    rintro rfl
    have hmem' : x.1 ∈ l₁.map Prod.fst := List.mem_map_of_mem hx
    exact hnodup.1 (List.mem_append_left _ hmem')

end Order

end SearchTree

end SystemProgramming.Lib
