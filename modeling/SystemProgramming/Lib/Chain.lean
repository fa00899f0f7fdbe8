import Mathlib.Data.List.Basic
import Mathlib.Data.List.Nodup
import Mathlib.Logic.Function.Basic

namespace SystemProgramming.Lib

/-!
# Singly linked lists

Nodes in a memory, each with a value and the address of the next one; `none` is the null
pointer.  `Chain nodes p xs q` says that from `p` on stand the nodes `xs`, with their
addresses and values, and that the last of them leads to `q`.

* `chain_append` — a chain splits anywhere.
* `Chain.congr` — a chain depends on its own nodes only.
* `Chain.snoc` — a new node behind the last one.
* `Chain.insert`, `Chain.unlink`, `Chain.set` — a node behind a given one, the node behind it taken
  out, and another value in a node.
* `Chain.unique`, `Chain.stuck` — what stands between an address and null.
-/

/-- A node of a list. -/
structure Node (α β : Type*) where
  data : β
  next : Option α

variable {α β : Type*} {nodes nodes' : α → Option (Node α β)} {p q r : Option α}
  {xs ys : List (α × β)} {a t : α} {v w : β}

/-- From `p` on stand `xs`, and then comes `q`. -/
def Chain (nodes : α → Option (Node α β)) : Option α → List (α × β) → Option α → Prop
  | p, [], q => p = q
  | p, (a, v) :: xs, q => p = some a ∧ ∃ next, nodes a = some ⟨v, next⟩ ∧ Chain nodes next xs q

@[simp] theorem chain_nil : Chain nodes p [] q ↔ p = q := Iff.rfl

@[simp] theorem chain_cons : Chain nodes p ((a, v) :: xs) q ↔
    p = some a ∧ ∃ next, nodes a = some ⟨v, next⟩ ∧ Chain nodes next xs q := Iff.rfl

/-- A chain splits anywhere. -/
theorem chain_append :
    Chain nodes p (xs ++ ys) q ↔ ∃ r, Chain nodes p xs r ∧ Chain nodes r ys q := by
  induction xs generalizing p with
  | nil => simp
  | cons x xs ih =>
    obtain ⟨a, v⟩ := x
    simp only [List.cons_append, chain_cons, ih]
    constructor
    · rintro ⟨hp, next, ha, r, hxs, hys⟩
      exact ⟨r, ⟨hp, next, ha, hxs⟩, hys⟩
    · rintro ⟨r, ⟨hp, next, ha, hxs⟩, hys⟩
      exact ⟨hp, next, ha, r, hxs, hys⟩

/-- A chain depends on its own nodes only. -/
theorem Chain.congr (h : Chain nodes p xs q) (hsame : ∀ x ∈ xs, nodes' x.1 = nodes x.1) :
    Chain nodes' p xs q := by
  induction xs generalizing p with
  | nil => exact h
  | cons x xs ih =>
    obtain ⟨a, v⟩ := x
    obtain ⟨hp, next, ha, hxs⟩ := h
    refine ⟨hp, next, (hsame (a, v) (by simp)).trans ha, ih hxs ?_⟩
    exact fun x hx => hsame x (List.mem_cons_of_mem _ hx)

/-- The nodes of a chain are in use. -/
theorem Chain.node (h : Chain nodes p xs q) (hx : (a, v) ∈ xs) :
    ∃ next, nodes a = some ⟨v, next⟩ := by
  induction xs generalizing p with
  | nil => exact absurd hx (by simp)
  | cons y ys ih =>
    obtain ⟨b, w⟩ := y
    obtain ⟨-, next, hb, hys⟩ := h
    rcases List.mem_cons.mp hx with heq | hx
    · obtain ⟨rfl, rfl⟩ := Prod.mk.inj heq
      exact ⟨next, hb⟩
    · exact ih hys hx

/-- What is not in use is not in a chain. -/
theorem Chain.ne_of_free (h : Chain nodes p xs q) (ha : nodes a = none) {x : α × β} (hx : x ∈ xs) :
    x.1 ≠ a := by
  rintro rfl
  obtain ⟨next, hnode⟩ := h.node hx
  exact absurd (ha.symm.trans hnode) (by simp)

/-- A chain begins with its first node. -/
theorem Chain.head (h : Chain nodes p xs none) : p = (xs.map Prod.fst).head? := by
  cases xs with
  | nil => exact h
  | cons x xs => exact h.1

variable [DecidableEq α]

/-- **A node behind the last one.**  The new node leads nowhere, and the last one to it. -/
theorem Chain.snoc (h : Chain nodes p (xs ++ [(t, w)]) none)
    (hnodup : ((xs ++ [(t, w)]).map Prod.fst).Nodup) (ha : nodes a = none) :
    Chain (Function.update (Function.update nodes a (some ⟨v, none⟩)) t (some ⟨w, some a⟩)) p
      (xs ++ [(t, w)] ++ [(a, v)]) none := by
  have hne : ∀ x ∈ xs ++ [(t, w)], x.1 ≠ a := fun x => h.ne_of_free ha
  have hta : t ≠ a := hne (t, w) (by simp)
  obtain ⟨r, hxs, hr, -⟩ := chain_append.mp h
  rw [List.append_assoc]
  apply chain_append.mpr
  refine ⟨r, hxs.congr ?_, ?_⟩
  · intro x hx
    have hxt : x.1 ≠ t := by
      rw [List.map_append, List.nodup_append] at hnodup
      exact hnodup.2.2 x.1 (List.mem_map_of_mem hx) t (by simp)
    rw [Function.update_of_ne hxt, Function.update_of_ne (hne x (List.mem_append_left _ hx))]
  · refine ⟨hr, some a, Function.update_self .., rfl, none, ?_, rfl⟩
    rw [Function.update_of_ne hta.symm, Function.update_self]

omit [DecidableEq α] in
/-- Around one node, the others have other addresses. -/
theorem ne_middle {x : α × β} (hnodup : ((xs ++ (a, v) :: ys).map Prod.fst).Nodup)
    (hx : x ∈ xs ∨ x ∈ ys) : x.1 ≠ a := by
  rw [List.map_append, List.map_cons, List.nodup_middle, List.nodup_cons, List.mem_append] at hnodup
  have hmem : x.1 ∈ xs.map Prod.fst ∨ x.1 ∈ ys.map Prod.fst :=
    hx.imp List.mem_map_of_mem List.mem_map_of_mem
  intro he
  rw [he] at hmem
  exact hnodup.1 hmem

/-- **A node behind a given one.** -/
theorem Chain.insert {next : Option α} (h : Chain nodes p (xs ++ (t, w) :: ys) q)
    (hnodup : ((xs ++ (t, w) :: ys).map Prod.fst).Nodup) (ha : nodes a = none)
    (ht : nodes t = some ⟨w, next⟩) :
    Chain (Function.update (Function.update nodes t (some ⟨w, some a⟩)) a (some ⟨v, next⟩)) p
      (xs ++ (t, w) :: (a, v) :: ys) q := by
  have hne : ∀ x ∈ xs ++ (t, w) :: ys, x.1 ≠ a := fun x => h.ne_of_free ha
  obtain ⟨r, hxs, hr, next', ht', hys⟩ := chain_append.mp h
  obtain rfl := (Node.mk.inj (Option.some.inj (ht.symm.trans ht'))).2
  have hsame : ∀ x, x ∈ xs ∨ x ∈ ys → Function.update (Function.update nodes t (some ⟨w, some a⟩)) a
      (some ⟨v, next⟩) x.1 = nodes x.1 := by
    intro x hx
    have hmem : x ∈ xs ++ (t, w) :: ys :=
      List.mem_append.mpr (hx.imp_right (List.mem_cons_of_mem _))
    rw [Function.update_of_ne (hne x hmem), Function.update_of_ne (ne_middle hnodup hx)]
  refine chain_append.mpr ⟨r, hxs.congr fun x hx => hsame x (.inl hx), hr, some a, ?_, rfl, next, ?_,
    hys.congr fun x hx => hsame x (.inr hx)⟩
  · rw [Function.update_of_ne (hne (t, w) (by simp)), Function.update_self]
  · rw [Function.update_self]

/-- **The node behind a given one, taken out.** -/
theorem Chain.unlink {next : Option α} (h : Chain nodes p (xs ++ (t, w) :: (a, v) :: ys) q)
    (hnodup : ((xs ++ (t, w) :: (a, v) :: ys).map Prod.fst).Nodup)
    (ha : nodes a = some ⟨v, next⟩) :
    Chain (Function.update (Function.update nodes t (some ⟨w, next⟩)) a none) p
      (xs ++ (t, w) :: ys) q := by
  obtain ⟨r, hxs, hr, -, -, -, next', ha', hys⟩ := chain_append.mp h
  obtain rfl := (Node.mk.inj (Option.some.inj (ha.symm.trans ha'))).2
  have hnodup' : (((xs ++ [(t, w)]) ++ (a, v) :: ys).map Prod.fst).Nodup := by
    rwa [List.append_assoc]
  have hsame : ∀ x, x ∈ xs ∨ x ∈ ys → Function.update (Function.update nodes t (some ⟨w, next⟩)) a
      none x.1 = nodes x.1 := by
    intro x hx
    rw [Function.update_of_ne (ne_middle hnodup' (hx.imp_left (List.mem_append_left _))),
      Function.update_of_ne (ne_middle hnodup (hx.imp_right (List.mem_cons_of_mem _)))]
  have hta : t ≠ a := ne_middle (x := (t, w)) hnodup' (.inl (by simp))
  refine chain_append.mpr ⟨r, hxs.congr fun x hx => hsame x (.inl hx), hr, next, ?_,
    hys.congr fun x hx => hsame x (.inr hx)⟩
  rw [Function.update_of_ne hta, Function.update_self]

/-- **Another value** in a node. -/
theorem Chain.set {next : Option α} (h : Chain nodes p (xs ++ (a, v) :: ys) q)
    (hnodup : ((xs ++ (a, v) :: ys).map Prod.fst).Nodup) (ha : nodes a = some ⟨v, next⟩) :
    Chain (Function.update nodes a (some ⟨w, next⟩)) p (xs ++ (a, w) :: ys) q := by
  obtain ⟨r, hxs, hr, next', ha', hys⟩ := chain_append.mp h
  obtain rfl := (Node.mk.inj (Option.some.inj (ha.symm.trans ha'))).2
  have hsame : ∀ x, x ∈ xs ∨ x ∈ ys →
      Function.update nodes a (some ⟨w, next⟩) x.1 = nodes x.1 :=
    fun x hx => Function.update_of_ne (ne_middle hnodup hx) _ _
  exact chain_append.mpr ⟨r, hxs.congr fun x hx => hsame x (.inl hx), hr, next,
    Function.update_self .., hys.congr fun x hx => hsame x (.inr hx)⟩

omit [DecidableEq α] in
/-- The nodes from an address up to null are determined. -/
theorem Chain.unique (h : Chain nodes p xs none) (h' : Chain nodes p ys none) : xs = ys := by
  induction xs generalizing p ys with
  | nil =>
    obtain rfl := h
    cases ys with
    | nil => rfl
    | cons y ys => exact absurd h'.1 (by simp)
  | cons x xs ih =>
    obtain ⟨a, v⟩ := x
    obtain ⟨rfl, next, ha, hxs⟩ := h
    cases ys with
    | nil => exact absurd h' (by simp)
    | cons y ys =>
      obtain ⟨b, w⟩ := y
      obtain ⟨hb, next', hb', hys⟩ := h'
      obtain rfl := Option.some.inj hb
      obtain ⟨rfl, rfl⟩ := Node.mk.inj (Option.some.inj (ha.symm.trans hb'))
      rw [ih hxs hys]

omit [DecidableEq α] in
/-- A chain into a node that is not in use does not come to null. -/
theorem Chain.stuck (h : Chain nodes p xs (some t)) (ht : nodes t = none) :
    ¬Chain nodes p ys none := by
  induction xs generalizing p ys with
  | nil =>
    obtain rfl := h
    cases ys with
    | nil => exact fun h' => absurd h' (by simp)
    | cons y ys =>
      obtain ⟨b, w⟩ := y
      rintro ⟨hb, next, hnode, -⟩
      obtain rfl := Option.some.inj hb
      exact absurd (ht.symm.trans hnode) (by simp)
  | cons x xs ih =>
    obtain ⟨a, v⟩ := x
    obtain ⟨rfl, next, ha, hxs⟩ := h
    cases ys with
    | nil => exact fun h' => absurd h' (by simp)
    | cons y ys =>
      obtain ⟨b, w⟩ := y
      rintro ⟨hb, next', hb', hys⟩
      obtain rfl := Option.some.inj hb
      obtain ⟨-, rfl⟩ := Node.mk.inj (Option.some.inj (ha.symm.trans hb'))
      exact ih hxs hys

end SystemProgramming.Lib
