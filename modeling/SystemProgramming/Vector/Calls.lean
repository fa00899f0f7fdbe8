import SystemProgramming.Vector.Refinement

namespace SystemProgramming.Vector

open Lib

/-!
# Sequences of calls

* `Op` — the calls that change a vector; `Op.apply` is what they do to the list.
* `Valid` — the callers keep to the preconditions, and the sizes below `2 ^ 31`.
* `step_spec`, `run_spec` — one call, and any number of them.
* `vector_refines` — the slots below `size` hold the list, and the capacity is the least that fits.
* `destroyed_once` — every element made is destroyed once, at the place it is taken from.
-/

inductive Op (α : Type*)
  | push_back (element : α)
  | pop_back
  | insert (position : ℕ) (element : α)
  | erase (position : ℕ)
  | set (position : ℕ) (element : α)
  | resize (n : ℕ)
  | reserve (n : ℕ)
  | clear

variable {α : Type*} (copy_constructor : α → α) (default_constructor : α)

def Op.run (v : vector α) : Op α → Option (vector α)
  | push_back element => vector_push_back copy_constructor v element
  | pop_back => vector_pop_back v
  | insert position element => vector_insert copy_constructor v position element
  | erase position => vector_erase v position
  | set position element => vector_set copy_constructor v position element
  | resize n => vector_resize default_constructor v n
  | reserve n => vector_reserve v n
  | clear => vector_clear v

def run (v : vector α) (ops : List (Op α)) : Option (vector α) :=
  ops.foldlM (Op.run copy_constructor default_constructor) v

/-! ### What the calls are for -/

/-- The list after a call. -/
def Op.apply (xs : List α) : Op α → List α
  | push_back element => xs ++ [copy_constructor element]
  | pop_back => xs.dropLast
  | insert position element => xs.insertIdx position (copy_constructor element)
  | erase position => xs.eraseIdx position
  | set position element => xs.set position (copy_constructor element)
  | resize n => xs.take n ++ List.replicate (n - xs.length) default_constructor
  | reserve _ => xs
  | clear => []

/-- The preconditions. -/
def Op.Allowed (xs : List α) : Op α → Prop
  | pop_back => 0 < xs.length
  | insert position _ => position ≤ xs.length
  | erase position => position < xs.length
  | set position _ => position < xs.length
  | _ => True

/-- The size that a call reaches, or the size to reserve. -/
def Op.reaches (xs : List α) : Op α → ℕ
  | reserve n => n
  | op => (op.apply copy_constructor default_constructor xs).length

/-- The list after the calls. -/
def contents (xs : List α) (ops : List (Op α)) : List α :=
  ops.foldl (Op.apply copy_constructor default_constructor) xs

/-- The sizes and the reserve arguments, call by call. -/
def reached (xs : List α) : List (Op α) → List ℕ
  | [] => []
  | op :: ops => op.reaches copy_constructor default_constructor xs ::
      reached (op.apply copy_constructor default_constructor xs) ops

/-- The calls are allowed, and the sizes and reserve arguments below `2 ^ 31`. -/
def Valid (xs : List α) : List (Op α) → Prop
  | [] => True
  | op :: ops => op.Allowed xs ∧ op.reaches copy_constructor default_constructor xs < 2 ^ 31 ∧
      Valid (op.apply copy_constructor default_constructor xs) ops

/-! ### One call -/

variable {copy_constructor default_constructor} {v : vector α} {o : Owned α} {op : Op α}
  {ops : List (Op α)} {xs : List α} {n : ℕ}

theorem Rep.values_length (h : Rep v o) : o.values.length = v.size := by
  rw [Owned.length_values, h.size]

/-- A call that leaves the memory as it is reaches no new capacity. -/
theorem follows_of_le {v' : vector α} (hcapacity : v'.capacity = v.capacity) (hle : n ≤ v.capacity) :
    Follows n v v' := by
  intro reached hleast
  rw [hcapacity]
  exact capacity_of_le hleast hle

/-- A call that makes no new capacity, for a list that is not longer. -/
theorem Rep.follows {v' : vector α} (h : Rep v' o) (hcapacity : v'.capacity = v.capacity)
    (hvalues : o.values = xs) : Follows xs.length v v' := by
  refine follows_of_le hcapacity ?_
  rw [← hvalues, h.values_length, ← hcapacity]
  exact h.le

/-- **One call** does to the vector what it does to the list. -/
theorem step_spec (h : Rep v o) (hsize : v.size < 2 ^ 31) (hallowed : op.Allowed o.values)
    (hreaches : op.reaches copy_constructor default_constructor o.values < 2 ^ 31) :
    ∃ v' o', op.run copy_constructor default_constructor v = some v' ∧ Rep v' o' ∧
      o'.values = op.apply copy_constructor default_constructor o.values ∧
      Follows (op.reaches copy_constructor default_constructor o.values) v v' := by
  have hlen := h.values_length
  have hitems := h.size
  cases op with
  | push_back element =>
    have hlength : (o.values ++ [copy_constructor element]).length = v.size + 1 := by
      rw [List.length_append, hlen, List.length_singleton]
    dsimp only [Op.reaches, Op.apply] at hreaches ⊢
    rw [hlength] at hreaches ⊢
    obtain ⟨v', hrun, hrep, hfollows⟩ := h.push_back hreaches
    exact ⟨v', _, hrun, hrep, Owned.values_grow _, hfollows⟩
  | pop_back =>
    dsimp only [Op.Allowed] at hallowed
    obtain ⟨v', hrun, hrep, hcapacity⟩ := h.pop_back (by omega)
    have hvalues : (o.truncate (v.size - 1)).values = o.values.dropLast := by
      rw [Owned.values_truncate, List.dropLast_eq_take, hlen]
    exact ⟨v', _, hrun, hrep, hvalues, hrep.follows hcapacity hvalues⟩
  | insert position element =>
    dsimp only [Op.Allowed] at hallowed
    have hlength : (o.values.insertIdx position (copy_constructor element)).length = v.size + 1 := by
      rw [List.length_insertIdx_of_le_length hallowed, hlen]
    dsimp only [Op.reaches, Op.apply] at hreaches ⊢
    rw [hlength] at hreaches ⊢
    obtain ⟨v', hrun, hrep, hfollows⟩ := h.insert copy_constructor element
      (show position ≤ o.items.length by omega) hreaches
    exact ⟨v', _, hrun, hrep, Owned.values_insert _, hfollows⟩
  | erase position =>
    dsimp only [Op.Allowed] at hallowed
    obtain ⟨v', hrun, hrep, hcapacity⟩ := h.erase (show position < o.items.length by omega)
    exact ⟨v', _, hrun, hrep, Owned.values_erase _, hrep.follows hcapacity (Owned.values_erase _)⟩
  | set position element =>
    dsimp only [Op.Allowed] at hallowed
    obtain ⟨v', hrun, hrep, hcapacity⟩ := h.set copy_constructor element
      (show position < o.items.length by omega)
    exact ⟨v', _, hrun, hrep, Owned.values_set _, hrep.follows hcapacity (Owned.values_set _)⟩
  | resize n =>
    have hlength : (o.values.take n ++
        List.replicate (n - o.values.length) default_constructor).length = n := by
      rw [List.length_append, List.length_take, List.length_replicate]
      omega
    dsimp only [Op.reaches, Op.apply] at hreaches ⊢
    rw [hlength] at hreaches ⊢
    -- one branch of `vector_resize` destroys, the other one makes elements
    rcases Nat.lt_or_ge n v.size with hlt | hge
    · obtain ⟨v', hrun, hrep, hcapacity⟩ := h.shrink hlt hsize
      have hfits := h.le
      refine ⟨v', _, hrun, hrep, ?_, follows_of_le hcapacity (by omega)⟩
      rw [Owned.values_truncate, hlen, Nat.sub_eq_zero_of_le hlt.le, List.replicate_zero,
        List.append_nil]
    · obtain ⟨v', hrun, hrep, hfollows⟩ := h.enlarge hge hreaches
      refine ⟨v', _, hrun, hrep, ?_, hfollows⟩
      rw [Owned.values_grow, hlen, List.take_of_length_le (by omega)]
  | reserve n =>
    obtain ⟨v', hrun, hrep, hfollows⟩ := h.reserve hreaches
    exact ⟨v', o, hrun, hrep, rfl, hfollows⟩
  | clear =>
    obtain ⟨v', hrun, hrep, hcapacity⟩ := h.clear
    exact ⟨v', _, hrun, hrep, rfl, hrep.follows hcapacity rfl⟩

/-! ### Any number of calls -/

/-- Only which sizes were reached matters, not when. -/
theorem capacities_congr {reached reached' : List ℕ} (h : reached.Perm reached') :
    Capacities reached = Capacities reached' := by
  ext c
  exact and_congr_right fun _ => and_congr_right fun _ => forall_congr' fun n => by rw [h.mem_iff]

/-- **A run** does to the vector what it does to the list. -/
theorem run_spec {before : List ℕ} (h : Rep v o) (hsize : v.size < 2 ^ 31)
    (hvalid : Valid copy_constructor default_constructor o.values ops)
    (hleast : IsLeast (Capacities before) v.capacity) :
    ∃ v' o', run copy_constructor default_constructor v ops = some v' ∧ Rep v' o' ∧
      o'.values = contents copy_constructor default_constructor o.values ops ∧
      IsLeast (Capacities (reached copy_constructor default_constructor o.values ops ++ before))
        v'.capacity := by
  induction ops generalizing v o before with
  | nil => exact ⟨v, o, rfl, h, rfl, hleast⟩
  | cons op ops ih =>
    obtain ⟨hallowed, hreaches, hrest⟩ := hvalid
    obtain ⟨v', o', hrun, hrep, hvalues, hfollows⟩ := step_spec h hsize hallowed hreaches
    rw [← hvalues] at hrest
    have hsize' : v'.size < 2 ^ 31 := by
      rw [← hrep.values_length, hvalues]
      cases op with
      | reserve n => rwa [Op.apply, h.values_length]
      | _ => exact hreaches
    obtain ⟨v'', o'', hruns, hrep', hvalues', hleast'⟩ := ih hrep hsize' hrest (hfollows _ hleast)
    refine ⟨v'', o'', ?_, hrep', ?_, ?_⟩
    · rw [run, List.foldlM_cons, hrun]
      exact hruns
    · rw [hvalues', hvalues]
      rfl
    · rw [reached, ← hvalues, List.cons_append, ← capacities_congr List.perm_middle]
      exact hleast'

theorem Valid.take (hvalid : Valid copy_constructor default_constructor xs ops) (n : ℕ) :
    Valid copy_constructor default_constructor xs (ops.take n) := by
  induction ops generalizing xs n with
  | nil => rwa [List.take_nil]
  | cons op ops ih =>
    cases n with
    | zero => trivial
    | succ n => exact ⟨hvalid.1, hvalid.2.1, ih hvalid.2.2 n⟩

/-- **Elements are destroyed once.**  After any calls that keep to the preconditions and
    `vector_destroy`, the destructor has been called once on each element that a constructor has
    returned, and on nothing else.  While it is called no element is reachable at two indices below
    `size`, and after the call of the vector's function that has destroyed an element it is not
    reachable any more. -/
theorem destroyed_once (hvalid : Valid copy_constructor default_constructor [] ops) :
    (∃ v v', run copy_constructor default_constructor vector_create ops = some v ∧
      vector_destroy v = some v' ∧ v'.made = v.made ∧
      (v'.destructions.map Prod.fst).Perm v'.made.zipIdx ∧
      ∀ d ∈ v'.destructions, d.2.Nodup) ∧
    ∀ n, ∃ v, run copy_constructor default_constructor vector_create (ops.take n) = some v ∧
      ∀ d ∈ v.destructions, d.1 ∉ v.reachable := by
  constructor
  · obtain ⟨v, o, hrun, hrep, -, -⟩ := run_spec rep_create (Nat.two_pow_pos 31) hvalid
      capacity_create
    obtain ⟨v', hdestroy, hmade, hperm, honce⟩ := hrep.destroy
    refine ⟨v, v', hrun, hdestroy, hmade.trans hrep.made.symm, ?_, honce⟩
    rw [hmade]
    exact hperm
  · intro n
    obtain ⟨v, o, hrun, hrep, -, -⟩ := run_spec rep_create (Nat.two_pow_pos 31) (hvalid.take n)
      capacity_create
    refine ⟨v, hrun, fun d hd => ?_⟩
    have hgone : d.1 ∈ o.destroyed := by
      rw [← hrep.destroyed]
      exact List.mem_map_of_mem hd
    rw [hrep.reachable]
    exact fun hmem => Owned.not_mem_destroyed hmem hgone

theorem destroyed_once_nine :
    (∃ v v', run id 0 vector_create
        [.resize 8, .insert 0 7, .set 8 5, .erase 3, .reserve 20, .pop_back] = some v ∧
      vector_destroy v = some v' ∧ v'.made = v.made ∧
      (v'.destructions.map Prod.fst).Perm v'.made.zipIdx ∧
      ∀ d ∈ v'.destructions, d.2.Nodup) ∧
    ∀ n, ∃ v, run id 0 vector_create
        ([.resize 8, .insert 0 7, .set 8 5, .erase 3, .reserve 20, .pop_back].take n) = some v ∧
      ∀ d ∈ v.destructions, d.1 ∉ v.reachable :=
  destroyed_once (by simp [Valid, Op.Allowed, Op.reaches, Op.apply])

/-- An element is still in its slot, below `size`, while `vector_destroy` destroys it. -/
theorem reachable_when_destroyed :
    ¬ ∀ ops : List (Op ℕ), Valid id 0 [] ops →
      ∃ v v', run id 0 vector_create ops = some v ∧ vector_destroy v = some v' ∧
        (v'.destructions.map Prod.fst).Perm v'.made.zipIdx ∧
        ∀ d ∈ v'.destructions, d.1 ∉ d.2 := by
  intro h
  obtain ⟨v, v', hrun, hdestroy, -, hunreachable⟩ := h [.push_back 5]
    ⟨trivial, by decide, trivial⟩
  obtain rfl : _ = v := Option.some.inj hrun
  obtain rfl : _ = v' := Option.some.inj hdestroy
  exact hunreachable ((5, 0), [(5, 0)]) (by decide) (by decide)

end SystemProgramming.Vector
