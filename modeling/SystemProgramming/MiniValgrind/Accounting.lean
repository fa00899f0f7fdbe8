import SystemProgramming.MiniValgrind.Ledger
import Mathlib.Algebra.BigOperators.Group.List.Basic

namespace SystemProgramming.MiniValgrind

open Lib
open Malloc (add64 sub64 mul64)
open SystemProgramming.Vector (int)

/-!
# The accounting of `mini_valgrind.c`

The list is right as long as the first block of an empty list has a null link already, no block is
moved, the sizes do not wrap around, the difference of two sizes fits an `int`, and no pointer is
one header away from null.

* `Tracked` — the condition on one call.
* `Inv` — what the calls rely on.
* `calls_accounted_iff` — runs of tracked calls are accounted for, and the next call is exactly if
  it is tracked too.
-/

/-- What the system may answer when it is asked for `bytes`: a block that is not in use, or the one
    that it resizes. -/
def Answers (s : State) (old : Option ℕ) (bytes : ℕ) (answer : Answer) : Prop :=
  ∀ p ∈ answer, 0 < p.1 ∧ p.1 + bytes < 2 ^ 64 ∧ (s.nodes p.1 = none ∨ old = some p.1)

/-- The arguments are `size_t`s and pointers, and the system's answer is a possible one. -/
def Possible (sizeof : ℕ) (σ : Session) : Call × Answer → Prop
  | (.malloc request_size _ _, answer) =>
    request_size < 2 ^ 64 ∧ Answers σ.state none (add64 request_size sizeof) answer
  | (.calloc num_elements element_size _ _, answer) =>
    num_elements < 2 ^ 64 ∧ element_size < 2 ^ 64 ∧
      Answers σ.state none (add64 (mul64 num_elements element_size) sizeof) answer
  | (.realloc payload request_size _ _, answer) => payload < 2 ^ 64 ∧ request_size < 2 ^ 64 ∧
      Answers σ.state (if payload = 0 then none else header sizeof payload)
        (add64 request_size sizeof) answer
  | (.free payload, _) => payload < 2 ^ 64

/-- A block of `size` bytes is asked for without wrapping around, and if it is the first one its
    link is null when it comes. -/
def Granted (sizeof : ℕ) (s : State) (size : ℕ) (answer : Answer) : Prop :=
  ∀ p ∈ answer, size + sizeof < 2 ^ 64 ∧ (s.head = none → p.2.next = none)

/-- The difference of the sizes is defined and right as a `size_t`. -/
def SubFits (new old : ℕ) : Prop :=
  ∃ sub ∈ int_sub new old, (2 ^ 64 : ℤ) ∣ (new - old) - sub

/-- The block stays where it is. -/
def Resized (sizeof payload size old : ℕ) (answer : Answer) : Prop :=
  ∃ p ∈ answer, header sizeof payload = some p.1 ∧ size + sizeof < 2 ^ 64 ∧ SubFits size old

/-- **The condition** on a call. -/
def Tracked (sizeof : ℕ) (σ : Session) : Call × Answer → Prop
  | (.malloc request_size _ _, answer) =>
    request_size = 0 ∨ Granted sizeof σ.state request_size answer
  | (.calloc num_elements element_size _ _, answer) =>
    num_elements = 0 ∨ element_size = 0 ∨
      Granted sizeof σ.state (num_elements * element_size) answer
  | (.realloc payload request_size _ _, answer) =>
    if payload = 0 then request_size = 0 ∨ Granted sizeof σ.state request_size answer
    else if request_size = 0 then payload ≠ sizeof
    else ∀ b ∈ σ.live, b.payload = payload →
      Resized sizeof payload request_size b.info.request_size answer
  | (.free payload, _) => payload = 0 ∨ payload ≠ sizeof

/-- What the calls rely on: the list `l` of the blocks, which lie below the last address. -/
structure Inv (sizeof : ℕ) (σ : Session) (l : List (ℕ × Info)) : Prop where
  chain : Chain σ.state.nodes σ.state.head l none
  nodup : (l.map Prod.fst).Nodup
  live : (l.map fun x => (⟨add64 x.1 sizeof, x.2⟩ : Live)).Perm σ.live
  totals : σ.state.total_memory_requested = add64 σ.state.total_memory_freed (sizes σ.live)
  stray : σ.state.invalid_addresses = σ.stray % 2 ^ 64
  blocks : σ.state.blocks = l.length
  below : ∀ x ∈ l, 0 < x.1 ∧ x.1 + sizeof < 2 ^ 64

variable {sizeof : ℕ} {s s' : State} {σ σ' : Session} {l xs ys : List (ℕ × Info)} {a t p : ℕ}
  {v w : Info} {payload request_size size filename instruction n fuel : ℕ} {answer : Answer}
  {live : List Live} {contents : meta_data} {q : ℕ} {next : Option ℕ}

theorem Inv.accounted (hI : Inv sizeof σ l) : Accounted sizeof σ :=
  ⟨⟨l, hI.chain, hI.nodup, hI.live⟩, hI.totals, hI.stray⟩

/-! ### Headers and payloads -/

theorem header_eq_none (hpayload : payload < 2 ^ 64) (_ : sizeof < 2 ^ 64) :
    header sizeof payload = none ↔ payload = sizeof := by
  rw [header, ite_eq_left_iff]
  simp only [sub64, reduceCtorEq, imp_false, not_not]
  omega

theorem header_add (ha : 0 < a) (hlt : a + sizeof < 2 ^ 64) :
    header sizeof (add64 a sizeof) = some a := by
  have heq : sub64 (add64 a sizeof) sizeof = a := by
    simp only [sub64, add64]
    omega
  rw [header, heq, if_neg ha.ne']

theorem eq_of_header (hpayload : payload < 2 ^ 64) (_ : sizeof < 2 ^ 64)
    (h : header sizeof payload = some a) : payload = add64 a sizeof := by
  rw [header] at h
  split at h
  · cases h
  · obtain rfl := Option.some.inj h
    simp only [sub64, add64]
    omega

theorem payload_ne_zero (ha : 0 < a) (hlt : a + sizeof < 2 ^ 64) : add64 a sizeof ≠ 0 := by
  simp only [add64]
  omega

/-- Room for the header: the sum did not wrap around. -/
theorem room_of_lt (hlt : size + sizeof < 2 ^ 64) : ¬add64 size sizeof < sizeof := by
  simp only [add64]
  omega

theorem lt_of_room (hsize : size < 2 ^ 64) (_ : sizeof < 2 ^ 64)
    (hroom : ¬add64 size sizeof < sizeof) : size + sizeof < 2 ^ 64 := by
  simp only [add64] at hroom
  omega

/-- The payload of a block from the system is not above the last address. -/
theorem below_of_answer (hlt : size + sizeof < 2 ^ 64) (hle : p + add64 size sizeof < 2 ^ 64) :
    p + sizeof < 2 ^ 64 := by
  simp only [add64] at hle
  omega

/-- The loops do not run out of fuel. -/
theorem Inv.enough (hI : Inv sizeof σ l) : l.length < σ.state.blocks + 1 := by
  rw [hI.blocks]
  exact Nat.lt_succ_self _

/-- The header of a pointer is in the list exactly if the pointer is live. -/
theorem Inv.holds_iff (hI : Inv sizeof σ l) (hpayload : payload < 2 ^ 64) (hsizeof : sizeof < 2 ^ 64)
    (ha : header sizeof payload = some a) : a ∈ l.map Prod.fst ↔ Holds σ.live payload := by
  rw [Holds, ← (hI.live.map Live.payload).mem_iff, List.map_map]
  constructor
  · intro hmem
    obtain ⟨x, hx, rfl⟩ := List.mem_map.mp hmem
    exact List.mem_map.mpr ⟨x, hx, (eq_of_header hpayload hsizeof ha).symm⟩
  · intro hmem
    obtain ⟨x, hx, rfl⟩ := List.mem_map.mp hmem
    obtain ⟨hpos, hlt⟩ := hI.below x hx
    simp only [Function.comp_apply] at ha
    rw [header_add hpos hlt] at ha
    exact Option.some.inj ha ▸ List.mem_map_of_mem hx

/-- A live block in the list, and the others. -/
theorem Inv.middle (hI : Inv sizeof σ (xs ++ (a, v) :: ys)) :
    σ.live.Perm (⟨add64 a sizeof, v⟩ :: forget σ.live (add64 a sizeof)) ∧
      ((xs ++ ys).map fun x => (⟨add64 x.1 sizeof, x.2⟩ : Live)).Perm
        (forget σ.live (add64 a sizeof)) := by
  have hperm := hI.live
  rw [List.map_append, List.map_cons] at hperm
  have hfilter := (List.perm_middle.symm.trans hperm).filter (·.payload ≠ add64 a sizeof)
  obtain ⟨-, hlt⟩ := hI.below (a, v) (by simp)
  have hothers : ((xs ++ ys).map fun x => (⟨add64 x.1 sizeof, x.2⟩ : Live)).filter
      (·.payload ≠ add64 a sizeof) =
      (xs ++ ys).map fun x => (⟨add64 x.1 sizeof, x.2⟩ : Live) := by
    -- below the last address different headers have different payloads
    refine List.filter_eq_self.mpr fun b hb => ?_
    obtain ⟨x, hx, rfl⟩ := List.mem_map.mp hb
    have hne := ne_middle hI.nodup (List.mem_append.mp hx)
    have hx' : x ∈ xs ++ (a, v) :: ys :=
      List.mem_append.mpr ((List.mem_append.mp hx).imp_right (List.mem_cons_of_mem _))
    have hlt' := (hI.below x hx').2
    refine decide_eq_true fun heq => hne ?_
    simp only [add64] at heq
    omega
  rw [List.filter_cons_of_neg (by simp), ← List.map_append, hothers] at hfilter
  refine ⟨?_, hfilter⟩
  calc σ.live.Perm _ := (List.perm_middle.symm.trans hperm).symm
    _ |>.Perm (⟨add64 a sizeof, v⟩ :: forget σ.live (add64 a sizeof)) := by
        rw [← List.map_append]
        exact hfilter.cons _

theorem forget_of_not_holds (h : ¬Holds live payload) : forget live payload = live :=
  List.filter_eq_self.mpr fun _ hb => decide_eq_true fun he => h (he ▸ List.mem_map_of_mem hb)

theorem sizes_perm {live' : List Live} (h : live.Perm live') : sizes live = sizes live' :=
  (h.map _).sum_eq

/-! ### The loops -/

/-- The search for the node in front of a block. -/
theorem predecessor_of_mem (hchain : Chain s.nodes (some p) ((p, w) :: xs) none)
    (hmem : a ∈ xs.map Prod.fst) (hfuel : xs.length < fuel) :
    ∃ t u v ys zs, (p, w) :: xs = ys ++ (t, u) :: (a, v) :: zs ∧
      predecessor s (some a) fuel (some p) = some (some t) := by
  induction xs generalizing p w fuel with
  | nil => exact absurd hmem (by simp)
  | cons x xs ih =>
    obtain ⟨b, v⟩ := x
    obtain ⟨fuel, rfl⟩ := Nat.exists_eq_add_of_lt hfuel
    obtain ⟨-, next, hp, hxs⟩ := hchain
    obtain rfl := hxs.1
    rw [predecessor, hp]
    by_cases hab : a = b
    · subst hab
      exact ⟨p, w, v, [], xs, rfl, if_pos rfl⟩
    · -- the block is further on, and one round of the loop is done
      have hmem' : a ∈ xs.map Prod.fst := (List.mem_cons.mp hmem).resolve_left hab
      have hlt : xs.length < ((b, v) :: xs).length + fuel := by
        simp only [List.length_cons]
        omega
      obtain ⟨t, u, v', ys, zs, heq, hrun⟩ := ih hxs hmem' hlt
      refine ⟨t, u, v', (p, w) :: ys, zs, by rw [heq]; rfl, ?_⟩
      show (if some a = some b then _ else _) = _
      rw [if_neg (fun h => hab (Option.some.inj h))]
      exact hrun

theorem predecessor_of_notMem (hchain : Chain s.nodes next xs none) (hmem : a ∉ xs.map Prod.fst)
    (hfuel : xs.length < fuel) : predecessor s (some a) fuel next = some none := by
  induction xs generalizing next fuel with
  | nil =>
    obtain ⟨fuel, rfl⟩ := Nat.exists_eq_add_of_lt hfuel
    obtain rfl := hchain
    rfl
  | cons x xs ih =>
    obtain ⟨b, v⟩ := x
    obtain ⟨fuel, rfl⟩ := Nat.exists_eq_add_of_lt hfuel
    obtain ⟨rfl, next, hb, hxs⟩ := hchain
    have hnext : some a ≠ next := by
      rintro rfl
      cases xs with
      | nil => cases hxs
      | cons y ys => exact hmem (by simp [Option.some.inj hxs.1])
    have hlt : xs.length < ((b, v) :: xs).length + fuel := by
      simp only [List.length_cons]
      omega
    rw [predecessor, hb]
    show (if some a = next then _ else _) = _
    rw [if_neg hnext]
    exact ih hxs (fun h => hmem (List.mem_cons_of_mem _ h)) hlt

/-- The search for the node in front of null stops at the last one. -/
theorem predecessor_null (s : State) (fuel p : ℕ) :
    predecessor s none fuel (some p) = none ∨
      ∃ t, predecessor s none fuel (some p) = some (some t) := by
  induction fuel generalizing p with
  | zero => exact .inl rfl
  | succ fuel ih =>
    rw [predecessor]
    cases hp : s.nodes p with
    | none => exact .inl rfl
    | some m =>
      show (if none = m.next then _ else _) = _ ∨ ∃ t, (if none = m.next then _ else _) = _
      cases hnext : m.next with
      | none => exact .inr ⟨p, rfl⟩
      | some t => exact ih t

theorem listed_eq (hchain : Chain s.nodes next xs none) (ptr : Option ℕ)
    (hfuel : xs.length < fuel) :
    listed s ptr fuel next = some (decide (ptr ∈ xs.map fun x => some x.1)) := by
  induction xs generalizing next fuel with
  | nil =>
    obtain ⟨fuel, rfl⟩ := Nat.exists_eq_add_of_lt hfuel
    obtain rfl := hchain
    rfl
  | cons x xs ih =>
    obtain ⟨b, v⟩ := x
    obtain ⟨fuel, rfl⟩ := Nat.exists_eq_add_of_lt hfuel
    obtain ⟨rfl, next, hb, hxs⟩ := hchain
    have hlt : xs.length < ((b, v) :: xs).length + fuel := by
      simp only [List.length_cons]
      omega
    rw [listed, hb]
    by_cases hptr : ptr = some b
    · simp [hptr]
    · rw [if_neg hptr]
      show listed s ptr _ next = _
      rw [ih hxs hlt]
      simp [hptr]

/-! ### `mini_free` -/

/-- A block that is taken out of the list and added to what was freed. -/
theorem Inv.freed (hI : Inv sizeof σ (xs ++ (a, v) :: ys))
    (hchain : Chain s'.nodes s'.head (xs ++ ys) none) (hblocks : s'.blocks = σ.state.blocks - 1)
    (hreq : s'.total_memory_requested = σ.state.total_memory_requested)
    (hfreed : s'.total_memory_freed = add64 σ.state.total_memory_freed v.request_size)
    (hstray : s'.invalid_addresses = σ.state.invalid_addresses) :
    Inv sizeof ⟨s', forget σ.live (add64 a sizeof), σ.stray⟩ (xs ++ ys) := by
  obtain ⟨hlive, hothers⟩ := hI.middle
  have hsub : (xs ++ ys).Sublist (xs ++ (a, v) :: ys) :=
    (List.sublist_cons_self _ _).append_left xs
  refine ⟨hchain, hI.nodup.sublist (hsub.map _), hothers, ?_, hstray.trans hI.stray, ?_,
    fun x hx => hI.below x (hsub.subset hx)⟩
  · have hsizes := sizes_perm hlive
    have htotals := hI.totals
    rw [show sizes (⟨add64 a sizeof, v⟩ :: forget σ.live (add64 a sizeof)) =
      v.request_size + sizes (forget σ.live (add64 a sizeof)) from rfl] at hsizes
    show s'.total_memory_requested = add64 s'.total_memory_freed _
    rw [hreq, hfreed, htotals, hsizes]
    simp only [add64]
    omega
  · have hlength := hI.blocks
    simp only [List.length_append, List.length_cons] at hlength ⊢
    omega

/-- A stray pointer that is counted. -/
theorem Inv.strayed (hI : Inv sizeof σ l) :
    Inv sizeof ⟨{ σ.state with invalid_addresses := add64 σ.state.invalid_addresses 1 }, σ.live,
      σ.stray + 1⟩ l := by
  refine ⟨hI.chain, hI.nodup, hI.live, hI.totals, ?_, hI.blocks, hI.below⟩
  show add64 σ.state.invalid_addresses 1 = (σ.stray + 1) % 2 ^ 64
  rw [hI.stray, add64, Nat.mod_add_mod]

/-- **`mini_free`** of a pointer whose header is not null. -/
theorem mini_free_spec (hI : Inv sizeof σ l) (hsizeof : sizeof < 2 ^ 64)
    (hpayload : payload < 2 ^ 64) (h0 : payload ≠ 0) (hne : payload ≠ sizeof) :
    ∃ s' l', mini_free sizeof σ.state payload = some s' ∧
      Inv sizeof ⟨s', forget σ.live payload,
        σ.stray + if payload ≠ 0 ∧ ¬Holds σ.live payload then 1 else 0⟩ l' := by
  obtain ⟨a, ha⟩ := Option.ne_none_iff_exists'.mp (mt (header_eq_none hpayload hsizeof).mp hne)
  have hholds := hI.holds_iff hpayload hsizeof ha
  have hpa := eq_of_header hpayload hsizeof ha
  rw [mini_free, if_neg h0]
  simp only [ha]
  by_cases hhead : σ.state.head = some a
  · -- the first block
    rw [if_pos hhead]
    have hchain := hI.chain
    rw [hhead] at hchain
    cases l with
    | nil => cases hchain
    | cons x ys =>
      obtain ⟨b, v⟩ := x
      obtain ⟨hb, next, hnode, hys⟩ := hchain
      obtain rfl := Option.some.inj hb
      have hmem : Holds σ.live payload := hholds.mp (by simp)
      refine ⟨_, ys, by rw [Option.bind_eq_bind, Option.bind_some, hnode]; rfl, ?_⟩
      rw [if_neg (fun h => h.2 hmem), hpa]
      have hI' : Inv sizeof σ ([] ++ (a, v) :: ys) := hI
      refine hI'.freed ?_ rfl rfl rfl rfl
      exact hys.congr fun x hx => Function.update_of_ne (ne_middle hI'.nodup (.inr hx)) _ _
  · rw [if_neg hhead]
    have hfuel := hI.enough
    by_cases hmem : a ∈ l.map Prod.fst
    · -- a later one, behind `t`
      cases l with
      | nil => cases hmem
      | cons x xs =>
        obtain ⟨b, w⟩ := x
        have hchain := hI.chain
        have hb : σ.state.head = some b := hchain.1
        have hab : a ≠ b := by
          rintro rfl
          exact hhead hb
        obtain ⟨t, u, v, ys, zs, heq, hrun⟩ := predecessor_of_mem (hb ▸ hchain)
          ((List.mem_cons.mp hmem).resolve_left hab) (Nat.lt_of_succ_lt hfuel)
        rw [← hb] at hrun
        rw [heq] at hI hchain
        obtain ⟨r, -, -, next, ht, -, next', hnode, -⟩ := chain_append.mp hchain
        have hunlink := hchain.unlink hI.nodup hnode
        have hmem' : Holds σ.live payload := hholds.mp hmem
        refine ⟨State.free { σ.state with
            nodes := Function.update σ.state.nodes t (some ⟨u, next'⟩)
            total_memory_freed := add64 σ.state.total_memory_freed v.request_size } a,
          ys ++ (t, u) :: zs, ?_, ?_⟩
        · rw [hrun]
          simp only [Option.bind_eq_bind, Option.bind_some, hnode, State.set_next, ht,
            Option.map_some]
        · rw [if_neg (fun h => h.2 hmem'), hpa, List.append_cons]
          rw [List.append_cons] at hI hunlink
          exact hI.freed hunlink rfl rfl rfl rfl
    · -- none of the list
      have hrun := predecessor_of_notMem hI.chain hmem hfuel
      have hmem' : ¬Holds σ.live payload := mt hholds.mpr hmem
      refine ⟨{ σ.state with invalid_addresses := add64 σ.state.invalid_addresses 1 }, l,
        by rw [hrun]; rfl, ?_⟩
      rw [forget_of_not_holds hmem', if_pos ⟨h0, hmem'⟩]
      exact hI.strayed

/-- A header that is null is accessed. -/
theorem mini_free_null (s : State) (h0 : payload ≠ 0) (hnull : header sizeof payload = none) :
    mini_free sizeof s payload = none := by
  rw [mini_free, if_neg h0]
  simp only [hnull]
  cases hhead : s.head with
  | none => rfl
  | some p =>
    rw [if_neg (by simp)]
    obtain hrun | ⟨t, hrun⟩ := predecessor_null s (s.blocks + 1) p
    · rw [hrun]
      rfl
    · rw [hrun]
      rfl

/-! ### `mini_malloc` and `mini_calloc` -/

/-- A new block in an empty list. -/
theorem record_nil (hlt : size + sizeof < 2 ^ 64) (hhead : s.head = none) :
    record sizeof s (some (p, contents)) size filename instruction =
      some (add64 p sizeof, { s with
        nodes := Function.update s.nodes p (some ⟨⟨size, filename, instruction⟩, contents.next⟩)
        blocks := s.blocks + 1
        head := some p
        total_memory_requested := add64 s.total_memory_requested size }) := by
  rw [record, if_neg (room_of_lt hlt)]
  simp only [hhead, State.set_info, Function.update_self, Option.map_some, Option.bind_eq_bind,
    Option.bind_some, Function.update_idem]

/-- A new block behind the first one. -/
theorem record_cons (hlt : size + sizeof < 2 ^ 64) (hhead : s.head = some a) (hp : s.nodes p = none)
    (ha : s.nodes a = some ⟨w, next⟩) :
    record sizeof s (some (p, contents)) size filename instruction =
      some (add64 p sizeof, { s with
        nodes := Function.update (Function.update s.nodes a (some ⟨w, some p⟩)) p
          (some ⟨⟨size, filename, instruction⟩, next⟩)
        blocks := s.blocks + 1
        total_memory_requested := add64 s.total_memory_requested size }) := by
  have hne : a ≠ p := by
    rintro rfl
    exact absurd (ha.symm.trans hp) (by simp)
  rw [record, if_neg (room_of_lt hlt)]
  simp only [hhead, State.set_next, State.set_info, Function.update_self,
    Function.update_of_ne hne, Function.update_of_ne hne.symm, ha, Option.map_some,
    Option.bind_eq_bind, Option.bind_some, Function.update_idem]
  rw [Function.update_comm hne, Function.update_idem, Function.update_comm hne.symm]

/-- **The new block** is in the list, and the others are. -/
theorem record_chain (filename instruction : ℕ) (hI : Inv sizeof σ l)
    (hlt : size + sizeof < 2 ^ 64)
    (hp : σ.state.nodes p = none) (hnext : σ.state.head = none → contents.next = none) :
    ∃ s' l', record sizeof σ.state (some (p, contents)) size filename instruction =
        some (add64 p sizeof, s') ∧
      Chain s'.nodes s'.head l' none ∧ (l'.map Prod.fst).Perm (p :: l.map Prod.fst) ∧
      (l'.map fun x => (⟨add64 x.1 sizeof, x.2⟩ : Live)).Perm
        (⟨add64 p sizeof, ⟨size, filename, instruction⟩⟩ :: σ.live) ∧
      s'.blocks = σ.state.blocks + 1 ∧ s'.total_memory_freed = σ.state.total_memory_freed ∧
      s'.total_memory_requested = add64 σ.state.total_memory_requested size ∧
      s'.invalid_addresses = σ.state.invalid_addresses := by
  cases l with
  | nil =>
    have hhead : σ.state.head = none := hI.chain
    refine ⟨_, [(p, ⟨size, filename, instruction⟩)], record_nil hlt hhead, ?_, .refl _, ?_, rfl, rfl,
      rfl, rfl⟩
    · rw [hnext hhead]
      exact ⟨rfl, none, Function.update_self .., rfl⟩
    · exact hI.live.cons _
  | cons x xs =>
    obtain ⟨a, w⟩ := x
    obtain ⟨hhead, next, ha, -⟩ := id hI.chain
    refine ⟨_, (a, w) :: (p, ⟨size, filename, instruction⟩) :: xs, record_cons hlt hhead hp ha, ?_,
      List.Perm.swap _ _ _, (List.Perm.swap _ _ _).trans (hI.live.cons _), rfl, rfl, rfl, rfl⟩
    have hchain : Chain σ.state.nodes σ.state.head ([] ++ (a, w) :: xs) none := hI.chain
    exact hchain.insert hI.nodup hp ha

/-- The converse: what the list says of a new block is what was asked for. -/
theorem record_converse (hI : Inv sizeof σ l) (hsize : size < 2 ^ 64) (hsizeof : sizeof < 2 ^ 64)
    (hp : 0 < p ∧ p + add64 size sizeof < 2 ^ 64 ∧ σ.state.nodes p = none)
    (hrun : record sizeof σ.state (some (p, contents)) size filename instruction = some (q, s'))
    (hacc : Accounted sizeof ⟨s', keep σ.live q ⟨n, filename, instruction⟩, m⟩) :
    size + sizeof < 2 ^ 64 ∧ (σ.state.head = none → contents.next = none) ∧ n = size := by
  have hlt : size + sizeof < 2 ^ 64 := by
    rw [record] at hrun
    split at hrun
    · cases hrun
    · rename_i hroom
      exact lt_of_room hsize hsizeof hroom
  have hq : add64 p sizeof ≠ 0 := payload_ne_zero hp.1 (below_of_answer hlt hp.2.1)
  obtain ⟨l', hchain, -, hperm⟩ := hacc.list
  have hnext : σ.state.head = none → contents.next = none := by
    intro hhead
    obtain ⟨rfl, rfl⟩ := Prod.mk.inj (Option.some.inj ((record_nil hlt hhead).symm.trans hrun))
    -- the list has one node, and that leads to null
    have hl : l = [] := by
      have hchain' := hI.chain
      rw [hhead] at hchain'
      cases l with
      | nil => rfl
      | cons x xs => cases hchain'.1
    have hlive : σ.live = [] := by
      have hlive := hI.live
      rw [hl] at hlive
      exact hlive.symm.eq_nil
    rw [keep, if_neg hq, hlive] at hperm
    have hlength := hperm.length_eq
    rw [List.length_map, List.length_singleton, List.length_eq_one_iff] at hlength
    obtain ⟨x, rfl⟩ := hlength
    obtain ⟨hx, next, hnode, hend⟩ := hchain
    obtain rfl := Option.some.inj hx
    simp only [Function.update_self] at hnode
    rw [(Node.mk.inj (Option.some.inj hnode)).2]
    exact hend
  refine ⟨hlt, hnext, ?_⟩
  -- now the list is known, and it says `size` where the ledger says `n`
  obtain ⟨s'', l'', hrun'', hchain'', -, hperm'', -⟩ :=
    record_chain filename instruction hI hlt hp.2.2 hnext
  obtain ⟨rfl, rfl⟩ := Prod.mk.inj (Option.some.inj (hrun''.symm.trans hrun))
  rw [keep, if_neg hq] at hperm
  rw [hchain.unique hchain''] at hperm
  have hboth : ([(⟨add64 p sizeof, ⟨n, filename, instruction⟩⟩ : Live)] ++ σ.live).Perm
      ([⟨add64 p sizeof, ⟨size, filename, instruction⟩⟩] ++ σ.live) := hperm.symm.trans hperm''
  have hsame := List.singleton_perm_singleton.mp ((List.perm_append_right_iff σ.live).mp hboth)
  exact (Info.mk.inj (Live.mk.inj hsame).2).1

/-- A block that is granted is accounted for. -/
theorem record_spec (filename instruction : ℕ) (hI : Inv sizeof σ l) (hsize : size = n % 2 ^ 64)
    (hans : Answers σ.state none (add64 size sizeof) answer)
    (hgranted : Granted sizeof σ.state n answer) :
    ∃ q s' l', record sizeof σ.state answer size filename instruction = some (q, s') ∧
      Inv sizeof ⟨s', keep σ.live q ⟨n, filename, instruction⟩, σ.stray⟩ l' := by
  cases answer with
  | none => exact ⟨0, σ.state, l, rfl, hI⟩
  | some r =>
    obtain ⟨p, contents⟩ := r
    obtain ⟨hpos, hbelow, hfresh⟩ := hans (p, contents) rfl
    obtain ⟨hlt, hnext⟩ := hgranted (p, contents) rfl
    obtain rfl : size = n := by omega
    have hfresh : σ.state.nodes p = none := hfresh.resolve_right (by simp)
    have hple := below_of_answer hlt hbelow
    obtain ⟨s', l', hrun, hchain, haddrs, hperm, hblocks, hfreed, hreq, hstray⟩ :=
      record_chain filename instruction hI hlt hfresh hnext
    refine ⟨_, s', l', hrun, ?_⟩
    rw [keep, if_neg (payload_ne_zero hpos hple)]
    refine ⟨hchain, haddrs.nodup_iff.mpr (List.nodup_cons.mpr ⟨?_, hI.nodup⟩), hperm, ?_,
      hstray.trans hI.stray, ?_, fun x hx => ?_⟩
    · intro hmem
      obtain ⟨x, hx, heq⟩ := List.mem_map.mp hmem
      exact hI.chain.ne_of_free hfresh hx heq
    · show s'.total_memory_requested = add64 s'.total_memory_freed (size + sizes σ.live)
      rw [hreq, hfreed, hI.totals]
      simp only [add64]
      omega
    · have hlength := haddrs.length_eq
      simp only [List.length_map, List.length_cons] at hlength
      show s'.blocks = l'.length
      rw [hblocks, hI.blocks, hlength]
    · obtain hx' | hx' := List.mem_cons.mp (haddrs.subset (List.mem_map_of_mem hx))
      · rw [hx']
        exact ⟨hpos, hple⟩
      · obtain ⟨y, hy, hyx⟩ := List.mem_map.mp hx'
        exact hyx ▸ hI.below y hy

/-- The converse: a block that is accounted for was granted. -/
theorem granted_of_accounted (hI : Inv sizeof σ l) (hsize : size < 2 ^ 64) (hsizeof : sizeof < 2 ^ 64)
    (hans : Answers σ.state none (add64 size sizeof) answer)
    (hrun : record sizeof σ.state answer size filename instruction = some (q, s'))
    (hacc : Accounted sizeof ⟨s', keep σ.live q ⟨n, filename, instruction⟩, m⟩) :
    Granted sizeof σ.state n answer := by
  rintro ⟨p, contents⟩ rfl
  obtain ⟨hpos, hbelow, hfresh⟩ := hans (p, contents) rfl
  obtain ⟨hlt, hnext, rfl⟩ := record_converse hI hsize hsizeof
    ⟨hpos, hbelow, hfresh.resolve_right (by simp)⟩ hrun hacc
  exact ⟨hlt, hnext⟩

/-! ### `mini_realloc` -/

theorem change_eq (s : State) (sub : ℤ) :
    (s.change sub).nodes = s.nodes ∧ (s.change sub).head = s.head ∧
      (s.change sub).blocks = s.blocks ∧
      (s.change sub).invalid_addresses = s.invalid_addresses := by
  rw [State.change]
  split <;> exact ⟨rfl, rfl, rfl, rfl⟩

/-- **The totals** take up the change of a size exactly if the difference is right. -/
theorem change_totals {S : ℕ} (S' : ℕ) (sub : ℤ)
    (hS : s.total_memory_requested = add64 s.total_memory_freed S) :
    (s.change sub).total_memory_requested = add64 (s.change sub).total_memory_freed S' ↔
      (2 ^ 64 : ℤ) ∣ ((S' : ℤ) - S) - sub := by
  rw [State.change]
  simp only [add64] at hS ⊢
  split
  · dsimp only
    omega
  · dsimp only
    omega

/-- A block that is found and that the system resizes. -/
theorem resize_run {sub : ℤ} (ha : s.nodes a = some ⟨v, next⟩) (hlt : n + sizeof < 2 ^ 64)
    (hsub : int_sub n v.request_size = some sub) :
    resize sizeof s (some (p, contents)) a n filename instruction =
      some (add64 p sizeof, { s.change sub with
        nodes := Function.update (Function.update s.nodes a none) p
          (some ⟨⟨n, filename, instruction⟩, next⟩) }) := by
  rw [resize, if_neg (room_of_lt hlt), ha, Option.bind_eq_bind, Option.bind_some, hsub, Option.bind_eq_bind,
    Option.bind_some]
  rw [State.change, State.change]
  split
  · simp only [State.set_info, Function.update_self, Option.map_some, Option.bind_eq_bind,
      Option.bind_some, Function.update_idem]
  · simp only [State.set_info, Function.update_self, Option.map_some, Option.bind_eq_bind,
      Option.bind_some, Function.update_idem]

/-- The block in the list of a live pointer. -/
theorem Inv.find (hI : Inv sizeof σ l) (hholds : Holds σ.live payload) :
    ∃ a v xs ys, header sizeof payload = some a ∧ payload = add64 a sizeof ∧
      l = xs ++ (a, v) :: ys ∧ ∀ b ∈ σ.live, b.payload = payload → b.info = v := by
  obtain ⟨b, hb, rfl⟩ := List.mem_map.mp hholds
  obtain ⟨⟨a, v⟩, hx, rfl⟩ := List.mem_map.mp (hI.live.symm.subset hb)
  obtain ⟨xs, ys, rfl⟩ := List.append_of_mem hx
  have hbelow := hI.below (a, v) hx
  refine ⟨a, v, xs, ys, header_add hbelow.1 hbelow.2, rfl, rfl, fun c hc heq => ?_⟩
  obtain rfl | hc' := List.mem_cons.mp (hI.middle.1.subset hc)
  · rfl
  · exact absurd heq (of_decide_eq_true (List.mem_filter.mp hc').2)

/-- The totals with the new size of a block. -/
theorem Inv.resized_totals (hI : Inv sizeof σ (xs ++ (a, v) :: ys)) (n : ℕ) (sub : ℤ) :
    (σ.state.change sub).total_memory_requested =
        add64 (σ.state.change sub).total_memory_freed
          (n + sizes (forget σ.live (add64 a sizeof))) ↔
      (2 ^ 64 : ℤ) ∣ ((n : ℤ) - v.request_size) - sub := by
  have hsizes : sizes σ.live = v.request_size + sizes (forget σ.live (add64 a sizeof)) :=
    sizes_perm hI.middle.1
  have hdiff : (((n + sizes (forget σ.live (add64 a sizeof)) : ℕ) : ℤ) - (sizes σ.live : ℕ)) - sub =
      (n : ℤ) - v.request_size - sub := by
    rw [hsizes]
    omega
  rw [change_totals _ sub hI.totals, hdiff]

/-- The new block in place of the old one: what the list and the totals say of it. -/
theorem resize_inv {sub : ℤ} (hI : Inv sizeof σ (xs ++ (a, v) :: ys))
    (ha : σ.state.nodes a = some ⟨v, next⟩) :
    Inv sizeof ⟨{ σ.state.change sub with
        nodes := Function.update (Function.update σ.state.nodes a none) a
          (some ⟨⟨n, filename, instruction⟩, next⟩) },
      ⟨add64 a sizeof, ⟨n, filename, instruction⟩⟩ :: forget σ.live (add64 a sizeof), σ.stray⟩
      (xs ++ (a, ⟨n, filename, instruction⟩) :: ys) ↔
    (2 ^ 64 : ℤ) ∣ ((n : ℤ) - v.request_size) - sub := by
  obtain ⟨-, hothers⟩ := hI.middle
  obtain ⟨-, hhead, hblocks, hstray⟩ := change_eq σ.state sub
  have htotals := hI.resized_totals n sub
  refine ⟨fun h => htotals.mp h.totals, fun h => ⟨?_, ?_, ?_, htotals.mpr h, ?_, ?_, ?_⟩⟩
  · show Chain _ (σ.state.change sub).head _ none
    rw [hhead, Function.update_idem]
    exact hI.chain.set hI.nodup ha
  · have hnodup := hI.nodup
    rwa [List.map_append, List.map_cons] at hnodup ⊢
  · rw [List.map_append, List.map_cons]
    rw [List.map_append] at hothers
    exact List.perm_middle.trans (hothers.cons _)
  · exact hstray.trans hI.stray
  · have hlength := hI.blocks
    show (σ.state.change sub).blocks = _
    rw [hblocks, hlength]
    simp only [List.length_append, List.length_cons]
  · intro x hx
    obtain hx | hx := List.mem_append.mp hx
    · exact hI.below x (List.mem_append_left _ hx)
    · obtain rfl | hx := List.mem_cons.mp hx
      · exact hI.below (a, v) (by simp)
      · exact hI.below x (by simp [hx])

/-- A block that stays is accounted for. -/
theorem resize_spec (filename instruction : ℕ) (hI : Inv sizeof σ (xs ++ (a, v) :: ys))
    (hresized : Resized sizeof (add64 a sizeof) n v.request_size answer) :
    ∃ q s' l', q ≠ 0 ∧ resize sizeof σ.state answer a n filename instruction = some (q, s') ∧
      Inv sizeof ⟨s', ⟨q, ⟨n, filename, instruction⟩⟩ :: forget σ.live (add64 a sizeof), σ.stray⟩
        l' := by
  obtain ⟨⟨p, contents⟩, rfl, hp, hlt, sub, hsub, hdvd⟩ := hresized
  have hbelow := hI.below (a, v) (by simp)
  rw [header_add hbelow.1 hbelow.2] at hp
  obtain rfl : a = p := Option.some.inj hp
  obtain ⟨next, ha⟩ := hI.chain.node (a := a) (v := v) (by simp)
  exact ⟨_, _, _, payload_ne_zero hbelow.1 hbelow.2, resize_run ha hlt hsub,
    (resize_inv hI ha).mpr hdvd⟩

/-- The converse: a block that is accounted for has stayed. -/
theorem resize_converse (hI : Inv sizeof σ (xs ++ (a, v) :: ys)) (hn : n < 2 ^ 64)
    (hsizeof : sizeof < 2 ^ 64) (hans : Answers σ.state (some a) (add64 n sizeof) answer)
    (hrun : resize sizeof σ.state answer a n filename instruction = some (q, s'))
    (hacc : Accounted sizeof ⟨s', if q = 0 then σ.live
      else ⟨q, ⟨n, filename, instruction⟩⟩ :: forget σ.live (add64 a sizeof), m⟩) :
    Resized sizeof (add64 a sizeof) n v.request_size answer := by
  obtain ⟨next, ha⟩ := hI.chain.node (a := a) (v := v) (by simp)
  have hbelow := hI.below (a, v) (by simp)
  cases answer with
  | none => cases hrun
  | some r =>
    obtain ⟨p, contents⟩ := r
    obtain ⟨hpos, hple, hfresh⟩ := hans (p, contents) rfl
    have hlt : n + sizeof < 2 ^ 64 := by
      rw [resize] at hrun
      split at hrun
      · cases hrun
      · rename_i hroom
        exact lt_of_room hn hsizeof hroom
    have hq0 : add64 p sizeof ≠ 0 := payload_ne_zero hpos (below_of_answer hlt hple)
    cases hsub : int_sub n v.request_size with
    | none =>
      -- the difference is not defined
      rw [resize, if_neg (room_of_lt hlt), ha, Option.bind_eq_bind, Option.bind_some, hsub,
        Option.bind_eq_bind, Option.bind_none] at hrun
      cases hrun
    | some sub =>
      obtain ⟨rfl, rfl⟩ := Prod.mk.inj (Option.some.inj ((resize_run ha hlt hsub).symm.trans hrun))
      obtain ⟨l', hchain, -, -⟩ := hacc.list
      obtain ⟨hnodes, hhead, -, -⟩ := change_eq σ.state sub
      -- a block that moves leaves a link to where it was
      have hpa : p = a := by
        by_contra hne
        have hfresh : σ.state.nodes p = none :=
          hfresh.resolve_right fun h => hne (Option.some.inj h).symm
        obtain ⟨r, hxs, hr, -⟩ := chain_append.mp hI.chain
        obtain rfl := hr
        have hchain' : Chain (Function.update (Function.update σ.state.nodes a none) p
            (some ⟨⟨n, filename, instruction⟩, next⟩)) (σ.state.change sub).head l' none := hchain
        rw [hhead] at hchain'
        refine (hxs.congr fun x hx => ?_).stuck ?_ hchain'
        · rw [Function.update_of_ne (hxs.ne_of_free hfresh hx),
            Function.update_of_ne (ne_middle hI.nodup (.inl hx))]
        · rw [Function.update_of_ne (Ne.symm hne), Function.update_self]
      subst hpa
      rw [if_neg hq0] at hacc
      exact ⟨(p, contents), rfl, header_add hbelow.1 hbelow.2, hlt, sub, hsub,
        (hI.resized_totals n sub).mp hacc.totals⟩

/-- A live block is looked for in the list, and found. -/
theorem mini_realloc_live (hI : Inv sizeof σ (xs ++ (a, v) :: ys)) (hn : n ≠ 0) :
    mini_realloc sizeof σ.state answer (add64 a sizeof) n filename instruction =
      resize sizeof σ.state answer a n filename instruction := by
  have hbelow := hI.below (a, v) (by simp)
  have hlisted := listed_eq hI.chain (some a) hI.enough
  rw [decide_eq_true (by simp)] at hlisted
  rw [mini_realloc, if_neg (fun h => hn h.1), if_neg hn,
    if_neg (payload_ne_zero hbelow.1 hbelow.2), header_add hbelow.1 hbelow.2, hlisted]
  rfl

/-- A stray pointer is looked for in vain. -/
theorem mini_realloc_stray (hI : Inv sizeof σ l) (hsizeof : sizeof < 2 ^ 64)
    (hpayload : payload < 2 ^ 64) (hn : n ≠ 0) (h0 : payload ≠ 0)
    (hholds : ¬Holds σ.live payload) :
    mini_realloc sizeof σ.state answer payload n filename instruction =
      some (0, { σ.state with
        invalid_addresses := add64 σ.state.invalid_addresses 1 }) := by
  have hlisted := listed_eq hI.chain (header sizeof payload) hI.enough
  have hmem : header sizeof payload ∉ l.map fun x => some x.1 := by
    intro hmem
    obtain ⟨x, hx, heq⟩ := List.mem_map.mp hmem
    exact hholds ((hI.holds_iff hpayload hsizeof heq.symm).mp (List.mem_map_of_mem hx))
  rw [decide_eq_false hmem] at hlisted
  rw [mini_realloc, if_neg (fun h => hn h.1), if_neg hn, if_neg h0, hlisted]
  cases header sizeof payload with
  | none => rfl
  | some a => rfl

/-! ### The calls -/

/-- What a call leaves of a session. -/
theorem step_of_exec {c : Call} (h : c.exec sizeof σ.state answer = some (q, s')) :
    σ.step sizeof (c, answer) =
      some ⟨s', c.after σ.live q, σ.stray + if c.Stray σ.live then 1 else 0⟩ := by
  rw [Session.step, h]
  rfl

theorem Inv.null_free (hI : Inv sizeof σ l) : ¬Holds σ.live 0 := by
  intro hholds
  obtain ⟨a, v, xs, ys, -, h0, rfl, -⟩ := hI.find hholds
  obtain ⟨hpos, hlt⟩ := hI.below (a, v) (by simp)
  exact payload_ne_zero hpos hlt h0.symm

theorem mini_malloc_spec (hI : Inv sizeof σ l) (hn : n < 2 ^ 64)
    (hans : Answers σ.state none (add64 n sizeof) answer)
    (htracked : n = 0 ∨ Granted sizeof σ.state n answer) :
    ∃ q s' l', mini_malloc sizeof σ.state answer n filename instruction = some (q, s') ∧
      Inv sizeof ⟨s', keep σ.live q ⟨n, filename, instruction⟩, σ.stray⟩ l' := by
  by_cases h0 : n = 0
  · exact ⟨0, σ.state, l, if_pos h0, hI⟩
  · obtain ⟨q, s', l', hrun, hI'⟩ := record_spec filename instruction hI
      (Nat.mod_eq_of_lt hn).symm hans (htracked.resolve_left h0)
    exact ⟨q, s', l', (if_neg h0).trans hrun, hI'⟩

theorem mini_malloc_converse (hI : Inv sizeof σ l) (hn : n < 2 ^ 64) (hsizeof : sizeof < 2 ^ 64)
    (hans : Answers σ.state none (add64 n sizeof) answer)
    (hrun : mini_malloc sizeof σ.state answer n filename instruction = some (q, s'))
    (hacc : Accounted sizeof ⟨s', keep σ.live q ⟨n, filename, instruction⟩, m⟩) :
    n = 0 ∨ Granted sizeof σ.state n answer := by
  by_cases h0 : n = 0
  · exact .inl h0
  · rw [mini_malloc, if_neg h0] at hrun
    exact .inr (granted_of_accounted hI hn hsizeof hans hrun hacc)

theorem mini_realloc_null (s : State) :
    mini_realloc sizeof s answer 0 n filename instruction =
      mini_malloc sizeof s answer n filename instruction := by
  rw [mini_realloc]
  by_cases hn : n = 0
  · rw [if_pos ⟨hn, rfl⟩, mini_malloc, if_pos hn]
  · rw [if_neg (fun h => hn h.1), if_neg hn, if_pos rfl]

theorem mini_realloc_free (s : State) (h0 : payload ≠ 0) :
    mini_realloc sizeof s answer payload 0 filename instruction =
      (mini_free sizeof s payload).map (0, ·) := by
  rw [mini_realloc, if_neg (fun h => h0 h.2), if_pos rfl]

/-- `mini_realloc` of a pointer that is not null. -/
theorem mini_realloc_spec (hI : Inv sizeof σ l) (hsizeof : sizeof < 2 ^ 64)
    (hpayload : payload < 2 ^ 64) (h0 : payload ≠ 0)
    (htracked : Tracked sizeof σ (.realloc payload n filename instruction, answer)) :
    ∃ q s' l', mini_realloc sizeof σ.state answer payload n filename instruction = some (q, s') ∧
      Inv sizeof ⟨s', (Call.realloc payload n filename instruction).after σ.live q,
        σ.stray + if payload ≠ 0 ∧ ¬Holds σ.live payload then 1 else 0⟩ l' := by
  rw [Tracked, if_neg h0] at htracked
  by_cases hn : n = 0
  · subst hn
    rw [if_pos rfl] at htracked
    obtain ⟨s', l', hrun, hI'⟩ := mini_free_spec hI hsizeof hpayload h0 htracked
    refine ⟨0, s', l', by rw [mini_realloc_free _ h0, hrun]; rfl, ?_⟩
    rw [Call.after, if_neg h0, if_pos rfl]
    exact hI'
  · rw [if_neg hn] at htracked
    by_cases hholds : Holds σ.live payload
    · obtain ⟨a, v, xs, ys, -, rfl, rfl, -⟩ := hI.find hholds
      have hresized := htracked _ (hI.middle.1.symm.subset (List.mem_cons_self ..)) rfl
      obtain ⟨q, s', l', hq, hrun, hI'⟩ := resize_spec filename instruction hI hresized
      refine ⟨q, s', l', (mini_realloc_live hI hn).trans hrun, ?_⟩
      rw [Call.after, if_neg h0, if_neg hn, if_neg hq, if_neg (fun h => h.2 hholds)]
      exact hI'
    · refine ⟨0, _, l, mini_realloc_stray hI hsizeof hpayload hn h0 hholds, ?_⟩
      rw [Call.after, if_neg h0, if_neg hn, if_pos rfl, if_pos ⟨h0, hholds⟩]
      exact hI.strayed

theorem mini_realloc_converse (hI : Inv sizeof σ l) (hsizeof : sizeof < 2 ^ 64)
    (hn : n < 2 ^ 64) (h0 : payload ≠ 0)
    (hans : Answers σ.state (header sizeof payload) (add64 n sizeof) answer)
    (hrun : mini_realloc sizeof σ.state answer payload n filename instruction = some (q, s'))
    (hacc : Accounted sizeof
      ⟨s', (Call.realloc payload n filename instruction).after σ.live q, m⟩) :
    Tracked sizeof σ (.realloc payload n filename instruction, answer) := by
  rw [Tracked, if_neg h0]
  by_cases hn0 : n = 0
  · subst hn0
    rw [if_pos rfl]
    rintro rfl
    have hnull := (header_eq_none hsizeof hsizeof).mpr rfl
    rw [mini_realloc_free _ h0, mini_free_null _ h0 hnull] at hrun
    cases hrun
  · rw [if_neg hn0]
    rintro b hb rfl
    obtain ⟨a, v, xs, ys, hheader, hpayload, rfl, hinfo⟩ := hI.find (List.mem_map_of_mem hb)
    rw [Call.after, if_neg h0, if_neg hn0, hpayload] at hacc
    rw [hpayload, mini_realloc_live hI hn0] at hrun
    rw [hheader] at hans
    rw [hinfo b hb rfl, hpayload]
    exact resize_converse hI hn hsizeof hans hrun hacc

/-- **The step lemma.**  A tracked call keeps what the calls rely on. -/
theorem Inv.step (hI : Inv sizeof σ l) (hsizeof : sizeof < 2 ^ 64) {e : Call × Answer}
    (hposs : Possible sizeof σ e) (htracked : Tracked sizeof σ e) :
    ∃ σ' l', σ.step sizeof e = some σ' ∧ Inv sizeof σ' l' := by
  obtain ⟨c, answer⟩ := e
  cases c with
  | malloc n filename instruction =>
    obtain ⟨hn, hans⟩ := hposs
    obtain ⟨q, s', l', hrun, hI'⟩ := mini_malloc_spec hI hn hans htracked
    exact ⟨_, l', step_of_exec hrun, hI'⟩
  | calloc a b filename instruction =>
    obtain ⟨-, -, hans⟩ := hposs
    by_cases h0 : a = 0 ∨ b = 0
    · exact ⟨_, l, step_of_exec (q := 0) (if_pos h0), hI⟩
    · -- the true product is granted, so it did not wrap around
      have hgranted : Granted sizeof σ.state (a * b) answer := by
        obtain h | h | h := htracked
        exacts [absurd (.inl h) h0, absurd (.inr h) h0, h]
      obtain ⟨q, s', l', hrun, hI'⟩ := record_spec filename instruction hI rfl hans hgranted
      exact ⟨_, l', step_of_exec ((if_neg h0).trans hrun), hI'⟩
  | realloc payload n filename instruction =>
    obtain ⟨hpayload, hn, hans⟩ := hposs
    by_cases h0 : payload = 0
    · subst h0
      rw [if_pos rfl] at hans
      rw [Tracked, if_pos rfl] at htracked
      obtain ⟨q, s', l', hrun, hI'⟩ := mini_malloc_spec hI hn hans htracked
      have hstray : ¬(Call.realloc 0 n filename instruction).Stray σ.live := fun h => h.1 rfl
      refine ⟨_, l', step_of_exec ((mini_realloc_null _).trans hrun), ?_⟩
      rw [if_neg hstray]
      exact hI'
    · obtain ⟨q, s', l', hrun, hI'⟩ := mini_realloc_spec hI hsizeof hpayload h0 htracked
      exact ⟨_, l', step_of_exec hrun, hI'⟩
  | free payload =>
    by_cases h0 : payload = 0
    · subst h0
      have hstray : ¬(Call.free 0).Stray σ.live := fun h => h.1 rfl
      have hexec : (Call.free 0).exec sizeof σ.state answer = some (0, σ.state) := rfl
      refine ⟨_, l, step_of_exec hexec, ?_⟩
      rw [if_neg hstray]
      show Inv sizeof ⟨_, forget σ.live 0, _⟩ l
      rw [forget_of_not_holds hI.null_free]
      exact hI
    · obtain ⟨s', l', hrun, hI'⟩ := mini_free_spec hI hsizeof hposs h0 (htracked.resolve_left h0)
      have hexec : (Call.free payload).exec sizeof σ.state answer = some (0, s') := by
        rw [Call.exec, hrun]
        rfl
      exact ⟨_, l', step_of_exec hexec, hI'⟩

/-- The converse: a call that is accounted for was tracked. -/
theorem tracked_of_accounted (hI : Inv sizeof σ l) (hsizeof : sizeof < 2 ^ 64) {e : Call × Answer}
    (hposs : Possible sizeof σ e) (hstep : σ.step sizeof e = some σ')
    (hacc : Accounted sizeof σ') : Tracked sizeof σ e := by
  obtain ⟨c, answer⟩ := e
  obtain ⟨⟨q, s'⟩, hrun, rfl⟩ := Option.map_eq_some_iff.mp hstep
  cases c with
  | malloc n filename instruction =>
    exact mini_malloc_converse hI hposs.1 hsizeof hposs.2 hrun hacc
  | calloc a b filename instruction =>
    obtain ⟨ha, hb, hans⟩ := hposs
    by_cases h0 : a = 0 ∨ b = 0
    · exact h0.imp_right .inl
    · have hsize : mul64 a b < 2 ^ 64 := Nat.mod_lt _ (by decide)
      exact .inr (.inr (granted_of_accounted hI hsize hsizeof hans
        ((if_neg h0).symm.trans hrun) hacc))
  | realloc payload n filename instruction =>
    obtain ⟨hpayload, hn, hans⟩ := hposs
    by_cases h0 : payload = 0
    · subst h0
      rw [if_pos rfl] at hans
      rw [Tracked, if_pos rfl]
      exact mini_malloc_converse hI hn hsizeof hans ((mini_realloc_null _).symm.trans hrun) hacc
    · rw [if_neg h0] at hans
      exact mini_realloc_converse hI hsizeof hn h0 hans hrun hacc
  | free payload =>
    by_cases h0 : payload = 0
    · exact .inl h0
    · refine .inr ?_
      rintro rfl
      have hnull := (header_eq_none hsizeof hsizeof).mpr rfl
      rw [Call.exec, mini_free_null _ h0 hnull] at hrun
      cases hrun

/-! ### Runs -/

theorem inv_start (sizeof : ℕ) : Inv sizeof Session.start [] :=
  ⟨rfl, .nil, .refl _, rfl, rfl, rfl, fun _ hx => absurd hx (by simp)⟩

/-- **Accounting.**  After any run of tracked calls the list, the totals and the counter are right,
    and the next call is defined and leaves them right exactly if it is tracked. -/
theorem calls_accounted_iff (hsizeof : sizeof < 2 ^ 64)
    (hr : (system sizeof).Reach (fun σ e => Possible sizeof σ e ∧ Tracked sizeof σ e) σ) :
    Accounted sizeof σ ∧ ∀ e, Possible sizeof σ e →
      ((∃ σ', σ.step sizeof e = some σ' ∧ Accounted sizeof σ') ↔ Tracked sizeof σ e) := by
  obtain ⟨l, hI⟩ : ∃ l, Inv sizeof σ l := by
    refine hr.invariant (I := fun σ => ∃ l, Inv sizeof σ l) ?_ ?_
    · rintro _ rfl
      exact ⟨[], inv_start sizeof⟩
    · rintro σ e σ' ⟨l, hI⟩ ⟨hposs, htracked⟩ hstep
      obtain ⟨σ'', l', hstep', hI'⟩ := hI.step hsizeof hposs htracked
      obtain rfl := Option.some.inj (hstep'.symm.trans hstep)
      exact ⟨l', hI'⟩
  refine ⟨hI.accounted, fun e hposs => ⟨?_, fun htracked => ?_⟩⟩
  · rintro ⟨σ', hstep, hacc⟩
    exact tracked_of_accounted hI hsizeof hposs hstep hacc
  · obtain ⟨σ', l', hstep, hI'⟩ := hI.step hsizeof hposs htracked
    exact ⟨σ', hstep, hI'.accounted⟩

/-- A block and a stray pointer. -/
theorem calls_accounted_iff_stray : ∃ σ, σ.live = [⟨4128, ⟨10, 0, 0⟩⟩] ∧ σ.stray = 1 ∧
    Accounted 32 σ ∧ ∀ e, Possible 32 σ e →
      ((∃ σ', σ.step 32 e = some σ' ∧ Accounted 32 σ') ↔ Tracked 32 σ e) := by
  refine ⟨_, ?_, ?_, calls_accounted_iff (by decide)
    (.step (e := (.free 5000, none)) (.step (e := (.malloc 10 0 0, some (4096, ⟨⟨0, 0, 0⟩, none⟩)))
      (.init rfl) ⟨⟨by decide, ?_⟩, .inr ?_⟩ rfl) ⟨?_, .inr (by decide)⟩ rfl)⟩
  · rfl
  · rfl
  · rintro _ ⟨⟩
    exact ⟨by decide, by decide, .inl rfl⟩
  · rintro _ ⟨⟩
    exact ⟨by decide, fun _ => rfl⟩
  · show 5000 < 2 ^ 64
    decide

/-- The first block keeps the link that the system left in it. -/
theorem unaccounted_first_block :
    ¬∀ σ, (system 32).Reach (fun σ e => Possible 32 σ e) σ → Accounted 32 σ := by
  intro h
  have hacc := h _ (.step (e := (.malloc 10 0 0, some (4096, ⟨⟨0, 0, 0⟩, some 8⟩))) (.init rfl)
    ⟨by decide, fun _ hp => ?_⟩ rfl)
  · obtain ⟨l, hchain, -, hperm⟩ := hacc.list
    obtain ⟨⟨a, v⟩, rfl⟩ :=
      List.length_eq_one_iff.mp ((List.length_map _).symm.trans hperm.length_eq)
    obtain ⟨ha, next, hnode, hend⟩ := hchain
    cases ha
    cases hnode
    cases hend
  · cases hp
    exact ⟨by decide, by decide, .inl rfl⟩

end SystemProgramming.MiniValgrind
