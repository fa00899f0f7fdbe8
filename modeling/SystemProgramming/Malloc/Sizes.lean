import SystemProgramming.Malloc.Safety

namespace SystemProgramming.Malloc

open SystemProgramming.Lib Arena

/-!
# The size arithmetic of the allocator

`num * size` and `sizeof(metadata_t) + size` are taken modulo `2 ^ 64`, and `sbrk` reads its
argument as signed.  Here a call may pass any `size_t`.

* `malloc_cut` — a request that is cut down moves the break downwards, or leaves a block that the
  region cannot hold, or returns `NULL` with other lists than before.
* `served_iff` — on runs whose sizes are not cut down, a call is served exactly if its own size is
  not.
-/

variable {h k : Heap} {A : Arena} {b c : Blk} {fl : List ℕ} {f : Field} {p q v size n num : ℕ}
  {ok : Bool} {s : Client}

/-- The arguments of the call are `size_t`s. -/
def Call.Typed : Call → Prop
  | malloc size => size < 2 ^ 64
  | calloc num size => num < 2 ^ 64 ∧ size < 2 ^ 64
  | realloc _ size => size < 2 ^ 64
  | free _ => True

/-- The bytes that the call asks for; `realloc` of a block to no bytes is a call of `free`. -/
def Call.request : Call → Option ℕ
  | malloc size => some size
  | calloc num size => some (num * size)
  | realloc ptr size => if ptr ≠ 0 ∧ size = 0 then none else some size
  | free _ => none

/-- Neither the break nor the lists have changed. -/
structure Unchanged (h k : Heap) : Prop where
  brk : k.brk = h.brk
  tail : k.tail = h.tail
  freehead : k.freehead = h.freehead
  headers : ∀ bl, Chases (h.get .prev) 0 h.tail bl → ∀ a ∈ bl, ∀ f, k.get f a = h.get f a

/-- There is a block with the payload `q`, and `n` bytes of it are in the region and in no other
    block. -/
structure Room (k : Heap) (q n : ℕ) : Prop where
  recorded : n ≤ blockSize k q
  start_le : k.start ≤ sub64 q sizeofMetadata
  le_brk : q + n ≤ k.brk
  apart : ∃ bl, Chases (k.get .prev) 0 k.tail bl ∧ sub64 q sizeofMetadata ∈ bl ∧
    ∀ a ∈ bl, a ≠ sub64 q sizeofMetadata →
      q + n ≤ a ∨ a + sizeofMetadata + k.get .size a ≤ sub64 q sizeofMetadata

/-- A call that asks for `n` bytes returns `NULL` and has changed nothing, or a block of `n` bytes,
    and never moves the break downwards. -/
def Served (s : Client) (c : Call) (ok : Bool) (n : ℕ) : Prop :=
  ∃ q k, c.exec s.heap ok = some (q, k) ∧ s.heap.brk ≤ k.brk ∧
    (q = 0 ∧ Unchanged s.heap k ∨ q ≠ 0 ∧ Room k q n)

/-- What the client promises where it may pass any `size_t`. -/
def AnySize (s : Client) : Event → Prop
  | .call c _ => c.Pointers s ∧ c.Typed
  | .poke x _ => s.Owns x

/-! ### The break -/

@[simp] theorem Heap.set_brk : (h.set f p v).brk = h.brk := rfl

@[simp] theorem Heap.setIf_brk : (h.setIf f p v).brk = h.brk := by
  rw [Heap.setIf]; split <;> rfl

@[simp] theorem Heap.tailIf_brk : (h.tailIf q p).brk = h.brk := by
  rw [Heap.tailIf]; split <;> rfl

@[simp] theorem insertfree_brk : (insertfree h p).brk = h.brk := by
  simp [insertfree]

@[simp] theorem removefree_brk : (removefree h p).brk = h.brk := by
  simp only [removefree]
  split <;> simp

theorem split_brk : (split h p size).brk = h.brk := by
  simp only [split]
  split
  · rfl
  · split <;> simp [carve]

theorem appendBlock_brk : (appendBlock h p size).brk = h.brk := by simp [appendBlock]

@[simp] theorem dropNext_brk : (dropNext h p q).brk = h.brk := by simp [dropNext]

@[simp] theorem absorbNext_brk : (absorbNext h p q).brk = h.brk := by simp [absorbNext]

@[simp] theorem mergePrev_brk : (mergePrev h p q).brk = h.brk := by simp [mergePrev, dropInto]

theorem free_brk : (free h p).brk = h.brk := by
  have hnext (g : Heap) (x : ℕ) : (mergeNext g x).brk = g.brk := by
    simp only [mergeNext]
    split <;> simp
  have hsettle (g : Heap) (x : ℕ) : (settle g x).brk = g.brk := by
    simp only [settle]
    split <;> simp
  simp only [free]
  split
  · rfl
  · split
    · rfl
    · rw [hsettle, hnext, Heap.set_brk]

/-- `malloc` moves the break as `sbrk` does. -/
theorem grow_brk (h : Heap) (ok : Bool) (size : ℕ) : (grow h ok size).2.brk =
    ((h.sbrk ok (add64 sizeofMetadata size)).map fun r => r.2.brk).getD h.brk := by
  rw [grow]
  cases h.sbrk ok (add64 sizeofMetadata size) with
  | none => rfl
  | some r =>
    show (split (appendBlock r.2 r.1 size) r.1 size).brk = r.2.brk
    rw [split_brk, appendBlock_brk]

/-! ### Sizes that are served -/

theorem Unchanged.refl (h : Heap) : Unchanged h h := ⟨rfl, rfl, rfl, fun _ _ _ _ _ => rfl⟩

/-- The payload of a used block is a room of its size. -/
theorem Rep.room (hR : Rep k A fl) (hc : c ∈ used A.blocks) (hle : n ≤ c.size) :
    Room k c.data n := by
  have hcm := (mem_used.mp hc).1
  have hsub := Blk.sub_data A hcm
  obtain ⟨hlow, hhigh⟩ := A.fits.mem hcm
  simp only [Blk.stop] at hhigh
  refine ⟨by rwa [hR.blockSize_eq hcm], ?_, ?_, _, hR.chases_prev, ?_, fun a ha hne => ?_⟩
  · rwa [hsub, hR.start]
  · rw [hR.brk]
    simp only [Blk.data]
    omega
  · rw [hsub]
    exact List.mem_reverse.mpr (mem_addrs hcm)
  · obtain ⟨b, hb, rfl⟩ := List.mem_map.mp (List.mem_reverse.mp ha)
    rw [hsub] at hne ⊢
    rw [hR.holds.blocks.size b hb]
    have hapart := A.fits.apart hb hcm
    simp only [Blk.stop, Blk.data] at hapart ⊢
    obtain rfl | hbefore | hafter := hapart
    · exact absurd rfl hne
    · exact .inr hbefore
    · exact .inl (by omega)

/-- `malloc` of a size that is not cut down leaves the break where it was or moves it upwards. -/
theorem malloc_brk_le (hR : Rep h A fl) (hserves : Serves h ok size)
    (hrun : malloc h ok size = some (q, k)) : h.brk ≤ k.brk := by
  by_cases hpos : size = 0
  · rw [malloc, if_pos hpos, Option.some.injEq, Prod.mk.injEq] at hrun
    exact (congrArg Heap.brk hrun.2).le
  · obtain ⟨q', k', hrun', hspec⟩ := malloc_spec ok hR hpos hserves
    obtain ⟨rfl, rfl⟩ := Prod.mk.inj (Option.some.inj (hrun'.symm.trans hrun))
    cases hspec with
    | taken _ _ _ _ _ hE => exact hE.brk.ge
    | extended _ _ _ _ _ hE =>
      have hbrk := hE.brk
      have hA := hR.brk
      simp only at hbrk
      omega
    | refused => exact le_rfl

/-- What allocates or resizes serves the request. -/
theorem served_of {Al : Prop} (c : Call) {A' : Arena} {fl' : List ℕ}
    (hrun : c.exec s.heap ok = some (q, k)) (hbrk : s.heap.brk ≤ k.brk) (hR' : Rep k A' fl')
    (hal : (q = 0 ∧ k = s.heap ∧ Al) ∨ q ≠ 0 ∧ ∃ c ∈ used A'.blocks, c.data = q ∧ n ≤ c.size) :
    Served s c ok n := by
  refine ⟨q, k, hrun, hbrk, ?_⟩
  obtain ⟨h0, rfl, -⟩ | ⟨hq, c, hc, rfl, hle⟩ := hal
  · exact .inl ⟨h0, Unchanged.refl _⟩
  · exact .inr ⟨hq, hR'.room hc hle⟩

theorem Allocates.block {A' : Arena} (hal : Allocates h A size q k A') :
    (q = 0 ∧ k = h ∧ A' = A) ∨ q ≠ 0 ∧ ∃ c ∈ used A'.blocks, c.data = q ∧ size ≤ c.size := by
  obtain hnull | ⟨hq, -, c, hdata, hle, hperm⟩ := hal
  · exact .inl hnull
  · exact .inr ⟨hq, c, hperm.symm.subset List.mem_cons_self, hdata, hle⟩

theorem Resizes.block {A' : Arena} (hres : Resizes h A b size q k A') :
    (q = 0 ∧ k = h ∧ A' = A) ∨ q ≠ 0 ∧ ∃ c ∈ used A'.blocks, c.data = q ∧ size ≤ c.size := by
  obtain hnull | ⟨hq, c, us, hdata, hle, -, hperm, -⟩ := hres
  · exact .inl hnull
  · exact .inr ⟨hq, c, hperm.symm.subset List.mem_cons_self, hdata, hle⟩

/-- `calloc` returns what `malloc` returns, and leaves the break. -/
theorem calloc_of_malloc (hrun : malloc h ok (mul64 num size) = some (q, k)) :
    ∃ k', calloc h ok num size = some (q, k') ∧ k'.brk = k.brk ∧ (q = 0 → k' = k) := by
  rw [calloc, hrun]
  by_cases h0 : q = 0
  · exact ⟨k, by simp [h0], rfl, fun _ => rfl⟩
  · exact ⟨_, if_neg h0, rfl, fun h => absurd h h0⟩

/-- So does `realloc` where it calls `malloc`. -/
theorem realloc_of_malloc (h0 : p ≠ 0) (hpos : size ≠ 0) (hp : sub64 p sizeofMetadata ≠ 0)
    (hlt : h.get .size (sub64 p sizeofMetadata) < size)
    (hgrow : ¬growsInPlace h (sub64 p sizeofMetadata) size)
    (hrun : malloc h ok size = some (q, k)) :
    ∃ k', realloc h ok p size = some (q, k') ∧ k'.brk = k.brk ∧ (q = 0 → k' = k) := by
  simp only [realloc, if_neg h0, if_neg hpos, if_neg hp, if_neg hlt.not_ge, if_neg hgrow, hrun]
  by_cases hq : q = 0
  · exact ⟨k, by simp [hq], rfl, fun _ => rfl⟩
  · exact ⟨_, if_neg hq, free_brk, fun h => absurd h hq⟩

/-! ### Sizes that are cut down -/

/-- The header of a block at the break meets no other one. -/
theorem Rep.spaced_brk (hR : Rep h A fl) :
    Spaced (addrs (A.blocks ++ [⟨h.brk, size, false⟩])) := by
  have hfits : Fits A.start (A.blocks ++ [⟨h.brk, 0, false⟩]) (h.brk + sizeofMetadata) := by
    rw [fits_append_cons, hR.brk]
    exact ⟨A.fits, le_rfl⟩
  have hle := A.brk_le
  have hS := hfits.spaced A.start_pos (by rw [hR.brk]; simp only [sizeofMetadata]; omega)
  rwa [addrs_append] at hS ⊢

/-- A block for which `sbrk(0)` was called is split at its own header, and that is put on the free
    list. -/
theorem grow_wrapped (hR : Rep h A fl) (hwrap : sizeofMetadata + size = 2 ^ 64) :
    (grow h true size).2.freehead = h.brk := by
  have hle := A.brk_le
  have hpos : 0 < A.brk := A.start_pos.trans_le A.fits.le
  rw [← hR.brk] at hle hpos
  simp only [sizeofMetadata] at hwrap
  have hzero : add64 sizeofMetadata size = 0 := by
    simp only [add64, sizeofMetadata]
    omega
  have hsbrk : h.sbrk true (add64 sizeofMetadata size) = some (h.brk, h) := by
    rw [hzero, Heap.sbrk, if_pos (by omega), if_pos ⟨rfl, hle⟩, Nat.add_zero]
  have hdata : h.brk + sizeofMetadata < 2 ^ 64 := by
    simp only [sizeofMetadata]
    omega
  have hmem : h.brk ∈ addrs (A.blocks ++ [⟨h.brk, size, false⟩]) :=
    mem_addrs (b := ⟨h.brk, size, false⟩) (by simp)
  have hget (g : Field) :=
    hR.holds.appendBlock_get (g := g) hR.spaced_brk (by omega : size < 2 ^ 64) hdata hmem
  have hsize := hget .size
  have hptr := hget .ptr
  simp only [reduceCtorEq, and_false, and_true, if_false, if_true] at hsize hptr
  have hnew : add64 (h.brk + sizeofMetadata) size = h.brk := by
    simp only [add64, sizeofMetadata]
    omega
  have hlarge : ¬size ≤ add64 size (3 * sizeofMetadata) := by
    simp only [add64, sizeofMetadata]
    omega
  rw [grow, hsbrk]
  show (split (appendBlock h h.brk size) h.brk size).freehead = h.brk
  rw [split, hsize, hptr, if_neg hlarge]
  simp only [Blk.data, hnew, if_neg hpos.ne']
  rfl

/-- **A size that is cut down**: the break goes down, or it stays below the size, and then the
    lists have changed if the result is `NULL`. -/
theorem malloc_cut (hR : Rep h A fl) (hsize : size < 2 ^ 64) (hcut : ¬Serves h ok size) :
    ∃ q k, malloc h ok size = some (q, k) ∧
      (k.brk < h.brk ∨ k.brk < size ∧ (q = 0 → ¬Unchanged h k)) := by
  simp only [Serves, not_or] at hcut
  obtain ⟨hpos, hnofit, hlarge, hgranted⟩ := hcut
  refine ⟨(grow h ok size).1, (grow h ok size).2, malloc_grow hR hpos hnofit, ?_⟩
  obtain ⟨r, hr⟩ := Option.ne_none_iff_exists'.mp hgranted
  have hbrk := grow_brk h ok size
  rw [hr] at hbrk
  have hadd : add64 sizeofMetadata size < 2 ^ 64 := Nat.mod_lt _ (by decide)
  have hpos' : 0 < A.brk := A.start_pos.trans_le A.fits.le
  rw [← hR.brk] at hpos'
  rw [Heap.sbrk] at hr
  split at hr
  · rename_i hsmall
    split at hr
    · rename_i hgrant
      obtain rfl := Option.some.inj hr
      replace hbrk : (grow h ok size).2.brk = h.brk + add64 sizeofMetadata size := hbrk
      -- the sum has wrapped around
      have hwrap : sizeofMetadata + size = add64 sizeofMetadata size + 2 ^ 64 := by
        simp only [add64, sizeofMetadata] at hsmall hlarge ⊢
        omega
      refine .inr ⟨?_, fun _ hsame => ?_⟩
      · simp only [sizeofMetadata] at hwrap hbrk hgrant ⊢
        omega
      · -- the break has not moved, so the new free block is where it was
        have hsame' := hsame.brk
        obtain rfl : ok = true := hgrant.1
        have hhead := hsame.freehead
        rw [grow_wrapped hR (by omega)] at hhead
        obtain h0 | hmem := hR.holds.freehead_mem
        · omega
        · obtain ⟨b, hb, haddr⟩ := List.mem_map.mp hmem
          have hstop := (A.fits.mem hb).2
          rw [← hR.brk] at hstop
          simp only [Blk.stop, sizeofMetadata] at hstop
          omega
    · cases hr
  · split at hr
    · rename_i hlow
      obtain rfl := Option.some.inj hr
      replace hbrk : (grow h ok size).2.brk = h.brk - (2 ^ 64 - add64 sizeofMetadata size) := hbrk
      exact .inl (by rw [hbrk]; exact Nat.sub_lt hpos' (by omega))
    · cases hr

/-! ### One call -/

theorem not_served (c : Call) (hrun : c.exec s.heap ok = some (q, k))
    (hcut : k.brk < s.heap.brk ∨ k.brk < n ∧ (q = 0 → ¬Unchanged s.heap k)) :
    ¬Served s c ok n := by
  rintro ⟨q', k', hrun', hbrk, hres⟩
  obtain ⟨rfl, rfl⟩ := Prod.mk.inj (Option.some.inj (hrun.symm.trans hrun'))
  obtain hlow | ⟨hsmall, hchanged⟩ := hcut
  · omega
  · obtain ⟨h0, hsame⟩ | ⟨-, hroom⟩ := hres
    · exact hchanged h0 hsame
    · have hle := hroom.le_brk
      omega

theorem malloc_served_iff (hR : Rep s.heap A fl) (hsize : size < 2 ^ 64) :
    Served s (.malloc size) ok size ↔ Serves s.heap ok size := by
  constructor
  · intro hserved
    by_contra hcut
    obtain ⟨q, k, hrun, hbad⟩ := malloc_cut hR hsize hcut
    exact not_served (.malloc size) hrun hbad hserved
  · intro hserves
    obtain ⟨q, k, A', fl', hrun, hR', -, -, hal, -⟩ := malloc_call ok hR hserves
    exact served_of (.malloc size) hrun (malloc_brk_le hR hserves hrun) hR' hal.block

/-- **A product that has wrapped around** is not served if `malloc` finds room for the rest. -/
theorem calloc_wrapped (hR : Rep s.heap A fl) (hwrap : ¬num * size < 2 ^ 64)
    (hpos : mul64 num size ≠ 0) (hserves : Serves s.heap ok (mul64 num size))
    (hroom : ¬Fit s.heap (mul64 num size) → ¬Refused s.heap ok (mul64 num size)) :
    ¬Served s (.calloc num size) ok (num * size) := by
  obtain ⟨q, k, hrun, hspec⟩ := malloc_spec ok hR hpos hserves
  obtain ⟨k', hrun', hbrk, -⟩ := calloc_of_malloc hrun
  have hsmall (A' : Arena) (fl' : List ℕ) (hR' : Rep k A' fl') : k'.brk < num * size := by
    have hbrk' := A'.brk_le
    rw [hbrk, hR'.brk]
    omega
  cases hspec with
  | taken _ _ _ _ hR' =>
    have hq : ∀ b : Blk, b.data ≠ 0 := fun b => Nat.succ_ne_zero _
    exact not_served (.calloc num size) hrun' (.inr ⟨hsmall _ _ hR', (absurd · (hq _))⟩)
  | extended _ _ _ _ hR' =>
    exact not_served (.calloc num size) hrun'
      (.inr ⟨hsmall _ _ hR', (absurd · (Nat.succ_ne_zero _))⟩)
  | refused hno _ hfit =>
    have hnofit : ¬Fit s.heap (mul64 num size) := by
      rintro ⟨c, hc, hc0⟩
      exact hc0 (Option.some.inj (hfit.symm.trans hc)).symm
    obtain h0 | hfit | hsmall | hno' := hserves
    · exact absurd h0 hpos
    · exact absurd hfit hnofit
    · exact absurd (hR.refused hsmall hno) (hroom hnofit)
    · exact absurd hno' (hroom hnofit)

theorem calloc_served_iff (hR : Rep s.heap A fl) :
    Served s (.calloc num size) ok (num * size) ↔ (Call.calloc num size).Exact s.heap ok := by
  have hlt : mul64 num size < 2 ^ 64 := Nat.mod_lt _ (by decide)
  have hle : mul64 num size ≤ num * size := Nat.mod_le _ _
  constructor
  · intro hserved
    by_contra hcut
    rw [Call.Exact, not_and_or] at hcut
    by_cases hserves : Serves s.heap ok (mul64 num size)
    · obtain hcut | hcut := hcut
      · exact hcut hserves
      simp only [not_or, not_and] at hcut
      obtain ⟨hwrap, hpos, hroom⟩ := hcut
      exact calloc_wrapped hR hwrap hpos hserves hroom hserved
    · obtain ⟨q, k, hrun, hbad⟩ := malloc_cut hR hlt hserves
      obtain ⟨k', hrun', hbrk, hsame⟩ := calloc_of_malloc hrun
      refine not_served (.calloc num size) hrun' ?_ hserved
      rw [hbrk]
      obtain hlow | ⟨hsmall, hchanged⟩ := hbad
      · exact .inl hlow
      · exact .inr ⟨hsmall.trans_le hle, fun h0 => hsame h0 ▸ hchanged h0⟩
  · rintro ⟨hserves, hmul⟩
    by_cases hlt : num * size < 2 ^ 64
    · have hserves' := hserves
      rw [mul64_eq hlt] at hserves'
      obtain ⟨q, k, A', fl', hrun, hR', -, -, hal, -⟩ := calloc_call ok hR hlt hserves'
      obtain ⟨p, g, B, fb, hmalloc, -⟩ := malloc_call ok hR hserves
      obtain ⟨k', hrun', hbrk, -⟩ := calloc_of_malloc hmalloc
      obtain ⟨rfl, rfl⟩ := Prod.mk.inj (Option.some.inj (hrun.symm.trans hrun'))
      exact served_of (.calloc num size) hrun (hbrk ▸ malloc_brk_le hR hserves hmalloc) hR' hal.block
    · obtain ⟨k', hrun', -, hsame⟩ := calloc_of_malloc (malloc_null hR (hmul.resolve_left hlt))
      obtain rfl := hsame rfl
      exact served_of (.calloc num size) hrun' le_rfl hR (.inl ⟨rfl, rfl, trivial⟩)

theorem realloc_brk_le (hR : Rep h A fl) (h0 : p ≠ 0) (hpos : size ≠ 0)
    (hserves : h.get .size (sub64 p sizeofMetadata) < size →
      ¬growsInPlace h (sub64 p sizeofMetadata) size → Serves h ok size)
    (hrun : realloc h ok p size = some (q, k)) : h.brk ≤ k.brk := by
  have hout {r : ℕ × Heap} (heq : r = (q, k)) (hle : h.brk ≤ r.2.brk) : h.brk ≤ k.brk := by
    rwa [heq] at hle
  simp only [realloc, if_neg h0, if_neg hpos] at hrun
  split at hrun
  · exact hout (Option.some.inj hrun) le_rfl
  split at hrun
  · exact hout (Option.some.inj hrun) le_rfl
  rename_i hlt
  split at hrun
  · exact hout (Option.some.inj hrun) absorbNext_brk.ge
  rename_i hgrow
  split at hrun
  · cases hrun
  rename_i q' g hmalloc
  have hle := malloc_brk_le hR (hserves (not_le.mp hlt) hgrow) hmalloc
  split at hrun
  · exact hout (Option.some.inj hrun) hle
  · refine hout (Option.some.inj hrun) ?_
    rw [free_brk]
    exact hle

theorem realloc_served_iff (hR : Rep s.heap A fl) (hb : b ∈ used A.blocks) (hpos : size ≠ 0)
    (hsize : size < 2 ^ 64) :
    Served s (.realloc b.data size) ok size ↔
      (s.heap.get .size b.addr < size → ¬growsInPlace s.heap b.addr size →
        Serves s.heap ok size) := by
  have hbm := (mem_used.mp hb).1
  have hsub := Blk.sub_data A hbm
  have h0 : b.data ≠ 0 := by simp [Blk.data, sizeofMetadata]
  constructor
  · intro hserved hlt hgrow
    by_contra hcut
    obtain ⟨q, k, hrun, hbad⟩ := malloc_cut hR hsize hcut
    have hb0 : b.addr ≠ 0 := fun hc => hR.holds.spaced.pos (hc ▸ mem_addrs hbm)
    rw [← hsub] at hlt hgrow hb0
    obtain ⟨k', hrun', hbrk, hsame⟩ := realloc_of_malloc h0 hpos hb0 hlt hgrow hrun
    refine not_served (.realloc b.data size) hrun' ?_ hserved
    rw [hbrk]
    exact hbad.imp_right fun hlarge => ⟨hlarge.1, fun h0 => hsame h0 ▸ hlarge.2 h0⟩
  · intro hserves
    have hserves' := hserves
    rw [hR.holds.blocks.size b hbm] at hserves
    obtain ⟨q, k, A', fl', hrun, hR', -, -, hres, -⟩ := realloc_call ok hR hb hpos hserves
    rw [← hsub] at hserves'
    exact served_of (.realloc b.data size) hrun (realloc_brk_le hR h0 hpos hserves' hrun) hR'
      hres.block

/-! ### Runs -/

/-- **The sizes of a call.**  On a run of calls that are not cut down, a call that asks for bytes
    is served exactly if it is not cut down either; the others leave the break where it is. -/
theorem served_iff (hr : system.Reach Sized s) {c : Call} (hptr : c.Pointers s) (htyped : c.Typed)
    (ok : Bool) :
    (∀ n, c.request = some n → (Served s c ok n ↔ c.Exact s.heap ok)) ∧
    (c.request = none → ∃ k, c.exec s.heap ok = some (0, k) ∧ k.brk = s.heap.brk) := by
  obtain ⟨A, fl, hR, hB⟩ := inv_of_sized hr
  cases c with
  | malloc size =>
    refine ⟨fun n hn => ?_, nofun⟩
    obtain rfl := Option.some.inj hn
    exact malloc_served_iff hR htyped
  | calloc num size =>
    refine ⟨fun n hn => ?_, nofun⟩
    obtain rfl := Option.some.inj hn
    exact calloc_served_iff hR
  | free ptr =>
    refine ⟨fun n hn => ?_, fun _ => ⟨_, rfl, free_brk⟩⟩
    cases hn
  | realloc ptr size =>
    by_cases h0 : ptr = 0
    · -- `realloc(NULL, size)` is `malloc(size)`
      subst h0
      refine ⟨fun n hn => ?_, fun hn => ?_⟩
      · obtain rfl := Option.some.inj hn
        exact malloc_served_iff hR htyped
      · simp [Call.request] at hn
    · obtain ⟨b, hb, rfl⟩ := hB.block (hptr.resolve_left h0)
      by_cases hpos : size = 0
      · -- `realloc(ptr, 0)` is `free(ptr)`
        subst hpos
        refine ⟨fun n hn => ?_, fun _ => ⟨free s.heap b.data, ?_, free_brk⟩⟩
        · simp [Call.request, h0] at hn
        · simp [Call.exec, realloc, h0]
      · refine ⟨fun n hn => ?_, fun hn => ?_⟩
        · simp only [Call.request, hpos, and_false, if_false] at hn
          obtain rfl := Option.some.inj hn
          rw [realloc_served_iff hR hb hpos htyped, Call.Exact, if_neg h0,
            Blk.sub_data A (mem_used.mp hb).1]
          exact ⟨fun h _ => h, fun h => h hpos⟩
        · simp [Call.request, hpos] at hn

/-- A block that is served, a product that wraps around to 0, a size that `sbrk` would read as
    negative and the system refuses, and a product that fits. -/
theorem served_iff_some : ∃ s, system.run Sized (Client.fresh 4096)
    [.call (.malloc 100) true, .call (.calloc (2 ^ 32) (2 ^ 32)) true,
      .call (.malloc (2 ^ 63)) false] = some s ∧ s.live = [(4152, 100)] ∧
    Served s (.calloc 6 7) true 42 := by
  have hrun : (system.run Sized (Client.fresh 4096)
      [.call (.malloc 100) true, .call (.calloc (2 ^ 32) (2 ^ 32)) true,
        .call (.malloc (2 ^ 63)) false]).map
        (fun s => (s.live, decide ((Call.calloc 6 7).Exact s.heap true))) =
      some ([(4152, 100)], true) := by decide +kernel
  obtain ⟨s, hs, hobs⟩ := Option.map_eq_some_iff.mp hrun
  obtain ⟨hlive, hexact⟩ := Prod.mk.inj hobs
  have hr := Lts.Reach.of_run (.init (Client.fresh_initial (by decide) (by decide))) hs
  exact ⟨s, hs, hlive, ((served_iff hr (c := .calloc 6 7) trivial ⟨by decide, by decide⟩ true).1
    42 rfl).mpr (of_decide_eq_true hexact)⟩

/-- **A product that wraps around**: four bytes are returned where `2 ^ 64 + 4` were asked for. -/
theorem not_served_of_any_size :
    ¬∀ s, system.Reach AnySize s → ∀ (c : Call) (ok : Bool) (n : ℕ), c.Pointers s → c.Typed →
      c.request = some n → Served s c ok n := by
  intro h
  obtain ⟨q, k, hrun, -, hres⟩ := h (Client.fresh 4096)
    (.init (Client.fresh_initial (by decide) (by decide))) (.calloc (2 ^ 62 + 1) 4) true
    ((2 ^ 62 + 1) * 4) trivial ⟨by decide, by decide⟩ rfl
  have hobs : ((Call.calloc (2 ^ 62 + 1) 4).exec (Client.fresh 4096).heap true).map
      (fun r => (r.1, r.2.brk)) = some (4152, 4156) := by decide +kernel
  rw [hrun] at hobs
  obtain ⟨hq, hbrk⟩ : q = 4152 ∧ k.brk = 4156 := Prod.mk.inj (Option.some.inj hobs)
  obtain ⟨h0, -⟩ | ⟨-, hroom⟩ := hres
  · exact absurd (hq.symm.trans h0) (by decide)
  · have hle := hroom.le_brk
    omega

end SystemProgramming.Malloc
