import SystemProgramming.Lib.Lts
import SystemProgramming.Malloc.Calls

namespace SystemProgramming.Malloc

open SystemProgramming.Lib Arena

/-!
# Programs that use the allocator

A client holds the live blocks it was given, with the sizes it asked for, and may call the
allocator or write to its own blocks.  Calls are admissible when they pass `NULL` or a live
pointer and their size is far from wrapping around.

* `System` — the transition system of heap and client; `Reachable` — its reachable states.
* `Inv` — the heap represents an arena whose used blocks are exactly the live ones.
* `call_step` — every call whose size is not cut down returns, keeps `Inv`, and spares every used
  payload.
-/

/-- The library calls. -/
inductive Call
  | malloc (size : ℕ)
  | calloc (num size : ℕ)
  | realloc (ptr size : ℕ)
  | free (ptr : ℕ)
  deriving DecidableEq, Repr

/-- What happens next: a call, with the answer the system would give to an `sbrk`, or a
    write of the client to memory. -/
inductive Event
  | call (c : Call) (ok : Bool)
  | poke (x : ℕ) (v : UInt8)

/-- The heap and the live blocks: payload pointer and requested size. -/
structure Client where
  heap : Heap
  live : List (ℕ × ℕ)

namespace Client

/-- The pointer is live. -/
def Holds (s : Client) (ptr : ℕ) : Prop := ptr ∈ s.live.map Prod.fst

/-- The byte belongs to a live payload. -/
def Owns (s : Client) (x : ℕ) : Prop := ∃ e ∈ s.live, e.1 ≤ x ∧ x < e.1 + e.2

end Client

/-- Forget a live pointer. -/
def drop (live : List (ℕ × ℕ)) (ptr : ℕ) : List (ℕ × ℕ) := live.filter (fun e => e.1 ≠ ptr)

/-- Remember a block, unless the call returned `NULL`. -/
def keep (live : List (ℕ × ℕ)) (q size : ℕ) : List (ℕ × ℕ) :=
  if q = 0 then live else (q, size) :: live

/-- The live blocks once the call has returned `q`. -/
def Call.after (live : List (ℕ × ℕ)) (q : ℕ) : Call → List (ℕ × ℕ)
  | malloc size => keep live q size
  | calloc num size => keep live q (num * size)
  | realloc ptr size =>
    if size = 0 then drop live ptr else if q = 0 then live else (q, size) :: drop live ptr
  | free ptr => drop live ptr

/-- The call, run on the heap. -/
def Call.exec (h : Heap) (ok : Bool) : Call → Option (ℕ × Heap)
  | malloc size => Malloc.malloc h ok size
  | calloc num size => Malloc.calloc h ok num size
  | realloc ptr size => Malloc.realloc h ok ptr size
  | free ptr => some (0, Malloc.free h ptr)

instance (s : Client) (ptr : ℕ) : Decidable (s.Holds ptr) :=
  inferInstanceAs (Decidable (_ ∈ _))

instance (s : Client) (x : ℕ) : Decidable (s.Owns x) :=
  inferInstanceAs (Decidable (∃ e ∈ s.live, e.1 ≤ x ∧ x < e.1 + e.2))

/-- What the client promises of a call: pointers are `NULL` or live, sizes do not wrap. -/
def Call.Admissible (s : Client) : Call → Prop
  | malloc size => size + 3 * sizeofMetadata < 2 ^ 63
  | calloc num size => num * size + 3 * sizeofMetadata < 2 ^ 63
  | realloc ptr size => (ptr = 0 ∨ s.Holds ptr) ∧ size + 3 * sizeofMetadata < 2 ^ 63
  | free ptr => ptr = 0 ∨ s.Holds ptr

/-- The pointer of the call is `NULL` or live. -/
def Call.Pointers (s : Client) : Call → Prop
  | realloc ptr _ => ptr = 0 ∨ s.Holds ptr
  | free ptr => ptr = 0 ∨ s.Holds ptr
  | _ => True

/-- The call's size is not cut down: `malloc` serves it where it is reached, and a product that is
    no `size_t` is refused. -/
def Call.Exact (h : Heap) (ok : Bool) : Call → Prop
  | malloc size => Serves h ok size
  | calloc num size => Serves h ok (mul64 num size) ∧ (num * size < 2 ^ 64 ∨ mul64 num size = 0 ∨
      ¬Fit h (mul64 num size) ∧ Refused h ok (mul64 num size))
  | realloc ptr size =>
    if ptr = 0 then Serves h ok size
    else size ≠ 0 → h.get .size (sub64 ptr sizeofMetadata) < size →
      ¬growsInPlace h (sub64 ptr sizeofMetadata) size → Serves h ok size
  | free _ => True

/-- What the client promises: admissible calls, and writes to its own blocks only. -/
def Admissible (s : Client) : Event → Prop
  | .call c _ => c.Admissible s
  | .poke x _ => s.Owns x

/-- Calls whose sizes are not cut down, and writes to its own blocks only. -/
def Sized (s : Client) : Event → Prop
  | .call c ok => c.Pointers s ∧ c.Exact s.heap ok
  | .poke x _ => s.Owns x

instance (s : Client) : (c : Call) → Decidable (c.Pointers s)
  | .malloc _ => isTrue trivial
  | .calloc _ _ => isTrue trivial
  | .realloc ptr _ => inferInstanceAs (Decidable (ptr = 0 ∨ s.Holds ptr))
  | .free ptr => inferInstanceAs (Decidable (ptr = 0 ∨ s.Holds ptr))

instance (h : Heap) (ok : Bool) : (c : Call) → Decidable (c.Exact h ok)
  | .malloc size => inferInstanceAs (Decidable (Serves h ok size))
  | .calloc num size => inferInstanceAs (Decidable (Serves h ok (mul64 num size) ∧
      (num * size < 2 ^ 64 ∨ mul64 num size = 0 ∨ ¬Fit h _ ∧ Refused h ok _)))
  | .realloc ptr size => inferInstanceAs (Decidable (if ptr = 0 then Serves h ok size
      else size ≠ 0 → _ < size → ¬growsInPlace h _ size → Serves h ok size))
  | .free _ => isTrue trivial

instance (s : Client) : (e : Event) → Decidable (Sized s e)
  | .call c ok => inferInstanceAs (Decidable (c.Pointers s ∧ c.Exact s.heap ok))
  | .poke x _ => inferInstanceAs (Decidable (s.Owns x))

instance (s : Client) : (e : Event) → Decidable (Admissible s e)
  | .call (.malloc _) _ => inferInstanceAs (Decidable (_ < _))
  | .call (.calloc _ _) _ => inferInstanceAs (Decidable (_ < _))
  | .call (.realloc ptr _) _ => inferInstanceAs (Decidable ((ptr = 0 ∨ s.Holds ptr) ∧ _ < _))
  | .call (.free ptr) _ => inferInstanceAs (Decidable (ptr = 0 ∨ s.Holds ptr))
  | .poke x _ => inferInstanceAs (Decidable (s.Owns x))

/-- One event. -/
def Client.step (s : Client) : Event → Option Client
  | .call c ok =>
    match c.exec s.heap ok with
    | none => none
    | some (q, h) => some ⟨h, c.after s.live q⟩
  | .poke x v => some { s with heap := { s.heap with mem := Function.update s.heap.mem x v } }

/-- Before the first call: an empty region, somewhere in memory, and no blocks. -/
structure Client.Initial (s : Client) : Prop where
  start_pos : 0 < s.heap.start
  start_le : s.heap.start ≤ 2 ^ 63
  brk : s.heap.brk = s.heap.start
  tail : s.heap.tail = 0
  freehead : s.heap.freehead = 0
  live : s.live = []

/-- A program that is about to make its first call. -/
def Client.fresh (start : ℕ) : Client := ⟨⟨fun _ => 0, start, start, 0, 0, []⟩, []⟩

theorem Client.fresh_initial {start : ℕ} (hpos : 0 < start) (hle : start ≤ 2 ^ 63) :
    (Client.fresh start).Initial := ⟨hpos, hle, rfl, rfl, rfl, rfl⟩

/-- The allocator and its client. -/
def system : Lts Client Event := ⟨Client.Initial, Client.step⟩

/-- The states that admissible runs reach. -/
def Reachable : Client → Prop := system.Reach Admissible

/-! ### Live blocks and used blocks -/

/-- The live blocks are the used ones, and each is as large as was asked for. -/
structure Backs (live : List (ℕ × ℕ)) (us : List Blk) : Prop where
  perm : (live.map Prod.fst).Perm (us.map Blk.data)
  fits : ∀ e ∈ live, ∃ c ∈ us, c.data = e.1 ∧ 0 < e.2 ∧ e.2 ≤ c.size

variable {h k : Heap} {A A' : Arena} {live : List (ℕ × ℕ)} {us us' : List Blk} {b c : Blk}
  {fl : List ℕ} {p q x size num : ℕ} {ok : Bool} {s s' : Client}

theorem Backs.congr (hB : Backs live us) (hp : us'.Perm us) : Backs live us' where
  perm := hB.perm.trans (hp.map Blk.data).symm
  fits := by
    intro e he
    obtain ⟨c, hc, h1⟩ := hB.fits e he
    exact ⟨c, hp.symm.subset hc, h1⟩

/-- A new block. -/
theorem Backs.keep (hB : Backs live us) (hpos : 0 < size) (hle : size ≤ c.size) :
    Backs ((c.data, size) :: live) (c :: us) where
  perm := hB.perm.cons c.data
  fits := by
    intro e he
    rcases List.mem_cons.mp he with rfl | he
    · exact ⟨c, List.mem_cons_self, rfl, hpos, hle⟩
    · obtain ⟨d, hd, h1⟩ := hB.fits e he
      exact ⟨d, List.mem_cons_of_mem c hd, h1⟩

/-- A block given back. -/
theorem Backs.drop (hB : Backs live (b :: us)) (hnd : (b :: us).Nodup)
    (hinj : ∀ c ∈ us, c.data ≠ b.data) : Backs (drop live b.data) us where
  perm := by
    have h1 := hB.perm.filter (fun v => decide (v ≠ b.data))
    have h2 : (us.map Blk.data).filter (fun v => decide (v ≠ b.data)) = us.map Blk.data := by
      refine List.filter_eq_self.mpr (fun v hv => ?_)
      obtain ⟨c, hc, rfl⟩ := List.mem_map.mp hv
      simpa using hinj c hc
    rw [List.map_cons, List.filter_cons_of_neg (by simp), h2, List.filter_map] at h1
    exact h1
  fits := by
    intro e he
    obtain ⟨he', hne⟩ := List.mem_filter.mp he
    obtain ⟨c, hc, h1, h2⟩ := hB.fits e he'
    rcases List.mem_cons.mp hc with rfl | hc
    · simp [h1] at hne
    · exact ⟨c, hc, h1, h2⟩

/-- A live payload lies in a used one. -/
theorem Backs.inUsed (hB : Backs s.live (used A.blocks)) (hx : s.Owns x) :
    InUsed A.blocks x := by
  obtain ⟨e, he, h1, h2⟩ := hx
  obtain ⟨c, hc, h3, -, h4⟩ := hB.fits e he
  refine ⟨c, hc, by omega, ?_⟩
  simp only [Blk.stop, Blk.data] at h3 ⊢
  omega

/-- A live pointer is the payload of a used block. -/
theorem Backs.block (hB : Backs s.live (used A.blocks)) (hp : s.Holds p) :
    ∃ b ∈ used A.blocks, b.data = p := by
  have hmem := hB.perm.subset hp
  obtain ⟨b, hb, rfl⟩ := List.mem_map.mp hmem
  exact ⟨b, hb, rfl⟩

/-- `NULL` is no live pointer. -/
theorem Backs.drop_zero (hB : Backs live us) : Malloc.drop live 0 = live := by
  refine List.filter_eq_self.mpr (fun e he => ?_)
  obtain ⟨c, -, hc, -⟩ := hB.fits e he
  rw [← hc]
  simp [Blk.data, sizeofMetadata]

/-- Used blocks have different payloads. -/
theorem Arena.data_ne (A : Arena) (hp : (used A.blocks).Perm (b :: us)) :
    (b :: us).Nodup ∧ ∀ c ∈ us, c.data ≠ b.data := by
  have hnd := hp.nodup_iff.mp A.used_nodup
  refine ⟨hnd, fun c hc he => ?_⟩
  have hbm := (mem_used.mp (hp.symm.subset List.mem_cons_self)).1
  have hcm := (mem_used.mp (hp.symm.subset (List.mem_cons_of_mem b hc))).1
  have haddr : c.addr = b.addr := Nat.add_right_cancel he
  have : c = b := List.inj_on_of_nodup_map A.spaced.nodup hcm hbm haddr
  exact (List.nodup_cons.mp hnd).1 (this ▸ hc)

/-! ### One call -/

/-- The call loses no byte of the region. -/
def Call.Lossless (h : Heap) : Call → Prop
  | malloc size => Malloc.Lossless h size
  | calloc num size => Malloc.Lossless h (num * size)
  | realloc ptr size =>
    if ptr = 0 then Malloc.Lossless h size else size ≠ 0 → ReallocLossless h ptr size
  | free _ => True

instance (h : Heap) : (c : Call) → Decidable (c.Lossless h)
  | .malloc size => inferInstanceAs (Decidable (Malloc.Lossless h size))
  | .calloc num size => inferInstanceAs (Decidable (Malloc.Lossless h (num * size)))
  | .realloc ptr size => inferInstanceAs (Decidable
      (if ptr = 0 then Malloc.Lossless h size else size ≠ 0 → ReallocLossless h ptr size))
  | .free _ => inferInstanceAs (Decidable True)

/-- The used blocks after an allocation are the live ones. -/
theorem Allocates.backs (hal : Allocates h A size q k A') (hB : Backs live (used A.blocks)) :
    Backs (Malloc.keep live q size) (used A'.blocks) := by
  rcases hal with ⟨rfl, -, rfl⟩ | ⟨hq, hpos, c, rfl, hle, hperm⟩
  · exact hB
  · rw [Malloc.keep, if_neg hq]
    exact (hB.keep hpos hle).congr hperm

/-- The used blocks after `free` are the live ones. -/
theorem Backs.freed (hB : Backs live (used A.blocks))
    (hperm : (used A.blocks).Perm (b :: used A'.blocks)) :
    Backs (Malloc.drop live b.data) (used A'.blocks) := by
  obtain ⟨hnd, hinj⟩ := A.data_ne hperm
  exact (hB.congr hperm.symm).drop hnd hinj

/-- Sizes far from wrapping around are not cut down. -/
theorem Call.Admissible.exact {c : Call} (hadm : c.Admissible s) (ok : Bool) :
    c.Pointers s ∧ c.Exact s.heap ok := by
  cases c with
  | malloc size => exact ⟨trivial, serves_of_lt _ ok hadm⟩
  | calloc num size =>
    have hlt : num * size < 2 ^ 64 := by
      simp only [Call.Admissible, sizeofMetadata] at hadm
      omega
    refine ⟨trivial, ?_, .inl hlt⟩
    rw [mul64_eq hlt]
    exact serves_of_lt _ ok hadm
  | realloc ptr size =>
    refine ⟨hadm.1, ?_⟩
    rw [Call.Exact]
    split
    · exact serves_of_lt _ ok hadm.2
    · exact fun _ _ _ => serves_of_lt _ ok hadm.2
  | free ptr => exact ⟨hadm, trivial⟩

/-- **Every call whose size is not cut down returns**, with the heap an arena of the live blocks,
    and spares every used payload. -/
theorem call_step (ok : Bool) (hR : Rep s.heap A fl) (hB : Backs s.live (used A.blocks)) {c : Call}
    (hptr : c.Pointers s) (hexact : c.Exact s.heap ok) :
    ∃ q k A' fl', c.exec s.heap ok = some (q, k) ∧ Rep k A' fl' ∧ A'.start = A.start ∧
      Backs (c.after s.live q) (used A'.blocks) ∧ Spares (InUsed A.blocks) s.heap k ∧
      (Full A' ↔ Full A ∧ c.Lossless s.heap) := by
  -- giving back a live pointer, or `NULL`
  have hfree : ∀ ptr, ptr = 0 ∨ s.Holds ptr → ∃ A' fl', Rep (Malloc.free s.heap ptr) A' fl' ∧
      A'.start = A.start ∧ Backs (Malloc.drop s.live ptr) (used A'.blocks) ∧
      Spares (InUsed A.blocks) s.heap (Malloc.free s.heap ptr) ∧ (Full A' ↔ Full A) := by
    intro ptr hptr
    by_cases h0 : ptr = 0
    · subst h0
      exact ⟨A, fl, hR, rfl, by rwa [hB.drop_zero], Spares.refl _, Iff.rfl⟩
    · obtain ⟨b, hb, rfl⟩ := hB.block (hptr.resolve_left h0)
      obtain ⟨A', fl', hR', hst, hsp, hperm, hfull⟩ := free_call hR hb
      exact ⟨A', fl', hR', hst, hB.freed hperm, hsp, hfull⟩
  cases c with
  | malloc size =>
    obtain ⟨q, k, A', fl', hrun, hR', hst, hsp, hal, hfull⟩ := malloc_call ok hR hexact
    exact ⟨q, k, A', fl', hrun, hR', hst, hal.backs hB, hsp, hfull⟩
  | calloc num size =>
    obtain ⟨hserves, hmul⟩ := hexact
    by_cases hlt : num * size < 2 ^ 64
    · rw [mul64_eq hlt] at hserves
      obtain ⟨q, k, A', fl', hrun, hR', hst, hsp, hal, hfull⟩ := calloc_call ok hR hlt hserves
      exact ⟨q, k, A', fl', hrun, hR', hst, hal.backs hB, hsp, hfull⟩
    · -- the product that wrapped around is refused
      have hnull := malloc_null hR (hmul.resolve_left hlt)
      refine ⟨0, s.heap, A, fl, ?_, hR, rfl, hB, Spares.refl _, fun hF => ⟨hF, ?_⟩, And.left⟩
      · rw [Call.exec, Malloc.calloc, hnull]
        rfl
      · exact lossless_of_overflow _ (not_lt.1 hlt)
  | free ptr =>
    obtain ⟨A', fl', hR', hst, hB', hsp, hfull⟩ := hfree ptr hptr
    exact ⟨0, _, A', fl', rfl, hR', hst, hB', hsp, by simpa [Call.Lossless] using hfull⟩
  | realloc ptr size =>
    by_cases h0 : ptr = 0
    · subst h0
      obtain ⟨q, k, A', fl', hrun, hR', hst, hsp, hal, hfull⟩ := malloc_call ok hR hexact
      refine ⟨q, k, A', fl', hrun, hR', hst, ?_, hsp, hfull⟩
      have hkeep := hal.backs hB
      simp only [Call.after, hB.drop_zero]
      by_cases hsize : size = 0
      · rcases hal with ⟨rfl, -, -⟩ | ⟨-, hpos, -⟩
        · rwa [if_pos hsize]
        · omega
      · rwa [if_neg hsize]
    · obtain ⟨b, hb, rfl⟩ := hB.block (hptr.resolve_left h0)
      by_cases hsize : size = 0
      · subst hsize
        obtain ⟨A', fl', hR', hst, hB', hsp, hfull⟩ := hfree b.data hptr
        refine ⟨0, _, A', fl', ?_, hR', hst, hB', hsp, by simpa [Call.Lossless, h0] using hfull⟩
        simp [Call.exec, Malloc.realloc, h0]
      · have hbm := (mem_used.mp hb).1
        rw [Call.Exact, if_neg h0, Blk.sub_data A hbm, hR.holds.blocks.size b hbm] at hexact
        obtain ⟨q, k, A', fl', hrun, hR', hst, hsp, hres, hfull⟩ :=
          realloc_call ok hR hb hsize (hexact hsize)
        refine ⟨q, k, A', fl', hrun, hR', hst, ?_, hsp,
          by simpa [Call.Lossless, h0, hsize] using hfull⟩
        rw [Call.after, if_neg hsize]
        rcases hres with ⟨rfl, -, rfl⟩ | ⟨hq, c, us, rfl, hle, hperm, hperm', -⟩
        · exact hB
        · rw [if_neg hq]
          obtain ⟨hnd, hinj⟩ := A.data_ne hperm
          have hdrop := (hB.congr hperm.symm).drop hnd hinj
          exact (hdrop.keep (Nat.pos_of_ne_zero hsize) hle).congr hperm'

/-! ### Runs -/

/-- The heap represents an arena whose used blocks are the live ones. -/
def Inv (s : Client) : Prop :=
  ∃ A fl, Rep s.heap A fl ∧ Backs s.live (used A.blocks)

theorem Client.Initial.inv (h0 : s.Initial) : Inv s := by
  refine ⟨Arena.empty s.heap.start h0.start_pos h0.start_le, [], ⟨⟨⟨trivial, h0.tail, ?_, ?_, ?_⟩,
    ⟨trivial, h0.freehead, List.nodup_nil⟩, ⟨List.nodup_nil, ?_, ?_, ?_⟩, ?_⟩, ?_, rfl, h0.brk⟩,
    ⟨by rw [h0.live]; rfl, by simp [h0.live]⟩⟩
  all_goals simp [Arena.empty, Marks]

/-- The client may write to its own blocks. -/
theorem Rep.poke (hR : Rep s.heap A fl) (hB : Backs s.live (used A.blocks)) (hx : s.Owns x)
    (v : UInt8) :
    Rep { s.heap with mem := Function.update s.heap.mem x v } A fl := by
  have hno := (hB.inUsed hx).notHeader (A := A) (fun c hc => (mem_used.mp hc).1)
  refine hR.congr rfl rfl rfl rfl (fun y hy => Function.update_of_ne ?_ _ _)
  rintro rfl
  exact hno hy

/-- The invariant holds on runs whose sizes are not cut down. -/
theorem inv_of_sized (hr : system.Reach Sized s) : Inv s := by
  refine Lts.Reach.invariant hr (fun s h0 => Client.Initial.inv h0) ?_
  rintro s e s' ⟨A, fl, hR, hB⟩ hsized hs
  cases e with
  | call c ok =>
    obtain ⟨q, k, A', fl', hrun, hR', -, hB', -⟩ := call_step ok hR hB hsized.1 hsized.2
    simp only [system, Client.step, hrun, Option.some.injEq] at hs
    subst hs
    exact ⟨A', fl', hR', hB'⟩
  | poke x v =>
    simp only [system, Client.step, Option.some.injEq] at hs
    subst hs
    exact ⟨A, fl, hR.poke hB hsized v, hB⟩

theorem sized_of_admissible {e : Event} (hadm : Admissible s e) : Sized s e := by
  cases e with
  | call c ok => exact Call.Admissible.exact hadm ok
  | poke x v => exact hadm

/-- **The invariant holds in every reachable state.** -/
theorem Reachable.inv (hr : Reachable s) : Inv s :=
  inv_of_sized (hr.mono fun _ _ => sized_of_admissible)

end SystemProgramming.Malloc
