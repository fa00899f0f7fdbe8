import SystemProgramming.Malloc.Client

namespace SystemProgramming.Malloc

open SystemProgramming.Lib Arena

/-!
# Where bytes are lost

`malloc` records the requested size on a block that it reuses, also when `split` returned
early because the rest was too small; the rest is then accounted for by no block, and no
later `free` gets it back.

* `accounted_step_iff` — a call keeps every byte accounted for exactly when it is
  `Call.Lossless`.
* `conserved_of_lossless` — runs of lossless calls conserve the heap, and with no live block
  left the heap is one free block.
* `not_conserved` — in general they do not.
-/

variable {h k : Heap} {A : Arena} {bs : List Blk} {b c : Blk} {fl : List ℕ} {s s' : Client}
  {q size : ℕ} {ok : Bool}

/-! ### Accounting on the heap -/

/-- The bytes that the block list `bl` of `h` accounts for. -/
def accounted (h : Heap) (bl : List ℕ) : ℕ :=
  (bl.map (fun a => sizeofMetadata + h.get .size a)).sum

/-- The block list accounts for every byte obtained from the system. -/
def Accounted (h : Heap) : Prop :=
  ∃ bl, Chases (h.get .prev) 0 h.tail bl ∧ accounted h bl = h.brk - h.start

/-- The whole heap is one free block, which serves every request that fits in it. -/
structure OneFreeBlock (h : Heap) : Prop where
  block : ∃ a, Chases (h.get .prev) 0 h.tail [a] ∧ a = h.start ∧ h.get .free a = 1 ∧
    sizeofMetadata + h.get .size a = h.brk - h.start ∧
    ∀ size ok, 0 < size → size ≤ h.get .size a → size + 3 * sizeofMetadata < 2 ^ 63 →
      ∃ q k, malloc h ok size = some (q, k) ∧ q ≠ 0 ∧ k.brk = h.brk

/-- Nothing is lost, and freed blocks come together again. -/
structure Conserved (s : Client) : Prop where
  bytes : Accounted s.heap
  together : s.live = [] → s.heap.start < s.heap.brk → OneFreeBlock s.heap

theorem Rep.accounted_eq (hR : Rep h A fl) :
    accounted h (addrs A.blocks).reverse = total A.blocks := by
  rw [accounted, List.map_reverse, List.sum_reverse, addrs, List.map_map, total]
  refine congrArg List.sum (List.map_congr_left (fun b hb => ?_))
  rw [Function.comp_apply, hR.holds.blocks.size b hb]

/-- The heap accounts for its bytes exactly when its arena is full. -/
theorem Rep.accounted_iff (hR : Rep h A fl) : Accounted h ↔ Full A := by
  have hle := A.fits.le
  constructor
  · rintro ⟨bl, hbl, hsum⟩
    rw [hbl.unique hR.chases_prev, hR.accounted_eq, hR.start, hR.brk] at hsum
    rw [Full, hsum]
    omega
  · intro hF
    refine ⟨_, hR.chases_prev, ?_⟩
    rw [hR.accounted_eq, hR.start, hR.brk, ← hF]
    omega

/-- **A call keeps the bytes accounted for exactly when it is lossless.** -/
theorem accounted_step_iff {c : Call} (hr : Reachable s) (hc : c.Admissible s)
    (hs : s.step (.call c ok) = some s') :
    Accounted s'.heap ↔ Accounted s.heap ∧ c.Lossless s.heap := by
  obtain ⟨A, fl, hR, hB⟩ := hr.inv
  obtain ⟨q, k, A', fl', hrun, hR', -, -, -, hfull⟩ := call_step ok hR hB (hc.exact ok).1 (hc.exact ok).2
  simp only [Client.step, hrun, Option.some.injEq] at hs
  subst hs
  rw [hR'.accounted_iff, hR.accounted_iff, hfull]

/-! ### Runs of lossless calls -/

/-- The event loses no byte. -/
def LosslessEvent (s : Client) : Event → Prop
  | .call c _ => c.Lossless s.heap
  | .poke _ _ => True

instance (s : Client) : (e : Event) → Decidable (LosslessEvent s e)
  | .call c _ => inferInstanceAs (Decidable (c.Lossless s.heap))
  | .poke _ _ => inferInstanceAs (Decidable True)

/-- The guard of lossless runs. -/
def Careful (s : Client) (e : Event) : Prop := Admissible s e ∧ LosslessEvent s e

instance (s : Client) (e : Event) : Decidable (Careful s e) := inferInstanceAs (Decidable (_ ∧ _))

theorem reachable_of_careful (hr : system.Reach Careful s) : Reachable s :=
  hr.mono (fun _ _ h => h.1)

/-- Lossless runs account for every byte. -/
theorem accounted_of_careful (hr : system.Reach Careful s) : Accounted s.heap := by
  induction hr with
  | init h0 =>
    obtain ⟨A, fl, hR, hB⟩ := Client.Initial.inv h0
    refine ⟨[], h0.tail, ?_⟩
    rw [h0.brk, Nat.sub_self]
    rfl
  | @step s s' e hr hok hs ih =>
    cases e with
    | call c ok => exact (accounted_step_iff (reachable_of_careful hr) hok.1 hs).mpr ⟨ih, hok.2⟩
    | poke x v =>
      obtain ⟨A, fl, hR, hB⟩ := (reachable_of_careful hr).inv
      simp only [system, Client.step, Option.some.injEq] at hs
      subst hs
      exact (hR.poke hB hok.1 v).accounted_iff.mpr (hR.accounted_iff.mp ih)

/-- Free blocks with no used one between them are at most one. -/
theorem Coalesced.single (hco : Coalesced bs) (hused : used bs = []) :
    bs = [] ∨ ∃ b, bs = [b] ∧ b.free = true := by
  have hfree : ∀ b ∈ bs, b.free = true := by
    intro b hb
    by_contra hne
    have : b ∈ used bs := mem_used.mpr ⟨hb, by simpa using hne⟩
    rw [hused] at this
    exact absurd this List.not_mem_nil
  match bs, hco, hfree with
  | [], _, _ => exact .inl rfl
  | [b], _, hfree => exact .inr ⟨b, rfl, hfree b (by simp)⟩
  | b :: c :: bs, hco, hfree =>
    exact absurd ⟨hfree b (by simp), hfree c (by simp)⟩ (List.isChain_cons_cons.mp hco).1

/-- A full arena with no used block is one free block. -/
theorem Rep.oneFreeBlock (hR : Rep h A fl) (hF : Full A) (hused : used A.blocks = [])
    (hne : h.start < h.brk) : OneFreeBlock h := by
  rw [hR.start, hR.brk] at hne
  obtain hnil | ⟨b, hb, hfree⟩ := A.coalesced.single hused
  · rw [Full, hnil, total_nil] at hF
    omega
  · have hbm : b ∈ A.blocks := by simp [hb]
    have hsize := hR.holds.blocks.size b hbm
    have hflag := hR.holds.blocks.flag_iff hbm
    have hfit := A.fits.mem hbm
    rw [Full, hb] at hF
    simp only [total_cons, total_nil] at hF
    simp only [Blk.stop] at hfit
    have hchase := hR.chases_prev
    rw [hb] at hchase
    -- the block begins at the start and is as large as the heap
    refine ⟨b.addr, hchase, ?_, hflag.mpr hfree, ?_, fun size ok hpos hle hsz => ?_⟩
    · rw [hR.start]
      omega
    · rw [hsize, hR.start, hR.brk]
      omega
    · rw [hsize] at hle
      obtain ⟨q, k, hrun, hspec⟩ := malloc_spec ok hR (Nat.ne_of_gt hpos) (serves_of_lt h ok hsz)
      refine ⟨q, k, hrun, ?_⟩
      cases hspec with
      | taken hA hb' hle' hfit' hR' hE =>
        exact ⟨by simp [Blk.data, sizeofMetadata], hE.brk⟩
      | extended _ _ hsmall => exact absurd (hsmall b hbm hfree) (by omega)
      | refused _ hsmall => exact absurd (hsmall b hbm hfree) (by omega)

/-- **Lossless runs conserve the heap.** -/
theorem conserved_of_lossless (hr : system.Reach Careful s) : Conserved s := by
  have hbytes := accounted_of_careful hr
  obtain ⟨A, fl, hR, hB⟩ := (reachable_of_careful hr).inv
  refine ⟨hbytes, fun hlive hne => hR.oneFreeBlock (hR.accounted_iff.mp hbytes) ?_ hne⟩
  have hperm := hB.perm
  rw [hlive] at hperm
  exact List.map_eq_nil_iff.mp hperm.symm.eq_nil

/-- A reused block that is split, and freed again. -/
theorem conserved_of_lossless_some : ∃ s, system.run Careful (Client.fresh 4096)
    [.call (.malloc 300) true, .call (.free 4152) true, .call (.malloc 100) true,
      .call (.free 4152) true] = some s ∧ s.live = [] ∧ Conserved s := by
  have hrun : (system.run Careful (Client.fresh 4096)
      [.call (.malloc 300) true, .call (.free 4152) true, .call (.malloc 100) true,
        .call (.free 4152) true]).map Client.live = some [] := by decide +kernel
  obtain ⟨s, hs, hlive⟩ := Option.map_eq_some_iff.mp hrun
  exact ⟨s, hs, hlive, conserved_of_lossless
    (Lts.Reach.of_run (.init (Client.fresh_initial (by decide) (by decide))) hs)⟩

/-- **Reuse loses bytes.**  A block of 200 bytes, reused for 100, is too small to be split:
    it is recorded with 100 bytes and the other 100 belong to no block. -/
theorem not_conserved : ¬ ∀ s, Reachable s → Conserved s := by
  intro hall
  have hrun : (system.run Admissible (Client.fresh 4096)
      [.call (.malloc 200) true, .call (.free 4152) true, .call (.malloc 100) true]).map
        (fun s => (s.heap.tail, s.heap.get .prev 4096, s.heap.get .size 4096, s.heap.brk,
          s.heap.start)) = some (4096, 0, 100, 4352, 4096) := by decide +kernel
  obtain ⟨s, hs, hobs⟩ := Option.map_eq_some_iff.mp hrun
  simp only [Prod.mk.injEq] at hobs
  obtain ⟨htail, hprev, hsize, hbrk, hstart⟩ := hobs
  obtain ⟨bl, hbl, hsum⟩ := (hall s (Lts.Reach.of_run
    (.init (Client.fresh_initial (by decide) (by decide))) hs)).bytes
  have hone : Chases (s.heap.get .prev) 0 s.heap.tail [4096] := ⟨htail, by decide, hprev⟩
  rw [hbl.unique hone, hbrk, hstart] at hsum
  simp [accounted, hsize, sizeofMetadata] at hsum

end SystemProgramming.Malloc
