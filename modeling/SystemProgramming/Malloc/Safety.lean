import SystemProgramming.Malloc.Client

namespace SystemProgramming.Malloc

open SystemProgramming.Lib Arena

/-!
# What programs may rely on

The invariant of `Client.lean`, read back on the bytes and globals of every reachable state.

* `Reachable.separated` — live payloads overlap neither each other nor a header, lie in the
  region, and are written by no call.
* `Reachable.wellLinked` — the two intrusive lists are what they should be.
* `Reachable.realloc_preserves` — `realloc` moves contents faithfully, or changes nothing.
-/

variable {h : Heap} {A : Arena} {bs : List Blk} {b c : Blk} {fl : List ℕ} {s : Client}

/-! ### Separation -/

/-- The live blocks are kept apart. -/
structure Separated (s : Client) : Prop where
  /-- live payloads do not overlap -/
  payloads : s.live.Pairwise (fun e f => e.1 + e.2 ≤ f.1 ∨ f.1 + f.2 ≤ e.1)
  /-- no live payload meets a header of the block list -/
  headers : ∃ bl, Chases (s.heap.get .prev) 0 s.heap.tail bl ∧ ∀ e ∈ s.live, ∀ a ∈ bl,
    e.1 + e.2 ≤ a ∨ a + sizeofMetadata ≤ e.1
  /-- live payloads lie in the region -/
  region : ∀ e ∈ s.live, s.heap.start ≤ e.1 ∧ e.1 + e.2 ≤ s.heap.brk
  /-- every admissible call returns, and writes no byte of a payload that was live before -/
  writes : ∀ c ok, c.Admissible s → ∃ s' ws, s.step (.call c ok) = some s' ∧
    s'.heap.log = ws ++ s.heap.log ∧
    (∀ w ∈ ws, ∀ x, w.1 ≤ x → x < w.1 + w.2 → ¬ s.Owns x) ∧
    ∀ x, s.Owns x → s'.heap.mem x = s.heap.mem x

/-- Live payloads of different used blocks do not overlap. -/
theorem Backs.payloads {live : List (ℕ × ℕ)} (hB : Backs live (used A.blocks)) :
    live.Pairwise (fun e f => e.1 + e.2 ≤ f.1 ∨ f.1 + f.2 ≤ e.1) := by
  have hnd : (live.map Prod.fst).Nodup := by
    refine hB.perm.nodup_iff.mpr (A.used_nodup.map_on (fun b hb c hc he => ?_))
    exact List.inj_on_of_nodup_map A.spaced.nodup (mem_used.mp hb).1 (mem_used.mp hc).1
      (Nat.add_right_cancel he)
  have hne := List.pairwise_map.mp hnd
  refine (List.Pairwise.and_mem.mp hne).imp ?_
  rintro e f ⟨he, hf, hef⟩
  obtain ⟨b, hb, hbe, -, hbl⟩ := hB.fits e he
  obtain ⟨c, hc, hcf, -, hcl⟩ := hB.fits f hf
  simp only [Blk.data] at hbe hcf
  rcases A.fits.apart (mem_used.mp hb).1 (mem_used.mp hc).1 with rfl | h1 | h1
  · exact absurd (hbe.symm.trans hcf) hef
  · simp only [Blk.stop] at h1
    omega
  · simp only [Blk.stop] at h1
    omega

/-- **Live payloads are kept apart in every reachable state.** -/
theorem Reachable.separated (hr : Reachable s) : Separated s := by
  obtain ⟨A, fl, hR, hB⟩ := hr.inv
  refine ⟨hB.payloads, ⟨_, hR.chases_prev, fun e he a ha => ?_⟩, fun e he => ?_, fun c ok hc => ?_⟩
  · obtain ⟨b, hb, hbe, -, hbl⟩ := hB.fits e he
    obtain ⟨c, hc, rfl⟩ := List.mem_map.mp (List.mem_reverse.mp ha)
    simp only [Blk.data] at hbe
    rcases A.fits.apart (mem_used.mp hb).1 hc with rfl | h1 | h1
    · omega
    · simp only [Blk.stop] at h1
      omega
    · simp only [Blk.stop] at h1
      omega
  · obtain ⟨b, hb, hbe, -, hbl⟩ := hB.fits e he
    have hfit := A.fits.mem (mem_used.mp hb).1
    rw [hR.start, hR.brk]
    simp only [Blk.data, Blk.stop] at hbe hfit
    omega
  · obtain ⟨q, k, A', fl', hrun, -, -, -, hsp, -⟩ := call_step ok hR hB (hc.exact ok).1 (hc.exact ok).2
    obtain ⟨⟨ws, hws, hW⟩, hmem⟩ := hsp
    refine ⟨⟨k, c.after s.live q⟩, ws, by simp only [Client.step, hrun], hws,
      fun w hw x h1 h2 hx => hW w hw x h1 h2 (hB.inUsed hx), fun x hx => hmem x (hB.inUsed hx)⟩

/-- A program with two live blocks and a freed one between them. -/
def someEvents : List Event :=
  [.call (.malloc 100) true, .call (.malloc 30) true, .call (.calloc 5 8) true,
    .call (.free 4308) true]

theorem reachable_some (hs : system.run Admissible (Client.fresh 4096) someEvents = some s) :
    Reachable s :=
  Lts.Reach.of_run (.init (Client.fresh_initial (by decide) (by decide))) hs

theorem separated_some : ∃ s, system.run Admissible (Client.fresh 4096) someEvents = some s ∧
    s.live = [(4394, 40), (4152, 100)] ∧ Separated s := by
  have hrun : (system.run Admissible (Client.fresh 4096) someEvents).map Client.live
      = some [(4394, 40), (4152, 100)] := by decide +kernel
  obtain ⟨s, hs, hlive⟩ := Option.map_eq_some_iff.mp hrun
  exact ⟨s, hs, hlive, Reachable.separated (reachable_some hs)⟩

/-! ### The lists -/

/-- The two intrusive lists of the allocator: `bl` the blocks in address order, `fl` the
    free list in its own. -/
structure WellLinked (h : Heap) (bl fl : List ℕ) : Prop where
  /-- following `prev` from `tail` meets the blocks, last to first, and ends -/
  backwards : Chases (h.get .prev) 0 h.tail bl.reverse
  /-- the blocks are in strictly increasing address order -/
  increasing : bl.Pairwise (· < ·)
  /-- following `next` from the first block meets the same blocks and ends -/
  forwards : Chases (h.get .next) 0 (headOr bl 0) bl
  /-- `next` is the inverse of `prev` -/
  inverse : ∀ a ∈ bl, ∀ b ∈ bl, h.get .next a = b ↔ h.get .prev b = a
  /-- the last block is `tail` -/
  last : h.tail = lastOr bl 0
  /-- following `freenext` from `freehead` meets the free list and ends -/
  frees : Chases (h.get .freenext) 0 h.freehead fl
  /-- no block is on the free list twice -/
  nodup : fl.Nodup
  /-- the free list holds exactly the blocks marked free -/
  marked : ∀ a, a ∈ fl ↔ a ∈ bl ∧ h.get .free a = 1
  /-- `freeprev` is the inverse of `freenext` -/
  freeInverse : ∀ a ∈ fl, ∀ b ∈ fl, h.get .freenext a = b ↔ h.get .freeprev b = a
  /-- nothing precedes the head of the free list -/
  freeHead : h.freehead ≠ 0 → h.get .freeprev h.freehead = 0
  /-- no two neighbours are both free -/
  coalesced : bl.IsChain (fun a b => ¬(h.get .free a = 1 ∧ h.get .free b = 1))

/-- **The lists are well linked in every reachable state.** -/
theorem Reachable.wellLinked (hr : Reachable s) : ∃ bl fl, WellLinked s.heap bl fl := by
  obtain ⟨A, fl, hR, hB⟩ := hr.inv
  have hS := hR.holds.spaced
  have hF := hR.holds.frees
  have hBl := hR.holds.blocks
  have h0 : (0 : ℕ) ∉ fl := fun hc => hS.pos (hR.holds.sub 0 hc)
  refine ⟨addrs A.blocks, fl, hR.chases_prev, ?_, hBl.seg.chases hS.pos,
    hBl.seg.inverse hS.nodup hS.pos, hBl.tail, ?_, hF.nodup, fun a => ?_,
    hF.seg.inverse hF.nodup h0, fun hne => ?_, ?_⟩
  · -- the blocks are in the order of their addresses
    refine List.pairwise_map.mpr (A.fits.pairwise.imp (fun {b c} hbc => ?_))
    simp only [Blk.stop, sizeofMetadata] at hbc
    omega
  · rw [hF.head]
    exact hF.seg.chases h0
  · constructor
    · intro ha
      obtain ⟨l, b, r, hA, rfl, hfree⟩ := hR.of_mem_free ha
      have hb : b ∈ A.blocks := by simp [hA]
      exact ⟨mem_addrs hb, (hBl.flag_iff hb).mpr hfree⟩
    · rintro ⟨ha, hfree⟩
      obtain ⟨b, hb, rfl⟩ := List.mem_map.mp ha
      exact (hR.marks b hb).mpr ((hBl.flag_iff hb).mp hfree)
  · rw [hF.head] at hne ⊢
    cases fl with
    | nil => exact absurd rfl hne
    | cons a fl => exact hF.seg.1
  · have hco := A.coalesced
    rw [Coalesced, List.isChain_map] at hco
    rw [addrs, List.isChain_map]
    refine hco.imp_of_mem_imp (fun b c hb hc hne => ?_)
    rwa [hBl.flag_iff hb, hBl.flag_iff hc]

theorem wellLinked_some : ∃ s bl fl,
    system.run Admissible (Client.fresh 4096) someEvents = some s ∧ WellLinked s.heap bl fl := by
  have hrun : (system.run Admissible (Client.fresh 4096) someEvents).isSome := by decide +kernel
  obtain ⟨s, hs⟩ := Option.isSome_iff_exists.mp hrun
  obtain ⟨bl, fl, hlinked⟩ := Reachable.wellLinked (reachable_some hs)
  exact ⟨s, bl, fl, hs, hlinked⟩

/-! ### `realloc` -/

/-- The recorded size of the block with payload `ptr`. -/
def blockSize (h : Heap) (ptr : ℕ) : ℕ := h.get .size (sub64 ptr sizeofMetadata)

/-- `realloc(ptr, size)`, returning `q`, takes the client from `s` to `s'` without losing
    contents. -/
structure Moves (s s' : Client) (ptr size q : ℕ) : Prop where
  /-- the returned block is live, -/
  live : (q, size) ∈ s'.live
  /-- in use, -/
  inUse : s'.heap.get .free (sub64 q sizeofMetadata) = 0
  /-- and large enough -/
  room : size ≤ blockSize s'.heap q
  /-- it starts with the old contents -/
  contents : ∀ i, i < min (blockSize s.heap ptr) size → s'.heap.mem (q + i) = s.heap.mem (ptr + i)
  /-- every other live block is still live, as large as before, with its contents -/
  others : ∀ e ∈ s.live, e.1 ≠ ptr → e ∈ s'.live ∧
    blockSize s'.heap e.1 = blockSize s.heap e.1 ∧
    ∀ i, i < blockSize s.heap e.1 → s'.heap.mem (e.1 + i) = s.heap.mem (e.1 + i)

theorem Rep.blockSize_eq (hR : Rep h A fl) (hb : b ∈ A.blocks) : blockSize h b.data = b.size := by
  rw [blockSize, Blk.sub_data A hb, hR.holds.blocks.size b hb]

/-- **`realloc` preserves contents, or changes nothing.** -/
theorem Reachable.realloc_preserves {ptr size : ℕ} (hr : Reachable s) (hp : s.Holds ptr)
    (hpos : 0 < size) (hsz : size + 3 * sizeofMetadata < 2 ^ 63) (ok : Bool) :
    ∃ q s', realloc s.heap ok ptr size = some (q, s'.heap) ∧
      s.step (.call (.realloc ptr size) ok) = some s' ∧
      (q ≠ 0 → Moves s s' ptr size q) ∧ (q = 0 → s' = s) := by
  obtain ⟨A, fl, hR, hB⟩ := hr.inv
  obtain ⟨b, hb, rfl⟩ := hB.block hp
  have hbm := (mem_used.mp hb).1
  obtain ⟨q, k, A', fl', hrun, hR', -, hsp, hres, -⟩ :=
    realloc_call ok hR hb (Nat.ne_of_gt hpos) (fun _ _ => serves_of_lt _ ok hsz)
  refine ⟨q, ⟨k, (Call.realloc b.data size).after s.live q⟩, hrun, ?_, fun hq => ?_, ?_⟩
  · simp only [Client.step, Call.exec, hrun]
  · obtain ⟨h0, -⟩ | ⟨-, c, us, rfl, hle, hperm, hperm', hcopy⟩ := hres
    · exact absurd h0 hq
    have hc : c ∈ used A'.blocks := hperm'.symm.subset List.mem_cons_self
    obtain ⟨hcm, hcf⟩ := mem_used.mp hc
    simp only [Call.after, if_neg (Nat.ne_of_gt hpos), if_neg hq]
    refine ⟨List.mem_cons_self, ?_, ?_, fun i hi => ?_, fun e he hne => ?_⟩
    · rw [Blk.sub_data A' hcm, hR'.holds.blocks.flag c hcm, hcf]
      rfl
    · rwa [hR'.blockSize_eq hcm]
    · rw [hR.blockSize_eq hbm] at hi
      exact hcopy i (by omega) (by omega)
    · -- another live block is another used block, in the old arena and in the new one
      obtain ⟨d, hd, hde, -⟩ := hB.fits e he
      have hdm := (mem_used.mp hd).1
      have hdb : d ≠ b := by
        rintro rfl
        exact hne hde.symm
      have hdus : d ∈ us := by
        have hmem := hperm.subset hd
        rw [List.mem_cons] at hmem
        exact hmem.resolve_left hdb
      have hdm' := (mem_used.mp (hperm'.symm.subset (List.mem_cons_of_mem c hdus))).1
      rw [← hde, hR.blockSize_eq hdm, hR'.blockSize_eq hdm']
      refine ⟨List.mem_cons_of_mem _ (List.mem_filter.mpr ⟨he, by simpa using hne⟩), rfl,
        fun i hi => hsp.mem _ ⟨d, hd, by omega, ?_⟩⟩
      simp only [Blk.stop, Blk.data]
      omega
  · rintro rfl
    obtain ⟨-, rfl, -⟩ | ⟨hq, -⟩ := hres
    · simp only [Call.after, if_neg (Nat.ne_of_gt hpos), if_true]
    · exact absurd rfl hq

/-- A block that has to move: the next one is in use. -/
theorem realloc_preserves_some : ∃ s q s',
    system.run Admissible (Client.fresh 4096) someEvents = some s ∧
    realloc s.heap true 4152 1000 = some (q, s'.heap) ∧ (q ≠ 0 → Moves s s' 4152 1000 q) := by
  have hrun : (system.run Admissible (Client.fresh 4096) someEvents).map
      (fun s => decide (s.Holds 4152)) = some true := by decide +kernel
  obtain ⟨s, hs, hlive⟩ := Option.map_eq_some_iff.mp hrun
  obtain ⟨q, s', h1, -, h2, -⟩ := Reachable.realloc_preserves (reachable_some hs)
    (of_decide_eq_true hlive) (by decide : 0 < 1000) (by decide) true
  exact ⟨s, q, s', hs, h1, h2⟩

end SystemProgramming.Malloc
