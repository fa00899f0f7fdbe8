import SystemProgramming.Lib.DList
import SystemProgramming.Malloc.Arena

namespace SystemProgramming.Malloc

open SystemProgramming.Lib

/-!
# Headers in memory

How the header fields of a set of blocks behave under the allocator's stores, and what it
means for memory to hold a given block list and a given free list.

* `Spaced H` — the headers at the addresses `H` do not overlap; under it a store to a field
  is seen by that field only (`Spaced.get_set`).
* `Edits S h h'` — `h'` comes from `h` by writing bytes of `S` only, which the log shows.
* `BlockList h bs` / `FreeList h fl` — the list reached through `next` / `prev` is `bs`,
  with these sizes and flags; the list through `freenext` / `freeprev` is `fl`.
* `insertfree` and `removefree` as list operations.
-/

/-! ### Fields of spaced headers -/

theorem Field.off_add_width_le (f : Field) : f.off + f.width ≤ sizeofMetadata := by
  cases f <;> decide

/-- Distinct fields occupy disjoint bytes. -/
theorem Field.disjoint {f g : Field} (h : f ≠ g) :
    g.off + g.width ≤ f.off ∨ f.off + f.width ≤ g.off := by
  cases f <;> cases g <;> first | exact absurd rfl h | (simp [Field.off, Field.width])

/-- The headers at the addresses `H` do not overlap, and none is `NULL` or out of reach. -/
structure Spaced (H : List ℕ) : Prop where
  nodup : H.Nodup
  apart : ∀ a ∈ H, ∀ b ∈ H, a = b ∨ a + sizeofMetadata ≤ b ∨ b + sizeofMetadata ≤ a
  pos : 0 ∉ H
  lt : ∀ a ∈ H, a < 2 ^ 64

variable {h h' h'' : Heap} {H : List ℕ} {a b p q v : ℕ} {f g : Field}

/-- Fewer headers are still spaced. -/
theorem Spaced.sublist {H' : List ℕ} (hS : Spaced H) (hs : H'.Sublist H) : Spaced H' :=
  ⟨hS.nodup.sublist hs, fun a ha b hb => hS.apart a (hs.subset ha) b (hs.subset hb),
    fun h0 => hS.pos (hs.subset h0), fun a ha => hS.lt a (hs.subset ha)⟩

/-- A list node or `NULL` fits a pointer field. -/
theorem Spaced.lt_of_or (hS : Spaced H) (ha : a = 0 ∨ a ∈ H) : a < 256 ^ 8 := by
  rcases ha with rfl | ha
  · decide
  · exact lt_of_lt_of_eq (hS.lt a ha) (by norm_num)

/-- **Reading a field after a store.** -/
theorem Spaced.get_set (hS : Spaced H) (ha : a ∈ H) (hb : b ∈ H) (hv : v < 256 ^ f.width) :
    (h.set f a v).get g b = if b = a ∧ g = f then v else h.get g b := by
  by_cases hab : b = a
  · subst hab
    by_cases hfg : g = f
    · subst hfg
      rw [if_pos ⟨rfl, rfl⟩, Heap.get, Heap.set, Mem.load_store_same, Nat.mod_eq_of_lt hv]
    · rw [if_neg (fun hc => hfg hc.2), Heap.get, Heap.set, Mem.load_store_disjoint]
      · rfl
      · rcases Field.disjoint hfg with h1 | h1 <;> omega
  · rw [if_neg (fun hc => hab hc.1), Heap.get, Heap.set, Mem.load_store_disjoint]
    · rfl
    · have hf := f.off_add_width_le
      have hg := g.off_add_width_le
      rcases hS.apart a ha b hb with h1 | h1 | h1
      · exact absurd h1.symm hab
      · omega
      · omega

/-- The same for a store guarded by a `NULL` check. -/
theorem Spaced.get_setIf (hS : Spaced H) (ha : a = 0 ∨ a ∈ H) (hb : b ∈ H)
    (hv : v < 256 ^ f.width) :
    (h.setIf f a v).get g b = if b = a ∧ g = f then v else h.get g b := by
  have hb0 : b ≠ 0 := fun h0 => hS.pos (h0 ▸ hb)
  by_cases h0 : a = 0
  · rw [Heap.setIf, if_neg (not_not.mpr h0), if_neg (fun hc => hb0 (hc.1.trans h0))]
  · rw [Heap.setIf, if_pos h0, hS.get_set (ha.resolve_left h0) hb hv]

namespace Heap

@[simp] theorem set_tail : (h.set f a v).tail = h.tail := rfl
@[simp] theorem set_freehead : (h.set f a v).freehead = h.freehead := rfl
@[simp] theorem get_withTail (t : ℕ) : ({ h with tail := t } : Heap).get g b = h.get g b := rfl
@[simp] theorem get_withFreehead (t : ℕ) :
    ({ h with freehead := t } : Heap).get g b = h.get g b := rfl

@[simp] theorem setIf_tail : (h.setIf f a v).tail = h.tail := by
  unfold setIf; split <;> rfl

@[simp] theorem setIf_freehead : (h.setIf f a v).freehead = h.freehead := by
  unfold setIf; split <;> rfl

@[simp] theorem tailIf_get : (h.tailIf q p).get g b = h.get g b := by
  unfold tailIf; split <;> rfl

@[simp] theorem tailIf_freehead : (h.tailIf q p).freehead = h.freehead := by
  unfold tailIf; split <;> rfl

@[simp] theorem tailIf_tail : (h.tailIf q p).tail = if q = 0 then p else h.tail := by
  unfold tailIf; split <;> rfl

theorem get_lt (h : Heap) (f : Field) (a : ℕ) : h.get f a < 256 ^ f.width := Mem.load_lt ..

end Heap

/-! ### Which bytes an operation writes -/

/-- A byte of one of the headers at `H`. -/
def InHeader (H : List ℕ) (x : ℕ) : Prop := ∃ a ∈ H, a ≤ x ∧ x < a + sizeofMetadata

/-- `h'` comes from `h` by writes to bytes of `S` only, all of them in the log; the region
    is the same. -/
structure Edits (S : ℕ → Prop) (h h' : Heap) : Prop where
  log : ∃ ws, h'.log = ws ++ h.log ∧ ∀ w ∈ ws, ∀ x, w.1 ≤ x → x < w.1 + w.2 → S x
  mem : ∀ x, ¬ S x → h'.mem x = h.mem x
  start : h'.start = h.start
  brk : h'.brk = h.brk

variable {S S' : ℕ → Prop}

theorem Edits.refl (h : Heap) : Edits S h h :=
  ⟨⟨[], rfl, by simp⟩, fun _ _ => rfl, rfl, rfl⟩

theorem Edits.trans (h1 : Edits S h h') (h2 : Edits S h' h'') : Edits S h h'' := by
  obtain ⟨ws, hws, hS⟩ := h1.log
  obtain ⟨ws', hws', hS'⟩ := h2.log
  refine ⟨⟨ws' ++ ws, by rw [hws', hws, List.append_assoc], ?_⟩, ?_, ?_, ?_⟩
  · intro w hw
    rcases List.mem_append.mp hw with hw | hw
    · exact hS' w hw
    · exact hS w hw
  · exact fun x hx => (h2.mem x hx).trans (h1.mem x hx)
  · exact h2.start.trans h1.start
  · exact h2.brk.trans h1.brk

theorem Edits.mono (h1 : Edits S h h') (hSS : ∀ x, S x → S' x) : Edits S' h h' := by
  obtain ⟨ws, hws, hS⟩ := h1.log
  exact ⟨⟨ws, hws, fun w hw x hx hx' => hSS x (hS w hw x hx hx')⟩,
    fun x hx => h1.mem x (fun hs => hx (hSS x hs)), h1.start, h1.brk⟩

/-- Assigning a global writes no memory. -/
theorem edits_of_mem_eq (hm : h'.mem = h.mem) (hl : h'.log = h.log) (hs : h'.start = h.start)
    (hb : h'.brk = h.brk) : Edits S h h' :=
  ⟨⟨[], by simp [hl], by simp⟩, fun x _ => congrFun hm x, hs, hb⟩

theorem edits_withFreehead (t : ℕ) : Edits S h { h with freehead := t } :=
  edits_of_mem_eq rfl rfl rfl rfl

theorem edits_withTail (t : ℕ) : Edits S h { h with tail := t } :=
  edits_of_mem_eq rfl rfl rfl rfl

theorem edits_tailIf : Edits S h (h.tailIf q p) := by
  unfold Heap.tailIf
  split
  · exact edits_of_mem_eq rfl rfl rfl rfl
  · exact Edits.refl h

theorem edits_set (ha : a ∈ H) : Edits (InHeader H) h (h.set f a v) := by
  have hf := f.off_add_width_le
  refine ⟨⟨[(a + f.off, f.width)], rfl, ?_⟩, fun x hx => ?_, rfl, rfl⟩
  · intro w hw x hx hx'
    rw [List.mem_singleton] at hw
    subst hw
    exact ⟨a, ha, by dsimp only at *; omega, by dsimp only at *; omega⟩
  · refine Mem.store_apply_outside _ ?_
    by_contra hc
    exact hx ⟨a, ha, by omega, by omega⟩

theorem edits_setIf (ha : a = 0 ∨ a ∈ H) : Edits (InHeader H) h (h.setIf f a v) := by
  unfold Heap.setIf
  split
  · rename_i h0
    exact edits_set (ha.resolve_left h0)
  · exact Edits.refl h

/-! ### The two lists -/

/-- Memory and `tail` hold the block list `bs`. -/
structure BlockList (h : Heap) (bs : List Blk) : Prop where
  seg : Seg (h.get .next) (h.get .prev) 0 (bs.map Blk.addr) 0
  tail : h.tail = lastOr (bs.map Blk.addr) 0
  size : ∀ b ∈ bs, h.get .size b.addr = b.size
  ptr : ∀ b ∈ bs, h.get .ptr b.addr = b.data
  flag : ∀ b ∈ bs, h.get .free b.addr = if b.free then 1 else 0

/-- Memory and `freehead` hold the free list `fl`. -/
structure FreeList (h : Heap) (fl : List ℕ) : Prop where
  seg : Seg (h.get .freenext) (h.get .freeprev) 0 fl 0
  head : h.freehead = headOr fl 0
  nodup : fl.Nodup

variable {bs l r : List Blk} {fl fl₁ fl₂ : List ℕ} {c : Blk}

/-- The free-list links are no part of the block list. -/
theorem BlockList.congr (hB : BlockList h bs) (htail : h'.tail = h.tail)
    (hget : ∀ c ∈ bs, ∀ f, f ≠ .freenext → f ≠ .freeprev → h'.get f c.addr = h.get f c.addr) :
    BlockList h' bs where
  seg := by
    refine hB.seg.congr ?_ ?_ <;>
    · intro y hy
      obtain ⟨c, hc, rfl⟩ := List.mem_map.mp hy
      exact hget c hc _ (by decide) (by decide)
  tail := htail.trans hB.tail
  size := fun c hc => (hget c hc .size (by decide) (by decide)).trans (hB.size c hc)
  ptr := fun c hc => (hget c hc .ptr (by decide) (by decide)).trans (hB.ptr c hc)
  flag := fun c hc => (hget c hc .free (by decide) (by decide)).trans (hB.flag c hc)

theorem FreeList.congr (hF : FreeList h fl) (hhead : h'.freehead = h.freehead)
    (hget : ∀ a ∈ fl, h'.get .freenext a = h.get .freenext a ∧
      h'.get .freeprev a = h.get .freeprev a) : FreeList h' fl where
  seg := hF.seg.congr (fun a ha => (hget a ha).1) (fun a ha => (hget a ha).2)
  head := hhead.trans hF.head
  nodup := hF.nodup

theorem headOr_zero_or_mem (fl : List ℕ) : headOr fl 0 = 0 ∨ headOr fl 0 ∈ fl := by
  cases fl with
  | nil => exact .inl rfl
  | cons a fl => exact .inr List.mem_cons_self

theorem lastOr_zero_or_mem (fl : List ℕ) : lastOr fl 0 = 0 ∨ lastOr fl 0 ∈ fl := by
  cases fl with
  | nil => exact .inl rfl
  | cons a fl => exact .inr (lastOr_mem 0 (by simp))

/-! ### `insertfree` -/

/-- What every header field reads after `insertfree`. -/
theorem insertfree_get (hS : Spaced H) (hp : p ∈ H) (hf : h.freehead = 0 ∨ h.freehead ∈ H)
    (hq : q ∈ H) :
    (insertfree h p).get g q =
      if q = h.freehead ∧ g = .freeprev then p
      else if q = p ∧ g = .freenext then h.freehead
      else if q = p ∧ g = .freeprev then 0 else h.get g q := by
  have h0 : (0 : ℕ) < 256 ^ Field.freeprev.width := by decide
  have hfl : h.freehead < 256 ^ Field.freenext.width := hS.lt_of_or hf
  have hpl : p < 256 ^ Field.freeprev.width := hS.lt_of_or (.inr hp)
  simp only [insertfree, Heap.get_withFreehead, Heap.set_freehead]
  rw [hS.get_setIf hf hq hpl, hS.get_set hp hq hfl, hS.get_set hp hq h0]

theorem insertfree_edits (hp : p ∈ H) (hf : h.freehead = 0 ∨ h.freehead ∈ H) :
    Edits (InHeader H) h (insertfree h p) :=
  (edits_set hp).trans ((edits_set hp).trans ((edits_setIf hf).trans
    (edits_withFreehead p)))

/-- `insertfree` pushes a block on the front of the free list. -/
theorem insertfree_freeList (hS : Spaced H) (hF : FreeList h fl) (hp : p ∈ H)
    (hsub : ∀ a ∈ fl, a ∈ H) (hpfl : p ∉ fl) : FreeList (insertfree h p) (p :: fl) := by
  have hf : h.freehead = 0 ∨ h.freehead ∈ H :=
    hF.head ▸ (headOr_zero_or_mem fl).imp_right (hsub _)
  have h0 : (0 : ℕ) ∉ fl := fun hc => hS.pos (hsub 0 hc)
  have hp0 : p ≠ 0 := fun hc => hS.pos (hc ▸ hp)
  refine ⟨hF.seg.link (l := []) (x := p) hF.nodup h0 (by simp) ?_ ?_ ?_ ?_, rfl,
    List.nodup_cons.mpr ⟨hpfl, hF.nodup⟩⟩
  · intro y hy
    have hyp : y ≠ p := fun hc => hpfl (hc ▸ hy)
    have hy0 : y ≠ 0 := fun hc => h0 (hc ▸ hy)
    rw [insertfree_get hS hp hf (hsub y hy)]
    simp [hyp, hy0]
  · intro y hy
    have hyp : y ≠ p := fun hc => hpfl (hc ▸ hy)
    rw [insertfree_get hS hp hf (hsub y hy), hF.head]
    simp [hyp]
  · rw [insertfree_get hS hp hf hp, hF.head]
    simp
  · -- the old head is not the block that becomes the new one
    have hph : p ≠ h.freehead := by
      rw [hF.head]
      rintro rfl
      exact (headOr_zero_or_mem fl).elim hp0 hpfl
    rw [insertfree_get hS hp hf hp]
    simp [hph]

theorem insertfree_blockList (hS : Spaced H) (hB : BlockList h bs) (hp : p ∈ H)
    (hf : h.freehead = 0 ∨ h.freehead ∈ H) (hsub : ∀ c ∈ bs, c.addr ∈ H) :
    BlockList (insertfree h p) bs := by
  refine hB.congr (by simp [insertfree]) (fun c hc g h1 h2 => ?_)
  rw [insertfree_get hS hp hf (hsub c hc)]
  simp [h1, h2]

/-! ### `removefree` -/

/-- What every header field reads after `removefree`. -/
theorem removefree_get (hS : Spaced H) (hp : p ∈ H)
    (hn : h.get .freenext p = 0 ∨ h.get .freenext p ∈ H)
    (hv : h.get .freeprev p = 0 ∨ h.get .freeprev p ∈ H) (hq : q ∈ H) :
    (removefree h p).get g q =
      if q = h.get .freeprev p ∧ g = .freenext then h.get .freenext p
      else if q = h.get .freenext p ∧ g = .freeprev then h.get .freeprev p
      else if q = p ∧ g = .freenext then 0
      else if q = p ∧ g = .freeprev then 0 else h.get g q := by
  have h0 : ∀ f : Field, (0 : ℕ) < 256 ^ f.width := fun f => Nat.pow_pos (by decide)
  have hfreehead : ∀ k : Heap,
      (if p = k.freehead then { k with freehead := h.get .freenext p } else k).get g q
        = k.get g q := by
    intro k; split <;> rfl
  simp only [removefree]
  -- from the last store to the first
  rw [hfreehead, hS.get_setIf hv hq (h.get_lt .freenext p),
    hS.get_setIf hn hq (h.get_lt .freeprev p), hS.get_set hp hq (h0 _), hS.get_set hp hq (h0 _)]

theorem removefree_freehead :
    (removefree h p).freehead = if p = h.freehead then h.get .freenext p else h.freehead := by
  simp only [removefree, Heap.setIf_freehead, Heap.set_freehead]
  split <;> simp

theorem removefree_tail : (removefree h p).tail = h.tail := by
  simp only [removefree]
  split <;> simp

theorem removefree_edits (hp : p ∈ H)
    (hn : h.get .freenext p = 0 ∨ h.get .freenext p ∈ H)
    (hv : h.get .freeprev p = 0 ∨ h.get .freeprev p ∈ H) :
    Edits (InHeader H) h (removefree h p) := by
  have key := (edits_set (f := .freeprev) (v := 0) (h := h) hp).trans ((edits_set hp
    (f := .freenext) (v := 0)).trans ((edits_setIf hn (f := .freeprev)
      (v := h.get .freeprev p)).trans (edits_setIf hv (f := .freenext) (v := h.get .freenext p))))
  simp only [removefree]
  split
  · exact key.trans (edits_withFreehead _)
  · exact key

/-- The neighbours of a free-list node are in the free list or `NULL`. -/
theorem FreeList.links (hF : FreeList h (fl₁ ++ p :: fl₂)) :
    h.get .freenext p = headOr fl₂ 0 ∧ h.get .freeprev p = lastOr fl₁ 0 := by
  have hseg := hF.seg
  rw [seg_append] at hseg
  exact ⟨hseg.2.2.1, hseg.2.1⟩

theorem FreeList.links_mem (hF : FreeList h (fl₁ ++ p :: fl₂))
    (hsub : ∀ a ∈ fl₁ ++ p :: fl₂, a ∈ H) :
    (h.get .freenext p = 0 ∨ h.get .freenext p ∈ H) ∧
      (h.get .freeprev p = 0 ∨ h.get .freeprev p ∈ H) := by
  obtain ⟨hn, hv⟩ := hF.links
  rw [hn, hv]
  constructor
  · exact (headOr_zero_or_mem fl₂).imp_right (fun hm => hsub _ (by simp [hm]))
  · exact (lastOr_zero_or_mem fl₁).imp_right (fun hm => hsub _ (by simp [hm]))

/-- `removefree` takes its block off the free list. -/
theorem removefree_freeList (hS : Spaced H) (hF : FreeList h (fl₁ ++ p :: fl₂))
    (hsub : ∀ a ∈ fl₁ ++ p :: fl₂, a ∈ H) : FreeList (removefree h p) (fl₁ ++ fl₂) := by
  obtain ⟨hn, hv⟩ := hF.links
  have hp : p ∈ H := hsub p (by simp)
  have hsub' : ∀ a ∈ fl₁ ++ fl₂, a ∈ H := by
    intro a ha
    rcases List.mem_append.mp ha with ha | ha
    · exact hsub a (by simp [ha])
    · exact hsub a (by simp [ha])
  obtain ⟨hnH, hvH⟩ := hF.links_mem hsub
  have h0 : (0 : ℕ) ∉ fl₁ ++ fl₂ := fun hc => hS.pos (hsub' 0 hc)
  have hnd := hF.nodup
  have hpne : ∀ a ∈ fl₁ ++ fl₂, a ≠ p := by
    rintro a ha rfl
    exact (List.nodup_middle.mp hnd).notMem ha
  refine ⟨hF.seg.unlink hnd (fun hc => h0 (by simp [hc])) (fun hc => h0 (by simp [hc])) ?_ ?_,
    ?_, ((List.nodup_middle.mp hnd).of_cons)⟩
  · intro y hy
    rw [removefree_get hS hp hnH hvH (hsub' y hy), hn, hv]
    simp [hpne y hy]
  · intro y hy
    rw [removefree_get hS hp hnH hvH (hsub' y hy), hn, hv]
    simp [hpne y hy]
  · rw [removefree_freehead, hF.head, hn]
    cases fl₁ with
    | nil => simp
    | cons a fl₁ =>
      have hpa : p ≠ a := fun hc => hpne a (by simp) hc.symm
      simp [hpa]

theorem removefree_blockList (hS : Spaced H) (hB : BlockList h bs)
    (hF : FreeList h (fl₁ ++ p :: fl₂)) (hfl : ∀ a ∈ fl₁ ++ p :: fl₂, a ∈ H)
    (hsub : ∀ c ∈ bs, c.addr ∈ H) : BlockList (removefree h p) bs := by
  obtain ⟨hn, hv⟩ := hF.links_mem hfl
  refine hB.congr removefree_tail (fun c hc g h1 h2 => ?_)
  rw [removefree_get hS (hfl p (by simp)) hn hv (hsub c hc)]
  simp [h1, h2]

end SystemProgramming.Malloc
