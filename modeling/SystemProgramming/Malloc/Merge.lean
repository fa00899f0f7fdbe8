import SystemProgramming.Malloc.Specs

namespace SystemProgramming.Malloc

open SystemProgramming.Lib Arena

/-!
# Splitting and merging as whole operations

The rules of `Specs.lean` composed into the functions of the source: `split`, the reuse
branch of `malloc` (`reuse_spec`), the merge with the right neighbour shared by `free` and
`realloc` (`Holds.absorbNext`), the merge with the left neighbour (`Holds.mergePrev`), and
`free` as a whole (`free_spec`).  The block lists they leave behind are those of the arena
operations `take`, `absorb` and `release`.
-/

variable {h : Heap} {bs l r : List Blk} {a b c n t : Blk} {fl fl₁ fl₂ : List ℕ}
  {H H' : List ℕ} {q sz size : ℕ}

/-- More headers allow more writes. -/
theorem InHeader.mono {x : ℕ} (hsub : ∀ a ∈ H, a ∈ H') (hx : InHeader H x) : InHeader H' x := by
  obtain ⟨a, ha, h1⟩ := hx
  exact ⟨a, hsub a ha, h1⟩

/-! ### `split` -/

/-- `split` leaves a block alone when the rest would be too small. -/
theorem split_of_le (sz : ℕ) (hB : BlockList h (l ++ b :: r))
    (hle : b.size ≤ sz + 3 * sizeofMetadata) (hsz : sz + 3 * sizeofMetadata < 2 ^ 64) : split h b.addr sz = h := by
  rw [split, hB.size b (by simp), add64_eq hsz, if_pos hle]

/-- Otherwise it carves the rest off as a free block. -/
theorem split_of_lt (hB : BlockList h (l ++ b :: r)) (hlt : sz + 3 * sizeofMetadata < b.size)
    (hstop : b.stop < 2 ^ 64) :
    split h b.addr sz = insertfree (carve h b.addr (b.data + sz) (b.size - sz - sizeofMetadata)
      (headOr (addrs r) 0)) (b.data + sz) := by
  have hle : ¬ b.size ≤ sz + 3 * sizeofMetadata := by omega
  simp only [Blk.stop, sizeofMetadata] at hstop hlt
  have hnew : add64 b.data sz = b.data + sz :=
    add64_eq (by simp only [Blk.data, sizeofMetadata]; omega)
  have hpos : b.data + sz ≠ 0 := by simp only [Blk.data, sizeofMetadata]; omega
  have hsize : sub64 (sub64 b.size sz) sizeofMetadata = b.size - sz - sizeofMetadata := by
    have hone : sub64 b.size sz = b.size - sz := sub64_eq (by omega) (by omega)
    have hroom : sizeofMetadata ≤ b.size - sz := by simp only [sizeofMetadata]; omega
    rw [hone, sub64_eq hroom (by omega)]
  rw [split, hB.size b (by simp), hB.ptr b (by simp), hB.links.1,
    add64_eq (by simp only [sizeofMetadata]; omega), if_neg hle]
  simp only [hnew, hsize, if_neg hpos]

/-- **`split`.**  The block list gains the rest of `b`, if any, and so does the free list. -/
theorem Holds.split (hH : Holds h (l ++ b :: r) fl)
    (hS : Spaced (addrs (l ++ b :: (rest b sz ++ r)))) (hsz : sz + 3 * sizeofMetadata < 2 ^ 64)
    (hstop : b.stop < 2 ^ 64) :
    Holds (split h b.addr sz) (l ++ b :: (rest b sz ++ r)) (addrs (rest b sz) ++ fl) ∧
      Edits (InHeader (addrs (l ++ b :: (rest b sz ++ r)))) h (split h b.addr sz) := by
  by_cases hle : b.size ≤ sz + 3 * sizeofMetadata
  · rw [split_of_le sz hH.blocks hle hsz]
    simp only [rest, if_pos hle] at hS ⊢
    exact ⟨hH, Edits.refl h⟩
  · rw [split_of_lt hH.blocks (by omega) hstop]
    simp only [rest, if_neg hle] at hS ⊢
    have happ : l ++ b :: r = (l ++ [b]) ++ r := by simp
    -- the new header lies inside the payload of `b`, and so it is nobody else's
    have hnew : (b.data + sz) ∉ fl := by
      intro hc
      obtain ⟨c, hc', hca⟩ := List.mem_map.mp (hH.sub _ hc)
      rw [happ] at hc'
      exact Spaced.ne_middle (l := l ++ [b]) (r := r)
        (b := ⟨b.data + sz, b.size - sz - sizeofMetadata, true⟩) (by simpa using hS) hc' hca
    simp only [Blk.stop, sizeofMetadata] at hstop hle
    have hcar := hH.carve hS
      (by simp only; omega) (by simp only [Blk.data, sizeofMetadata]; omega) rfl
    have hmem : b.data + sz ∈
        addrs (l ++ b :: ⟨b.data + sz, b.size - sz - sizeofMetadata, true⟩ :: r) := by simp
    exact ⟨hcar.insertfree hmem hnew, (Holds.carve_edits).trans (hcar.insertfree_edits hmem)⟩

/-! ### The reuse branch of `malloc` -/

/-- **`malloc`, reusing the free block `b`.** -/
theorem reuse_spec (hH : Holds h (l ++ b :: r) (fl₁ ++ b.addr :: fl₂))
    (hS : Spaced (addrs (l ++ ⟨b.addr, size, false⟩ :: (rest b size ++ r))))
    (hsz : size + 3 * sizeofMetadata < 2 ^ 64) (hstop : b.stop ≤ 2 ^ 63) :
    Holds (reuse h b.addr size).2 (l ++ ⟨b.addr, size, false⟩ :: (rest b size ++ r))
        (addrs (rest b size) ++ (fl₁ ++ fl₂)) ∧
      Edits (InHeader (addrs (l ++ ⟨b.addr, size, false⟩ :: (rest b size ++ r)))) h
        (reuse h b.addr size).2 ∧
      (reuse h b.addr size).1 = b.data := by
  have hS' : Spaced (addrs (l ++ b :: (rest b size ++ r))) := by simpa using hS
  have hsame : addrs (l ++ ⟨b.addr, size, false⟩ :: (rest b size ++ r))
      = addrs (l ++ b :: (rest b size ++ r)) := by simp
  have hb : b.addr ∈ addrs (l ++ b :: (rest b size ++ r)) := mem_addrs (by simp)
  -- off the free list, split, and then the flag and the size
  obtain ⟨hsp, hspe⟩ := hH.removefree.split hS' (by omega) (by omega)
  have hflag := hsp.setFlag false
  have hfin := hflag.setSize (v := size) (by omega)
  have hsub : ∀ q ∈ addrs (l ++ b :: r), q ∈ addrs (l ++ b :: (rest b size ++ r)) := by
    intro q hq
    simp only [addrs_append, addrs_cons, List.mem_append, List.mem_cons] at hq ⊢
    tauto
  refine ⟨hfin, ?_, ?_⟩
  · rw [hsame]
    exact ((hH.removefree_edits).mono (fun _ => InHeader.mono hsub)).trans <| hspe.trans <|
      (edits_set hb).trans <| edits_set hb
  · exact hfin.blocks.ptr ⟨b.addr, size, false⟩ (by simp)

/-! ### Merging -/

/-- **Merging with the right neighbour.** -/
theorem Holds.absorbNext (hH : Holds h (l ++ b :: n :: r) (fl₁ ++ n.addr :: fl₂))
    (hsz : (merged b n).size < 2 ^ 64) :
    Holds (absorbNext h b.addr n.addr) (l ++ merged b n :: r) (fl₁ ++ fl₂) ∧
      Edits (InHeader (addrs (l ++ b :: n :: r))) h (absorbNext h b.addr n.addr) := by
  have hsz' : b.size + (n.size + sizeofMetadata) < 2 ^ 64 := hsz
  have hadd : add64 n.size sizeofMetadata = n.size + sizeofMetadata := add64_eq (by omega)
  have happ : ∀ x : Blk, l ++ x :: n :: r = (l ++ [x]) ++ n :: r := by simp
  -- `b` is made larger, `n` leaves the free list, and then the block list
  have hset : Holds (h.set .size b.addr (merged b n).size) (l ++ merged b n :: n :: r)
      (fl₁ ++ n.addr :: fl₂) := hH.setSize hsz
  have hrem := hset.removefree
  have hdrop : Holds _ (l ++ merged b n :: r) (fl₁ ++ fl₂) :=
    hrem.dropNext (List.nodup_middle.mp hH.frees.nodup).notMem
  have hunf : Malloc.absorbNext h b.addr n.addr
      = Malloc.dropNext (Malloc.removefree (h.set .size b.addr (merged b n).size) n.addr)
          b.addr n.addr := by
    rw [Malloc.absorbNext, hH.blocks.size b (by simp), hH.blocks.size n (by simp), hadd,
      add64_eq hsz']
    rfl
  have hsame : addrs (l ++ merged b n :: n :: r) = addrs (l ++ b :: n :: r) := by
    simp [merged]
  have hb : b.addr ∈ addrs (l ++ b :: n :: r) := mem_addrs (by simp)
  have hn : n.addr ∈ addrs (l ++ b :: n :: r) := mem_addrs (by simp)
  rw [hunf]
  refine ⟨hdrop, ?_⟩
  have hx := (happ (merged b n) ▸ hrem.blocks).links.1
  have hxm := (links_mem (l ++ [b]) n r).1
  rw [← happ] at hxm
  have hremE := hset.removefree_edits
  rw [hsame] at hremE
  exact (edits_set hb).trans <| hremE.trans <| dropNext_edits hH.spaced hb hn hx hxm

/-- **Merging with the left neighbour.** -/
theorem Holds.mergePrev (hH : Holds h (l ++ t :: b :: r) (fl₁ ++ t.addr :: fl₂))
    (hb : b.addr ∉ fl₁ ++ fl₂) (hsz : (merged t b).size < 2 ^ 64) :
    Holds (mergePrev h b.addr t.addr) (l ++ merged t b :: r) (t.addr :: (fl₁ ++ fl₂)) ∧
      Edits (InHeader (addrs (l ++ t :: b :: r))) h (mergePrev h b.addr t.addr) := by
  have happ : l ++ t :: b :: r = (l ++ [t]) ++ b :: r := by simp
  have hdrop := hH.removefree.dropInto hb hsz
  have hmem : t.addr ∈ addrs (l ++ merged t b :: r) := by simp [merged]
  have hfl : t.addr ∉ fl₁ ++ fl₂ := (List.nodup_middle.mp hH.frees.nodup).notMem
  have hsub : ∀ q ∈ addrs (l ++ merged t b :: r), q ∈ addrs (l ++ t :: b :: r) := by
    intro q hq
    simp only [merged, addrs_append, addrs_cons, List.mem_append, List.mem_cons] at hq ⊢
    tauto
  refine ⟨hdrop.insertfree hmem hfl, ?_⟩
  have htm : t.addr ∈ addrs (l ++ t :: b :: r) := mem_addrs (by simp)
  have hbm : b.addr ∈ addrs (l ++ t :: b :: r) := mem_addrs (by simp)
  have hne : b.addr ≠ t.addr := hH.spaced.ne_middle (c := b) (by simp)
  have hx := (happ ▸ hH.removefree.blocks).links.1
  have hxm := (links_mem (l ++ [t]) b r).1
  rw [← happ] at hxm
  exact (hH.removefree_edits).trans <| (dropInto_edits hH.spaced hbm htm hne hx hxm).trans <|
    (hdrop.insertfree_edits hmem).mono (fun _ => InHeader.mono hsub)

/-! ### `free` -/

/-- The free list holds the free blocks and no others. -/
def Marks (bs : List Blk) (fl : List ℕ) : Prop := ∀ c ∈ bs, c.addr ∈ fl ↔ c.free = true

theorem marks_middle : Marks (l ++ b :: r) fl ↔ (b.addr ∈ fl ↔ b.free = true) ∧ Marks (l ++ r) fl :=
  mem_middle (fun c => c.addr ∈ fl ↔ c.free = true)

/-- The free list may gain an address that is none of the blocks'. -/
theorem marks_cons (hq : q ∉ addrs bs) : Marks bs (q :: fl) ↔ Marks bs fl := by
  refine forall₂_congr fun c hc => ?_
  have hne : c.addr ≠ q := fun heq => hq (heq ▸ mem_addrs hc)
  rw [List.mem_cons, or_iff_right hne]

/-- The same in the middle of the free list. -/
theorem marks_insert (hq : q ∉ addrs bs) : Marks bs (fl₁ ++ q :: fl₂) ↔ Marks bs (fl₁ ++ fl₂) := by
  refine Iff.trans (forall₂_congr fun c _ => ?_) (marks_cons hq)
  rw [List.mem_append, List.mem_cons, List.mem_cons, List.mem_append, or_left_comm]

theorem Spaced.notMem_around (hS : Spaced (addrs (l ++ b :: r))) : b.addr ∉ addrs (l ++ r) := by
  have hnd := hS.nodup
  rw [addrs_append, addrs_cons] at hnd
  rw [addrs_append]
  exact (List.nodup_middle.mp hnd).notMem

/-- The value of a flag as the source tests it. -/
theorem BlockList.flag_iff (hB : BlockList h bs) (hb : b ∈ bs) :
    h.get .free b.addr = 1 ↔ b.free = true := by
  rw [hB.flag b hb]
  cases b.free <;> simp

/-- Leaving a block out leaves its header out. -/
theorem addrs_around (hq : q ∈ addrs (l ++ r)) : q ∈ addrs (l ++ b :: r) := by
  rw [addrs_append] at hq
  rw [addrs_append, addrs_cons]
  exact mem_of_around hq

/-- Merging on the right brings no new header. -/
theorem addrs_mergeRight (hq : q ∈ addrs (l ++ (mergeRight b r).1 :: (mergeRight b r).2)) :
    q ∈ addrs (l ++ b :: r) := by
  cases r with
  | nil => simpa [mergeRight] using hq
  | cons n r =>
    simp only [mergeRight] at hq
    split at hq
    · have happ : l ++ b :: n :: r = (l ++ [b]) ++ n :: r := by simp
      rw [happ]
      exact addrs_around (by simpa [merged] using hq)
    · simpa using hq

/-- What `free` knows of the free list until its block is on it. -/
structure Marked (h : Heap) (l : List Blk) (b : Blk) (r : List Blk) (fl : List ℕ) : Prop where
  holds : Holds h (l ++ b :: r) fl
  marks : Marks (l ++ r) fl
  notMem : b.addr ∉ fl

/-- **The first half of `free`.** -/
theorem Marked.mergeNext (hM : Marked h l b r fl) (hb : b.free = true)
    (hsz : (mergeRight b r).1.size < 2 ^ 64) :
    ∃ fl', Marked (mergeNext h b.addr) l (mergeRight b r).1 (mergeRight b r).2 fl' ∧
      Edits (InHeader (addrs (l ++ b :: r))) h (mergeNext h b.addr) := by
  have hsame : { b with free := true } = b := by rw [← hb]
  have hnext := hM.holds.blocks.links.1
  cases r with
  | nil =>
    have hstop : Malloc.mergeNext h b.addr = h := by
      rw [Malloc.mergeNext, hnext, if_neg (fun hc => hc.1 rfl)]
    rw [hstop]
    simp only [mergeRight, hsame]
    exact ⟨fl, hM, Edits.refl h⟩
  | cons n r =>
    have happ : l ++ b :: n :: r = (l ++ [b]) ++ n :: r := by simp
    have hnmem : n ∈ l ++ b :: n :: r := by simp
    have hn0 : n.addr ≠ 0 := fun hc => hM.holds.spaced.pos (hc ▸ mem_addrs hnmem)
    have hiff := hM.holds.blocks.flag_iff hnmem
    rw [addrs_cons, headOr_cons] at hnext
    by_cases hn : n.free = true
    · -- the neighbour is swallowed, and is on the free list no more
      have hmerge : Malloc.mergeNext h b.addr = Malloc.absorbNext h b.addr n.addr := by
        rw [Malloc.mergeNext, hnext, if_pos ⟨hn0, hiff.mpr hn⟩]
      have hnfl : n.addr ∈ fl := (hM.marks n (by simp)).mpr hn
      obtain ⟨fl₁, fl₂, rfl⟩ := List.append_of_mem hnfl
      simp only [mergeRight, hn, if_true, hsame] at hsz ⊢
      obtain ⟨hH, hE⟩ := hM.holds.absorbNext hsz
      have hout : n.addr ∉ addrs (l ++ r) := by
        have hnot := Spaced.notMem_around (l := l ++ [b]) (happ ▸ hM.holds.spaced)
        rw [List.append_assoc, List.singleton_append] at hnot
        exact fun hc => hnot (addrs_around hc)
      rw [hmerge]
      refine ⟨fl₁ ++ fl₂, ⟨hH, (marks_insert hout).mp (marks_middle.mp hM.marks).2, ?_⟩, hE⟩
      exact fun hc => hM.notMem (mem_of_around hc)
    · have hstop : Malloc.mergeNext h b.addr = h := by
        rw [Malloc.mergeNext, hnext, if_neg (fun hc => hn (hiff.mp hc.2))]
      rw [hstop]
      simp only [mergeRight, hn, hsame]
      exact ⟨fl, hM, Edits.refl h⟩

/-- **The second half of `free`.** -/
theorem Marked.settle (hM : Marked h l b r fl) (hb : b.free = true)
    (hsz : ∀ c ∈ mergeLeft l b r, c.size < 2 ^ 64) :
    ∃ fl', Holds (settle h b.addr) (mergeLeft l b r) fl' ∧ Marks (mergeLeft l b r) fl' ∧
      Edits (InHeader (addrs (l ++ b :: r))) h (settle h b.addr) := by
  have hbmem : b.addr ∈ addrs (l ++ b :: r) := mem_addrs (by simp)
  have hout := hM.holds.spaced.notMem_around
  have hprev := hM.holds.blocks.links.2
  -- the block goes on the free list by itself
  have halone : Malloc.settle h b.addr = Malloc.insertfree h b.addr →
      ∃ fl', Holds (Malloc.settle h b.addr) (l ++ b :: r) fl' ∧ Marks (l ++ b :: r) fl' ∧
        Edits (InHeader (addrs (l ++ b :: r))) h (Malloc.settle h b.addr) := by
    intro heq
    rw [heq]
    exact ⟨b.addr :: fl, hM.holds.insertfree hbmem hM.notMem,
      marks_middle.mpr ⟨by simp [hb], (marks_cons hout).mpr hM.marks⟩,
      hM.holds.insertfree_edits hbmem⟩
  rcases List.eq_nil_or_concat' l with rfl | ⟨l, t, rfl⟩
  · refine halone ?_
    rw [Malloc.settle, hprev, if_neg (fun hc => hc.1 rfl)]
  · have happ : (l ++ [t]) ++ b :: r = l ++ t :: b :: r := by simp
    have htmem : t ∈ (l ++ [t]) ++ b :: r := by simp
    have ht0 : t.addr ≠ 0 := fun hc => hM.holds.spaced.pos (hc ▸ mem_addrs htmem)
    have hiff := hM.holds.blocks.flag_iff htmem
    have hlast : lastOr (addrs (l ++ [t])) 0 = t.addr := by simp
    rw [hlast] at hprev
    rw [mergeLeft_concat] at hsz ⊢
    by_cases ht : t.free = true
    · -- the left neighbour takes the block in, and goes to the front of the free list
      have hmerge : Malloc.settle h b.addr = Malloc.mergePrev h b.addr t.addr := by
        rw [Malloc.settle, hprev, if_pos ⟨ht0, hiff.mpr ht⟩]
      rw [if_pos ht] at hsz ⊢
      have htfl : t.addr ∈ fl := (hM.marks t (by simp)).mpr ht
      obtain ⟨fl₁, fl₂, rfl⟩ := List.append_of_mem htfl
      have hH := hM.holds
      rw [happ] at hH ⊢
      have hbfl : b.addr ∉ fl₁ ++ fl₂ := fun hc => hM.notMem (mem_of_around hc)
      obtain ⟨hH', hE⟩ := hH.mergePrev hbfl (hsz _ (by simp))
      have htout : t.addr ∉ addrs (l ++ r) :=
        fun hc => hH.spaced.notMem_around (addrs_around hc)
      have hM' : Marks (l ++ r) (fl₁ ++ fl₂) := by
        have hmarks := hM.marks
        rw [List.append_assoc, List.singleton_append, marks_middle] at hmarks
        exact (marks_insert htout).mp hmarks.2
      rw [hmerge]
      refine ⟨_, hH', marks_middle.mpr ⟨?_, (marks_cons htout).mpr hM'⟩, hE⟩
      simp [merged, ht]
    · rw [if_neg ht, ← happ]
      refine halone ?_
      rw [Malloc.settle, hprev, if_neg (fun hc => ht (hiff.mp hc.2))]

/-- **`free`** of the used block `b`. -/
theorem free_spec (hH : Holds h (l ++ b :: r) fl) (hM : Marks (l ++ b :: r) fl)
    (hb : b.free = false) (hdata : b.data < 2 ^ 64)
    (hsz : (mergeRight b r).1.size < 2 ^ 64) (hsz' : ∀ c ∈ released l b r, c.size < 2 ^ 64) :
    ∃ fl', Holds (free h b.data) (released l b r) fl' ∧ Marks (released l b r) fl' ∧
      Edits (InHeader (addrs (l ++ b :: r))) h (free h b.data) := by
  have hbmem : b ∈ l ++ b :: r := by simp
  have hb0 : b.addr ≠ 0 := fun hc => hH.spaced.pos (hc ▸ mem_addrs hbmem)
  have hp : sub64 b.data sizeofMetadata = b.addr := by
    rw [sub64_eq (by simp [Blk.data]) hdata]
    simp [Blk.data]
  have hunf : free h b.data
      = settle (Malloc.mergeNext (h.set .free b.addr 1) b.addr) b.addr := by
    have hflag : ¬ (b.addr = 0 ∨ h.get .free b.addr = 1) := by
      rw [hH.blocks.flag_iff hbmem, hb]
      simp [hb0]
    rw [free, if_neg (by simp [Blk.data, sizeofMetadata]), hp, if_neg hflag]
  have hM' := marks_middle.mp hM
  have hbfl : b.addr ∉ fl := by
    rw [hM'.1, hb]
    decide
  have hset : Marked (h.set .free b.addr 1) l { b with free := true } r fl :=
    ⟨hH.setFlag true, hM'.2, hbfl⟩
  have hright : mergeRight { b with free := true } r = mergeRight b r := by
    cases r <;> rfl
  -- first with the right neighbour, and then with the left one
  obtain ⟨fl₁, h1, e1⟩ := hset.mergeNext rfl (by rwa [hright])
  rw [hright] at h1
  obtain ⟨fl₂, h2, m2, e2⟩ := h1.settle mergeRight_free hsz'
  have haddr : (mergeRight b r).1.addr = b.addr := by
    cases r with
    | nil => rfl
    | cons n r => simp only [mergeRight]; split <;> rfl
  rw [haddr] at h2 e2
  have hsame : addrs (l ++ { b with free := true } :: r) = addrs (l ++ b :: r) := by simp
  rw [hsame] at e1
  rw [hunf]
  exact ⟨fl₂, h2, m2, (edits_set (mem_addrs hbmem)).trans <| e1.trans <|
    e2.mono (fun _ => InHeader.mono (fun _ => addrs_mergeRight))⟩

end SystemProgramming.Malloc
