import SystemProgramming.Malloc.Blocks

namespace SystemProgramming.Malloc

open SystemProgramming.Lib Arena

/-!
# Specifications of the allocator's list operations

`Holds h bs fl` says that memory holds the block list `bs` and the free list `fl`.  Each
group of statements of the source gets one rule that says which lists memory holds
afterwards, and one that bounds the bytes it writes by the headers of the blocks involved.
-/

variable {h : Heap} {bs l r : List Blk} {a b nb n t p : Blk} {fl fl₁ fl₂ : List ℕ}
  {H : List ℕ} {q v sz : ℕ} {g : Field}

/-- Memory holds the block list `bs` and the free list `fl`. -/
structure Holds (h : Heap) (bs : List Blk) (fl : List ℕ) : Prop where
  blocks : BlockList h bs
  frees : FreeList h fl
  spaced : Spaced (addrs bs)
  sub : ∀ a ∈ fl, a ∈ addrs bs

namespace Holds

theorem freehead_mem (hH : Holds h bs fl) : h.freehead = 0 ∨ h.freehead ∈ addrs bs :=
  hH.frees.head ▸ (headOr_zero_or_mem fl).imp_right (hH.sub _)

theorem tail_mem (hH : Holds h bs fl) : h.tail = 0 ∨ h.tail ∈ addrs bs :=
  hH.blocks.tail ▸ lastOr_zero_or_mem (addrs bs)

theorem insertfree (hH : Holds h bs fl) (hq : q ∈ addrs bs) (hfl : q ∉ fl) :
    Holds (insertfree h q) bs (q :: fl) where
  blocks := insertfree_blockList hH.spaced hH.blocks hq hH.freehead_mem (fun _ hc => mem_addrs hc)
  frees := insertfree_freeList hH.spaced hH.frees hq hH.sub hfl
  spaced := hH.spaced
  sub := by
    intro x hx
    rcases List.mem_cons.mp hx with rfl | hx
    · exact hq
    · exact hH.sub x hx

theorem removefree (hH : Holds h bs (fl₁ ++ q :: fl₂)) :
    Holds (removefree h q) bs (fl₁ ++ fl₂) where
  blocks := removefree_blockList hH.spaced hH.blocks hH.frees hH.sub (fun _ hc => mem_addrs hc)
  frees := removefree_freeList hH.spaced hH.frees hH.sub
  spaced := hH.spaced
  sub := by
    intro x hx
    refine hH.sub x ?_
    rcases List.mem_append.mp hx with hx | hx
    · exact List.mem_append_left _ hx
    · exact List.mem_append_right _ (List.mem_cons_of_mem q hx)

theorem removefree_edits (hH : Holds h bs (fl₁ ++ q :: fl₂)) :
    Edits (InHeader (addrs bs)) h (Malloc.removefree h q) := by
  obtain ⟨hn, hv⟩ := hH.frees.links_mem hH.sub
  exact Malloc.removefree_edits (hH.sub q (by simp)) hn hv

theorem insertfree_edits (hH : Holds h bs fl) (hq : q ∈ addrs bs) :
    Edits (InHeader (addrs bs)) h (Malloc.insertfree h q) :=
  Malloc.insertfree_edits hq hH.freehead_mem

theorem setSize (hH : Holds h (l ++ b :: r) fl) (hv : v < 2 ^ 64) :
    Holds (h.set .size b.addr v) (l ++ { b with size := v } :: r) fl where
  blocks := hH.blocks.setSize hH.spaced hv
  frees := hH.frees.set hH.spaced hH.sub (mem_addrs (by simp)) (lt_of_lt_of_eq hv (by decide))
    (by decide) (by decide)
  spaced := by simpa using hH.spaced
  sub := by simpa using hH.sub

theorem setFlag (hH : Holds h (l ++ b :: r) fl) (x : Bool) :
    Holds (h.set .free b.addr (if x then 1 else 0)) (l ++ { b with free := x } :: r) fl where
  blocks := hH.blocks.setFlag hH.spaced x
  frees := hH.frees.set hH.spaced hH.sub (mem_addrs (by simp)) (by cases x <;> decide)
    (by decide) (by decide)
  spaced := by simpa using hH.spaced
  sub := by simpa using hH.sub

/-- The links of a block are addresses of blocks or `NULL`. -/
theorem links_mem (l : List Blk) (b : Blk) (r : List Blk) :
    (headOr (addrs r) 0 = 0 ∨ headOr (addrs r) 0 ∈ addrs (l ++ b :: r)) ∧
      (lastOr (addrs l) 0 = 0 ∨ lastOr (addrs l) 0 ∈ addrs (l ++ b :: r)) := by
  rw [addrs_append, addrs_cons]
  exact ⟨(headOr_zero_or_mem (addrs r)).imp_right (fun hm => by simp [hm]),
    (lastOr_zero_or_mem (addrs l)).imp_right (fun hm => by simp [hm])⟩

/-! ### Splitting -/

section Carve
variable (hH : Holds h (l ++ b :: r) fl) (hS : Spaced (addrs (l ++ b :: nb :: r)))

include hS in
/-- What every header field reads after `carve`. -/
theorem carve_get (hsz : nb.size < 2 ^ 64) (hdata : nb.data < 2 ^ 64)
    (hq : q ∈ addrs (l ++ b :: nb :: r)) :
    (carve h b.addr nb.addr nb.size (headOr (addrs r) 0)).get g q =
      if q = b.addr ∧ g = .next then nb.addr
      else if q = nb.addr ∧ g = .freeprev then 0
      else if q = nb.addr ∧ g = .freenext then 0
      else if q = nb.addr ∧ g = .prev then b.addr
      else if q = headOr (addrs r) 0 ∧ g = .prev then nb.addr
      else if q = nb.addr ∧ g = .next then headOr (addrs r) 0
      else if q = nb.addr ∧ g = .free then 1
      else if q = nb.addr ∧ g = .ptr then nb.data
      else if q = nb.addr ∧ g = .size then nb.size else h.get g q := by
  have hb : b.addr ∈ addrs (l ++ b :: nb :: r) := mem_addrs (by simp)
  have hn : nb.addr ∈ addrs (l ++ b :: nb :: r) := mem_addrs (by simp)
  have ht : headOr (addrs r) 0 = 0 ∨ headOr (addrs r) 0 ∈ addrs (l ++ b :: nb :: r) := by
    simp only [addrs_append, addrs_cons]
    exact (headOr_zero_or_mem (addrs r)).imp_right (fun hm => by simp [hm])
  have hbl : b.addr < 256 ^ 8 := hS.lt_of_or (.inr hb)
  have hnl : nb.addr < 256 ^ 8 := hS.lt_of_or (.inr hn)
  have htl : headOr (addrs r) 0 < 256 ^ 8 := hS.lt_of_or ht
  have h0 : (0 : ℕ) < 256 ^ 8 := by decide
  have h1 : (1 : ℕ) < 256 ^ 4 := by decide
  have hptr : add64 nb.addr sizeofMetadata = nb.data := add64_eq hdata
  have hsz' : nb.size < 256 ^ 8 := lt_of_lt_of_eq hsz (by decide)
  have hdata' : nb.data < 256 ^ 8 := lt_of_lt_of_eq hdata (by decide)
  simp only [carve, hptr]
  -- from the last store to the first
  rw [hS.get_set hb hq hnl, hS.get_set hn hq h0, hS.get_set hn hq h0, hS.get_set hn hq hbl,
    Heap.tailIf_get, hS.get_setIf ht hq hnl, hS.get_set hn hq htl, hS.get_set hn hq h1,
    hS.get_set hn hq hdata', hS.get_set hn hq hsz']

include hH hS in
/-- `carve` links the free block `nb` in after `b`. -/
theorem carve (hsz : nb.size < 2 ^ 64) (hdata : nb.data < 2 ^ 64) (hfree : nb.free = true) :
    Holds (carve h b.addr nb.addr nb.size (headOr (addrs r) 0)) (l ++ b :: nb :: r) fl := by
  have happ : l ++ b :: nb :: r = (l ++ [b]) ++ nb :: r := by simp
  have hS' : Spaced (addrs ((l ++ [b]) ++ nb :: r)) := happ ▸ hS
  have hne : ∀ q ∈ addrs ((l ++ [b]) ++ r), q ≠ nb.addr := by
    intro q hq
    obtain ⟨c, hc, rfl⟩ := List.mem_map.mp hq
    exact hS'.ne_middle hc
  have hmem : ∀ q ∈ addrs ((l ++ [b]) ++ r), q ∈ addrs (l ++ b :: nb :: r) := by
    intro q hq
    obtain ⟨c, hc, rfl⟩ := List.mem_map.mp hq
    exact happ ▸ mem_addrs (mem_of_around hc)
  have hn : nb.addr ∈ addrs (l ++ b :: nb :: r) := mem_addrs (by simp)
  have hnb : nb.addr ≠ b.addr := (hne b.addr (mem_addrs (by simp))).symm
  -- the stores through the block to the right do not hit the new header
  have hnt : nb.addr ≠ headOr (addrs r) 0 := by
    rcases headOr_zero_or_mem (addrs r) with h0 | hm
    · rw [h0]
      exact fun hc => hS.pos (hc ▸ hn)
    · exact (hne _ (by rw [addrs_append]; exact List.mem_append_right _ hm)).symm
  have hget := @carve_get h l r b nb
  have hlast : lastOr (addrs (l ++ [b])) 0 = b.addr := by simp
  refine ⟨?_, hH.frees.congr (by simp [Malloc.carve]) (fun q hq => ?_), hS, fun q hq => ?_⟩
  · rw [happ]
    refine BlockList.link (h := h) (by simpa using hH.blocks) hS' ?_ (fun q hq g h1 h2 => ?_)
      ?_ ?_ ?_ ?_ ?_
    · simp [Malloc.carve]
    · rw [hget hS hsz hdata (hmem q hq), hlast]
      simp [hne q hq]
    · rw [hget hS hsz hdata hn]; simp [hnb]
    · rw [hget hS hsz hdata hn]; simp
    · rw [hget hS hsz hdata hn]; simp
    · rw [hget hS hsz hdata hn]; simp
    · rw [hget hS hsz hdata hn]; simp [hfree]
  · have hqm : q ∈ addrs ((l ++ [b]) ++ r) := by simpa using hH.sub q hq
    rw [hget hS hsz hdata (hmem q hqm), hget hS hsz hdata (hmem q hqm)]
    simp [hne q hqm]
  · exact hmem q (by simpa using hH.sub q hq)

theorem carve_edits :
    Edits (InHeader (addrs (l ++ b :: nb :: r))) h
      (Malloc.carve h b.addr nb.addr nb.size (headOr (addrs r) 0)) := by
  have hb : b.addr ∈ addrs (l ++ b :: nb :: r) := mem_addrs (by simp)
  have hn : nb.addr ∈ addrs (l ++ b :: nb :: r) := mem_addrs (by simp)
  have ht : headOr (addrs r) 0 = 0 ∨ headOr (addrs r) 0 ∈ addrs (l ++ b :: nb :: r) := by
    simp only [addrs_append, addrs_cons]
    exact (headOr_zero_or_mem (addrs r)).imp_right (fun hm => by simp [hm])
  exact (edits_set hn).trans <| (edits_set hn).trans <| (edits_set hn).trans <|
    (edits_set hn).trans <| (edits_setIf ht).trans <| edits_tailIf.trans <| (edits_set hn).trans <|
    (edits_set hn).trans <| (edits_set hn).trans <| edits_set hb

end Carve

/-! ### Merging -/

/-- What every header field reads after `dropNext`, with `x` the next-but-one block. -/
theorem dropNext_get (hS : Spaced H) {x p temp : ℕ} (hp : p ∈ H) (ht : temp ∈ H)
    (hx : h.get .next temp = x) (hxm : x = 0 ∨ x ∈ H) (hq : q ∈ H) :
    (dropNext h p temp).get g q =
      if q = temp ∧ g = .prev then 0
      else if q = temp ∧ g = .next then 0
      else if q = x ∧ g = .prev then p
      else if q = p ∧ g = .next then x else h.get g q := by
  have h0 : (0 : ℕ) < 256 ^ 8 := by decide
  have hxl : x < 256 ^ 8 := hS.lt_of_or hxm
  have hpl : p < 256 ^ 8 := hS.lt_of_or (.inr hp)
  have hnp : (h.set .next p x).get .next p = x := by
    rw [hS.get_set hp hp hxl, if_pos ⟨rfl, rfl⟩]
  simp only [dropNext, hx, hnp]
  rw [hS.get_set ht hq h0, hS.get_set ht hq h0, Heap.tailIf_get, hS.get_setIf hxm hq hpl,
    hS.get_set hp hq hxl]

theorem dropNext_tail (hS : Spaced H) {x p temp : ℕ} (hp : p ∈ H)
    (hx : h.get .next temp = x) (hxm : x = 0 ∨ x ∈ H) :
    (dropNext h p temp).tail = if x = 0 then p else h.tail := by
  have hxl : x < 256 ^ 8 := hS.lt_of_or hxm
  have hpl : p < 256 ^ 8 := hS.lt_of_or (.inr hp)
  have hnp : (h.set .next p x).get .next p = x := by
    rw [hS.get_set hp hp hxl, if_pos ⟨rfl, rfl⟩]
  have hnp' : ((h.set .next p x).setIf .prev x p).get .next p = x := by
    rw [hS.get_setIf hxm hp hpl, if_neg (by simp), hnp]
  simp only [dropNext, hx, hnp, hnp', Heap.set_tail, Heap.tailIf_tail, Heap.setIf_tail]

/-- `dropNext` unlinks `t`, the block after `a`. -/
theorem dropNext (hH : Holds h (l ++ a :: t :: r) fl) (hfl : t.addr ∉ fl) :
    Holds (dropNext h a.addr t.addr) (l ++ a :: r) fl := by
  have happ : l ++ a :: t :: r = (l ++ [a]) ++ t :: r := by simp
  have happ' : l ++ a :: r = (l ++ [a]) ++ r := by simp
  have hS := hH.spaced
  have hx : h.get .next t.addr = headOr (addrs r) 0 := (happ ▸ hH.blocks).links.1
  have hxm : headOr (addrs r) 0 = 0 ∨ headOr (addrs r) 0 ∈ addrs (l ++ a :: t :: r) := by
    have hlink := (links_mem (l ++ [a]) t r).1
    rwa [← happ] at hlink
  have ha : a.addr ∈ addrs (l ++ a :: t :: r) := mem_addrs (by simp)
  have ht : t.addr ∈ addrs (l ++ a :: t :: r) := mem_addrs (by simp)
  have hmem : ∀ q ∈ addrs (l ++ a :: r), q ∈ addrs (l ++ a :: t :: r) := by
    intro q hq
    obtain ⟨c, hc, rfl⟩ := List.mem_map.mp hq
    exact happ ▸ mem_addrs (mem_of_around (happ' ▸ hc))
  have hne : ∀ q ∈ addrs (l ++ a :: r), q ≠ t.addr := by
    intro q hq
    obtain ⟨c, hc, rfl⟩ := List.mem_map.mp hq
    exact (happ ▸ hS : Spaced (addrs ((l ++ [a]) ++ t :: r))).ne_middle (happ' ▸ hc)
  have hsub : ∀ q ∈ fl, q ∈ addrs (l ++ a :: r) := by
    intro q hq
    obtain ⟨c, hc, rfl⟩ := List.mem_map.mp (hH.sub q hq)
    rw [happ, List.mem_append, List.mem_cons] at hc
    rcases hc with hc | rfl | hc
    · exact happ' ▸ mem_addrs (List.mem_append_left _ hc)
    · exact absurd hq hfl
    · exact happ' ▸ mem_addrs (List.mem_append_right _ hc)
  have hS' : Spaced (addrs (l ++ a :: r)) :=
    hS.sublist (((List.sublist_cons_self t r).cons_cons a).append_left l |>.map Blk.addr)
  have htail := dropNext_tail hS ha hx hxm
  refine ⟨hH.blocks.unlink hS htail (fun q hq g _ _ => ?_),
    hH.frees.congr (by simp [Malloc.dropNext]) (fun q hq => ?_), hS', hsub⟩
  · rw [dropNext_get hS ha ht hx hxm (hmem q hq)]
    have hq' := hne q hq
    -- `a` is not its own neighbour, and so each of the two stores has a field to itself
    have hax : a.addr ≠ headOr (addrs r) 0 := by
      rcases headOr_zero_or_mem (addrs r) with h0 | hm
      · rw [h0]
        exact fun hc => hS.pos (hc ▸ ha)
      · intro hc
        have hnd := hS'.nodup
        rw [addrs_append, addrs_cons] at hnd
        have hnot := (List.nodup_middle.mp hnd).notMem
        exact hnot (List.mem_append_right _ (hc ▸ hm))
    by_cases h1 : q = a.addr
    · subst h1; simp [hq', hax]
    · simp [hq', h1]
  · have hq' := hne q (hsub q hq)
    rw [dropNext_get hS ha ht hx hxm (hH.sub q hq), dropNext_get hS ha ht hx hxm (hH.sub q hq)]
    simp

theorem dropNext_edits (hS : Spaced H) {x p temp : ℕ} (hp : p ∈ H) (ht : temp ∈ H)
    (hx : h.get .next temp = x) (hxm : x = 0 ∨ x ∈ H) :
    Edits (InHeader H) h (Malloc.dropNext h p temp) := by
  have hxl : x < 256 ^ 8 := hS.lt_of_or hxm
  have hnp : (h.set .next p x).get .next p = x := by
    rw [hS.get_set hp hp hxl, if_pos ⟨rfl, rfl⟩]
  simp only [Malloc.dropNext, hx, hnp]
  exact (edits_set hp).trans <| (edits_setIf hxm).trans <| edits_tailIf.trans <|
    (edits_set ht).trans <| edits_set ht

/-- Only the fields of the listed headers and the two globals matter. -/
theorem congr {k : Heap} (hH : Holds h bs fl) (htail : k.tail = h.tail)
    (hhead : k.freehead = h.freehead) (hget : ∀ q ∈ addrs bs, ∀ g, k.get g q = h.get g q) :
    Holds k bs fl where
  blocks := hH.blocks.congr htail (fun c hc g _ _ => hget c.addr (mem_addrs hc) g)
  frees := hH.frees.congr hhead (fun q hq => ⟨hget q (hH.sub q hq) _, hget q (hH.sub q hq) _⟩)
  spaced := hH.spaced
  sub := hH.sub

/-- `dropInto` differs from `dropNext` only in also writing the size of `temp`. -/
theorem dropInto_get (hS : Spaced H) {x p temp s : ℕ} (hp : p ∈ H) (ht : temp ∈ H)
    (hne : p ≠ temp) (hx : h.get .next p = x) (hxm : x = 0 ∨ x ∈ H)
    (hs : add64 (h.get .size temp) (add64 (h.get .size p) sizeofMetadata) = s) (hsl : s < 2 ^ 64)
    (hq : q ∈ H) :
    (dropInto h p temp).get g q = ((Malloc.dropNext h temp p).set .size temp s).get g q := by
  have h0 : (0 : ℕ) < 256 ^ 8 := by decide
  have hxl : x < 256 ^ 8 := hS.lt_of_or hxm
  have htl : temp < 256 ^ 8 := hS.lt_of_or (.inr ht)
  have hsl' : s < 256 ^ 8 := lt_of_lt_of_eq hsl (by decide)
  have hnp : (h.set .next temp x).get .next p = x := by
    rw [hS.get_set ht hp hxl, if_neg (fun hc => hne hc.1), hx]
  have hnp' : ((h.set .next temp x).setIf .prev x temp).get .next p = x := by
    rw [hS.get_setIf hxm hp htl, if_neg (by simp), hnp]
  have hsz : ∀ y ∈ H, ((h.set .next temp x).setIf .prev x temp).get .size y = h.get .size y := by
    intro y hy
    rw [hS.get_setIf hxm hy htl, if_neg (by simp), hS.get_set ht hy hxl, if_neg (by simp)]
  rw [hS.get_set ht hq hsl', dropNext_get hS ht hp hx hxm hq]
  simp only [dropInto, hx, hnp, hnp', Heap.tailIf_get, hsz temp ht, hsz p hp, hs]
  rw [hS.get_set hp hq h0, hS.get_set hp hq h0, hS.get_set ht hq hsl', Heap.tailIf_get,
    hS.get_setIf hxm hq htl, hS.get_set ht hq hxl]
  -- the size is written before the links of `p`, so only the order of the tests differs
  by_cases h1 : q = temp ∧ g = .size
  · obtain ⟨rfl, rfl⟩ := h1; simp
  · simp only [h1, if_false]

theorem dropInto_tail (hS : Spaced H) {x p temp : ℕ} (hp : p ∈ H) (ht : temp ∈ H)
    (hne : p ≠ temp) (hx : h.get .next p = x) (hxm : x = 0 ∨ x ∈ H) :
    (dropInto h p temp).tail = (Malloc.dropNext h temp p).tail := by
  have hxl : x < 256 ^ 8 := hS.lt_of_or hxm
  have htl : temp < 256 ^ 8 := hS.lt_of_or (.inr ht)
  have hnp : (h.set .next temp x).get .next p = x := by
    rw [hS.get_set ht hp hxl, if_neg (fun hc => hne hc.1), hx]
  have hnp' : ((h.set .next temp x).setIf .prev x temp).get .next p = x := by
    rw [hS.get_setIf hxm hp htl, if_neg (by simp), hnp]
  rw [dropNext_tail hS ht hx hxm]
  simp only [dropInto, hx, hnp, hnp', Heap.set_tail, Heap.tailIf_tail, Heap.setIf_tail]

theorem dropInto_edits (hS : Spaced H) {x p temp : ℕ} (hp : p ∈ H) (ht : temp ∈ H)
    (hne : p ≠ temp) (hx : h.get .next p = x) (hxm : x = 0 ∨ x ∈ H) :
    Edits (InHeader H) h (dropInto h p temp) := by
  have hxl : x < 256 ^ 8 := hS.lt_of_or hxm
  have hnp : (h.set .next temp x).get .next p = x := by
    rw [hS.get_set ht hp hxl, if_neg (fun hc => hne hc.1), hx]
  simp only [dropInto, hx, hnp]
  exact (edits_set ht).trans <| (edits_setIf hxm).trans <| edits_tailIf.trans <|
    (edits_set ht).trans <| (edits_set hp).trans <| edits_set hp

/-- `dropInto` merges `b` into `t`, the block before it. -/
theorem dropInto (hH : Holds h (l ++ t :: b :: r) fl) (hfl : b.addr ∉ fl)
    (hsz : (merged t b).size < 2 ^ 64) :
    Holds (dropInto h b.addr t.addr) (l ++ merged t b :: r) fl := by
  have happ : l ++ t :: b :: r = (l ++ [t]) ++ b :: r := by simp
  have hS := hH.spaced
  have ht : t.addr ∈ addrs (l ++ t :: b :: r) := mem_addrs (by simp)
  have hb : b.addr ∈ addrs (l ++ t :: b :: r) := mem_addrs (by simp)
  have hne : b.addr ≠ t.addr := (hS.ne_middle (c := b) (by simp))
  have hx : h.get .next b.addr = headOr (addrs r) 0 := (happ ▸ hH.blocks).links.1
  have hxm : headOr (addrs r) 0 = 0 ∨ headOr (addrs r) 0 ∈ addrs (l ++ t :: b :: r) := by
    have hlink := (links_mem (l ++ [t]) b r).1
    rwa [← happ] at hlink
  have hsize : add64 (h.get .size t.addr) (add64 (h.get .size b.addr) sizeofMetadata)
      = (merged t b).size := by
    have hsz' : t.size + (b.size + sizeofMetadata) < 2 ^ 64 := hsz
    have hadd : add64 b.size sizeofMetadata = b.size + sizeofMetadata := add64_eq (by omega)
    rw [hH.blocks.size t (by simp), hH.blocks.size b (by simp), hadd, add64_eq hsz']
    rfl
  have hmem : ∀ q ∈ addrs (l ++ merged t b :: r), q ∈ addrs (l ++ t :: b :: r) := by
    intro q hq
    simp only [merged, addrs_append, addrs_cons, List.mem_append, List.mem_cons] at hq ⊢
    rcases hq with hq | hq | hq
    · exact .inl hq
    · exact .inr (.inl hq)
    · exact .inr (.inr (.inr hq))
  -- the headers end up as if `b` were unlinked first, and the size stored last
  have hset : Holds ((Malloc.dropNext h t.addr b.addr).set .size t.addr (merged t b).size)
      (l ++ merged t b :: r) fl := (hH.dropNext hfl).setSize hsz
  refine hset.congr ?_ ?_ (fun q hq g => ?_)
  · rw [Heap.set_tail]
    exact dropInto_tail hS hb ht hne hx hxm
  · simp [Malloc.dropInto, Malloc.dropNext]
  · exact dropInto_get hS hb ht hne hx hxm hsize hsz (hmem q hq)

/-! ### A new last block -/

section Append
variable (hH : Holds h bs fl) (hS : Spaced (addrs (bs ++ [nb])))

include hH hS in
/-- What every header field reads after `appendBlock`. -/
theorem appendBlock_get (hsz : nb.size < 2 ^ 64) (hdata : nb.data < 2 ^ 64)
    (hq : q ∈ addrs (bs ++ [nb])) :
    (appendBlock h nb.addr nb.size).get g q =
      if q = nb.addr ∧ g = .freeprev then 0
      else if q = nb.addr ∧ g = .freenext then 0
      else if q = nb.addr ∧ g = .prev then h.tail
      else if q = h.tail ∧ g = .next then nb.addr
      else if q = nb.addr ∧ g = .next then 0
      else if q = nb.addr ∧ g = .free then 0
      else if q = nb.addr ∧ g = .size then nb.size
      else if q = nb.addr ∧ g = .ptr then nb.data else h.get g q := by
  have hn : nb.addr ∈ addrs (bs ++ [nb]) := mem_addrs (by simp)
  have ht : h.tail = 0 ∨ h.tail ∈ addrs (bs ++ [nb]) :=
    hH.tail_mem.imp_right (fun hm => by rw [addrs_append]; exact List.mem_append_left _ hm)
  have h0 : (0 : ℕ) < 256 ^ 8 := by decide
  have h0' : (0 : ℕ) < 256 ^ 4 := by decide
  have hnl : nb.addr < 256 ^ 8 := hS.lt_of_or (.inr hn)
  have htl : h.tail < 256 ^ 8 := hS.lt_of_or ht
  have hptr : add64 nb.addr sizeofMetadata = nb.data := add64_eq hdata
  have hsz' : nb.size < 256 ^ 8 := lt_of_lt_of_eq hsz (by decide)
  have hdata' : nb.data < 256 ^ 8 := lt_of_lt_of_eq hdata (by decide)
  simp only [appendBlock, hptr, Heap.set_tail, Heap.setIf_tail]
  rw [hS.get_set hn hq h0, hS.get_set hn hq h0, Heap.get_withTail, hS.get_set hn hq htl,
    hS.get_setIf ht hq hnl, hS.get_set hn hq h0, hS.get_set hn hq h0', hS.get_set hn hq hsz',
    hS.get_set hn hq hdata']

include hH hS in
/-- `appendBlock` links the used block `nb` in at the end. -/
theorem appendBlock (hsz : nb.size < 2 ^ 64) (hdata : nb.data < 2 ^ 64) (hfree : nb.free = false) :
    Holds (appendBlock h nb.addr nb.size) (bs ++ [nb]) fl := by
  have hn : nb.addr ∈ addrs (bs ++ [nb]) := mem_addrs (by simp)
  have hmem : ∀ q ∈ addrs bs, q ∈ addrs (bs ++ [nb]) := fun q hq => by
    rw [addrs_append]; exact List.mem_append_left _ hq
  have hne : ∀ q ∈ addrs bs, q ≠ nb.addr := by
    intro q hq
    obtain ⟨c, hc, rfl⟩ := List.mem_map.mp hq
    exact hS.ne_middle (by simpa using hc)
  -- the store through the old tail does not hit the new header
  have hnt : nb.addr ≠ h.tail := by
    rcases hH.tail_mem with h0 | hm
    · rw [h0]
      exact fun hc => hS.pos (hc ▸ hn)
    · exact (hne _ hm).symm
  have hget := fun {g q} => @appendBlock_get h bs nb fl q g hH hS hsz hdata
  refine ⟨?_, hH.frees.congr ?_ (fun q hq => ?_), hS, fun q hq => hmem q (hH.sub q hq)⟩
  · refine BlockList.link (h := h) (r := []) (by simpa using hH.blocks) hS (by rfl)
      (fun q hq g h1 h2 => ?_) ?_ ?_ ?_ ?_ ?_
    · have hq' : q ∈ addrs bs := by simpa using hq
      have hq0 : q ≠ 0 := fun hc => hH.spaced.pos (hc ▸ hq')
      rw [hget (hmem q hq'), hH.blocks.tail]
      simp [hne q hq', hq0, addrs]
    · rw [hget hn]; simp [hnt]
    · rw [hget hn, hH.blocks.tail]; simp [addrs]
    · rw [hget hn]; simp
    · rw [hget hn]; simp
    · rw [hget hn]; simp [hfree]
  · simp [Malloc.appendBlock]
  · rw [hget (hmem q (hH.sub q hq)), hget (hmem q (hH.sub q hq))]
    simp [hne q (hH.sub q hq)]

include hH in
theorem appendBlock_edits :
    Edits (InHeader (addrs (bs ++ [nb]))) h (Malloc.appendBlock h nb.addr nb.size) := by
  have hn : nb.addr ∈ addrs (bs ++ [nb]) := mem_addrs (by simp)
  have ht : h.tail = 0 ∨ h.tail ∈ addrs (bs ++ [nb]) :=
    hH.tail_mem.imp_right (fun hm => by rw [addrs_append]; exact List.mem_append_left _ hm)
  exact (edits_set hn).trans <| (edits_set hn).trans <| (edits_set hn).trans <|
    (edits_set hn).trans <| (edits_setIf ht).trans <| (edits_set hn).trans <|
    (edits_withTail nb.addr).trans <| (edits_set hn).trans <| edits_set hn

end Append

end Holds

end SystemProgramming.Malloc
