import SystemProgramming.Malloc.Headers

namespace SystemProgramming.Malloc

open SystemProgramming.Lib Arena

/-!
# The allocator's edits of the block list

What each group of statements of `malloc`, `free` and `realloc` does to the two lists of
`Headers.lean`:

* `BlockList.setSize` / `BlockList.setFlag` — writing a size or a free flag;
* `BlockList.link` / `BlockList.unlink` — a block enters or leaves the list, stated by what
  the header fields read afterwards.
-/

variable {h k k' : Heap} {bs l r : List Blk} {a b c nb n t : Blk} {fl fl₁ fl₂ : List ℕ}
  {H : List ℕ} {v sz : ℕ} {f g : Field}

/-- The header addresses of a list of blocks. -/
def addrs (bs : List Blk) : List ℕ := bs.map Blk.addr

@[simp] theorem addrs_nil : addrs [] = [] := rfl
@[simp] theorem addrs_cons : addrs (b :: bs) = b.addr :: addrs bs := rfl
@[simp] theorem addrs_append : addrs (l ++ r) = addrs l ++ addrs r := List.map_append ..

theorem mem_addrs (hb : b ∈ bs) : b.addr ∈ addrs bs := List.mem_map_of_mem hb

/-- The headers of fitting blocks are spaced. -/
theorem Fits.spaced {lo hi : ℕ} (h : Fits lo bs hi) (hlo : 0 < lo) (hhi : hi ≤ 2 ^ 64) :
    Spaced (addrs bs) where
  nodup := by
    have hp := List.pairwise_map.mpr (h.pairwise.imp
      (S := fun a b => a.addr ≠ b.addr) (fun {a b} hab => by
        simp only [Blk.stop, sizeofMetadata] at hab; omega))
    exact hp
  apart := by
    intro x hx y hy
    obtain ⟨a, ha, rfl⟩ := List.mem_map.mp hx
    obtain ⟨b, hb, rfl⟩ := List.mem_map.mp hy
    rcases h.apart ha hb with rfl | h1 | h1
    · exact .inl rfl
    · exact .inr (.inl (by simp only [Blk.stop] at h1; omega))
    · exact .inr (.inr (by simp only [Blk.stop] at h1; omega))
  pos := by
    intro h0
    obtain ⟨b, hb, hb0⟩ := List.mem_map.mp h0
    have hlow := (h.mem hb).1
    omega
  lt := by
    intro x hx
    obtain ⟨b, hb, rfl⟩ := List.mem_map.mp hx
    have hstop := (h.mem hb).2
    simp only [Blk.stop, sizeofMetadata] at hstop
    omega

/-- Around one block, the others have other addresses. -/
theorem Spaced.ne_middle (hS : Spaced (addrs (l ++ b :: r))) (hc : c ∈ l ++ r) :
    c.addr ≠ b.addr := by
  have hnd := hS.nodup
  rw [addrs_append, addrs_cons] at hnd
  have hnot := (List.nodup_middle.mp hnd).notMem
  rw [← addrs_append] at hnot
  exact fun he => hnot (he ▸ mem_addrs hc)

/-! ### Writing a size or a flag -/

theorem mem_middle (P : Blk → Prop) :
    (∀ c ∈ l ++ b :: r, P c) ↔ P b ∧ ∀ c ∈ l ++ r, P c := by
  simp only [List.mem_append, List.mem_cons]
  constructor
  · exact fun h => ⟨h b (by simp), fun c hc => h c (by tauto)⟩
  · rintro ⟨hb, h⟩ c (hc | rfl | hc)
    · exact h c (.inl hc)
    · exact hb
    · exact h c (.inr hc)

theorem mem_of_around {α : Type*} {l r : List α} {b c : α} (hc : c ∈ l ++ r) :
    c ∈ l ++ b :: r := by
  rcases List.mem_append.mp hc with hc | hc
  · exact List.mem_append_left _ hc
  · exact List.mem_append_right _ (List.mem_cons_of_mem b hc)

/-- Replacing one block by another of the same address: only its fields matter. -/
theorem BlockList.replace (hB : BlockList h (l ++ b :: r)) (hS : Spaced (addrs (l ++ b :: r)))
    (haddr : nb.addr = b.addr) (htail : k.tail = h.tail)
    (hget : ∀ q ∈ addrs (l ++ b :: r), ∀ g, g ≠ .freenext → g ≠ .freeprev →
      ¬(q = b.addr ∧ (g = .size ∨ g = .free)) → k.get g q = h.get g q)
    (hsize : k.get .size b.addr = nb.size)
    (hflag : k.get .free b.addr = if nb.free then 1 else 0) :
    BlockList k (l ++ nb :: r) := by
  have hsame : addrs (l ++ nb :: r) = addrs (l ++ b :: r) := by simp [haddr]
  -- the blocks around it keep every field
  have hother : ∀ c ∈ l ++ r, ∀ g, g ≠ .freenext → g ≠ .freeprev →
      k.get g c.addr = h.get g c.addr := fun c hc g h1 h2 =>
    hget c.addr (mem_addrs (mem_of_around hc)) g h1 h2 (fun hx => hS.ne_middle hc hx.1)
  have hsz := (mem_middle _).mp hB.size
  have hpt := (mem_middle _).mp hB.ptr
  have hfg := (mem_middle _).mp hB.flag
  have hb : b.addr ∈ addrs (l ++ b :: r) := mem_addrs (by simp)
  have hsize' : ∀ c ∈ l ++ nb :: r, k.get .size c.addr = c.size := by
    refine (mem_middle (fun c => k.get .size c.addr = c.size)).mpr ⟨by rw [haddr, hsize], ?_⟩
    exact fun c hc => (hother c hc .size (by decide) (by decide)).trans (hsz.2 c hc)
  have hptr' : ∀ c ∈ l ++ nb :: r, k.get .ptr c.addr = c.data := by
    refine (mem_middle (fun c => k.get .ptr c.addr = c.data)).mpr ⟨?_, ?_⟩
    · rw [haddr, hget b.addr hb .ptr (by decide) (by decide) (by simp), hpt.1, Blk.data, Blk.data,
        haddr]
    · exact fun c hc => (hother c hc .ptr (by decide) (by decide)).trans (hpt.2 c hc)
  have hflag' : ∀ c ∈ l ++ nb :: r, k.get .free c.addr = if c.free then 1 else 0 := by
    refine (mem_middle (fun c => k.get .free c.addr = if c.free then 1 else 0)).mpr
      ⟨by rw [haddr, hflag], ?_⟩
    exact fun c hc => (hother c hc .free (by decide) (by decide)).trans (hfg.2 c hc)
  refine ⟨?_, ?_, hsize', hptr', hflag'⟩
  · show Seg _ _ 0 (addrs (l ++ nb :: r)) 0
    rw [hsame]
    exact hB.seg.congr (fun q hq => hget q hq .next (by decide) (by decide) (by simp))
      (fun q hq => hget q hq .prev (by decide) (by decide) (by simp))
  · show k.tail = lastOr (addrs (l ++ nb :: r)) 0
    rw [hsame, htail]; exact hB.tail

theorem BlockList.setSize (hB : BlockList h (l ++ b :: r)) (hS : Spaced (addrs (l ++ b :: r)))
    (hv : v < 2 ^ 64) : BlockList (h.set .size b.addr v) (l ++ { b with size := v } :: r) := by
  have hb : b.addr ∈ addrs (l ++ b :: r) := mem_addrs (by simp)
  have hv' : v < 256 ^ Field.size.width := lt_of_lt_of_eq hv (by decide)
  refine hB.replace hS rfl rfl (fun q hq g _ _ hne => ?_) ?_ ?_
  · rw [hS.get_set hb hq hv', if_neg (fun hc => hne ⟨hc.1, .inl hc.2⟩)]
  · rw [hS.get_set hb hb hv', if_pos ⟨rfl, rfl⟩]
  · rw [hS.get_set hb hb hv', if_neg (by simp)]
    exact hB.flag b (by simp)

theorem BlockList.setFlag (hB : BlockList h (l ++ b :: r)) (hS : Spaced (addrs (l ++ b :: r)))
    (fl : Bool) :
    BlockList (h.set .free b.addr (if fl then 1 else 0)) (l ++ { b with free := fl } :: r) := by
  have hb : b.addr ∈ addrs (l ++ b :: r) := mem_addrs (by simp)
  have hv' : (if fl then 1 else 0) < 256 ^ Field.free.width := by cases fl <;> decide
  refine hB.replace hS rfl rfl (fun q hq g _ _ hne => ?_) ?_ ?_
  · rw [hS.get_set hb hq hv', if_neg (fun hc => hne ⟨hc.1, .inr hc.2⟩)]
  · rw [hS.get_set hb hb hv', if_neg (by simp)]
    exact hB.size b (by simp)
  · rw [hS.get_set hb hb hv', if_pos ⟨rfl, rfl⟩]

/-- The free list does not use the block-list fields. -/
theorem FreeList.set (hF : FreeList h fl) (hS : Spaced H) (hsub : ∀ a ∈ fl, a ∈ H) {p : ℕ}
    (hp : p ∈ H) (hv : v < 256 ^ f.width) (hn : f ≠ .freenext) (hpv : f ≠ .freeprev) :
    FreeList (h.set f p v) fl := by
  refine hF.congr rfl (fun a ha => ⟨?_, ?_⟩)
  · rw [hS.get_set hp (hsub a ha) hv, if_neg (fun hc => hn hc.2.symm)]
  · rw [hS.get_set hp (hsub a ha) hv, if_neg (fun hc => hpv hc.2.symm)]

/-! ### Linking and unlinking a block -/

/-- The tail after a block was put just before `r`: the block, if nothing follows it. -/
theorem tail_before (h0 : 0 ∉ addrs r) :
    (if headOr (addrs r) 0 = 0 then b.addr else lastOr (addrs (bs ++ r)) 0) =
      lastOr (addrs (l ++ b :: r)) 0 := by
  cases r with
  | nil => simp
  | cons c r =>
    rw [addrs_cons, headOr_cons, if_neg (fun hc => h0 (by simp [← hc]))]
    simp

/-- **A block enters the list** between `l` and `r`. -/
theorem BlockList.link (hB : BlockList h (l ++ r)) (hS : Spaced (addrs (l ++ nb :: r)))
    (htail : k.tail = if headOr (addrs r) 0 = 0 then nb.addr else h.tail)
    (hget : ∀ q ∈ addrs (l ++ r), ∀ g, g ≠ .freenext → g ≠ .freeprev →
      k.get g q = if q = lastOr (addrs l) 0 ∧ g = .next then nb.addr
        else if q = headOr (addrs r) 0 ∧ g = .prev then nb.addr else h.get g q)
    (hnext : k.get .next nb.addr = headOr (addrs r) 0)
    (hprev : k.get .prev nb.addr = lastOr (addrs l) 0)
    (hsize : k.get .size nb.addr = nb.size) (hptr : k.get .ptr nb.addr = nb.data)
    (hflag : k.get .free nb.addr = if nb.free then 1 else 0) :
    BlockList k (l ++ nb :: r) := by
  have hnd := hS.nodup
  have h0 := hS.pos
  rw [addrs_append, addrs_cons] at hnd h0
  have h0' : (0 : ℕ) ∉ addrs l ∧ (0 : ℕ) ∉ addrs r := by
    simp only [List.mem_append, List.mem_cons, not_or] at h0
    exact ⟨h0.1, h0.2.2⟩
  have hother : ∀ c ∈ l ++ r, ∀ g, g ≠ .freenext → g ≠ .freeprev → g ≠ .next → g ≠ .prev →
      k.get g c.addr = h.get g c.addr := fun c hc g h1 h2 h3 h4 => by
    rw [hget _ (mem_addrs hc) g h1 h2, if_neg (fun hx => h3 hx.2), if_neg (fun hx => h4 hx.2)]
  refine ⟨?_, ?_, (mem_middle (fun c => k.get .size c.addr = c.size)).mpr ⟨hsize, fun c hc => ?_⟩,
    (mem_middle (fun c => k.get .ptr c.addr = c.data)).mpr ⟨hptr, fun c hc => ?_⟩,
    (mem_middle (fun c => k.get .free c.addr = if c.free then 1 else 0)).mpr
      ⟨hflag, fun c hc => ?_⟩⟩
  · -- of the links, only those of the two neighbours change
    have hseg := hB.seg
    rw [List.map_append] at hseg ⊢
    refine hseg.link (List.nodup_middle.mp hnd).of_cons h0'.2 h0'.1 (fun y hy => ?_)
      (fun y hy => ?_) hnext hprev
    · rw [hget y (by rwa [addrs_append]) .next (by decide) (by decide)]
      simp [addrs]
    · rw [hget y (by rwa [addrs_append]) .prev (by decide) (by decide)]
      simp [addrs]
  · rw [htail, hB.tail]
    exact tail_before h0'.2
  · rw [hother c hc _ (by decide) (by decide) (by decide) (by decide)]
    exact hB.size c hc
  · rw [hother c hc _ (by decide) (by decide) (by decide) (by decide)]
    exact hB.ptr c hc
  · rw [hother c hc _ (by decide) (by decide) (by decide) (by decide)]
    exact hB.flag c hc

/-- **A block leaves the list**: `t`, just after `a`. -/
theorem BlockList.unlink (hB : BlockList h (l ++ a :: t :: r))
    (hS : Spaced (addrs (l ++ a :: t :: r)))
    (htail : k.tail = if headOr (addrs r) 0 = 0 then a.addr else h.tail)
    (hget : ∀ q ∈ addrs (l ++ a :: r), ∀ g, g ≠ .freenext → g ≠ .freeprev →
      k.get g q = if q = a.addr ∧ g = .next then headOr (addrs r) 0
        else if q = headOr (addrs r) 0 ∧ g = .prev then a.addr else h.get g q) :
    BlockList k (l ++ a :: r) := by
  have happ : l ++ a :: t :: r = (l ++ [a]) ++ t :: r := by simp
  have happ' : l ++ a :: r = (l ++ [a]) ++ r := by simp
  have hnd := hS.nodup
  have h0 := hS.pos
  rw [happ, addrs_append, addrs_cons] at hnd h0
  have h0' : (0 : ℕ) ∉ addrs (l ++ [a]) ∧ (0 : ℕ) ∉ addrs r := by
    simp only [List.mem_append, List.mem_cons, not_or] at h0
    exact ⟨h0.1, h0.2.2⟩
  have hmem : ∀ c ∈ l ++ a :: r, c ∈ l ++ a :: t :: r := by
    intro c hc
    rw [happ'] at hc
    rw [happ]
    exact mem_of_around hc
  -- the fields that are not links of the list stay
  have hother : ∀ c ∈ l ++ a :: r, ∀ g, g ≠ .freenext → g ≠ .freeprev → g ≠ .next → g ≠ .prev →
      k.get g c.addr = h.get g c.addr := fun c hc g h1 h2 h3 h4 => by
    rw [hget _ (mem_addrs hc) g h1 h2, if_neg (fun hx => h3 hx.2), if_neg (fun hx => h4 hx.2)]
  refine ⟨?_, ?_, fun c hc => ?_, fun c hc => ?_, fun c hc => ?_⟩
  · have hseg := hB.seg
    have hlast : lastOr (addrs (l ++ [a])) 0 = a.addr := by simp
    rw [happ, List.map_append] at hseg
    rw [happ', List.map_append]
    refine hseg.unlink hnd h0'.2 h0'.1 (fun y hy => ?_) (fun y hy => ?_)
    · show k.get .next y = if y = lastOr (addrs (l ++ [a])) 0 then headOr (addrs r) 0 else _
      rw [hget y (by rwa [happ', addrs_append]) .next (by decide) (by decide), hlast]
      simp
    · show k.get .prev y = if y = headOr (addrs r) 0 then lastOr (addrs (l ++ [a])) 0 else _
      rw [hget y (by rwa [happ', addrs_append]) .prev (by decide) (by decide), hlast]
      simp
  · have hall : l ++ a :: t :: r = (l ++ [a, t]) ++ r := by simp
    rw [htail, hB.tail, hall]
    exact tail_before h0'.2
  · rw [hother c hc _ (by decide) (by decide) (by decide) (by decide)]
    exact hB.size c (hmem c hc)
  · rw [hother c hc _ (by decide) (by decide) (by decide) (by decide)]
    exact hB.ptr c (hmem c hc)
  · rw [hother c hc _ (by decide) (by decide) (by decide) (by decide)]
    exact hB.flag c (hmem c hc)

/-- The links of a block are its neighbours' addresses. -/
theorem BlockList.links (hB : BlockList h (l ++ b :: r)) :
    h.get .next b.addr = headOr (addrs r) 0 ∧ h.get .prev b.addr = lastOr (addrs l) 0 := by
  have hseg := hB.seg
  rw [List.map_append, List.map_cons, seg_append] at hseg
  exact ⟨hseg.2.2.1, hseg.2.1⟩

end SystemProgramming.Malloc
