import Mathlib.Data.List.Perm.Subperm
import SystemProgramming.Malloc.Merge

namespace SystemProgramming.Malloc

open SystemProgramming.Lib Arena

/-!
# The heap represents an arena

`Rep h A fl` relates the bytes and globals of `h` to the arena `A`, with `fl` the addresses
on the free list in their order there.  Every function of the source is then specified on
arenas:

* `malloc_spec` — the outcomes of `malloc` are `A.take`, `A.extend`, or nothing at all;
* `free_rep` — `free` is `A.release`;
* `Rep.absorb` — the in-place growth of `realloc` is `A.absorb`;
* `Rep.congr` — bytes outside the headers may change freely.
-/

variable {h h' k : Heap} {A : Arena} {bs l r : List Blk} {a b c n : Blk} {fl : List ℕ}
  {lo hi x size fuel : ℕ} {ok : Bool}

/-- Memory and globals represent the arena `A`, with free list `fl`. -/
structure Rep (h : Heap) (A : Arena) (fl : List ℕ) : Prop where
  holds : Holds h A.blocks fl
  marks : Marks A.blocks fl
  start : h.start = A.start
  brk : h.brk = A.brk

/-! ### Payloads and headers -/

theorem Arena.spaced (A : Arena) : Spaced (addrs A.blocks) :=
  A.fits.spaced A.start_pos (A.brk_le.trans (by decide))

/-- **A payload meets no header.** -/
theorem Fits.payload_notHeader (h : Fits lo bs hi) (hb : b ∈ bs) (hx : b.data ≤ x)
    (hx' : x < b.stop) : ¬ InHeader (addrs bs) x := by
  rintro ⟨p, hp, hpx, hpx'⟩
  obtain ⟨c, hc, rfl⟩ := List.mem_map.mp hp
  simp only [Blk.data, Blk.stop, sizeofMetadata] at hx hx' hpx'
  rcases h.apart hb hc with rfl | h1 | h1
  · omega
  · simp only [Blk.stop, sizeofMetadata] at h1
    omega
  · simp only [Blk.stop, sizeofMetadata] at h1
    omega

/-- Sizes of blocks are far from overflow. -/
theorem Arena.size_lt (A : Arena) (hb : b ∈ A.blocks) : b.size + sizeofMetadata < 2 ^ 63 := by
  have h1 := A.fits.mem hb
  have h2 := A.brk_le
  have h3 := A.start_pos
  simp only [Blk.stop] at h1
  omega

theorem Arena.stop_le (A : Arena) (hb : b ∈ A.blocks) : b.stop ≤ 2 ^ 63 :=
  (A.fits.mem hb).2.trans A.brk_le

/-- A free block is found at its place among the blocks. -/
theorem Rep.of_mem_free (hR : Rep h A fl) {q : ℕ} (hq : q ∈ fl) :
    ∃ l b r, A.blocks = l ++ b :: r ∧ b.addr = q ∧ b.free = true := by
  obtain ⟨b, hb, rfl⟩ := List.mem_map.mp (hR.holds.sub q hq)
  obtain ⟨l, r, hlr⟩ := List.append_of_mem hb
  exact ⟨l, b, r, hlr, rfl, (hR.marks b hb).mp hq⟩

/-- Only the header bytes and the globals matter. -/
theorem Rep.congr (hR : Rep h A fl) (htail : k.tail = h.tail) (hhead : k.freehead = h.freehead)
    (hstart : k.start = h.start) (hbrk : k.brk = h.brk)
    (hmem : ∀ x, InHeader (addrs A.blocks) x → k.mem x = h.mem x) : Rep k A fl where
  holds := by
    refine hR.holds.congr htail hhead (fun q hq g => Mem.load_congr (fun x h1 h2 => ?_))
    have hg := g.off_add_width_le
    exact hmem x ⟨q, hq, by omega, by omega⟩
  marks := hR.marks
  start := hstart.trans hR.start
  brk := hbrk.trans hR.brk

/-- The block list, read backwards from `tail`. -/
theorem Rep.chases_prev (hR : Rep h A fl) :
    Chases (h.get .prev) 0 h.tail (addrs A.blocks).reverse := by
  rw [hR.holds.blocks.tail]
  exact hR.holds.blocks.seg.chases_reverse hR.holds.spaced.pos

/-! ### The search of `malloc` -/

/-- **The search loop** returns the first free block that is large enough, if any. -/
theorem firstFit_eq {p : ℕ} (hc : Chases (h.get .freenext) 0 p fl) (hlen : fl.length < fuel) :
    firstFit h size fuel p
      = some ((fl.find? (fun q => decide (size ≤ h.get .size q))).getD 0) := by
  induction fl generalizing p fuel with
  | nil =>
    obtain ⟨fuel, rfl⟩ := Nat.exists_eq_add_of_lt hlen
    have hp : p = 0 := hc
    simp [firstFit, hp]
  | cons q fl ih =>
    cases fuel with
    | zero => simp at hlen
    | succ fuel =>
      obtain ⟨rfl, hp, hc⟩ := hc
      rw [firstFit, if_neg hp, List.find?_cons]
      by_cases hfit : size ≤ h.get .size p
      · simp [hfit]
      · rw [if_neg hfit, ih hc (by simpa using hlen)]
        simp [hfit]

/-- The free list is no longer than the region. -/
theorem Rep.length_le (hR : Rep h A fl) : fl.length ≤ h.brk := by
  have h1 : fl.length ≤ (addrs A.blocks).length :=
    (List.subperm_of_subset hR.holds.frees.nodup (fun _ hq => hR.holds.sub _ hq)).length_le
  have h2 : ∀ bs : List Blk, (addrs bs).length ≤ total bs := by
    intro bs
    induction bs with
    | nil => exact Nat.zero_le _
    | cons b bs ih =>
      simp only [addrs_cons, List.length_cons, total_cons, sizeofMetadata]
      omega
  have h3 := A.fits.total_le
  have h4 := h2 A.blocks
  rw [hR.brk]
  omega

/-- **The search on a represented arena**: a free block that is large enough, or the
    knowledge that there is none. -/
theorem Rep.firstFit (hR : Rep h A fl) (size : ℕ) :
    (∃ l b r, A.blocks = l ++ b :: r ∧ b.free = true ∧ b.addr ∈ fl ∧ size ≤ b.size ∧
      firstFit h size (h.brk + 1) h.freehead = some b.addr) ∨
    ((∀ b ∈ A.blocks, b.free = true → b.size < size) ∧
      firstFit h size (h.brk + 1) h.freehead = some 0) := by
  have h0 : (0 : ℕ) ∉ fl := fun hc => hR.holds.spaced.pos (hR.holds.sub 0 hc)
  have hchase := hR.holds.frees.seg.chases h0
  rw [← hR.holds.frees.head] at hchase
  rw [firstFit_eq hchase (Nat.lt_succ_of_le hR.length_le)]
  cases hfind : fl.find? (fun q => decide (size ≤ h.get .size q)) with
  | none =>
    refine .inr ⟨fun b hb hfree => ?_, rfl⟩
    have hsmall := List.find?_eq_none.mp hfind b.addr ((hR.marks b hb).mpr hfree)
    rw [hR.holds.blocks.size b hb] at hsmall
    simpa using hsmall
  | some q =>
    have hq : q ∈ fl := List.mem_of_find?_eq_some hfind
    obtain ⟨l, b, r, hA, rfl, hfree⟩ := hR.of_mem_free hq
    have hsize := List.find?_some hfind
    rw [hR.holds.blocks.size b (by simp [hA])] at hsize
    exact .inl ⟨l, b, r, hA, hfree, hq, by simpa using hsize, rfl⟩

/-! ### The sizes of `malloc` -/

/-- A block of the free list is large enough. -/
def Fit (h : Heap) (size : ℕ) : Prop := ∃ c ∈ firstFit h size (h.brk + 1) h.freehead, c ≠ 0

/-- The system refuses to extend the heap. -/
def Refused (h : Heap) (ok : Bool) (size : ℕ) : Prop :=
  h.sbrk ok (add64 sizeofMetadata size) = none

/-- A request that is not cut down: it is empty, or served from the free list, or the argument of
    `sbrk` is its size and the header's, or the system refuses. -/
def Serves (h : Heap) (ok : Bool) (size : ℕ) : Prop :=
  size = 0 ∨ Fit h size ∨ sizeofMetadata + size < 2 ^ 63 ∨ Refused h ok size

instance (h : Heap) (size : ℕ) : Decidable (Fit h size) :=
  inferInstanceAs (Decidable (∃ c ∈ firstFit h size _ _, _))

instance (h : Heap) (ok : Bool) (size : ℕ) : Decidable (Refused h ok size) :=
  inferInstanceAs (Decidable (_ = none))

instance (h : Heap) (ok : Bool) (size : ℕ) : Decidable (Serves h ok size) :=
  inferInstanceAs (Decidable (_ ∨ _ ∨ _ ∨ _))

theorem serves_of_lt (h : Heap) (ok : Bool) (hsz : size + 3 * sizeofMetadata < 2 ^ 63) :
    Serves h ok size := by
  simp only [sizeofMetadata] at hsz
  exact .inr (.inr (.inl (by simp only [sizeofMetadata]; omega)))

/-! ### `malloc` -/

/-- Taking part of a free block leaves the rest of it on the free list. -/
theorem marks_take {fl₁ fl₂ : List ℕ} (hM : Marks (l ++ b :: r) (fl₁ ++ b.addr :: fl₂))
    (hnd : (fl₁ ++ b.addr :: fl₂).Nodup)
    (hS : Spaced (addrs (l ++ ⟨b.addr, size, false⟩ :: (rest b size ++ r)))) :
    Marks (l ++ ⟨b.addr, size, false⟩ :: (rest b size ++ r))
      (addrs (rest b size) ++ (fl₁ ++ fl₂)) := by
  have hb : b.addr ∉ fl₁ ++ fl₂ := (List.nodup_middle.mp hnd).notMem
  have hout := hS.notMem_around
  -- of the other blocks, the list holds the same as before
  have hM' : Marks (l ++ r) (fl₁ ++ fl₂) := by
    refine (marks_insert (q := b.addr) ?_).mp (marks_middle.mp hM).2
    refine fun hc => hout ?_
    simp only [addrs_append, List.mem_append] at hc ⊢
    exact hc.imp_right .inr
  unfold rest at hS hout ⊢
  split
  · -- all of the block is taken
    rename_i hle
    simp only [hle, if_true] at hS hout ⊢
    exact marks_middle.mpr ⟨by simpa using hb, hM'⟩
  · rename_i hle
    simp only [hle, if_false] at hS hout ⊢
    refine marks_middle.mpr ⟨?_, ?_⟩
    · have hne : b.addr ≠ b.data + size := by
        simp only [Blk.data, sizeofMetadata]
        omega
      simpa [hne] using hb
    · -- the rest is on the list, and it is none of the others
      have happ : ∀ m : List Blk,
          l ++ ([⟨b.data + size, b.size - size - sizeofMetadata, true⟩] ++ m) =
            l ++ ⟨b.data + size, b.size - size - sizeofMetadata, true⟩ :: m := fun _ => rfl
      rw [happ]
      refine marks_middle.mpr ⟨by simp, (marks_cons ?_).mpr hM'⟩
      have hnd' := hS.nodup
      simp only [addrs_append, addrs_cons, List.cons_append, List.nil_append] at hnd' ⊢
      have h1 := (List.nodup_middle.mp hnd').of_cons
      exact (List.nodup_middle.mp h1).notMem

/-- The outcomes of `malloc(size)` on the arena `A`. -/
inductive MallocSpec (h : Heap) (A : Arena) (fl : List ℕ) (ok : Bool) (size : ℕ) : ℕ → Heap → Prop
  /-- a free block is reused -/
  | taken {l r : List Blk} {b : Blk} {k : Heap} {fl' : List ℕ} (hA : A.blocks = l ++ b :: r)
      (hb : b.free = true) (hsz : size ≤ b.size)
      (hfit : firstFit h size (h.brk + 1) h.freehead = some b.addr)
      (hR : Rep k (A.take hA hb hsz) fl')
      (hE : Edits (InHeader (addrs (A.take hA hb hsz).blocks)) h k) :
      MallocSpec h A fl ok size b.data k
  /-- the system grants a new block -/
  | extended {k : Heap} (hok : ok = true) (hle : A.brk + (sizeofMetadata + size) ≤ 2 ^ 63)
      (hsmall : ∀ b ∈ A.blocks, b.free = true → b.size < size)
      (hfit : firstFit h size (h.brk + 1) h.freehead = some 0)
      (hR : Rep k (A.extend hle) fl)
      (hE : Edits (InHeader (addrs (A.extend hle).blocks))
        { h with brk := A.brk + (sizeofMetadata + size) } k) :
      MallocSpec h A fl ok size (A.brk + sizeofMetadata) k
  /-- the system refuses -/
  | refused (hno : ¬ (ok = true ∧ A.brk + (sizeofMetadata + size) ≤ 2 ^ 63))
      (hsmall : ∀ b ∈ A.blocks, b.free = true → b.size < size)
      (hfit : firstFit h size (h.brk + 1) h.freehead = some 0) :
      MallocSpec h A fl ok size 0 h

/-- **The extending branch of `malloc`.** -/
theorem grow_spec (hR : Rep h A fl)
    (hle : A.brk + (sizeofMetadata + size) ≤ 2 ^ 63) :
    ∃ k, grow h true size = (A.brk + sizeofMetadata, k) ∧ Rep k (A.extend hle) fl ∧
      Edits (InHeader (addrs (A.extend hle).blocks))
        { h with brk := A.brk + (sizeofMetadata + size) } k := by
  have hpos : 0 < A.brk := A.start_pos.trans_le A.fits.le
  have hadd : add64 sizeofMetadata size = sizeofMetadata + size := add64_eq (by omega)
  have hsbrk : h.sbrk true (sizeofMetadata + size)
      = some (A.brk, { h with brk := A.brk + (sizeofMetadata + size) }) := by
    rw [Heap.sbrk, if_pos (by omega), hR.brk, if_pos ⟨rfl, hle⟩]
  have hblk : (A.extend hle).blocks = A.blocks ++ [⟨A.brk, size, false⟩] := rfl
  have hS := (A.extend hle).spaced
  rw [hblk] at hS
  have hH : Holds { h with brk := A.brk + (sizeofMetadata + size) } A.blocks fl :=
    hR.holds.congr rfl rfl (fun _ _ _ => rfl)
  have hnew := hH.appendBlock hS (by simp only; omega)
    (by simp only [Blk.data]; omega) rfl
  have hnewE : Edits (InHeader (addrs (A.blocks ++ [⟨A.brk, size, false⟩]))) _
      (appendBlock _ A.brk size) := hH.appendBlock_edits
  -- there is nothing to split off from a block that was made to measure
  have hsplit := split_of_le size hnew.blocks (by simp)
    (by simp only [sizeofMetadata] at hle ⊢; omega)
  have hout : A.brk ∉ addrs A.blocks := by
    have hnd := hS.nodup
    rw [addrs_append, List.nodup_append] at hnd
    exact fun hc => hnd.2.2 _ hc A.brk (by simp) rfl
  refine ⟨appendBlock { h with brk := A.brk + (sizeofMetadata + size) } A.brk size, ?_,
    ⟨hnew, ?_, ?_, ?_⟩, hnewE⟩
  · rw [grow, hadd, hsbrk]
    simp only [hsplit]
    rw [hnew.blocks.ptr ⟨A.brk, size, false⟩ (by simp)]
    rfl
  · rw [hblk, marks_middle, List.append_nil]
    refine ⟨?_, hR.marks⟩
    simp only [Bool.false_eq_true, iff_false]
    exact fun hc => hout (hR.holds.sub _ hc)
  · exact hnewE.start.trans hR.start
  · exact hnewE.brk

/-- A size that is no negative argument is refused for want of room only. -/
theorem Rep.refused (hR : Rep h A fl) (hlt : sizeofMetadata + size < 2 ^ 63)
    (hno : ¬(ok = true ∧ A.brk + (sizeofMetadata + size) ≤ 2 ^ 63)) : Refused h ok size := by
  rw [Refused, add64_eq (by omega), Heap.sbrk, if_pos hlt, hR.brk, if_neg hno]

/-- **`malloc`** on a represented arena. -/
theorem malloc_spec (ok : Bool) (hR : Rep h A fl) (hpos : size ≠ 0) (hserves : Serves h ok size) :
    ∃ q k, malloc h ok size = some (q, k) ∧ MallocSpec h A fl ok size q k := by
  rcases hR.firstFit size with ⟨l, b, r, hA, hfree, hmem, hle, hfit⟩ | ⟨hsmall, hfit⟩
  · -- the first block that fits is reused
    obtain ⟨fl₁, fl₂, hfl⟩ := List.append_of_mem hmem
    have hb0 : b.addr ≠ 0 := fun hc => hR.holds.spaced.pos (hc ▸ hR.holds.sub _ hmem)
    have hH := hR.holds
    rw [hA, hfl] at hH
    have hS := (A.take hA hfree hle).spaced
    have hsz : size + 3 * sizeofMetadata < 2 ^ 64 := by
      have hlt := A.size_lt (b := b) (by simp [hA])
      simp only [sizeofMetadata] at hlt ⊢
      omega
    obtain ⟨hH', hE, hptr⟩ := reuse_spec hH hS hsz (A.stop_le (by simp [hA]))
    have hrun : malloc h ok size = some (reuse h b.addr size) := by
      rw [malloc, if_neg hpos, hfit]
      simp only [if_pos hb0]
    refine ⟨b.data, _, hrun.trans (by rw [← hptr]), .taken hA hfree hle hfit ⟨hH', ?_, ?_, ?_⟩ hE⟩
    · have hM := hR.marks
      rw [hA, hfl] at hM
      exact marks_take hM (hfl ▸ hR.holds.frees.nodup) hS
    · exact hE.start.trans hR.start
    · exact hE.brk.trans hR.brk
  · -- none fits, and the heap has to grow
    have hrun : malloc h ok size = some (grow h ok size) := by
      rw [malloc, if_neg hpos, hfit]
      simp only [ne_eq, not_true_eq_false, if_false]
    by_cases hgrant : ok = true ∧ A.brk + (sizeofMetadata + size) ≤ 2 ^ 63
    · obtain ⟨rfl, hle⟩ := hgrant
      obtain ⟨k, hk, hR', hE⟩ := grow_spec hR hle
      exact ⟨_, k, hrun.trans (by rw [hk]), .extended rfl hle hsmall hfit hR' hE⟩
    · have hno : Refused h ok size := by
        rcases hserves with h0 | ⟨c, hc, hc0⟩ | hlt | hno
        · exact absurd h0 hpos
        · exact absurd (Option.some.inj (hfit.symm.trans hc)).symm hc0
        · exact hR.refused hlt hgrant
        · exact hno
      refine ⟨0, h, hrun.trans ?_, .refused hgrant hsmall hfit⟩
      rw [grow, hno]

/-! ### `free` -/

/-- **`free`** of the used block `b`. -/
theorem free_rep (hR : Rep h A fl) (hA : A.blocks = l ++ b :: r) (hb : b.free = false) :
    ∃ fl', Rep (free h b.data) (A.release hA) fl' ∧
      Edits (InHeader (addrs A.blocks)) h (free h b.data) := by
  have hH := hR.holds
  have hM := hR.marks
  rw [hA] at hH hM
  have hlt : ∀ c ∈ released l b r, c.size < 2 ^ 64 := by
    intro c hc
    have hsize := (A.release hA).size_lt hc
    simp only [sizeofMetadata] at hsize
    omega
  have hdata : b.data < 2 ^ 64 := by
    have hstop := A.stop_le (b := b) (by simp [hA])
    simp only [Blk.stop, Blk.data] at hstop ⊢
    omega
  have hright : (mergeRight b r).1.size < 2 ^ 64 := by
    have hfit := A.fits
    rw [hA, fits_append_cons] at hfit
    have hle := (fits_mergeRight (b := b) ⟨le_rfl, hfit.2⟩).2.le
    have hbrk := A.brk_le
    simp only [Blk.stop] at hle
    omega
  obtain ⟨fl', hH', hM', hE⟩ := free_spec hH hM hb hdata hright hlt
  rw [← hA] at hE
  exact ⟨fl', ⟨hH', hM', hE.start.trans hR.start, hE.brk.trans hR.brk⟩, hE⟩

/-! ### Growing in place -/

/-- **The in-place growth of `realloc`**: the used block `b` takes in its free neighbour. -/
theorem Rep.absorb (hR : Rep h A fl) (hA : A.blocks = l ++ b :: n :: r) (hb : b.free = false)
    (hn : n.free = true) :
    ∃ fl', Rep (absorbNext h b.addr n.addr) (A.absorb hA hb) fl' ∧
      Edits (InHeader (addrs A.blocks)) h (absorbNext h b.addr n.addr) := by
  have happ : l ++ b :: n :: r = (l ++ [b]) ++ n :: r := by simp
  have hH := hR.holds
  have hM := hR.marks
  have hnfl : n.addr ∈ fl := (hM n (by simp [hA])).mpr hn
  rw [hA] at hH hM
  obtain ⟨fl₁, fl₂, rfl⟩ := List.append_of_mem hnfl
  have hsz : (merged b n).size < 2 ^ 64 := by
    have hsize := (A.absorb hA hb).size_lt (b := merged b n) (by simp [Arena.absorb])
    simp only [sizeofMetadata] at hsize
    omega
  obtain ⟨hH', hE⟩ := hH.absorbNext hsz
  have hout : n.addr ∉ addrs (l ++ b :: r) := by
    have hnot := Spaced.notMem_around (l := l ++ [b]) (happ ▸ hH.spaced)
    simpa using hnot
  have hM' : Marks (l ++ b :: r) (fl₁ ++ fl₂) := by
    rw [happ, marks_middle, List.append_assoc, List.singleton_append] at hM
    exact (marks_insert hout).mp hM.2
  rw [← hA] at hE
  refine ⟨fl₁ ++ fl₂, ⟨hH', ?_, hE.start.trans hR.start, hE.brk.trans hR.brk⟩, hE⟩
  obtain ⟨hbm, hrest⟩ := marks_middle.mp hM'
  exact marks_middle.mpr ⟨hbm, hrest⟩

end SystemProgramming.Malloc
