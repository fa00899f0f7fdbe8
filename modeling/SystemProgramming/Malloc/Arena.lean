import Mathlib.Algebra.BigOperators.Group.List.Basic
import Mathlib.Data.List.Chain
import SystemProgramming.Malloc.Heap

namespace SystemProgramming.Malloc

/-!
# What the allocator is for: an arena of blocks

The abstract view of the heap, with no pointers: one contiguous region cut into blocks, in
address order.  A block's recorded size may be smaller than the space it really occupies
(reuse shrinks it), so consecutive blocks fit (`Fits`) without having to touch.

* `Arena` — a region with its blocks; the fields `fits` and `coalesced` make every value a
  well-formed one.
* `Arena.take`, `Arena.extend`, `Arena.release`, `Arena.absorb` — the four ways the
  allocator changes it, each returning an `Arena`.
* `total` — the bytes accounted for; `release` and `absorb` keep it, `extend` adds what the
  system granted, and `take` keeps it exactly when the block is split or fits exactly.
-/

/-- A block: header address, recorded payload size, and whether it is free. -/
structure Blk where
  addr : ℕ
  size : ℕ
  free : Bool
  deriving DecidableEq, Repr

namespace Blk

/-- The payload address, just after the header. -/
def data (b : Blk) : ℕ := b.addr + sizeofMetadata

/-- The first byte after the recorded payload. -/
def stop (b : Blk) : ℕ := b.addr + sizeofMetadata + b.size

end Blk

/-! ### Blocks in a region -/

/-- The blocks lie in `[lo, hi)` one after the other. -/
def Fits : ℕ → List Blk → ℕ → Prop
  | lo, [], hi => lo ≤ hi
  | lo, b :: bs, hi => lo ≤ b.addr ∧ Fits b.stop bs hi

variable {lo lo' hi hi' size : ℕ} {a b n : Blk} {bs l r : List Blk}

theorem Fits.le (h : Fits lo bs hi) : lo ≤ hi := by
  induction bs generalizing lo with
  | nil => exact h
  | cons b bs ih =>
    have hrest := ih h.2
    have hstop := h.1
    simp only [Blk.stop] at *
    omega

theorem Fits.mono (h : Fits lo bs hi) (hlo : lo' ≤ lo) (hhi : hi ≤ hi') : Fits lo' bs hi' := by
  induction bs generalizing lo lo' with
  | nil => exact hlo.trans (h.trans hhi)
  | cons b bs ih => exact ⟨hlo.trans h.1, ih h.2 le_rfl⟩

/-- Fitting splits at any block. -/
theorem fits_append_cons :
    Fits lo (l ++ b :: r) hi ↔ Fits lo l b.addr ∧ Fits b.stop r hi := by
  induction l generalizing lo with
  | nil => rfl
  | cons c l ih => simp only [List.cons_append, Fits, ih, and_assoc]

theorem Fits.mem (h : Fits lo bs hi) (hb : b ∈ bs) : lo ≤ b.addr ∧ b.stop ≤ hi := by
  obtain ⟨l, r, rfl⟩ := List.append_of_mem hb
  rw [fits_append_cons] at h
  exact ⟨h.1.le, h.2.le⟩

/-- Earlier blocks end before later ones start. -/
theorem Fits.pairwise (h : Fits lo bs hi) : bs.Pairwise (fun a b => a.stop ≤ b.addr) := by
  induction bs generalizing lo with
  | nil => exact List.Pairwise.nil
  | cons b bs ih => exact List.Pairwise.cons (fun c hc => (h.2.mem hc).1) (ih h.2)

/-- Two blocks of a fitting list are the same block or do not overlap. -/
theorem Fits.apart (h : Fits lo bs hi) (ha : a ∈ bs) (hb : b ∈ bs) :
    a = b ∨ a.stop ≤ b.addr ∨ b.stop ≤ a.addr := by
  induction bs generalizing lo with
  | nil => simp at ha
  | cons c bs ih =>
    have hlater := fun x hx => (h.2.mem (b := x) hx).1
    rcases List.mem_cons.mp ha with rfl | ha' <;> rcases List.mem_cons.mp hb with rfl | hb'
    · exact .inl rfl
    · exact .inr (.inl (hlater b hb'))
    · exact .inr (.inr (hlater a ha'))
    · exact ih h.2 ha' hb'

/-! ### Accounting -/

/-- The bytes a list of blocks accounts for: headers and recorded sizes. -/
def total (bs : List Blk) : ℕ := (bs.map (fun b => sizeofMetadata + b.size)).sum

@[simp] theorem total_nil : total [] = 0 := rfl

@[simp] theorem total_cons : total (b :: bs) = sizeofMetadata + b.size + total bs := rfl

@[simp] theorem total_append : total (l ++ r) = total l + total r := by simp [total]

/-- The blocks never account for more than the region. -/
theorem Fits.total_le (h : Fits lo bs hi) : lo + total bs ≤ hi := by
  induction bs generalizing lo with
  | nil => exact h
  | cons b bs ih =>
    have hrest := ih h.2
    have hstop := h.1
    simp only [total_cons, Blk.stop] at *
    omega

/-- The blocks that are not free. -/
def used (bs : List Blk) : List Blk := bs.filter (fun b => !b.free)

@[simp] theorem used_append : used (l ++ r) = used l ++ used r := List.filter_append ..

@[simp] theorem used_cons :
    used (b :: bs) = if b.free then used bs else b :: used bs := by
  cases hb : b.free <;> simp [used, hb]

@[simp] theorem used_nil : used [] = [] := rfl

theorem mem_used : b ∈ used bs ↔ b ∈ bs ∧ b.free = false := by simp [used]

/-! ### No two free neighbours -/

/-- No two neighbours are both free. -/
def Coalesced (bs : List Blk) : Prop :=
  (bs.map Blk.free).IsChain (fun x y => ¬(x = true ∧ y = true))

theorem coalesced_append_cons :
    Coalesced (l ++ b :: r) ↔ Coalesced (l ++ [b]) ∧ Coalesced (b :: r) := by
  simp only [Coalesced, List.map_append, List.map_cons, List.map_nil]
  exact List.isChain_split

/-- Only the flags matter. -/
theorem Coalesced.congr (h : Coalesced bs) (hf : l.map Blk.free = bs.map Blk.free) :
    Coalesced l := by
  rw [Coalesced, hf]; exact h

/-- A used block separates any two lists. -/
theorem coalesced_of_used (hb : b.free = false) (hl : Coalesced l) (hr : Coalesced r) :
    Coalesced (l ++ b :: r) := by
  simp only [Coalesced, List.map_append, List.map_cons, hb] at hl hr ⊢
  rw [List.isChain_append]
  refine ⟨hl, List.isChain_cons.mpr ⟨by simp, hr⟩, by simp⟩

theorem Coalesced.left (h : Coalesced (l ++ r)) : Coalesced l := by
  simp only [Coalesced, List.map_append, List.isChain_append] at h ⊢
  exact h.1

theorem Coalesced.right (h : Coalesced (l ++ r)) : Coalesced r := by
  simp only [Coalesced, List.map_append, List.isChain_append] at h ⊢
  exact h.2.1

/-! ### The arena -/

/-- A region `[start, brk)` with its blocks: they fit, and no two neighbours are free. -/
structure Arena where
  start : ℕ
  brk : ℕ
  blocks : List Blk
  start_pos : 0 < start
  brk_le : brk ≤ 2 ^ 63
  fits : Fits start blocks brk
  coalesced : Coalesced blocks

namespace Arena

variable {A : Arena}

/-- The region before any request. -/
def empty (start : ℕ) (hpos : 0 < start) (hle : start ≤ 2 ^ 63) : Arena where
  start := start
  brk := start
  blocks := []
  start_pos := hpos
  brk_le := hle
  fits := le_rfl
  coalesced := List.isChain_nil

/-- What `split` leaves of the free block `b` once `size` bytes are taken: a free block
    behind it, or nothing when the rest is too small. -/
def rest (b : Blk) (size : ℕ) : List Blk :=
  if b.size ≤ size + 3 * sizeofMetadata then []
  else [⟨b.data + size, b.size - size - sizeofMetadata, true⟩]

theorem fits_take (h : Fits lo (l ++ b :: r) hi) (hsz : size ≤ b.size) :
    Fits lo (l ++ ⟨b.addr, size, false⟩ :: (rest b size ++ r)) hi := by
  rw [fits_append_cons] at h ⊢
  refine ⟨h.1, ?_⟩
  unfold rest
  split
  · exact h.2.mono (by simp only [Blk.stop]; omega) le_rfl
  · refine ⟨le_rfl, h.2.mono ?_ le_rfl⟩
    simp only [Blk.stop, Blk.data, sizeofMetadata] at *
    omega

theorem coalesced_take (h : Coalesced (l ++ b :: r)) (hb : b.free = true) :
    Coalesced (l ++ ⟨b.addr, size, false⟩ :: (rest b size ++ r)) := by
  have hr : Coalesced (b :: r) := h.right
  refine coalesced_of_used rfl h.left ?_
  unfold rest
  split
  · exact hr.right (l := [b])
  · exact hr.congr (by simp [hb])

/-- Take `size` bytes of the free block `b`. -/
def take (A : Arena) (hA : A.blocks = l ++ b :: r) (hb : b.free = true) (hsz : size ≤ b.size) :
    Arena :=
  { A with
    blocks := l ++ ⟨b.addr, size, false⟩ :: (rest b size ++ r)
    fits := fits_take (hA ▸ A.fits) hsz
    coalesced := coalesced_take (hA ▸ A.coalesced) hb }

/-- Get `size` more payload bytes, with a header, from the system. -/
def extend (A : Arena) (hle : A.brk + (sizeofMetadata + size) ≤ 2 ^ 63) : Arena :=
  { A with
    brk := A.brk + (sizeofMetadata + size)
    blocks := A.blocks ++ [⟨A.brk, size, false⟩]
    brk_le := hle
    fits := fits_append_cons.mpr ⟨A.fits, by simp [Fits, Blk.stop]; omega⟩
    coalesced := coalesced_of_used rfl A.coalesced List.isChain_nil }

/-- `b` enlarged by its right neighbour `n`, header included. -/
def merged (b n : Blk) : Blk := { b with size := b.size + (n.size + sizeofMetadata) }

theorem fits_absorb (h : Fits lo (l ++ b :: n :: r) hi) : Fits lo (l ++ merged b n :: r) hi := by
  rw [fits_append_cons] at h ⊢
  refine ⟨h.1, h.2.2.mono ?_ le_rfl⟩
  have hstop := h.2.1
  simp only [merged, Blk.stop] at *
  omega

/-- The used block `b` grows over its free right neighbour `n`. -/
def absorb (A : Arena) (hA : A.blocks = l ++ b :: n :: r) (hb : b.free = false) : Arena :=
  { A with
    blocks := l ++ merged b n :: r
    fits := fits_absorb (hA ▸ A.fits)
    coalesced := by
      have h := hA ▸ A.coalesced
      refine coalesced_of_used hb h.left ?_
      exact (h.right (r := b :: n :: r)).right (l := [b, n]) }

/-- Merging on the right: the freed block takes in a free right neighbour. -/
def mergeRight (b : Blk) : List Blk → Blk × List Blk
  | [] => ({ b with free := true }, [])
  | n :: r =>
    if n.free then (merged { b with free := true } n, r) else ({ b with free := true }, n :: r)

/-- Merging on the left: the last block of `l`, if free, takes in the freed block. -/
def mergeLeft (l : List Blk) (b : Blk) (r : List Blk) : List Blk :=
  match l.getLast? with
  | some t => if t.free then l.dropLast ++ merged t b :: r else l ++ b :: r
  | none => b :: r

/-- The blocks after the used block `b` between `l` and `r` is given back. -/
def released (l : List Blk) (b : Blk) (r : List Blk) : List Blk :=
  mergeLeft l (mergeRight b r).1 (mergeRight b r).2

@[simp] theorem mergeLeft_nil : mergeLeft [] b r = b :: r := rfl

@[simp] theorem mergeLeft_concat {t : Blk} :
    mergeLeft (l ++ [t]) b r = if t.free then l ++ merged t b :: r else l ++ t :: b :: r := by
  simp [mergeLeft]

@[simp] theorem mergeRight_free : (mergeRight b r).1.free = true := by
  cases r with
  | nil => rfl
  | cons n r => simp only [mergeRight]; split <;> rfl

theorem fits_mergeRight (h : Fits lo (b :: r) hi) :
    Fits lo ((mergeRight b r).1 :: (mergeRight b r).2) hi := by
  cases r with
  | nil => exact h
  | cons n r =>
    simp only [mergeRight]
    split
    · exact fits_absorb (l := []) (b := { b with free := true }) h
    · exact h

theorem coalesced_mergeRight (h : Coalesced (b :: r)) :
    Coalesced ((mergeRight b r).1 :: (mergeRight b r).2) := by
  cases r with
  | nil => exact List.isChain_singleton _
  | cons n r =>
    simp only [mergeRight]
    split
    · rename_i hn
      exact (h.right (l := [b])).congr (by simp [merged, hn])
    · rename_i hn
      have hr : Coalesced (n :: r) := h.right (l := [b])
      exact List.isChain_cons.mpr ⟨by simp [hn], hr⟩

theorem fits_mergeLeft (h : Fits lo (l ++ b :: r) hi) : Fits lo (mergeLeft l b r) hi := by
  rcases List.eq_nil_or_concat' l with rfl | ⟨l', t, rfl⟩
  · exact h
  · rw [List.append_assoc] at h
    rw [mergeLeft_concat]
    split
    · exact fits_absorb h
    · exact h

theorem coalesced_mergeLeft (hl : Coalesced l) (hr : Coalesced (b :: r)) (hb : b.free = true) :
    Coalesced (mergeLeft l b r) := by
  rcases List.eq_nil_or_concat' l with rfl | ⟨l', t, rfl⟩
  · exact hr
  · rw [mergeLeft_concat]
    split
    · rename_i ht
      rw [coalesced_append_cons]
      exact ⟨hl.congr (by simp [merged]), hr.congr (by simp [merged, ht, hb])⟩
    · rename_i ht
      exact coalesced_of_used (by simpa using ht) hl.left hr

/-- Give the block `b` back. -/
def release (A : Arena) (hA : A.blocks = l ++ b :: r) : Arena :=
  { A with
    blocks := released l b r
    fits := by
      have h := hA ▸ A.fits
      rw [fits_append_cons] at h
      refine fits_mergeLeft ?_
      have hr : Fits b.addr ((mergeRight b r).1 :: (mergeRight b r).2) A.brk :=
        fits_mergeRight ⟨le_rfl, h.2⟩
      exact fits_append_cons.mpr ⟨h.1.mono le_rfl hr.1, hr.2⟩
    coalesced := by
      have h := hA ▸ A.coalesced
      exact coalesced_mergeLeft h.left (coalesced_mergeRight h.right) mergeRight_free }

/-! ### What each change keeps -/

theorem total_rest (hsz : size ≤ b.size) :
    sizeofMetadata + size + total (rest b size) ≤ sizeofMetadata + b.size := by
  unfold rest
  split
  · simpa using hsz
  · simp only [total_cons, total_nil, sizeofMetadata] at *
    omega

/-- Taking part of a block loses no byte exactly when it is split or fits exactly. -/
theorem total_rest_eq_iff :
    sizeofMetadata + size + total (rest b size) = sizeofMetadata + b.size ↔
      b.size = size ∨ size + 3 * sizeofMetadata < b.size := by
  unfold rest
  split
  · simp only [total_nil]
    omega
  · simp only [total_cons, total_nil, sizeofMetadata] at *
    omega

theorem total_merged : total (merged b n :: r) = total (b :: n :: r) := by
  simp only [merged, total_cons]
  omega

theorem total_released : total (released l b r) = total (l ++ b :: r) := by
  have hright : total ((mergeRight b r).1 :: (mergeRight b r).2) = total (b :: r) := by
    cases r with
    | nil => rfl
    | cons n r =>
      simp only [mergeRight]
      split
      · exact total_merged
      · rfl
  have hleft : ∀ b' r', total (mergeLeft l b' r') = total (l ++ b' :: r') := by
    intro b' r'
    rcases List.eq_nil_or_concat' l with rfl | ⟨l', t, rfl⟩
    · rfl
    · rw [mergeLeft_concat, List.append_assoc]
      split
      · rw [total_append, total_merged, ← total_append]; rfl
      · rfl
  rw [released, hleft, total_append, hright, total_append]

theorem used_rest : used (rest b size) = [] := by
  unfold rest
  split <;> simp

theorem used_released : used (released l b r) = used l ++ used r := by
  have hright : used (mergeRight b r).2 = used r := by
    cases r with
    | nil => rfl
    | cons n r =>
      simp only [mergeRight]
      split
      · rename_i hn; simp [hn]
      · rfl
  rw [released]
  rcases List.eq_nil_or_concat' l with rfl | ⟨l', t, rfl⟩
  · simp [mergeLeft, hright]
  · rw [mergeLeft_concat]
    split
    · rename_i ht
      simp [merged, ht, hright]
    · rename_i ht
      simp [ht, hright]

end Arena

end SystemProgramming.Malloc
