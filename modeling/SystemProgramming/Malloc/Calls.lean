import SystemProgramming.Malloc.Rep

namespace SystemProgramming.Malloc

open SystemProgramming.Lib Arena

/-!
# The library calls on a represented arena

One rule for each of `malloc`, `calloc`, `free` and `realloc`: the call returns, the heap
represents an arena again, no byte of a used block is written (`Spares`), and the bytes the
blocks account for are all there exactly when they were and the call loses none
(`Full`, `Call.Lossless`).  `realloc_call` also says where the old contents are found.
-/

variable {h k k' : Heap} {A A' A'' : Arena} {bs bs' l r : List Blk} {a b c n : Blk} {fl : List ℕ}
  {p q x size num : ℕ} {ok : Bool} {P Q S : ℕ → Prop}

/-! ### What a call leaves alone -/

/-- A payload byte of a used block. -/
def InUsed (bs : List Blk) (x : ℕ) : Prop := ∃ c ∈ used bs, c.data ≤ x ∧ x < c.stop

/-- `k` comes from `h` without a write to a byte of `P`. -/
structure Spares (P : ℕ → Prop) (h k : Heap) : Prop where
  log : ∃ ws, k.log = ws ++ h.log ∧ ∀ w ∈ ws, ∀ x, w.1 ≤ x → x < w.1 + w.2 → ¬ P x
  mem : ∀ x, P x → k.mem x = h.mem x

theorem Spares.refl (h : Heap) : Spares P h h := ⟨⟨[], rfl, by simp⟩, fun _ _ => rfl⟩

theorem Spares.trans (h1 : Spares P h k) (h2 : Spares P k k') : Spares P h k' := by
  obtain ⟨ws, hws, hP⟩ := h1.log
  obtain ⟨ws', hws', hP'⟩ := h2.log
  refine ⟨⟨ws' ++ ws, by rw [hws', hws, List.append_assoc], ?_⟩, ?_⟩
  · intro w hw
    rcases List.mem_append.mp hw with hw | hw
    · exact hP' w hw
    · exact hP w hw
  · exact fun x hx => (h2.mem x hx).trans (h1.mem x hx)

theorem Spares.mono (h1 : Spares P h k) (hPQ : ∀ x, Q x → P x) : Spares Q h k := by
  obtain ⟨ws, hws, hP⟩ := h1.log
  exact ⟨⟨ws, hws, fun w hw x h2 h3 hq => hP w hw x h2 h3 (hPQ x hq)⟩,
    fun x hx => h1.mem x (hPQ x hx)⟩

/-- Writes to headers spare the payloads. -/
theorem Edits.spares (hE : Edits S h k) (hS : ∀ x, P x → ¬ S x) : Spares P h k := by
  obtain ⟨ws, hws, hW⟩ := hE.log
  exact ⟨⟨ws, hws, fun w hw x h1 h2 hp => hS x hp (hW w hw x h1 h2)⟩,
    fun x hx => hE.mem x (hS x hx)⟩

/-- The used payloads of an arena meet no header of an arena with the same used blocks. -/
theorem InUsed.notHeader (hsub : ∀ c ∈ used bs, c ∈ A.blocks) (hx : InUsed bs x) :
    ¬ InHeader (addrs A.blocks) x := by
  obtain ⟨c, hc, h1, h2⟩ := hx
  exact A.fits.payload_notHeader (hsub c hc) h1 h2

theorem InUsed.mono (hsub : ∀ c ∈ used bs, c ∈ used bs') (hx : InUsed bs x) : InUsed bs' x := by
  obtain ⟨c, hc, h1⟩ := hx
  exact ⟨c, hsub c hc, h1⟩

/-- Two used blocks share no payload byte. -/
theorem Arena.eq_of_payload (A : Arena) (hb : b ∈ A.blocks) (hc : c ∈ A.blocks)
    (h1 : b.data ≤ x) (h2 : x < b.stop) (h3 : c.data ≤ x) (h4 : x < c.stop) : b = c := by
  simp only [Blk.data] at h1 h3
  rcases A.fits.apart hb hc with rfl | h5 | h5
  · rfl
  · omega
  · omega

/-! ### Bytes accounted for -/

/-- Every byte of the region belongs to a header or to a recorded payload. -/
def Full (A : Arena) : Prop := A.start + total A.blocks = A.brk

/-- Serving `size` bytes loses none: the first fit, if there is one, fits exactly or is
    large enough to be split. -/
def Lossless (h : Heap) (size : ℕ) : Prop :=
  size ≠ 0 → ∀ c ∈ firstFit h size (h.brk + 1) h.freehead, c ≠ 0 →
    h.get .size c = size ∨ size + 3 * sizeofMetadata < h.get .size c

instance (h : Heap) (size : ℕ) : Decidable (Lossless h size) :=
  inferInstanceAs (Decidable (_ → ∀ c ∈ firstFit h size _ _, _ → _ ∨ _))

theorem full_take {hA : A.blocks = l ++ b :: r} {hb : b.free = true} {hsz : size ≤ b.size} :
    Full (A.take hA hb hsz) ↔
      Full A ∧ (b.size = size ∨ size + 3 * sizeofMetadata < b.size) := by
  have hle := total_rest hsz
  have hfit := A.fits.total_le
  rw [← total_rest_eq_iff]
  simp only [Full, Arena.take, hA, total_append, total_cons] at hfit ⊢
  omega

theorem full_extend {hle : A.brk + (sizeofMetadata + size) ≤ 2 ^ 63} :
    Full (A.extend hle) ↔ Full A := by
  simp only [Full, Arena.extend, total_append, total_cons, total_nil]
  omega

theorem full_release {hA : A.blocks = l ++ b :: r} : Full (A.release hA) ↔ Full A := by
  simp only [Full, Arena.release, total_released, hA]

theorem full_absorb {hA : A.blocks = l ++ b :: n :: r} {hb : b.free = false} :
    Full (A.absorb hA hb) ↔ Full A := by
  simp only [Full, Arena.absorb, hA, total_append, total_merged]

/-! ### `malloc` and `calloc` -/

/-- What a call that allocates `size` bytes at `q` does to the arena: nothing when `q` is
    `NULL`, otherwise one more used block. -/
def Allocates (h : Heap) (A : Arena) (size q : ℕ) (k : Heap) (A' : Arena) : Prop :=
  (q = 0 ∧ k = h ∧ A' = A) ∨
    (q ≠ 0 ∧ 0 < size ∧
      ∃ c, c.data = q ∧ size ≤ c.size ∧ (used A'.blocks).Perm (c :: used A.blocks))

theorem take_used (hA : A.blocks = l ++ b :: r) (hb : b.free = true) (hsz : size ≤ b.size) :
    (used (A.take hA hb hsz).blocks).Perm (⟨b.addr, size, false⟩ :: used A.blocks) := by
  simp only [Arena.take, hA, used_append, used_cons, used_rest, hb, if_true, Bool.false_eq_true,
    if_false, List.nil_append]
  exact List.perm_middle

theorem extend_used (hle : A.brk + (sizeofMetadata + size) ≤ 2 ^ 63) :
    (used (A.extend hle).blocks).Perm (⟨A.brk, size, false⟩ :: used A.blocks) := by
  simp only [Arena.extend, used_append, used_cons, used_nil, Bool.false_eq_true, if_false]
  exact List.perm_append_singleton _ _

/-- **`malloc`.** -/
theorem malloc_call (ok : Bool) (hR : Rep h A fl) (hserves : Serves h ok size) :
    ∃ q k A' fl', malloc h ok size = some (q, k) ∧ Rep k A' fl' ∧ A'.start = A.start ∧
      Spares (InUsed A.blocks) h k ∧ Allocates h A size q k A' ∧
      (Full A' ↔ Full A ∧ Lossless h size) := by
  by_cases hpos : size = 0
  · subst hpos
    exact ⟨0, h, A, fl, rfl, hR, rfl, Spares.refl h, .inl ⟨rfl, rfl, rfl⟩, by simp [Lossless]⟩
  · obtain ⟨q, k, hrun, hspec⟩ := malloc_spec ok hR hpos hserves
    cases hspec with
    | @taken l r b k fl' hA hb hle hfit hR' hE =>
      -- bytes are lost where the rest of the block is too small for a header
      have hused := take_used hA hb hle
      refine ⟨_, k, _, fl', hrun, hR', rfl, hE.spares (fun x hx => hx.notHeader fun c hc => ?_),
        .inr ⟨by simp [Blk.data, sizeofMetadata], Nat.pos_of_ne_zero hpos, ⟨b.addr, size, false⟩,
          rfl, le_rfl, hused⟩, ?_⟩
      · exact (mem_used.mp (hused.symm.subset (List.mem_cons_of_mem _ hc))).1
      · have hsize : h.get .size b.addr = b.size := hR.holds.blocks.size b (by simp [hA])
        have hb0 : b.addr ≠ 0 :=
          fun hc => hR.holds.spaced.pos (hc ▸ mem_addrs (by simp [hA] : b ∈ A.blocks))
        rw [full_take]
        refine and_congr_right fun _ => ⟨fun hcase _ c hc _ => ?_, fun hl => ?_⟩
        · obtain rfl := Option.some.inj (hfit.symm.trans hc)
          rwa [hsize]
        · rw [← hsize]
          exact hl hpos _ hfit hb0
    | @extended k hok hle hsmall hfit hR' hE =>
      have hused := extend_used hle
      have hless : Lossless h size := by
        intro _ c hc hc0
        exact absurd (Option.some.inj (hfit.symm.trans hc)).symm hc0
      refine ⟨_, k, _, fl, hrun, hR', rfl, ?_,
        .inr ⟨by simp [sizeofMetadata], Nat.pos_of_ne_zero hpos, _, rfl, le_rfl, hused⟩, ?_⟩
      · obtain ⟨hlog, hmem⟩ := hE.spares (P := InUsed A.blocks) (fun x hx =>
          hx.notHeader fun c hc => (mem_used.mp (hused.symm.subset (List.mem_cons_of_mem _ hc))).1)
        exact ⟨hlog, hmem⟩
      · rw [full_extend]
        exact ⟨fun hF => ⟨hF, hless⟩, And.left⟩
    | refused hno hsmall hfit =>
      have hless : Lossless h size := by
        intro _ c hc hc0
        exact absurd (Option.some.inj (hfit.symm.trans hc)).symm hc0
      exact ⟨0, h, A, fl, hrun, hR, rfl, Spares.refl h, .inl ⟨rfl, rfl, rfl⟩,
        fun hF => ⟨hF, hless⟩, And.left⟩

/-! ### Writing inside a payload -/

/-- Writing inside the payload of the used block `c` spares the other payloads, and the heap
    still represents the arena. -/
theorem Rep.payload (hR : Rep h A fl) (hc : c ∈ used A.blocks)
    (hin : ∀ x, S x → c.data ≤ x ∧ x < c.stop) (htail : k.tail = h.tail)
    (hhead : k.freehead = h.freehead) (hE : Edits S h k) :
    Rep k A fl ∧ ∀ bs, (∀ d ∈ used bs, d ∈ A.blocks ∧ d ≠ c) → Spares (InUsed bs) h k := by
  have hcm := (mem_used.mp hc).1
  refine ⟨hR.congr htail hhead hE.start hE.brk (fun x hx => hE.mem x (fun hs => ?_)),
    fun bs hbs => hE.spares (fun x hx hs => ?_)⟩
  · exact A.fits.payload_notHeader hcm (hin x hs).1 (hin x hs).2 hx
  · obtain ⟨d, hd, h1, h2⟩ := hx
    exact (hbs d hd).2 (A.eq_of_payload (hbs d hd).1 hcm h1 h2 (hin x hs).1 (hin x hs).2)

theorem edits_memset {v : UInt8} {m : ℕ} :
    Edits (fun x => p ≤ x ∧ x < p + m) h (h.memset p v m) := by
  refine ⟨⟨[(p, m)], rfl, ?_⟩, fun x hx => Mem.fill_apply_outside _ ?_, rfl, rfl⟩
  · intro w hw x h1 h2
    rw [List.mem_singleton] at hw
    subst hw
    exact ⟨h1, h2⟩
  · omega

theorem edits_memcpy {m : ℕ} : Edits (fun x => p ≤ x ∧ x < p + m) h (h.memcpy p q m) := by
  refine ⟨⟨[(p, m)], rfl, ?_⟩, fun x hx => Mem.copy_apply_outside _ ?_, rfl, rfl⟩
  · intro w hw x h1 h2
    rw [List.mem_singleton] at hw
    subst hw
    exact ⟨h1, h2⟩
  · omega

/-- The used blocks of an arena are pairwise distinct. -/
theorem Arena.used_nodup (A : Arena) : (used A.blocks).Nodup :=
  (List.Nodup.of_map Blk.addr A.spaced.nodup).filter _

/-- A newly used block is none of the others. -/
theorem Arena.ne_of_perm (A' : Arena) {us : List Blk} (hperm : (used A'.blocks).Perm (c :: us)) :
    c ∈ used A'.blocks ∧ ∀ d ∈ us, d ∈ A'.blocks ∧ d ≠ c := by
  refine ⟨hperm.symm.subset List.mem_cons_self, fun d hd => ⟨?_, ?_⟩⟩
  · exact (mem_used.mp (hperm.symm.subset (List.mem_cons_of_mem _ hd))).1
  · rintro rfl
    exact (List.nodup_cons.mp (hperm.nodup_iff.mp A'.used_nodup)).1 hd

/-- The search loop returns a block that is large enough. -/
theorem firstFit_le {fuel p c : ℕ} (hc : c ∈ firstFit h size fuel p) (hc0 : c ≠ 0) :
    size ≤ h.get .size c := by
  induction fuel generalizing p with
  | zero => cases hc
  | succ fuel ih =>
    rw [firstFit] at hc
    split at hc
    · exact absurd (Option.some.inj hc).symm hc0
    · split at hc
      · rename_i hle
        exact Option.some.inj hc ▸ hle
      · exact ih hc

/-- No block serves a request that is no `size_t`. -/
theorem lossless_of_overflow (h : Heap) (hle : 2 ^ 64 ≤ size) : Lossless h size := by
  intro _ c hc hc0
  have hlt := h.get_lt .size c
  have hfit := firstFit_le hc hc0
  simp only [Field.width] at hlt
  omega

/-- Where no free block is large enough, the heap has to grow. -/
theorem malloc_grow (hR : Rep h A fl) (hpos : size ≠ 0) (hnofit : ¬Fit h size) :
    malloc h ok size = some (grow h ok size) := by
  obtain ⟨l, b, r, hA, -, -, -, hfit⟩ | ⟨-, hfit⟩ := hR.firstFit size
  · have hb0 : b.addr ≠ 0 := fun hc => hR.holds.spaced.pos (hc ▸ mem_addrs (by simp [hA]))
    exact absurd ⟨b.addr, hfit, hb0⟩ hnofit
  · rw [malloc, if_neg hpos, hfit]
    simp only [ne_eq, not_true_eq_false, if_false]

/-- Nothing to allocate, or nothing to allocate it from. -/
theorem malloc_null (hR : Rep h A fl) (hnull : size = 0 ∨ ¬Fit h size ∧ Refused h ok size) :
    malloc h ok size = some (0, h) := by
  by_cases hpos : size = 0
  · exact if_pos hpos
  · obtain ⟨hnofit, hno⟩ := hnull.resolve_left hpos
    rw [malloc_grow hR hpos hnofit, grow, hno]

/-- **`calloc`.** -/
theorem calloc_call (ok : Bool) (hR : Rep h A fl) (hlt : num * size < 2 ^ 64)
    (hserves : Serves h ok (num * size)) :
    ∃ q k A' fl', calloc h ok num size = some (q, k) ∧ Rep k A' fl' ∧ A'.start = A.start ∧
      Spares (InUsed A.blocks) h k ∧ Allocates h A (num * size) q k A' ∧
      (Full A' ↔ Full A ∧ Lossless h (num * size)) := by
  have hmul : mul64 num size = num * size := mul64_eq hlt
  obtain ⟨q, k, A', fl', hrun, hR', hst, hsp, hal, hfull⟩ := malloc_call ok hR hserves
  have hunf : calloc h ok num size
      = if q = 0 then some (0, k) else some (q, k.memset q 0 (num * size)) := by
    simp only [calloc, hmul, hrun]
  rcases hal with ⟨rfl, rfl, rfl⟩ | ⟨hq, hpos, c, rfl, hle, hperm⟩
  · exact ⟨0, k, A', fl', hunf.trans (if_pos rfl), hR', rfl, hsp, .inl ⟨rfl, rfl, rfl⟩, hfull⟩
  · obtain ⟨hc, hne⟩ := A'.ne_of_perm hperm
    obtain ⟨hR'', hsp'⟩ := hR'.payload (k := k.memset c.data 0 (num * size)) hc
      (fun x hx => ⟨hx.1, by simp only [Blk.stop, Blk.data] at hx ⊢; omega⟩) rfl rfl edits_memset
    exact ⟨c.data, _, A', fl', hunf.trans (if_neg hq), hR'', hst, hsp.trans (hsp' _ hne),
      .inr ⟨hq, hpos, c, rfl, hle, hperm⟩, hfull⟩

/-! ### `free` -/

/-- **`free`** of a used block. -/
theorem free_call (hR : Rep h A fl) (hb : b ∈ used A.blocks) :
    ∃ A' fl', Rep (free h b.data) A' fl' ∧ A'.start = A.start ∧
      Spares (InUsed A.blocks) h (free h b.data) ∧
      (used A.blocks).Perm (b :: used A'.blocks) ∧ (Full A' ↔ Full A) := by
  obtain ⟨hbm, hfree⟩ := mem_used.mp hb
  obtain ⟨l, r, hA⟩ := List.append_of_mem hbm
  obtain ⟨fl', hR', hE⟩ := free_rep hR hA hfree
  refine ⟨A.release hA, fl', hR', rfl, ?_, ?_, full_release⟩
  · exact hE.spares (fun x hx => hx.notHeader (fun c hc => (mem_used.mp hc).1))
  · rw [Arena.release, used_released, hA, used_append, used_cons, hfree]
    exact List.perm_middle

/-! ### `realloc` -/

/-- `realloc` of a block to `size` bytes loses none. -/
def ReallocLossless (h : Heap) (ptr size : ℕ) : Prop :=
  h.get .size (sub64 ptr sizeofMetadata) < size →
    ¬ growsInPlace h (sub64 ptr sizeofMetadata) size → Lossless h size

instance (h : Heap) (ptr size : ℕ) : Decidable (ReallocLossless h ptr size) :=
  inferInstanceAs (Decidable (_ → ¬ _ → Lossless h size))

/-- What `realloc` of the used block `b` does: nothing when it returns `NULL`, otherwise a
    block of `size` bytes takes the place of `b` and starts with its contents. -/
def Resizes (h : Heap) (A : Arena) (b : Blk) (size q : ℕ) (k : Heap) (A' : Arena) : Prop :=
  (q = 0 ∧ k = h ∧ A' = A) ∨
    (q ≠ 0 ∧ ∃ c us, c.data = q ∧ size ≤ c.size ∧ (used A.blocks).Perm (b :: us) ∧
      (used A'.blocks).Perm (c :: us) ∧
      ∀ i, i < b.size → i < size → k.mem (q + i) = h.mem (b.data + i))

/-- The in-place growth test on a represented arena. -/
theorem growsInPlace_iff (hR : Rep h A fl) (hA : A.blocks = l ++ b :: r) :
    growsInPlace h b.addr size ↔
      ∃ n r', r = n :: r' ∧ size ≤ n.size + b.size ∧ n.free = true := by
  have hH := hR.holds
  have hb : b ∈ A.blocks := by simp [hA]
  have hnext : h.get .next b.addr = headOr (addrs r) 0 := by
    have hB := hH.blocks
    rw [hA] at hB
    exact hB.links.1
  rw [growsInPlace, hnext, hH.blocks.size b hb]
  cases r with
  | nil => simp
  | cons n r =>
    have hn : n ∈ A.blocks := by simp [hA]
    have hn0 : n.addr ≠ 0 := fun hc => hH.spaced.pos (hc ▸ mem_addrs hn)
    -- the sum cannot wrap, since both blocks lie in the heap
    have hadd : add64 n.size b.size = n.size + b.size := by
      have h1 := A.size_lt hb
      have h2 := A.size_lt hn
      exact add64_eq (by omega)
    rw [addrs_cons, headOr_cons, hH.blocks.size n hn, hH.blocks.flag_iff hn, hadd]
    constructor
    · rintro ⟨-, h1, h2⟩
      exact ⟨n, r, rfl, h1, h2⟩
    · rintro ⟨n', r', he, h1, h2⟩
      obtain ⟨rfl, rfl⟩ := List.cons.inj he
      exact ⟨hn0, h1, h2⟩

/-- The used block `b` takes in its free right neighbour `n`. -/
theorem grow_in_place (hR : Rep h A fl) (hA : A.blocks = l ++ b :: n :: r) (hb : b.free = false)
    (hn : n.free = true) (hle : size ≤ n.size + b.size) :
    ∃ A' fl', Rep (absorbNext h b.addr n.addr) A' fl' ∧ A'.start = A.start ∧
      Spares (InUsed A.blocks) h (absorbNext h b.addr n.addr) ∧ h.get .next b.addr = n.addr ∧
      (absorbNext h b.addr n.addr).get .ptr b.addr = b.data ∧
      Resizes h A b size b.data (absorbNext h b.addr n.addr) A' ∧ (Full A' ↔ Full A) := by
  obtain ⟨fl', hR', hE⟩ := hR.absorb hA hb hn
  have hnext : h.get .next b.addr = n.addr := by
    have hB := hR.holds.blocks
    rw [hA] at hB
    exact hB.links.1
  have hus : used A.blocks = used l ++ b :: used r := by simp [hA, hb, hn]
  have hus' : used (A.absorb hA hb).blocks = used l ++ merged b n :: used r := by
    simp [Arena.absorb, merged, hb]
  have hbu : b ∈ used A.blocks := by rw [hus]; simp
  have hsp : Spares (InUsed A.blocks) h (absorbNext h b.addr n.addr) :=
    hE.spares (fun x hx => hx.notHeader (fun c hc => (mem_used.mp hc).1))
  have hptr : (absorbNext h b.addr n.addr).get .ptr b.addr = b.data :=
    hR'.holds.blocks.ptr (merged b n) (by simp [Arena.absorb])
  refine ⟨A.absorb hA hb, fl', hR', rfl, hsp, hnext, hptr,
    .inr ⟨by simp [Blk.data, sizeofMetadata], merged b n, used l ++ used r, rfl, ?_, ?_, ?_,
      fun i hi _ => ?_⟩, full_absorb⟩
  · simp only [merged]
    omega
  · rw [hus]
    exact List.perm_middle
  · rw [hus']
    exact List.perm_middle
  · exact hsp.mem _ ⟨b, hbu, by omega, by simp only [Blk.stop, Blk.data]; omega⟩

theorem Blk.sub_data (A : Arena) (hb : b ∈ A.blocks) : sub64 b.data sizeofMetadata = b.addr := by
  have hstop := A.stop_le hb
  simp only [Blk.stop] at hstop
  rw [sub64_eq (by simp [Blk.data]) (by simp only [Blk.data]; omega)]
  simp [Blk.data]

/-- **`realloc`** of a used block to a positive size. -/
theorem realloc_call (ok : Bool) (hR : Rep h A fl) (hb : b ∈ used A.blocks) (hpos : size ≠ 0)
    (hserves : b.size < size → ¬growsInPlace h b.addr size → Serves h ok size) :
    ∃ q k A' fl', realloc h ok b.data size = some (q, k) ∧ Rep k A' fl' ∧ A'.start = A.start ∧
      Spares (InUsed A.blocks) h k ∧ Resizes h A b size q k A' ∧
      (Full A' ↔ Full A ∧ ReallocLossless h b.data size) := by
  obtain ⟨hbm, hfree⟩ := mem_used.mp hb
  obtain ⟨l, r, hA⟩ := List.append_of_mem hbm
  have hb0 : b.addr ≠ 0 := fun hc => hR.holds.spaced.pos (hc ▸ mem_addrs hbm)
  have hp : sub64 b.data sizeofMetadata = b.addr := Blk.sub_data A hbm
  have hdata : b.data ≠ 0 := by simp [Blk.data, sizeofMetadata]
  have hold := hR.holds.blocks.size b hbm
  by_cases hfit : size ≤ b.size
  · -- the block is large enough already
    have hperm := List.perm_cons_erase hb
    refine ⟨b.data, h, A, fl, ?_, hR, rfl, Spares.refl h,
      .inr ⟨hdata, b, _, rfl, hfit, hperm, hperm, fun _ _ _ => rfl⟩, ?_⟩
    · simp only [realloc, if_neg hdata, if_neg hpos, hp, if_neg hb0, hold, if_pos hfit]
    · refine ⟨fun hF => ⟨hF, fun hlt => ?_⟩, And.left⟩
      rw [hp, hold] at hlt
      omega
  by_cases hgrow : growsInPlace h b.addr size
  · -- the free right neighbour makes enough room
    obtain ⟨n, r', rfl, hle, hn⟩ := (growsInPlace_iff hR hA).mp hgrow
    obtain ⟨A', fl', hR', hst, hsp, hnext, hptr, hres, hfull⟩ := grow_in_place hR hA hfree hn hle
    refine ⟨b.data, _, A', fl', ?_, hR', hst, hsp, hres, ?_⟩
    · simp only [realloc, if_neg hdata, if_neg hpos, hp, if_neg hb0, hold, if_neg hfit,
        if_pos hgrow, hnext, hptr]
    · rw [hfull]
      exact ⟨fun hF => ⟨hF, fun _ hno => absurd (hp ▸ hgrow) hno⟩, And.left⟩
  · -- allocate, copy, free
    obtain ⟨q, k, A₁, fl₁, hrun, hR₁, hst, hsp, hal, hfull⟩ :=
      malloc_call ok hR (hserves (not_le.1 hfit) hgrow)
    have hunf : realloc h ok b.data size = if q = 0 then some (0, k)
        else some (q, free (k.memcpy q b.data b.size) b.data) := by
      simp only [realloc, if_neg hdata, if_neg hpos, hp, if_neg hb0, hold, if_neg hfit,
        if_neg hgrow, hrun]
    have hless : ReallocLossless h b.data size ↔ Lossless h size := by
      rw [ReallocLossless, hp, hold]
      exact ⟨fun hl => hl (by omega) hgrow, fun hl _ _ => hl⟩
    rw [← hless] at hfull
    rcases hal with ⟨rfl, rfl, rfl⟩ | ⟨hq, -, c, rfl, hle, hperm⟩
    · exact ⟨0, k, A₁, fl₁, hunf.trans (if_pos rfl), hR₁, rfl, hsp, .inl ⟨rfl, rfl, rfl⟩, hfull⟩
    · -- the copy stays inside the new block, and the old one is still in use until it is freed
      obtain ⟨hc, hne⟩ := A₁.ne_of_perm hperm
      obtain ⟨hR₂, hsp₂⟩ := hR₁.payload (k := k.memcpy c.data b.data b.size) hc
        (fun x hx => ⟨hx.1, by simp only [Blk.stop, Blk.data] at hx ⊢; omega⟩) rfl rfl edits_memcpy
      have hb₁ : b ∈ used A₁.blocks := hperm.symm.subset (List.mem_cons_of_mem _ hb)
      obtain ⟨A₃, fl₃, hR₃, hst₃, hsp₃, hperm₃, hfull₃⟩ := free_call hR₂ hb₁
      have hin : ∀ x, InUsed A.blocks x → InUsed A₁.blocks x :=
        fun x hx => hx.mono (fun d hd => hperm.symm.subset (List.mem_cons_of_mem _ hd))
      refine ⟨c.data, _, A₃, fl₃, hunf.trans (if_neg hq), hR₃, hst₃.trans hst,
        (hsp.trans (hsp₂ _ hne)).trans (hsp₃.mono hin), .inr ⟨hq, c, (used A.blocks).erase b, rfl,
          hle, List.perm_cons_erase hb, ?_, fun i hi _ => ?_⟩, hfull₃.trans hfull⟩
      · have hboth : (b :: used A₃.blocks).Perm (b :: c :: (used A.blocks).erase b) :=
          hperm₃.symm.trans <| hperm.trans <|
            ((List.perm_cons_erase hb).cons c).trans (List.Perm.swap _ _ _)
        exact hboth.cons_inv
      · have h1 : InUsed A₁.blocks (c.data + i) :=
          ⟨c, hc, by omega, by simp only [Blk.stop, Blk.data]; omega⟩
        have h2 : InUsed A.blocks (b.data + i) :=
          ⟨b, hb, by omega, by simp only [Blk.stop, Blk.data]; omega⟩
        calc (free (k.memcpy c.data b.data b.size) b.data).mem (c.data + i)
            = (k.memcpy c.data b.data b.size).mem (c.data + i) := hsp₃.mem _ h1
          _ = k.mem (b.data + i) := Mem.copy_apply _ hi
          _ = h.mem (b.data + i) := hsp.mem _ h2

end SystemProgramming.Malloc
