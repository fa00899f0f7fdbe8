import SystemProgramming.Mmu.Moves

namespace SystemProgramming.Mmu

open SystemProgramming.Lib

/-!
# `ideal_indirection/mmu.c` — what a call comes to

Every call is some moves that no process sees, and at most one change that its process sees.

* `read_spec`, `write_spec` — a read only moves; a write moves and then stores, or is refused.
* `add_spec` — a process comes: a directory, and moves.
* `remove_spec` — a process goes: its frames and its swap files are returned, and no others.
-/

variable {h : Header} {m m' m₁ : Machine} {pid i j v n : ℕ} {t f g d : Frame} {p q : Ptr}
  {owner : Owner} {segs : vm_segmentations} {addr : UInt32} {b : Bool} {buffer : List UInt8}

/-- A computation that returns has returned from its first part. -/
theorem bind_eq_ok {α β : Type} {x : Except Stop α} {k : α → Except Stop β} {b : β}
    (h : x >>= k = .ok b) : ∃ a, x = .ok a ∧ k a = .ok b := by
  cases x with
  | error e => exact absurd h (by simp [bind, Except.bind])
  | ok a => exact ⟨a, rfl, h⟩

theorem map_eq_ok {α β : Type} {x : Except Stop α} {k : α → β} {b : β} (h : x.map k = .ok b) :
    ∃ a, x = .ok a ∧ k a = b := by
  cases x with
  | error e => exact absurd h (by simp [Except.map])
  | ok a => exact ⟨a, rfl, Except.ok.inj h⟩

/-! ### The kernel -/

theorem moves_tlb_miss (m : Machine) : Moves m (mmu_tlb_miss m) :=
  (@Move.quiet m (mmu_tlb_miss m) rfl rfl rfl rfl rfl rfl rfl (fun _ => ⟨rfl, rfl⟩)).moves

theorem moves_page_fault (m : Machine) : Moves m (mmu_raise_page_fault m) :=
  (@Move.quiet m (mmu_raise_page_fault m) rfl rfl rfl rfl rfl rfl rfl (fun _ => ⟨rfl, rfl⟩)).moves

theorem moves_segmentation_fault (m : Machine) : Moves m (mmu_raise_segmentation_fault m) :=
  (@Move.quiet m (mmu_raise_segmentation_fault m) rfl rfl rfl rfl rfl rfl rfl (fun _ => ⟨rfl, rfl⟩)).moves

/-- Bits of an entry that say nothing of its frame. -/
theorem moves_set (m : Machine) (p : Ptr) {e : Entry} (hp : e.present = (m.entries p).present)
    (hb : e.base_addr = (m.entries p).base_addr) : Moves m (m.set p e) := by
  refine (@Move.quiet m (m.set p e) rfl rfl rfl rfl rfl rfl rfl (fun q => ?_)).moves
  by_cases hq : q = p
  · rw [hq, entries_set_self]
    exact ⟨hp, hb⟩
  · rw [entries_set_ne m e hq]
    exact ⟨rfl, rfl⟩

theorem moves_vacate (m : Machine) (f : Frame) : Moves m (m.vacate f) := by
  unfold Machine.vacate
  split
  · rename_i p hp
    exact (Move.evict p f hp).moves
  · exact .refl m

/-- How the kernel answers. -/
theorem ask_eq_ok (ha : m.ask_kernel_for_frame owner f = .ok m') :
    (m.vacate f).use f = .free ∧ m' = (m.vacate f).grant owner.use f := by
  unfold Machine.ask_kernel_for_frame at ha
  split at ha
  · rename_i hfree
    exact ⟨hfree, (Except.ok.inj ha).symm⟩
  · exact absurd ha (by simp)

/-- What an eviction leaves alone. -/
theorem vacate_same (m : Machine) (f : Frame) : (m.vacate f).curr_pid = m.curr_pid ∧
    (m.vacate f).tlb = m.tlb ∧ (m.vacate f).page_directories = m.page_directories ∧
    (m.vacate f).num_segmentation_faults = m.num_segmentation_faults := by
  unfold Machine.vacate
  split <;> exact ⟨rfl, rfl, rfl, rfl⟩

/-- An entry that is not present is not evicted. -/
theorem vacate_of_absent (hwf : Wf m) (f : Frame) (hnot : (m.entries p).present = false) :
    (m.vacate f).entries p = m.entries p ∧ (m.vacate f).swap p = m.swap p := by
  unfold Machine.vacate
  split
  · rename_i q hq
    have hne : p ≠ q := by
      rintro rfl
      exact absurd (hnot.symm.trans (hwf.owner f p hq).2.1) (by simp)
    exact ⟨entries_evict_ne m f hne, Function.update_of_ne hne ..⟩
  · exact ⟨rfl, rfl⟩

/-! ### A page fault -/

/-- **A page fault**, step by step: a frame is vacated and handed out, what was saved of the
    page is read into it, and the entry gets the permissions of the segment. -/
theorem page_in_eq (hnot : (m.entries p).present = false)
    (hp : page_in h segs addr p f m = .ok m') :
    ∃ (m₁ : Machine) (seg : vm_segmentation), (mmu_raise_page_fault m).vacate f = m₁ ∧
      m₁.use f = .free ∧ h.find_segment segs addr = some seg ∧
      m' = { (m₁.grant (.page p) f).set p { (m₁.grant (.page p) f).entries p with
          base_addr := f, present := true, read_write := decide (seg.permissions &&& 2 ≠ 0),
          user_supervisor := true } with
        data := Function.update m₁.data f ((m₁.swap p).getD (fun _ => 0)) } := by
  unfold page_in at hp
  rw [if_neg (by simp [hnot])] at hp
  obtain ⟨m₂, hask, hp⟩ := bind_eq_ok hp
  obtain ⟨hfree, hm₂⟩ := ask_eq_ok hask
  obtain ⟨m₁, hm₁⟩ : ∃ m₁, (mmu_raise_page_fault m).vacate f = m₁ := ⟨_, rfl⟩
  rw [hm₁] at hfree hm₂
  subst hm₂
  dsimp only at hp
  split at hp
  · exact absurd hp (by simp)
  rename_i seg hseg
  refine ⟨m₁, seg, hm₁, hfree, hseg, ?_⟩
  rw [← Except.ok.inj hp]
  -- the assignments to the entry, and the read from the disk between them
  have hswap : (m₁.grant (Owner.pte p).use f).swap p = m₁.swap p := rfl
  unfold Machine.read_page_from_disk Machine.set
  dsimp only
  rw [hswap]
  cases m₁.swap p <;>
    simp only [Machine.grant, Owner.use, Option.getD, Function.update_self, Function.update_idem]

/-- What a page fault comes to. -/
structure PagedIn (m : Machine) (p : Ptr) (m' : Machine) : Prop where
  moves : Moves m m'
  present : (m'.entries p).present = true
  curr_pid : m'.curr_pid = m.curr_pid
  faults : m'.num_segmentation_faults = m.num_segmentation_faults

/-- What is left of the machine before the frame is handed out. -/
theorem moves_fault_vacate (m : Machine) (f : Frame) :
    Moves m ((mmu_raise_page_fault m).vacate f) :=
  (moves_page_fault m).trans (moves_vacate _ f)

theorem absent_fault_vacate (hwf : Wf m) (f : Frame) (hnot : (m.entries p).present = false) :
    (((mmu_raise_page_fault m).vacate f).entries p).present = false := by
  have hwf₀ : Wf (mmu_raise_page_fault m) := (moves_page_fault m).wf hwf
  rw [(vacate_of_absent hwf₀ f hnot).1]
  exact hnot

/-- **A page that is not present** is brought in. -/
theorem page_in_spec (hwf : Wf m) (ht : m.Table pid i p.1) (hj : p.2 < NUM_ENTRIES)
    (hp : page_in h segs addr p f m = .ok m') : PagedIn m p m' := by
  by_cases hpresent : (m.entries p).present = true
  · unfold page_in at hp
    rw [if_pos hpresent] at hp
    obtain rfl := Except.ok.inj hp
    exact ⟨.refl m, hpresent, rfl, rfl⟩
  have hnot : (m.entries p).present = false := by simpa using hpresent
  obtain ⟨m₁, seg, hm₁, hfree, -, rfl⟩ := page_in_eq hnot hp
  have hmoves : Moves m m₁ := hm₁ ▸ moves_fault_vacate m f
  have hnot₁ : (m₁.entries p).present = false := hm₁ ▸ absent_fault_vacate hwf f hnot
  have hsame := vacate_same (mmu_raise_page_fault m) f
  rw [hm₁] at hsame
  have hmove := Move.page pid i p f { (m₁.grant (.page p) f).entries p with
    base_addr := f, present := true, read_write := decide (seg.permissions &&& 2 ≠ 0),
    user_supervisor := true } hfree (hmoves.table_mono hwf ht) hj hnot₁ rfl rfl
  exact ⟨hmoves.trans hmove.moves, congrArg Entry.present (entries_set_self _ p _), hsame.1,
    hsame.2.2.2⟩

/-! ### The walk -/

theorem switch_curr_pid (pid : ℕ) (m : Machine) : (switch pid m).curr_pid = pid := by
  unfold switch
  split
  · rfl
  · rename_i hcurr
    exact not_ne_iff.mp hcurr

/-- The context switch: the TLB is empty, or it is the one of the process. -/
theorem moves_switch (pid : ℕ) (m : Machine) : Moves m (switch pid m) := by
  unfold switch
  split
  · exact (Move.tlb (fun _ => none) pid (fun _ _ hv => absurd hv (by simp))).moves
  · exact .refl m

theorem VPN0_lt (addr : UInt32) : VPN0 (BASE_ADDR addr) < NUM_ENTRIES := by
  have hlt := addr.toNat_lt
  unfold VPN0 BASE_ADDR PAGE_SIZE NUM_ENTRIES
  omega

theorem VPN1_lt (v : ℕ) : VPN1 v < NUM_ENTRIES := Nat.mod_lt v (by decide)

/-- The entry of a page that was looked up in the TLB. -/
theorem Wf.hit (hwf : Wf m) (hcurr : m.curr_pid = pid) (hp : m.tlb_get_pte v b = some p) :
    m.walk pid v = some p := by
  unfold Machine.tlb_get_pte at hp
  split at hp
  · exact walk_eq_some.mpr (hcurr ▸ hwf.tlb v p hp)
  · exact absurd hp (by simp)

/-- An entry that the walk has found may be added to the TLB. -/
theorem moves_tlb_add (hwf : Wf m) (hcurr : m.curr_pid = pid) (hw : m.walk pid v = some p) :
    Moves m (m.tlb_add_pte v p) := by
  refine (Move.tlb (Function.update m.tlb v (some p)) m.curr_pid (fun w q hq => ?_)).moves
  by_cases heq : w = v
  · rw [heq, Function.update_self] at hq
    obtain rfl := Option.some.inj hq
    rw [heq, hcurr]
    exact walk_eq_some.mp hw
  · rw [Function.update_of_ne heq] at hq
    exact hwf.tlb w q hq

/-- The walk through a directory entry that is present. -/
theorem walk_of_present (hd : m.page_directories pid = some d)
    (hp : (m.entries (d, VPN0 v)).present = true) :
    m.walk pid v = some ((m.entries (d, VPN0 v)).base_addr, VPN1 v) :=
  walk_eq_some.mpr ⟨⟨d, hd, hp, rfl⟩, rfl⟩

/-- What a walk comes to. -/
structure Walked (m : Machine) (pid v : ℕ) (p : Ptr) (m' : Machine) : Prop where
  moves : Moves m m'
  walk : m'.walk pid v = some p
  curr_pid : m'.curr_pid = m.curr_pid
  faults : m'.num_segmentation_faults = m.num_segmentation_faults

/-- **The walk of a read.** -/
theorem read_walk_spec (hwf : Wf m) (hcurr : m.curr_pid = pid)
    (hd : m.page_directories pid = some d) (hw : read_walk d v f m = .ok (p, m')) :
    Walked m pid v p m' := by
  unfold read_walk at hw
  dsimp only at hw
  split at hw
  · obtain ⟨_, -, hnull⟩ := bind_eq_ok hw
    exact absurd hnull (by simp)
  · rename_i hpresent
    obtain ⟨rfl, rfl⟩ := Prod.mk.inj (Except.ok.inj hw)
    have hwalk : (mmu_tlb_miss m).walk pid v = some _ :=
      walk_of_present hd (by simpa using hpresent)
    have hmiss := moves_tlb_miss m
    exact ⟨hmiss.trans (moves_tlb_add (hmiss.wf hwf) hcurr hwalk), hwalk, rfl, rfl⟩

/-- A directory entry has no swap file. -/
theorem Wf.swap_directory (hwf : Wf m) (hd : m.page_directories pid = some d) (i : ℕ) :
    m.swap (d, i) = none := by
  by_contra hsome
  obtain ⟨-, pid', i', ht⟩ := hwf.swap _ hsome
  exact hwf.table_ne pid' i' d pid ht hd

/-- **A page table that is not there**, step by step. -/
theorem table_in_eq (hwf : Wf m) (hd : m.page_directories pid = some d)
    (hnot : (m.entries (d, i)).present = false) (ht : table_in (d, i) f m = .ok m') :
    ∃ m₁, (mmu_raise_page_fault m).vacate f = m₁ ∧ m₁.use f = .free ∧
      m' = (m₁.grant .pinned f).set (d, i) { (m₁.grant .pinned f).entries (d, i) with
        base_addr := f, present := true, read_write := true, user_supervisor := true } := by
  unfold table_in at ht
  rw [if_neg (by simp [hnot])] at ht
  obtain ⟨m₂, hask, hset⟩ := bind_eq_ok ht
  obtain ⟨hfree, hm₂⟩ := ask_eq_ok hask
  obtain ⟨m₁, hm₁⟩ : ∃ m₁, (mmu_raise_page_fault m).vacate f = m₁ := ⟨_, rfl⟩
  rw [hm₁] at hfree hm₂
  subst hm₂
  refine ⟨m₁, hm₁, hfree, ?_⟩
  have hmoves : Moves m m₁ := hm₁ ▸ moves_fault_vacate m f
  have hswap : (m₁.grant Owner.pde.use f).swap (d, i) = none :=
    (hmoves.wf hwf).swap_directory (hmoves.page_directories ▸ hd) i
  rw [← Except.ok.inj hset]
  unfold Machine.read_page_from_disk Machine.set
  dsimp only
  rw [hswap]
  simp only [Owner.use, Function.update_self, Function.update_idem]

/-- What becomes of a directory entry. -/
structure TableIn (m : Machine) (p : Ptr) (m' : Machine) : Prop where
  moves : Moves m m'
  present : (m'.entries p).present = true
  curr_pid : m'.curr_pid = m.curr_pid
  faults : m'.num_segmentation_faults = m.num_segmentation_faults

/-- **A page table** is added where there is none. -/
theorem table_in_spec (hwf : Wf m) (hd : m.page_directories pid = some d) (hi : i < NUM_ENTRIES)
    (ht : table_in (d, i) f m = .ok m') : TableIn m (d, i) m' := by
  by_cases hpresent : (m.entries (d, i)).present = true
  · unfold table_in at ht
    rw [if_pos hpresent] at ht
    obtain rfl := Except.ok.inj ht
    exact ⟨.refl m, hpresent, rfl, rfl⟩
  have hnot : (m.entries (d, i)).present = false := by simpa using hpresent
  obtain ⟨m₁, hm₁, hfree, rfl⟩ := table_in_eq hwf hd hnot ht
  have hmoves : Moves m m₁ := hm₁ ▸ moves_fault_vacate m f
  have hnot₁ : (m₁.entries (d, i)).present = false := hm₁ ▸ absent_fault_vacate hwf f hnot
  have hsame := vacate_same (mmu_raise_page_fault m) f
  rw [hm₁] at hsame
  have hmove := Move.table pid d i f { (m₁.grant .pinned f).entries (d, i) with
    base_addr := f, present := true, read_write := true, user_supervisor := true } hfree
    (hmoves.page_directories ▸ hd) hi hnot₁ rfl rfl
  exact ⟨hmoves.trans hmove.moves, congrArg Entry.present (entries_set_self _ _ _), hsame.1,
    hsame.2.2.2⟩

/-- **The walk of a write.** -/
theorem write_walk_spec (hwf : Wf m) (hd : m.page_directories pid = some d)
    (hi : VPN0 v < NUM_ENTRIES) (hw : write_walk d v f m = .ok (p, m')) : Walked m pid v p m' := by
  unfold write_walk at hw
  obtain ⟨m₁, htable, hw⟩ := bind_eq_ok hw
  obtain ⟨rfl, rfl⟩ := Prod.mk.inj (Except.ok.inj hw)
  have hmiss := moves_tlb_miss m
  have hin := table_in_spec (hmiss.wf hwf) (hmiss.page_directories ▸ hd) hi htable
  have hmoves := hmiss.trans hin.moves
  exact ⟨hmoves, walk_of_present (hmoves.page_directories ▸ hd) hin.present, hin.curr_pid,
    hin.faults⟩

/-! ### Reading and writing -/

/-- **How a read goes**: there is no such process; the address is in none of its segments; or
    an entry is found, and copied from. -/
inductive Reads (h : Header) (m : Machine) (addr : UInt32) (pid n : ℕ) (b : Bool) (f : Frame) :
    Option (List UInt8) × Machine → Prop
  | nobody (hpd : m.page_directories pid = none) : Reads h m addr pid n b f (none, m)
  | outside (d : Frame) (segs : vm_segmentations) (hd : m.page_directories pid = some d)
      (hsegs : m.segmentations pid = some segs)
      (haddr : h.address_in_segmentations segs addr = false) :
      Reads h m addr pid n b f (none, mmu_raise_segmentation_fault (switch pid m))
  | hit (d : Frame) (segs : vm_segmentations) (p : Ptr) (m₂ : Machine)
      (hd : m.page_directories pid = some d) (hsegs : m.segmentations pid = some segs)
      (haddr : h.address_in_segmentations segs addr = true)
      (hp : (switch pid m).tlb_get_pte (BASE_ADDR addr) b = some p)
      (hin : page_in h segs addr p f (switch pid m) = .ok m₂) :
      Reads h m addr pid n b f (copy_out p n m₂)
  | miss (d : Frame) (segs : vm_segmentations) (p : Ptr) (m₂ : Machine)
      (hd : m.page_directories pid = some d) (hsegs : m.segmentations pid = some segs)
      (haddr : h.address_in_segmentations segs addr = true)
      (hp : (switch pid m).tlb_get_pte (BASE_ADDR addr) b = none)
      (hw : read_walk d (BASE_ADDR addr) f (switch pid m) = .ok (p, m₂)) :
      Reads h m addr pid n b f (copy_out p n m₂)

theorem read_cases {r : Option (List UInt8) × Machine}
    (hr : mmu_read_from_virtual_address h addr pid n b f m = .ok r) :
    Reads h m addr pid n b f r := by
  unfold mmu_read_from_virtual_address at hr
  split at hr
  · exact absurd hr (by simp)
  split at hr
  · rename_i hpd
    obtain rfl := Except.ok.inj hr
    exact .nobody hpd
  · exact absurd hr (by simp)
  rename_i d segs hd hsegs
  dsimp only at hr
  split at hr
  · rename_i haddr
    obtain rfl := Except.ok.inj hr
    exact .outside d segs hd hsegs haddr
  rename_i haddr
  have hin : h.address_in_segmentations segs addr = true := by simpa using haddr
  split at hr
  · rename_i p hp
    obtain ⟨m₂, hpage, hr⟩ := bind_eq_ok hr
    obtain rfl := Except.ok.inj hr
    exact .hit d segs p m₂ hd hsegs hin hp hpage
  · rename_i hp
    obtain ⟨⟨p, m₂⟩, hw, hr⟩ := bind_eq_ok hr
    obtain rfl := Except.ok.inj hr
    exact .miss d segs p m₂ hd hsegs hin hp hw

/-- What a read comes to: nothing is copied, or the beginning of the page that the walk finds. -/
inductive ReadTo (m : Machine) (pid v n : ℕ) : Option (List UInt8) × Machine → Prop
  | nothing (m' : Machine) (hmoves : Moves m m') : ReadTo m pid v n (none, m')
  | copied (m₁ : Machine) (p : Ptr) (hmoves : Moves m m₁) (hwalk : m₁.walk pid v = some p) :
      ReadTo m pid v n (copy_out p n m₁)

theorem moves_copy_out (p : Ptr) (n : ℕ) (m : Machine) : Moves m (copy_out p n m).2 :=
  moves_set m p rfl rfl

theorem ReadTo.moves {r : Option (List UInt8) × Machine} (hr : ReadTo m pid v n r) :
    Moves m r.2 := by
  cases hr with
  | nothing m' hmoves => exact hmoves
  | copied m₁ p hmoves => exact hmoves.trans (moves_copy_out p n m₁)

/-- **A read only moves.** -/
theorem read_spec {r : Option (List UInt8) × Machine} (hwf : Wf m)
    (hr : mmu_read_from_virtual_address h addr pid n b f m = .ok r) :
    ReadTo m pid (BASE_ADDR addr) n r := by
  have hcurr : (switch pid m).curr_pid = pid := switch_curr_pid pid m
  have hmoves : Moves m (switch pid m) := moves_switch pid m
  have hwf₁ : Wf (switch pid m) := hmoves.wf hwf
  cases read_cases hr with
  | nobody => exact .nothing m (.refl m)
  | outside => exact .nothing _ (hmoves.trans (moves_segmentation_fault _))
  | hit d segs p m₂ hd hsegs haddr hp hin =>
    have hwalk : (switch pid m).walk pid (BASE_ADDR addr) = some p := hwf₁.hit hcurr hp
    obtain ⟨ht, hj⟩ := walk_eq_some.mp hwalk
    have hpaged := page_in_spec hwf₁ ht (hj ▸ VPN1_lt _) hin
    refine .copied m₂ p (hmoves.trans hpaged.moves) (walk_eq_some.mpr ⟨?_, hj⟩)
    exact hpaged.moves.table_mono hwf₁ ht
  | miss d segs p m₂ hd hsegs haddr hp hw =>
    have hwalked := read_walk_spec hwf₁ hcurr (hmoves.page_directories ▸ hd) hw
    exact .copied m₂ p (hmoves.trans hwalked.moves) hwalked.walk

/-- **How a write goes**: there is no such process; the address is in none of its segments; or
    an entry is found, goes into the TLB, and is written to, if it may be. -/
inductive Writes (h : Header) (m : Machine) (addr : UInt32) (pid : ℕ) (buffer : List UInt8)
    (b : Bool) (f g : Frame) : Machine → Prop
  | nobody (hpd : m.page_directories pid = none) : Writes h m addr pid buffer b f g m
  | outside (d : Frame) (segs : vm_segmentations) (hd : m.page_directories pid = some d)
      (hsegs : m.segmentations pid = some segs)
      (haddr : h.address_in_segmentations segs addr = false) :
      Writes h m addr pid buffer b f g (mmu_raise_segmentation_fault (switch pid m))
  | found (d : Frame) (segs : vm_segmentations) (p : Ptr) (m₂ m₃ : Machine)
      (hlen : buffer.length + addr.toNat % PAGE_SIZE ≤ PAGE_SIZE)
      (hd : m.page_directories pid = some d) (hsegs : m.segmentations pid = some segs)
      (haddr : h.address_in_segmentations segs addr = true)
      (hget : write_pte d (BASE_ADDR addr) b f (switch pid m) = .ok (p, m₂))
      (hin : page_in h segs addr p g (m₂.tlb_add_pte (BASE_ADDR addr) p) = .ok m₃) :
      Writes h m addr pid buffer b f g (copy_in p buffer m₃)

theorem write_cases
    (hw : mmu_write_to_virtual_address h addr pid buffer b f g m = .ok m') :
    Writes h m addr pid buffer b f g m' := by
  unfold mmu_write_to_virtual_address at hw
  split at hw
  · exact absurd hw (by simp)
  rename_i hassert
  obtain ⟨-, hlen⟩ := not_not.mp hassert
  split at hw
  · rename_i hpd
    obtain rfl := Except.ok.inj hw
    exact .nobody hpd
  · exact absurd hw (by simp)
  rename_i d segs hd hsegs
  dsimp only at hw
  split at hw
  · rename_i haddr
    obtain rfl := Except.ok.inj hw
    exact .outside d segs hd hsegs haddr
  rename_i haddr
  obtain ⟨⟨p, m₂⟩, hget, hw⟩ := bind_eq_ok hw
  obtain ⟨m₃, hin, hw⟩ := bind_eq_ok hw
  obtain rfl := Except.ok.inj hw
  exact .found d segs p m₂ m₃ hlen hd hsegs (by simpa using haddr) hget hin

/-- What a write comes to: there is no such process, or the write is refused, or the page that
    the walk finds is written from its beginning on. -/
inductive WroteTo (h : Header) (m : Machine) (pid : ℕ) (addr : UInt32) (buffer : List UInt8) :
    Machine → Prop
  | nobody (hpd : m.page_directories pid = none) : WroteTo h m pid addr buffer m
  | refused (m₁ : Machine) (hmoves : Moves m m₁)
      (hfaults : m₁.num_segmentation_faults = m.num_segmentation_faults) :
      WroteTo h m pid addr buffer (mmu_raise_segmentation_fault m₁)
  | stored (m₁ : Machine) (d : Frame) (segs : vm_segmentations) (p : Ptr)
      (hlen : buffer.length + addr.toNat % PAGE_SIZE ≤ PAGE_SIZE)
      (hd : m.page_directories pid = some d) (hsegs : m.segmentations pid = some segs)
      (haddr : h.address_in_segmentations segs addr = true) (hmoves : Moves m m₁)
      (hwalk : m₁.walk pid (BASE_ADDR addr) = some p) (hpresent : (m₁.entries p).present = true)
      (hfaults : m₁.num_segmentation_faults = m.num_segmentation_faults) :
      WroteTo h m pid addr buffer
        ((m₁.set p { m₁.entries p with dirty := true, accessed := true }).store p buffer)

theorem switch_faults (pid : ℕ) (m : Machine) :
    (switch pid m).num_segmentation_faults = m.num_segmentation_faults := by
  unfold switch
  split <;> rfl

/-- The entry that a write goes to is the one of the walk. -/
theorem write_pte_spec (hwf : Wf m) (hcurr : m.curr_pid = pid)
    (hd : m.page_directories pid = some d) (hi : VPN0 v < NUM_ENTRIES)
    (hget : write_pte d v b f m = .ok (p, m')) : Walked m pid v p m' := by
  unfold write_pte at hget
  split at hget
  · rename_i q hq
    obtain ⟨rfl, rfl⟩ := Prod.mk.inj (Except.ok.inj hget)
    exact ⟨.refl m, hwf.hit hcurr hq, rfl, rfl⟩
  · exact write_walk_spec hwf hd hi hget

/-- **A write.** -/
theorem write_spec (hwf : Wf m)
    (hw : mmu_write_to_virtual_address h addr pid buffer b f g m = .ok m') :
    WroteTo h m pid addr buffer m' := by
  have hcurr : (switch pid m).curr_pid = pid := switch_curr_pid pid m
  have hfaults := switch_faults pid m
  have hmoves : Moves m (switch pid m) := moves_switch pid m
  have hwf₁ : Wf (switch pid m) := hmoves.wf hwf
  cases write_cases hw with
  | nobody hpd => exact .nobody hpd
  | outside => exact .refused _ hmoves hfaults
  | found d segs p m₂ m₃ hlen hd hsegs haddr hget hin =>
    have hwalked := write_pte_spec hwf₁ hcurr (hmoves.page_directories ▸ hd) (VPN0_lt addr) hget
    have hwf₂ : Wf m₂ := hwalked.moves.wf hwf₁
    have hadd : Moves m₂ (m₂.tlb_add_pte (BASE_ADDR addr) p) :=
      moves_tlb_add hwf₂ (hwalked.curr_pid.trans hcurr) hwalked.walk
    obtain ⟨ht, hj⟩ := walk_eq_some.mp hwalked.walk
    have hpaged : PagedIn (m₂.tlb_add_pte (BASE_ADDR addr) p) p m₃ :=
      page_in_spec (hadd.wf hwf₂) ht (hj ▸ VPN1_lt _) hin
    have hmoves₃ : Moves m m₃ := ((hmoves.trans hwalked.moves).trans hadd).trans hpaged.moves
    have hfaults₃ : m₃.num_segmentation_faults = m.num_segmentation_faults :=
      hpaged.faults.trans (hwalked.faults.trans hfaults)
    have hwalk₃ : m₃.walk pid (BASE_ADDR addr) = some p :=
      walk_eq_some.mpr ⟨hpaged.moves.table_mono (hadd.wf hwf₂) ht, hj⟩
    unfold copy_in
    split
    · exact .refused m₃ hmoves₃ hfaults₃
    · exact .stored m₃ d segs p hlen hd hsegs haddr hmoves₃ hwalk₃ hpaged.present hfaults₃

/-- Stored bytes play no part in the trees. -/
theorem wf_store (hwf : Wf m) (p : Ptr) (buffer : List UInt8) : Wf
    ((m.set p { m.entries p with dirty := true, accessed := true }).store p buffer) := by
  have hset : Wf (m.set p { m.entries p with dirty := true, accessed := true }) :=
    hwf.set_bits p rfl rfl
  exact hset.congr rfl rfl rfl rfl rfl rfl (fun _ => ⟨rfl, rfl⟩)

theorem WroteTo.wf (hw : WroteTo h m pid addr buffer m') (hwf : Wf m) : Wf m' := by
  cases hw with
  | nobody => exact hwf
  | refused m₁ hmoves => exact (hmoves.trans (moves_segmentation_fault m₁)).wf hwf
  | stored m₁ _ _ p _ _ _ _ hmoves => exact wf_store (hmoves.wf hwf) p buffer

/-! ### A process comes -/

/-- An entry behind which nothing was ever put. -/
def Machine.Blank (m : Machine) (p : Ptr) : Prop :=
  (m.entries p).present = false ∧ m.swap p = none

theorem blank_vacate (hwf : Wf m) (f : Frame) (hp : m.Blank p) : (m.vacate f).Blank p := by
  obtain ⟨hent, hswap⟩ := vacate_of_absent hwf f hp.1
  exact ⟨hent.symm ▸ hp.1, hswap.trans hp.2⟩

/-- The directory entry behind which a page table is. -/
theorem base_of_table (hd : m.page_directories pid = some d) (ht : m.Table pid i t) :
    (m.entries (d, i)).base_addr = t := by
  obtain ⟨d', hd', -, hbase⟩ := ht
  obtain rfl := Option.some.inj (hd.symm.trans hd')
  exact hbase

theorem add_table_eq (ha : add_table d f m = .ok m') : (m.vacate f).use f = .free ∧
    m' = ((m.vacate f).grant .pinned f).set (d, 0)
      { ((m.vacate f).grant .pinned f).entries (d, 0) with
        base_addr := f, present := true, read_write := true, user_supervisor := true } := by
  obtain ⟨m₂, hask, hset⟩ := bind_eq_ok ha
  obtain ⟨hfree, rfl⟩ := ask_eq_ok hask
  exact ⟨hfree, (Except.ok.inj hset).symm⟩

theorem add_page_eq (hd : m.page_directories pid = some d) (ht : m.Table pid 0 t)
    (ha : add_page d i f m = .ok m') : (m.vacate f).use f = .free ∧
    m' = ((m.vacate f).grant (.page (t, i)) f).set (t, i)
      { ((m.vacate f).grant (.page (t, i)) f).entries (t, i) with
        base_addr := f, present := true, read_write := true, user_supervisor := true } := by
  obtain ⟨m₂, hask, hset⟩ := bind_eq_ok ha
  rw [base_of_table hd ht] at hask hset
  obtain ⟨hfree, rfl⟩ := ask_eq_ok hask
  exact ⟨hfree, (Except.ok.inj hset).symm⟩

/-- **The page table of the testing memory.** -/
theorem add_table_spec (hwf : Wf m) (hd : m.page_directories pid = some d)
    (hnot : (m.entries (d, 0)).present = false) (ha : add_table d f m = .ok m') :
    Moves m m' ∧ m'.Table pid 0 f ∧ ∀ j, m'.Blank (f, j) := by
  obtain ⟨hfree, hm'⟩ := add_table_eq ha
  obtain ⟨m₁, hm₁⟩ : ∃ m₁, m.vacate f = m₁ := ⟨_, rfl⟩
  rw [hm₁] at hfree hm'
  have hmoves : Moves m m₁ := hm₁ ▸ moves_vacate m f
  have hwf₁ : Wf m₁ := hmoves.wf hwf
  have hd₁ : m₁.page_directories pid = some d := hmoves.page_directories ▸ hd
  have hnot₁ : (m₁.entries (d, 0)).present = false := by
    rw [← hm₁, (vacate_of_absent hwf f hnot).1]
    exact hnot
  obtain ⟨hdir, htab, -⟩ := hwf₁.ne_of_free hfree
  subst hm'
  have hmove := Move.table pid d 0 f
    { (m₁.grant .pinned f).entries (d, 0) with
      base_addr := f, present := true, read_write := true, user_supervisor := true }
    hfree hd₁ (by decide) hnot₁ rfl rfl
  refine ⟨hmoves.trans hmove.moves, ?_, fun j => ⟨?_, ?_⟩⟩
  · exact ⟨d, hd₁, congrArg Entry.present (entries_set_self _ _ _),
      congrArg Entry.base_addr (entries_set_self _ _ _)⟩
  · have hne : (f, j) ≠ (d, 0) := fun heq => hdir pid ((Prod.mk.inj heq).1 ▸ hd₁)
    show (((m₁.grant .pinned f).set (d, 0) _).entries (f, j)).present = false
    rw [entries_set_ne _ _ hne, entries_grant_self]
    rfl
  · by_contra hsome
    obtain ⟨-, pid', i', ht⟩ := hwf₁.swap (f, j) hsome
    exact htab pid' i' ht

/-- **A page of the testing memory.** -/
theorem add_page_spec (hwf : Wf m) (hd : m.page_directories pid = some d)
    (ht : m.Table pid 0 t) (hi : i < NUM_ENTRIES) (hblank : m.Blank (t, i))
    (ha : add_page d i f m = .ok m') :
    Moves m m' ∧ ∀ j, j ≠ i → m.Blank (t, j) → m'.Blank (t, j) := by
  obtain ⟨hfree, hm'⟩ := add_page_eq hd ht ha
  obtain ⟨m₁, hm₁⟩ : ∃ m₁, m.vacate f = m₁ := ⟨_, rfl⟩
  rw [hm₁] at hfree hm'
  have hmoves : Moves m m₁ := hm₁ ▸ moves_vacate m f
  have hwf₁ : Wf m₁ := hmoves.wf hwf
  have ht₁ : m₁.Table pid 0 t := hmoves.table_mono hwf ht
  have hblank₁ : m₁.Blank (t, i) := hm₁ ▸ blank_vacate hwf f hblank
  obtain ⟨-, htab, -⟩ := hwf₁.ne_of_free hfree
  subst hm'
  have hmove := Move.page pid 0 (t, i) f
    { (m₁.grant (.page (t, i)) f).entries (t, i) with
      base_addr := f, present := true, read_write := true, user_supervisor := true }
    hfree ht₁ hi hblank₁.1 rfl rfl
  rw [hblank₁.2] at hmove
  refine ⟨hmoves.trans hmove.moves, fun j hj hp => ?_⟩
  have hp₁ : m₁.Blank (t, j) := hm₁ ▸ blank_vacate hwf f hp
  refine ⟨?_, hp₁.2⟩
  have hne : (t, j) ≠ (t, i) := fun heq => hj (Prod.mk.inj heq).2
  show (((m₁.grant (.page (t, i)) f).set (t, i) _).entries (t, j)).present = false
  have htf : t ≠ f := fun heq => htab pid 0 (heq ▸ ht₁)
  rw [entries_set_ne _ _ hne, entries_grant_ne _ _ htf]
  exact hp₁.1

/-- A new process, with an empty directory. -/
def Machine.joined (m : Machine) (pid : ℕ) (segs : vm_segmentations) (d : Frame) : Machine :=
  { m.grant .pinned d with
    page_directories := Function.update m.page_directories pid (some d),
    segmentations := Function.update m.segmentations pid (some segs) }

/-- **A process comes**: its directory, and moves. -/
theorem add_spec {f₁ f₂ f₃ f₄ : Frame} (hwf : Wf m) (hpid : m.page_directories pid = none)
    (ha : mmu_add_process h pid f₁ f₂ f₃ f₄ m = .ok m') : ∃ m₁, Moves m m₁ ∧
      m₁.use f₁ = .free ∧ Moves (m₁.joined pid (segments h) f₁) m' := by
  unfold mmu_add_process at ha
  split at ha
  · exact absurd ha (by simp)
  obtain ⟨m₂, hask, ha⟩ := bind_eq_ok ha
  obtain ⟨m₃, htable, ha⟩ := bind_eq_ok ha
  obtain ⟨m₄, hpage, hlast⟩ := bind_eq_ok ha
  obtain ⟨hfree, rfl⟩ := ask_eq_ok hask
  obtain ⟨m₁, hm₁⟩ : ∃ m₁, m.vacate f₁ = m₁ := ⟨_, rfl⟩
  rw [hm₁] at hfree htable
  have hmoves : Moves m m₁ := hm₁ ▸ moves_vacate m f₁
  have hpid₁ : m₁.page_directories pid = none := hmoves.page_directories ▸ hpid
  have hwf₁ : Wf m₁ := hmoves.wf hwf
  obtain ⟨m₀, hm₀⟩ : ∃ m₀, m₁.joined pid (segments h) f₁ = m₀ := ⟨_, rfl⟩
  have hwf₀ : Wf m₀ := hm₀ ▸ hwf₁.add_directory hfree hpid₁ (segments h)
  have htable' : add_table f₁ f₂ m₀ = .ok m₃ := by
    rw [← hm₀]
    exact htable
  have hd₀ : m₀.page_directories pid = some f₁ := by
    rw [← hm₀]
    exact Function.update_self ..
  have hnot₀ : (m₀.entries (f₁, 0)).present = false := by
    rw [← hm₀]
    exact congrArg Entry.present (entries_grant_self m₁ .pinned f₁ 0)
  obtain ⟨h₃, ht₃, hblank₃⟩ := add_table_spec hwf₀ hd₀ hnot₀ htable'
  have hwf₃ : Wf m₃ := h₃.wf hwf₀
  have hd₃ : m₃.page_directories pid = some f₁ := h₃.page_directories ▸ hd₀
  obtain ⟨h₄, hblank₄⟩ := add_page_spec hwf₃ hd₃ ht₃ (by decide) (hblank₃ 1) hpage
  have hwf₄ : Wf m₄ := h₄.wf hwf₃
  have hd₄ : m₄.page_directories pid = some f₁ := h₄.page_directories ▸ hd₃
  obtain ⟨h₅, -⟩ := add_page_spec hwf₄ hd₄ (h₄.table_mono hwf₃ ht₃) (by decide)
    (hblank₄ 2 (by decide) (hblank₃ 2)) hlast
  exact ⟨m₁, hmoves, hfree, hm₀ ▸ (h₃.trans h₄).trans h₅⟩

/-! ### A process goes -/

/-- The frames of `S` were returned, and the swap files of `W` removed. -/
structure Frees (S : Frame → Prop) (W : Ptr → Prop) (m m' : Machine) : Prop where
  same : m' = { m with use := m'.use, swap := m'.swap }
  freed : ∀ f, S f → m'.use f = .free
  kept : ∀ f, ¬ S f → m'.use f = m.use f
  removed : ∀ p, W p → m'.swap p = none
  saved : ∀ p, ¬ W p → m'.swap p = m.swap p

variable {S S' : Frame → Prop} {W W' : Ptr → Prop}

theorem Frees.entries (hf : Frees S W m m') : m'.entries = m.entries := by
  rw [hf.same]

theorem Frees.nothing (m : Machine) : Frees (fun _ => False) (fun _ => False) m m :=
  ⟨rfl, fun _ h => h.elim, fun _ _ => rfl, fun _ h => h.elim, fun _ _ => rfl⟩

/-- What is returned stays returned. -/
theorem Frees.trans (hf : Frees S W m m₁) (hf' : Frees S' W' m₁ m') :
    Frees (fun f => S f ∨ S' f) (fun p => W p ∨ W' p) m m' := by
  refine ⟨?_, ?_, ?_, ?_, ?_⟩
  · rw [hf'.same, hf.same]
  · intro f hs
    by_cases hs' : S' f
    · exact hf'.freed f hs'
    · rw [hf'.kept f hs']
      exact hf.freed f (hs.resolve_right hs')
  · intro f hs
    obtain ⟨h1, h2⟩ := not_or.mp hs
    rw [hf'.kept f h2, hf.kept f h1]
  · intro p hw
    by_cases hw' : W' p
    · exact hf'.removed p hw'
    · rw [hf'.saved p hw']
      exact hf.removed p (hw.resolve_right hw')
  · intro p hw
    obtain ⟨h1, h2⟩ := not_or.mp hw
    rw [hf'.saved p h2, hf.saved p h1]

theorem Frees.congr (hf : Frees S W m m') (hs : ∀ f, S f ↔ S' f) (hw : ∀ p, W p ↔ W' p) :
    Frees S' W' m m' :=
  ⟨hf.same, fun f h => hf.freed f ((hs f).mpr h), fun f h => hf.kept f (fun h' => h ((hs f).mp h')),
    fun p h => hf.removed p ((hw p).mpr h), fun p h => hf.saved p (fun h' => h ((hw p).mp h'))⟩

/-- A loop whose body returns frames and removes swap files. -/
theorem Frees.foldl {body : Machine → ℕ → Machine} {A : ℕ → Frame → Prop} {B : ℕ → Ptr → Prop}
    (hbody : ∀ m' k, m'.entries = m.entries → Frees (A k) (B k) m' (body m' k)) (l : List ℕ)
    (hent : m₁.entries = m.entries) :
    Frees (fun f => ∃ k ∈ l, A k f) (fun p => ∃ k ∈ l, B k p) m₁ (l.foldl body m₁) := by
  induction l generalizing m₁ with
  | nil =>
    refine (Frees.nothing m₁).congr (fun f => ?_) (fun p => ?_) <;> simp
  | cons k l ih =>
    have hk := hbody m₁ k hent
    refine (hk.trans (ih (hk.entries.trans hent))).congr (fun f => ?_) (fun p => ?_) <;> simp

theorem frees_return (f : Frame) (m : Machine) :
    Frees (fun g => g = f) (fun _ => False) m (m.return_frame_to_kernel f) := by
  refine ⟨rfl, ?_, ?_, fun _ h => h.elim, fun _ _ => rfl⟩
  · rintro g rfl
    exact Function.update_self ..
  · intro g hg
    exact Function.update_of_ne hg ..

theorem frees_swap (p : Ptr) (m : Machine) :
    Frees (fun _ => False) (fun q => q = p) m (m.remove_swap_file p) := by
  refine ⟨rfl, fun _ h => h.elim, fun _ _ => rfl, ?_, ?_⟩
  · rintro q rfl
    exact Function.update_self ..
  · intro q hq
    exact Function.update_of_ne hq ..

/-- The inner loop: one entry of a table. -/
theorem remove_page_spec (t : Frame) (m : Machine) (j : ℕ) : Frees
    (fun f => (m.entries (t, j)).present = true ∧ f = (m.entries (t, j)).base_addr)
    (fun p => p = (t, j)) m (remove_page t m j) := by
  unfold remove_page
  dsimp only
  split
  · rename_i hp
    refine ((frees_return _ m).trans (frees_swap (t, j) _)).congr (fun f => ?_) (fun p => ?_)
    · simp [hp]
    · simp
  · rename_i hp
    refine (frees_swap (t, j) m).congr (fun f => ?_) (fun p => Iff.rfl)
    simp [hp]

/-- The outer loop: one entry of the directory. -/
theorem remove_table_spec (d : Frame) (m : Machine) (i : ℕ) : Frees
    (fun f => (m.entries (d, i)).present = true ∧ (f = (m.entries (d, i)).base_addr ∨
      ∃ j ∈ List.range NUM_ENTRIES, (m.entries ((m.entries (d, i)).base_addr, j)).present = true ∧
        f = (m.entries ((m.entries (d, i)).base_addr, j)).base_addr))
    (fun p => (m.entries (d, i)).present = true ∧
      ∃ j ∈ List.range NUM_ENTRIES, p = ((m.entries (d, i)).base_addr, j))
    m (remove_table d m i) := by
  unfold remove_table
  dsimp only
  split
  · rename_i hp
    have hbody : ∀ (m' : Machine) (k : ℕ), m'.entries = m.entries → Frees _ _ m'
        (remove_page (m.entries (d, i)).base_addr m' k) :=
      fun m' k hent => hent ▸ remove_page_spec (m.entries (d, i)).base_addr m' k
    have hloop := Frees.foldl hbody (List.range NUM_ENTRIES) rfl
    refine (hloop.trans (frees_return _ _)).congr (fun f => ?_) (fun p => ?_)
    · simp only [hp, true_and]
      exact or_comm
    · simp [hp]
  · rename_i hp
    refine (Frees.nothing m).congr (fun f => ?_) (fun p => ?_) <;> simp [hp]

/-- The frames of a process. -/
def Machine.Holds (m : Machine) (pid : ℕ) (f : Frame) : Prop :=
  m.page_directories pid = some f ∨ (∃ i, m.Table pid i f) ∨
    ∃ i t j, m.Table pid i t ∧ (m.entries (t, j)).present = true ∧ (m.entries (t, j)).base_addr = f

/-- The entries of a process that may have a swap file. -/
def Machine.Swaps (m : Machine) (pid : ℕ) (p : Ptr) : Prop :=
  p.2 < NUM_ENTRIES ∧ ∃ i, m.Table pid i p.1

/-- The walk over the tree of a process reaches its frames and its swap files. -/
theorem frees_process (hwf : Wf m) (hd : m.page_directories pid = some d) :
    Frees (m.Holds pid) (m.Swaps pid) m
      (((List.range NUM_ENTRIES).foldl (remove_table d) m).return_frame_to_kernel d) := by
  have hbody : ∀ (m' : Machine) (k : ℕ), m'.entries = m.entries → Frees _ _ m'
      (remove_table d m' k) := fun m' k hent => hent ▸ remove_table_spec d m' k
  have hloop := Frees.foldl hbody (List.range NUM_ENTRIES) rfl
  -- an entry of the directory, and the table behind it
  have htable : ∀ i t, m.Table pid i t ↔ i < NUM_ENTRIES ∧ (m.entries (d, i)).present = true ∧
      (m.entries (d, i)).base_addr = t := by
    intro i t
    constructor
    · intro ht
      refine ⟨(hwf.table pid i t ht).2, ?_⟩
      obtain ⟨d', hd', hrest⟩ := ht
      obtain rfl := Option.some.inj (hd.symm.trans hd')
      exact hrest
    · rintro ⟨-, hrest⟩
      exact ⟨d, hd, hrest⟩
  refine (hloop.trans (frees_return d _)).congr (fun f => ?_) (fun p => ?_)
  · constructor
    · rintro (⟨i, hi, hp, rfl | ⟨j, -, hpres, rfl⟩⟩ | rfl)
      · exact .inr (.inl ⟨i, (htable i _).mpr ⟨List.mem_range.mp hi, hp, rfl⟩⟩)
      · exact .inr (.inr ⟨i, _, j, (htable i _).mpr ⟨List.mem_range.mp hi, hp, rfl⟩, hpres, rfl⟩)
      · exact .inl hd
    · rintro (hf | ⟨i, ht⟩ | ⟨i, t, j, ht, hpres, rfl⟩)
      · exact .inr (Option.some.inj (hf.symm.trans hd))
      · obtain ⟨hi, hp, hbase⟩ := (htable i f).mp ht
        exact .inl ⟨i, List.mem_range.mpr hi, hp, .inl hbase.symm⟩
      · have hj := (hwf.page pid i t j ht hpres).1
        obtain ⟨hi, hp, rfl⟩ := (htable i t).mp ht
        exact .inl ⟨i, List.mem_range.mpr hi, hp, .inr ⟨j, List.mem_range.mpr hj, hpres, rfl⟩⟩
  · constructor
    · rintro (⟨i, hi, hp, j, hj, rfl⟩ | hfalse)
      · exact ⟨List.mem_range.mp hj, i, (htable i _).mpr ⟨List.mem_range.mp hi, hp, rfl⟩⟩
      · exact hfalse.elim
    · rintro ⟨hj, i, ht⟩
      obtain ⟨hi, hp, hbase⟩ := (htable i p.1).mp ht
      exact .inl ⟨i, List.mem_range.mpr hi, hp, p.2, List.mem_range.mpr hj,
        Prod.ext hbase.symm rfl⟩

/-- What the removal of a process comes to. -/
structure Gone (m : Machine) (pid : ℕ) (m' : Machine) : Prop where
  page_directories : m'.page_directories = Function.update m.page_directories pid none
  segmentations : m'.segmentations = Function.update m.segmentations pid none
  entries : m'.entries = m.entries
  data : m'.data = m.data
  curr_pid : m'.curr_pid = m.curr_pid
  tlb : ∀ v p, m'.tlb v = some p → m.curr_pid ≠ pid ∧ m.tlb v = some p
  freed : ∀ f, m.Holds pid f → m'.use f = .free
  kept : ∀ f, ¬ m.Holds pid f → m'.use f = m.use f
  removed : ∀ p, m.Swaps pid p → m'.swap p = none
  saved : ∀ p, ¬ m.Swaps pid p → m'.swap p = m.swap p

/-- **A process goes.** -/
theorem remove_spec (hwf : Wf m) (hr : mmu_remove_process h pid m = .ok m') : Gone m pid m' := by
  unfold mmu_remove_process at hr
  split at hr
  · exact absurd hr (by simp)
  obtain ⟨m₁, hfrees, hm'⟩ : ∃ m₁, Frees (m.Holds pid) (m.Swaps pid) m m₁ ∧ m' =
      (if m₁.curr_pid = pid then Machine.tlb_flush { m₁ with
        page_directories := Function.update m₁.page_directories pid none,
        segmentations := Function.update m₁.segmentations pid none }
      else { m₁ with
        page_directories := Function.update m₁.page_directories pid none,
        segmentations := Function.update m₁.segmentations pid none }) := by
    cases hd : m.page_directories pid with
    | none =>
      -- there is no such process, and it holds nothing
      simp only [hd] at hr
      have htable : ∀ i t, ¬ m.Table pid i t := by
        rintro i t ⟨d, hd', -⟩
        exact absurd (hd.symm.trans hd') (by simp)
      refine ⟨m, (Frees.nothing m).congr (fun f => ?_) (fun p => ?_), (Except.ok.inj hr).symm⟩
      · simp [Machine.Holds, hd, htable]
      · simp [Machine.Swaps, htable]
    | some d =>
      simp only [hd] at hr
      exact ⟨_, frees_process hwf hd, (Except.ok.inj hr).symm⟩
  have hsame := hfrees.same
  have hcurr : m₁.curr_pid = m.curr_pid := by rw [hsame]
  have hdata : m₁.data = m.data := by rw [hsame]
  have hpd : m₁.page_directories = m.page_directories := by rw [hsame]
  have hseg : m₁.segmentations = m.segmentations := by rw [hsame]
  have htlb : m₁.tlb = m.tlb := by rw [hsame]
  rw [hm', hpd, hseg]
  split
  · exact ⟨rfl, rfl, hfrees.entries, hdata, hcurr, fun v p hv => absurd hv (by simp [Machine.tlb_flush]),
      hfrees.freed, hfrees.kept, hfrees.removed, hfrees.saved⟩
  · rename_i hother
    exact ⟨rfl, rfl, hfrees.entries, hdata, hcurr, fun v p hv => ⟨hcurr ▸ hother, htlb ▸ hv⟩,
      hfrees.freed, hfrees.kept, hfrees.removed, hfrees.saved⟩

end SystemProgramming.Mmu
