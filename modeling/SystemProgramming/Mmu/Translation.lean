import SystemProgramming.Mmu.Protection

namespace SystemProgramming.Mmu

open SystemProgramming.Lib

/-!
# `ideal_indirection/mmu.c` — reads and writes translate alike

The two access functions have page walks of their own.  That of a read has two slips.

* Where there is no page table, it assigns through the null pointer that the TLB has returned,
  and not to the entry of the directory.
* After a miss it does not ask whether the page is present.

* `Translated` — what a read and a write of a page should have in common.
* `read_like_write` — they have it if the page has a page table, and the TLB knows the page or
  it is present; and else they have not.
-/

variable {h : Header} {m m' m₁ m₂ : Machine} {pid k i v n : ℕ} {f g d : Frame} {p : Ptr}
  {segs : vm_segmentations} {addr : UInt32} {b : Bool} {buffer : List UInt8} {g₀ : Ghost}

/-- The same permissions. -/
def Entry.Alike (e e' : Entry) : Prop :=
  e'.read_write = e.read_write ∧ e'.user_supervisor = e.user_supervisor

/-- What a read and a write of the page `v`, from the same state, should leave: the entry of
    the directory `d` and the entry of the page, which is then in the TLB, are present with the
    same permissions, and the same is counted. -/
structure Translated (d : Frame) (v : ℕ) (r w : Machine) : Prop where
  directory : (r.entries (d, VPN0 v)).present = true ∧ (w.entries (d, VPN0 v)).present = true ∧
    (r.entries (d, VPN0 v)).Alike (w.entries (d, VPN0 v))
  page : ∃ p, r.tlb v = some p ∧ w.tlb v = some p ∧ (r.entries p).present = true ∧
    (w.entries p).present = true ∧ (r.entries p).Alike (w.entries p)
  misses : w.num_tlb_misses = r.num_tlb_misses
  page_faults : w.num_page_faults = r.num_page_faults
  segmentation_faults : w.num_segmentation_faults = r.num_segmentation_faults

/-- The ends of a read and of a write of the same page. -/
theorem translated_copy (hdir : (m.entries (d, VPN0 v)).present = true) (htlb : m.tlb v = some p)
    (hpage : (m.entries p).present = true) (hrw : (m.entries p).read_write = true)
    (hne : (d, VPN0 v) ≠ p) :
    Translated d v (copy_out p n m).2 (copy_in p buffer m) := by
  have hin : copy_in p buffer m =
      (m.set p { m.entries p with dirty := true, accessed := true }).store p buffer := by
    unfold copy_in
    exact if_neg (by simp [hrw])
  have hr : ∀ q, q ≠ p → (copy_out p n m).2.entries q = m.entries q :=
    fun q hq => entries_set_ne m _ hq
  have hw : ∀ q, q ≠ p → (copy_in p buffer m).entries q = m.entries q := by
    intro q hq
    rw [hin]
    exact entries_set_ne m _ hq
  have hrp : (copy_out p n m).2.entries p = { m.entries p with accessed := true } :=
    entries_set_self m p _
  have hwp : (copy_in p buffer m).entries p =
      { m.entries p with dirty := true, accessed := true } := by
    rw [hin]
    exact entries_set_self m p _
  refine ⟨?_, ⟨p, htlb, ?_, ?_, ?_, ?_⟩, ?_, ?_, ?_⟩
  · rw [hr _ hne, hw _ hne]
    exact ⟨hdir, hdir, rfl, rfl⟩
  · rw [hin]
    exact htlb
  · rw [hrp]
    exact hpage
  · rw [hwp]
    exact hpage
  · rw [hrp, hwp]
    exact ⟨rfl, rfl⟩
  all_goals
    rw [hin]
    rfl

/-- What is read stays where it is. -/
theorem present_copy_out (p : Ptr) (n : ℕ) (m : Machine) (q : Ptr) :
    ((copy_out p n m).2.entries q).present = (m.entries q).present := by
  by_cases hq : q = p
  · have hself : (copy_out p n m).2.entries p = { m.entries p with accessed := true } :=
      entries_set_self m p _
    rw [hq, hself]
  · exact congrArg Entry.present (entries_set_ne m _ hq)

/-- A page fault leaves the directories alone. -/
theorem page_in_directory (hwf : Wf m) (ht : m.Table pid i p.1) (hd : m.page_directories k = some d)
    (j : ℕ) (hp : page_in h segs addr p f m = .ok m') : m'.entries (d, j) = m.entries (d, j) := by
  by_cases hpresent : (m.entries p).present = true
  · unfold page_in at hp
    rw [if_pos hpresent] at hp
    obtain rfl := Except.ok.inj hp
    rfl
  have hnot : (m.entries p).present = false := by simpa using hpresent
  obtain ⟨m₁, seg, hm₁, hfree, -, rfl⟩ := page_in_eq hnot hp
  have hmoves : Moves m m₁ := hm₁ ▸ moves_fault_vacate m f
  obtain ⟨hdir, -, -⟩ := (hmoves.wf hwf).ne_of_free hfree
  have hd₁ : m₁.page_directories k = some d := hmoves.page_directories ▸ hd
  have hne : (d, j) ≠ p := hwf.directory_ne ht hd j
  have hsame : m₁.entries (d, j) = m.entries (d, j) := by
    rw [← hm₁]
    unfold Machine.vacate
    split
    · rename_i q hq
      obtain ⟨⟨pid', i', ht'⟩, -, -⟩ := hwf.owner f q hq
      exact entries_evict_ne _ f (hwf.directory_ne ht' hd j)
    · rfl
  rw [← hsame]
  show ((m₁.grant (.page p) f).set p _).entries (d, j) = _
  have hdf : d ≠ f := fun heq => hdir k (heq ▸ hd₁)
  rw [entries_set_ne _ _ hne]
  exact entries_grant_ne _ _ hdf

/-- The permission of the page of an address, where a segment lets it be written. -/
theorem Guarded.writable {s : Segment} (hg : Guarded h m) (hw : m.walk k (BASE_ADDR addr) = some p)
    (hp : (m.entries p).present = true) (hcont : (segments h s).Contains addr)
    (hperm : (segments h s).permissions &&& 2 ≠ 0) : (m.entries p).read_write = true := by
  obtain ⟨s', addr', hbase, hcont', hbit⟩ := hg k _ p hw hp
  obtain rfl : s' = s := segment_unique hcont' hcont hbase
  exact hbit.mpr hperm

/-! ### Both accesses, where the TLB answers and where it does not -/

/-- A call whose assertions hold, on an address of a segment. -/
structure Asked (h : Header) (m : Machine) (pid : ℕ) (addr : UInt32) (n : ℕ) (d : Frame)
    (segs : vm_segmentations) : Prop where
  assert : pid < h.MAX_PROCESS_ID ∧ n + addr.toNat % PAGE_SIZE ≤ PAGE_SIZE
  directory : m.page_directories pid = some d
  segmentations : m.segmentations pid = some segs
  address : h.address_in_segmentations segs addr = true

/-- The TLB answers: both bring in its page. -/
theorem accesses_hit (ha : Asked h m pid addr buffer.length d segs)
    (hp : (switch pid m).tlb_get_pte (BASE_ADDR addr) b = some p)
    (hin : page_in h segs addr p g (switch pid m) = .ok m₁) :
    mmu_read_from_virtual_address h addr pid buffer.length b g m =
        .ok (copy_out p buffer.length m₁) ∧
      mmu_write_to_virtual_address h addr pid buffer b f g m = .ok (copy_in p buffer m₁) := by
  have hknown : (switch pid m).tlb (BASE_ADDR addr) = some p := by
    unfold Machine.tlb_get_pte at hp
    split at hp
    · exact hp
    · exact absurd hp (by simp)
  -- to add it again changes nothing
  have hadd : (switch pid m).tlb_add_pte (BASE_ADDR addr) p = switch pid m := by
    unfold Machine.tlb_add_pte
    rw [← hknown, Function.update_eq_self]
  have hget : write_pte d (BASE_ADDR addr) b f (switch pid m) = .ok (p, switch pid m) := by
    unfold write_pte
    rw [hp]
  constructor
  · unfold mmu_read_from_virtual_address
    rw [if_neg (not_not.mpr ha.assert), ha.directory, ha.segmentations]
    dsimp only
    rw [if_neg (by simp [ha.address]), hp]
    dsimp only
    rw [hin]
    rfl
  · unfold mmu_write_to_virtual_address
    rw [if_neg (not_not.mpr ha.assert), ha.directory, ha.segmentations]
    dsimp only
    rw [if_neg (by simp [ha.address]), hget]
    show page_in h segs addr p g _ >>= _ = _
    rw [hadd, hin]
    rfl

/-- The TLB does not answer, and the page is present. -/
theorem accesses_miss (ha : Asked h m pid addr buffer.length d segs)
    (hmiss : (switch pid m).tlb_get_pte (BASE_ADDR addr) b = none)
    (hw : m.walk pid (BASE_ADDR addr) = some p) (hp : (m.entries p).present = true) :
    mmu_read_from_virtual_address h addr pid buffer.length b g m = .ok (copy_out p buffer.length
        ((mmu_tlb_miss (switch pid m)).tlb_add_pte (BASE_ADDR addr) p)) ∧
      mmu_write_to_virtual_address h addr pid buffer b f g m = .ok (copy_in p buffer
        ((mmu_tlb_miss (switch pid m)).tlb_add_pte (BASE_ADDR addr) p)) := by
  obtain ⟨-, -, hent⟩ := switch_same pid m
  obtain ⟨⟨d', hd', hpde, hbase⟩, hj⟩ := walk_eq_some.mp hw
  obtain rfl := Option.some.inj (ha.directory.symm.trans hd')
  have hpde' : ((mmu_tlb_miss (switch pid m)).entries (d, VPN0 (BASE_ADDR addr))).present = true := by
    rw [← hent] at hpde
    exact hpde
  have heq : (((mmu_tlb_miss (switch pid m)).entries (d, VPN0 (BASE_ADDR addr))).base_addr,
      VPN1 (BASE_ADDR addr)) = p := by
    rw [← hent] at hbase
    exact Prod.ext hbase hj.symm
  -- the read adds the entry to the buffer in the walk, the write does so behind it
  have hread : read_walk d (BASE_ADDR addr) g (switch pid m) =
      .ok (p, (mmu_tlb_miss (switch pid m)).tlb_add_pte (BASE_ADDR addr) p) := by
    unfold read_walk
    dsimp only
    rw [if_neg (by simp [hpde']), heq]
  have hget : write_pte d (BASE_ADDR addr) b f (switch pid m) =
      .ok (p, mmu_tlb_miss (switch pid m)) := by
    unfold write_pte write_walk table_in
    rw [hmiss]
    dsimp only
    rw [if_pos hpde', ← heq]
    rfl
  have hin : page_in h segs addr p g
      ((mmu_tlb_miss (switch pid m)).tlb_add_pte (BASE_ADDR addr) p) =
      .ok ((mmu_tlb_miss (switch pid m)).tlb_add_pte (BASE_ADDR addr) p) := by
    unfold page_in
    apply if_pos
    show ((switch pid m).entries p).present = true
    rw [hent]
    exact hp
  constructor
  · unfold mmu_read_from_virtual_address
    rw [if_neg (not_not.mpr ha.assert), ha.directory, ha.segmentations]
    dsimp only
    rw [if_neg (by simp [ha.address]), hmiss]
    dsimp only
    rw [hread]
    rfl
  · unfold mmu_write_to_virtual_address
    rw [if_neg (not_not.mpr ha.assert), ha.directory, ha.segmentations]
    dsimp only
    rw [if_neg (by simp [ha.address]), hget]
    show page_in h segs addr p g _ >>= _ = _
    rw [hin]
    rfl

/-! ### Every state -/

/-- Where the TLB answers, both leave what they should. -/
theorem Shadow.translated_hit {s : Segment} (hs : Shadow h g₀ m) (hloc : h.Locates)
    (hfinds : h.Finds) (ha : Asked h m pid addr buffer.length d segs)
    (hcont : (segments h s).Contains addr) (hperm : (segments h s).permissions &&& 2 ≠ 0)
    (hg : m.use g ≠ .pinned) (hpde : (m.entries (d, VPN0 (BASE_ADDR addr))).present = true)
    (hp : (switch pid m).tlb_get_pte (BASE_ADDR addr) b = some p) :
    ∃ bytes m₁ m₂, mmu_read_from_virtual_address h addr pid buffer.length b g m =
        .ok (some bytes, m₁) ∧
      mmu_write_to_virtual_address h addr pid buffer b f g m = .ok m₂ ∧
      Translated d (BASE_ADDR addr) m₁ m₂ := by
  have hsw : Shadow h g₀ (switch pid m) := hs.switched pid
  obtain ⟨huse, -, hent⟩ := switch_same pid m
  obtain ⟨m₃, hin⟩ := page_in_returns (m := switch pid m) hfinds ha.address (huse ▸ hg) p
  obtain ⟨hread, hwrite⟩ := accesses_hit (f := f) ha hp hin
  obtain ⟨k, hw⟩ := hsw.hit hp
  rw [hs.segments_eq ha.segmentations] at hin
  obtain ⟨hsilent, hwalk, hpresent⟩ := hsw.paged hloc hw hin
  have hd : ((switch pid m).over g₀).page_directories (g₀.last pid) = some d :=
    (hs.dirs pid).symm.trans ha.directory
  obtain ⟨ht, -⟩ := walk_eq_some.mp hw
  have hdir : m₃.entries (d, VPN0 (BASE_ADDR addr)) = m.entries (d, VPN0 (BASE_ADDR addr)) := by
    have hover := page_in_directory hsw.wf ht hd (VPN0 (BASE_ADDR addr)) (over_page_in (g := g₀) hin)
    rw [← hent]
    exact hover
  have htlb : m₃.tlb (BASE_ADDR addr) = some p := by
    rw [(alike_page_in hin).tlb]
    unfold Machine.tlb_get_pte at hp
    split at hp
    · exact hp
    · exact absurd hp (by simp)
  refine ⟨_, _, _, hread, hwrite, ?_⟩
  apply translated_copy (n := buffer.length) (hdir ▸ hpde) htlb hpresent
  · exact hsilent.shadow.guarded.writable hwalk hpresent hcont hperm
  · exact hsw.wf.directory_ne ht hd _

/-- Where it does not, and the page is present, too. -/
theorem Shadow.translated_miss {s : Segment} (hs : Shadow h g₀ m)
    (ha : Asked h m pid addr buffer.length d segs) (hcont : (segments h s).Contains addr)
    (hperm : (segments h s).permissions &&& 2 ≠ 0)
    (hmiss : (switch pid m).tlb_get_pte (BASE_ADDR addr) b = none)
    (hw : m.walk pid (BASE_ADDR addr) = some p) (hp : (m.entries p).present = true) :
    ∃ bytes m₁ m₂, mmu_read_from_virtual_address h addr pid buffer.length b g m =
        .ok (some bytes, m₁) ∧
      mmu_write_to_virtual_address h addr pid buffer b f g m = .ok m₂ ∧
      Translated d (BASE_ADDR addr) m₁ m₂ := by
  obtain ⟨-, -, hent⟩ := switch_same pid m
  obtain ⟨hread, hwrite⟩ := accesses_miss (f := f) (g := g) ha hmiss hw hp
  obtain ⟨⟨d', hd', hpde, -⟩, -⟩ := walk_eq_some.mp hw
  obtain rfl := Option.some.inj (ha.directory.symm.trans hd')
  have hd : (m.over g₀).page_directories (g₀.last pid) = some d :=
    (hs.dirs pid).symm.trans ha.directory
  have hwalk : (m.over g₀).walk (g₀.last pid) (BASE_ADDR addr) = some p := hs.walk pid _ ▸ hw
  refine ⟨_, _, _, hread, hwrite, ?_⟩
  apply translated_copy (n := buffer.length)
  · show ((switch pid m).entries (d, VPN0 (BASE_ADDR addr))).present = true
    rw [hent]
    exact hpde
  · exact Function.update_self ..
  · show ((switch pid m).entries p).present = true
    rw [hent]
    exact hp
  · show ((switch pid m).entries p).read_write = true
    rw [hent]
    exact hs.guarded.writable hwalk hp hcont hperm
  · exact hs.wf.directory_ne (walk_eq_some.mp hwalk).1 hd _

/-- **Reads and writes translate alike** exactly where the page has a page table, and the TLB
    knows the page or it is present. -/
theorem read_like_write {s : Segment} (hr : (mmu h).Reach Unguarded m) (hloc : h.Locates)
    (hfinds : h.Finds) (hwrite : h.WRITE = 2) (ha : Asked h m pid addr buffer.length d segs)
    (hcont : (segs s).Contains addr) (hperm : (segs s).permissions &&& h.WRITE ≠ 0)
    (hg : m.use g ≠ .pinned) :
    (∃ bytes m₁ m₂, mmu_read_from_virtual_address h addr pid buffer.length b g m =
        .ok (some bytes, m₁) ∧
      mmu_write_to_virtual_address h addr pid buffer b f g m = .ok m₂ ∧
      Translated d (BASE_ADDR addr) m₁ m₂) ↔
    ∃ p, m.walk pid (BASE_ADDR addr) = some p ∧
      (((switch pid m).tlb_get_pte (BASE_ADDR addr) b).isSome ∨ (m.entries p).present = true) := by
  obtain ⟨g₀, hs⟩ := shadow_of_reach hr hloc hwrite
  obtain rfl := hs.segments_eq ha.segmentations
  rw [hwrite] at hperm
  obtain ⟨-, hpd, hent⟩ := switch_same pid m
  constructor
  · rintro ⟨bytes, m₁, m₂, hread, -, htrans⟩
    have hpde := htrans.directory.1
    obtain ⟨q, hq, -, hpresent, -⟩ := htrans.page
    have hreads := read_cases hread
    generalize hbytes : (some bytes, m₁) = r at hreads
    obtain rfl : m₁ = r.2 := congrArg Prod.snd hbytes
    cases hreads with
    | nobody hnone => exact absurd (hnone.symm.trans ha.directory) (by simp)
    | outside => exact absurd (congrArg Prod.fst hbytes) (by simp)
    | hit d' segs' p m₃ hd' hsegs' haddr hp hin =>
      obtain rfl := Option.some.inj (ha.directory.symm.trans hd')
      obtain ⟨k, hw⟩ := (hs.switched pid).hit hp
      rw [hs.segments_eq hsegs'] at hin
      obtain ⟨ht, -⟩ := walk_eq_some.mp hw
      have hd : ((switch pid m).over g₀).page_directories (g₀.last pid) = some d :=
        (hs.dirs pid).symm.trans ha.directory
      -- the entry of the directory is as it was
      have hdir : m₃.entries (d, VPN0 (BASE_ADDR addr)) = m.entries (d, VPN0 (BASE_ADDR addr)) := by
        have hover := page_in_directory (hs.switched pid).wf ht hd (VPN0 (BASE_ADDR addr))
          (over_page_in (g := g₀) hin)
        rw [← hent]
        exact hover
      rw [present_copy_out, hdir] at hpde
      exact ⟨_, walk_of_present ha.directory hpde, .inl (by rw [hp]; rfl)⟩
    | miss d' segs' p m₃ hd' hsegs' haddr hp hw =>
      obtain rfl := Option.some.inj (ha.directory.symm.trans hd')
      unfold read_walk at hw
      dsimp only at hw
      split at hw
      · obtain ⟨_, -, hnull⟩ := bind_eq_ok hw
        exact absurd hnull (by simp)
      · rename_i hdir
        obtain ⟨rfl, rfl⟩ := Prod.mk.inj (Except.ok.inj hw)
        have hdir' : (m.entries (d, VPN0 (BASE_ADDR addr))).present = true := by
          rw [← hent]
          exact Bool.eq_true_of_not_eq_false hdir
        refine ⟨_, walk_of_present ha.directory hdir', .inr ?_⟩
        -- the entry that is then in the TLB is the one of the walk
        have hknown : (((switch pid m).tlb_add_pte (BASE_ADDR addr)
            (((switch pid m).entries (d, VPN0 (BASE_ADDR addr))).base_addr,
              VPN1 (BASE_ADDR addr))).tlb (BASE_ADDR addr)) = some q := hq
        unfold Machine.tlb_add_pte at hknown
        dsimp only at hknown
        rw [Function.update_self] at hknown
        obtain rfl := Option.some.inj hknown
        rw [present_copy_out] at hpresent
        rw [← hent]
        exact hpresent
  · rintro ⟨p, hw, hfound⟩
    cases hp : (switch pid m).tlb_get_pte (BASE_ADDR addr) b with
    | some q =>
      obtain ⟨⟨d', hd', hpde, -⟩, -⟩ := walk_eq_some.mp hw
      obtain rfl := Option.some.inj (ha.directory.symm.trans hd')
      exact hs.translated_hit hloc hfinds ha hcont hperm hg hpde hp
    | none =>
      rw [hp] at hfound
      exact hs.translated_miss ha hcont hperm hp hw (hfound.resolve_left (by simp))

/-- A write maps the page, and then both translate alike. -/
theorem read_like_write_some : ∃ (m m₁ m₂ : Machine) (bytes : List UInt8),
    mmu_read_from_virtual_address header 0xBFFFE000 1 1 true 9 m = .ok (some bytes, m₁) ∧
    mmu_write_to_virtual_address header 0xBFFFE000 1 [65] true 8 9 m = .ok m₂ ∧
    Translated 0 0xBFFFE m₁ m₂ := by
  have hrun : ((mmu header).run Unguarded fresh [.add 1 0 1 2 3,
      .write 0xBFFFE000 1 [65] false 4 5]).any (fun m => decide (m.page_directories 1 = some 0 ∧
        (m.segmentations 1).any (fun segs => decide ((segs .STACK).Contains 0xBFFFE000 ∧
          (segs .STACK).permissions &&& header.WRITE ≠ 0 ∧
          header.address_in_segmentations segs 0xBFFFE000 = true)) ∧ m.use 9 ≠ .pinned ∧
        m.walk 1 0xBFFFE = some (4, 0x3FE) ∧ (m.entries (4, 0x3FE)).present = true)) = true := by
    decide +kernel
  obtain ⟨m, hm, hdone⟩ := (Option.any_eq_true _ _).mp hrun
  obtain ⟨hd, hsegs, hf, hwalk, hpresent⟩ := of_decide_eq_true hdone
  obtain ⟨segs, hsegs, hseg⟩ := (Option.any_eq_true _ _).mp hsegs
  obtain ⟨hcont, hperm, haddr⟩ := of_decide_eq_true hseg
  have hr : (mmu header).Reach Unguarded m := .of_run (.init created_fresh) hm
  have ha : Asked header m 1 0xBFFFE000 [(65 : UInt8)].length 0 segs := ⟨by decide, hd, hsegs, haddr⟩
  obtain ⟨bytes, m₁, m₂, hread, hwrite, htrans⟩ := (read_like_write (b := true) (f := 8) hr
    locates_header finds_header rfl ha hcont hperm hf).mpr ⟨_, hwalk, .inr hpresent⟩
  exact ⟨m, m₁, m₂, bytes, hread, hwrite, htrans⟩

/-- The stack of a new process: its first read goes through a null pointer, where its first
    write maps the page; and a read of its second page finds nothing where it looks. -/
theorem not_read_like_write :
    (∃ m : Machine, (mmu header).Reach Unguarded m ∧
      (m.segmentations 1).any (fun segs => decide ((segs .STACK).Contains 0xBFFFE000 ∧
        (segs .STACK).permissions &&& header.READ ≠ 0 ∧
        (segs .STACK).permissions &&& header.WRITE ≠ 0)) ∧
      (mmu_read_from_virtual_address header 0xBFFFE000 1 1 false 9 m).map (fun _ => ()) =
        .error .null ∧
      ∃ m', mmu_write_to_virtual_address header 0xBFFFE000 1 [65] false 8 9 m = .ok m' ∧
        m'.walk 1 0xBFFFE = some (8, 0x3FE) ∧ (m'.entries (8, 0x3FE)).present = true) ∧
    ∃ m m₁ m₂ : Machine, (mmu header).Reach Unguarded m ∧
      (m.segmentations 1).any (fun segs => decide ((segs .STACK).Contains 0xBFFFF000 ∧
        (segs .STACK).permissions &&& header.READ ≠ 0 ∧
        (segs .STACK).permissions &&& header.WRITE ≠ 0)) ∧
      (mmu_read_from_virtual_address header 0xBFFFF000 1 1 false 9 m).map Prod.snd = .ok m₁ ∧
      mmu_write_to_virtual_address header 0xBFFFF000 1 [65] false 8 9 m = .ok m₂ ∧
      m₁.tlb 0xBFFFF = some (4, 0x3FF) ∧ (m₁.entries (4, 0x3FF)).present = false ∧
      m₁.num_page_faults = m.num_page_faults ∧
      m₂.tlb 0xBFFFF = some (4, 0x3FF) ∧ (m₂.entries (4, 0x3FF)).present = true ∧
      m₂.num_page_faults = m.num_page_faults + 1 := by
  constructor
  · have hrun : ((mmu header).run Unguarded fresh [.add 1 0 1 2 3]).any (fun m => decide (
        (m.segmentations 1).any (fun segs => decide ((segs .STACK).Contains 0xBFFFE000 ∧
          (segs .STACK).permissions &&& header.READ ≠ 0 ∧
          (segs .STACK).permissions &&& header.WRITE ≠ 0)) ∧
        (mmu_read_from_virtual_address header 0xBFFFE000 1 1 false 9 m).map (fun _ => ()) =
          .error .null ∧
        ((mmu header).step m (.write 0xBFFFE000 1 [65] false 8 9)).any (fun m' => decide (
          m'.walk 1 0xBFFFE = some (8, 0x3FE) ∧ (m'.entries (8, 0x3FE)).present = true)))) = true := by
      decide +kernel
    obtain ⟨m, hm, hdone⟩ := (Option.any_eq_true _ _).mp hrun
    obtain ⟨hsegs, hread, hwrites⟩ := of_decide_eq_true hdone
    obtain ⟨m', hm', hmapped⟩ := (Option.any_eq_true _ _).mp hwrites
    exact ⟨m, .of_run (.init created_fresh) hm, hsegs, hread, m', step_eq_some hm',
      of_decide_eq_true hmapped⟩
  · have hrun : ((mmu header).run Unguarded fresh [.add 1 0 1 2 3,
        .write 0xBFFFE000 1 [65] false 4 5]).any (fun m => decide (
        (m.segmentations 1).any (fun segs => decide ((segs .STACK).Contains 0xBFFFF000 ∧
          (segs .STACK).permissions &&& header.READ ≠ 0 ∧
          (segs .STACK).permissions &&& header.WRITE ≠ 0)) ∧
        ((mmu header).step m (.read 0xBFFFF000 1 1 false 9)).any (fun m' => decide (
          m'.tlb 0xBFFFF = some (4, 0x3FF) ∧ (m'.entries (4, 0x3FF)).present = false ∧
          m'.num_page_faults = m.num_page_faults)) ∧
        ((mmu header).step m (.write 0xBFFFF000 1 [65] false 8 9)).any (fun m' => decide (
          m'.tlb 0xBFFFF = some (4, 0x3FF) ∧ (m'.entries (4, 0x3FF)).present = true ∧
          m'.num_page_faults = m.num_page_faults + 1)))) = true := by
      decide +kernel
    obtain ⟨m, hm, hdone⟩ := (Option.any_eq_true _ _).mp hrun
    obtain ⟨hsegs, hreads, hwrites⟩ := of_decide_eq_true hdone
    obtain ⟨m₁, hm₁, hr⟩ := (Option.any_eq_true _ _).mp hreads
    obtain ⟨m₂, hm₂, hw⟩ := (Option.any_eq_true _ _).mp hwrites
    obtain ⟨h1, h2, h3⟩ := of_decide_eq_true hr
    exact ⟨m, m₁, m₂, .of_run (.init created_fresh) hm, hsegs, step_eq_some hm₁,
      step_eq_some hm₂, h1, h2, h3, of_decide_eq_true hw⟩

end SystemProgramming.Mmu
