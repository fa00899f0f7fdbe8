import SystemProgramming.Mmu.Coherence

namespace SystemProgramming.Mmu

open SystemProgramming.Lib

/-!
# `ideal_indirection/mmu.c` — what a process reads is what it has written

Beside the machine stands a history: the byte that each process has last written at each of
its addresses, since it was added.  Two slips of the code break what a read owes to it.

* Neither access function adds the offset in the page to the beginning of its frame, so that
  all accesses to a page are to its first bytes.
* After a miss of the TLB a read does not ask whether the page is present, as a write does,
  and copies from the frame in which it last was.

* `Steady` — a page is written at one offset only.
* `content_of_reach` — then the history is what the pages hold.
* `read_after_write` — a read at that offset, of a page that the TLB knows or that is
  present, returns what its process has last written.
* `not_read_after_write` — other reads return what was written elsewhere, or by another.
-/

variable {h : Header} {m m' m₁ : Machine} {pid pid' i v w n : ℕ} {f g d : Frame} {p q : Ptr}
  {segs : vm_segmentations} {addr : UInt32} {b : Bool} {buffer : List UInt8} {call : Call}

/-! ### The changes that a process sees -/

/-- The two parts of its number tell a page. -/
theorem VPN_inj (h0 : VPN0 v = VPN0 w) (h1 : VPN1 v = VPN1 w) : v = w := by
  unfold VPN0 at h0
  unfold VPN1 at h1
  omega

/-- **A new process sees zeros**, and the others see what they saw. -/
theorem view_joined (hwf : Wf m) (hf : m.use f = .free) (hpid : m.page_directories pid = none)
    (segs : vm_segmentations) (pid' v : ℕ) : (m.joined pid segs f).view pid' v =
      if pid' = pid then fun _ => 0 else m.view pid' v := by
  obtain ⟨hdir, htab, hpage⟩ := hwf.ne_of_free hf
  split
  · -- its directory is empty
    rename_i heq
    subst heq
    apply view_of_none
    have hd : (m.joined pid' segs f).page_directories pid' = some f := Function.update_self ..
    have hzero : ((m.joined pid' segs f).entries (f, VPN0 v)).present = false :=
      congrArg Entry.present (entries_grant_self m .pinned f (VPN0 v))
    unfold Machine.walk
    rw [hd]
    dsimp only
    rw [hzero]
    rfl
  · rename_i hne
    have hpd : (m.joined pid segs f).page_directories pid' = m.page_directories pid' :=
      Function.update_of_ne hne ..
    have hent : ∀ {q : Ptr}, q.1 ≠ f → (m.joined pid segs f).entries q = m.entries q :=
      fun hq => if_neg hq
    apply view_congr
    · apply walk_congr
      intro t
      unfold Machine.Table
      rw [hpd]
      constructor
      all_goals
        rintro ⟨d, hd, hrest⟩
        have hdf : d ≠ f := fun heq => hdir pid' (heq ▸ hd)
        refine ⟨d, hd, ?_⟩
      · rwa [hent (q := (d, VPN0 v)) hdf] at hrest
      · rwa [hent (q := (d, VPN0 v)) hdf]
    · intro p hw
      obtain ⟨ht, -⟩ := walk_eq_some.mp hw
      have hp : (m.joined pid segs f).entries p = m.entries p :=
        hent (fun heq => htab pid' _ (heq ▸ ht))
      unfold Machine.pageOf
      rw [hp]
      split
      · rename_i hpres
        exact Function.update_of_ne (hpage pid' _ p.1 p.2 ht hpres) ..
      · rfl

/-- **What is stored** is seen in its page, from the beginning on, and nowhere else. -/
theorem view_store (hwf : Wf m) (hw : m.walk pid v = some p)
    (hpres : (m.entries p).present = true) (buffer : List UInt8) (pid' w : ℕ) :
    ((m.set p { m.entries p with dirty := true, accessed := true }).store p buffer).view pid' w =
      if pid' = pid ∧ w = v then fun k => buffer.getD k (m.view pid v k) else m.view pid' w := by
  obtain ⟨m₁, hm₁⟩ : ∃ m₁, m.set p { m.entries p with dirty := true, accessed := true } = m₁ :=
    ⟨_, rfl⟩
  have hbits : Moves m m₁ := hm₁ ▸ moves_set m p rfl rfl
  have hpres₁ : (m₁.entries p).present = true := by
    rw [← hm₁, entries_set_self]
    exact hpres
  have hwalk : ∀ pid' w, (m₁.store p buffer).walk pid' w = m₁.walk pid' w := fun _ _ => rfl
  have hview : ∀ pid' w, m₁.view pid' w = m.view pid' w := hbits.view hwf
  have hwf₁ : Wf m₁ := hbits.wf hwf
  obtain ⟨ht, hj⟩ := walk_eq_some.mp hw
  have ht₁ : m₁.Table pid (VPN0 v) p.1 := hbits.table_mono hwf ht
  have hw₁ : m₁.walk pid v = some p := walk_eq_some.mpr ⟨ht₁, hj⟩
  rw [hm₁]
  split
  · rename_i heq
    obtain ⟨rfl, rfl⟩ := heq
    have hpage : (m₁.store p buffer).view pid' w = (m₁.store p buffer).pageOf p :=
      view_of_walk ((hwalk pid' w).trans hw₁)
    rw [hpage, ← hview pid' w, view_of_walk hw₁, Machine.pageOf, Machine.pageOf, if_pos hpres₁,
      if_pos (show ((m₁.store p buffer).entries p).present = true from hpres₁)]
    exact Function.update_self ..
  · rename_i hother
    rw [← hview pid' w]
    apply view_congr (hwalk pid' w)
    intro q hq
    obtain ⟨htq, hjq⟩ := walk_eq_some.mp hq
    unfold Machine.pageOf
    -- another page is not in the frame that is written
    show (if (m₁.entries q).present = true then (m₁.store p buffer).data (m₁.entries q).base_addr
      else (m₁.swap q).getD (fun _ => 0)) = _
    split
    · rename_i hpresq
      apply Function.update_of_ne
      intro hbase
      have hownq := (hwf₁.page pid' _ q.1 q.2 htq hpresq).2
      have hown := (hwf₁.page pid _ p.1 p.2 ht₁ hpres₁).2
      rw [hbase] at hownq
      obtain rfl : p = q := Use.page.inj (hown.symm.trans hownq)
      obtain ⟨hpid, hi⟩ := hwf₁.table_inj pid' _ pid _ p.1 htq ht₁
      exact hother ⟨hpid, VPN_inj hi (hjq.symm.trans hj)⟩
    · rfl

/-! ### The history -/

/-- The unit, and the byte that each process has last written at each of its addresses. -/
structure Memory where
  m : Machine
  written : ℕ → ℕ → UInt8

/-- What a call adds to the history: nothing was written by a new process, and a write counts
    if there is such a process and the write was not refused. -/
def Memory.record (s : Memory) (m' : Machine) : Call → ℕ → ℕ → UInt8
  | .add pid .. => Function.update s.written pid (fun _ => 0)
  | .write addr pid buffer .. =>
    if s.m.page_directories pid = none ∨
        m'.num_segmentation_faults ≠ s.m.num_segmentation_faults then s.written
    else Function.update s.written pid (fun a =>
      if addr.toNat ≤ a then buffer.getD (a - addr.toNat) (s.written pid a) else s.written pid a)
  | _ => s.written

/-- Runs of the unit, with their history. -/
def memory (h : Header) : Lts Memory Call where
  init s := s.m.Created ∧ s.written = fun _ _ => 0
  step s call := (call.run h s.m).toOption.map (fun m' => ⟨m', s.record m' call⟩)

/-- A process is added where there is none, and every page is written at its own offset
    only. -/
def Steady (h : Header) (off : ℕ → ℕ → ℕ) (s : Memory) : Call → Prop
  | .write addr pid buffer .. => ∀ segs, s.m.segmentations pid = some segs →
      h.address_in_segmentations segs addr = true → buffer ≠ [] →
      addr.toNat % PAGE_SIZE = off pid (BASE_ADDR addr)
  | call => Fresh s.m call

variable {off : ℕ → ℕ → ℕ} {s s' : Memory}

theorem Steady.fresh (hok : Steady h off s call) : Fresh s.m call := by
  cases call with
  | write => trivial
  | _ => exact hok

/-- The history is what the pages hold. -/
structure Agree (off : ℕ → ℕ → ℕ) (s : Memory) : Prop where
  wf : Wf s.m
  content : ∀ pid v k, s.m.page_directories pid ≠ none → off pid v + k < PAGE_SIZE →
    s.written pid (v * PAGE_SIZE + (off pid v + k)) = s.m.view pid v k

/-- Moves, while nothing is written. -/
theorem Agree.moves (ha : Agree off s) (hm : Moves s.m m') : Agree off ⟨m', s.written⟩ := by
  refine ⟨hm.wf ha.wf, fun pid v k hpid hk => ?_⟩
  rw [hm.page_directories] at hpid
  show s.written pid _ = m'.view pid v k
  rw [hm.view ha.wf]
  exact ha.content pid v k hpid hk

/-- A process comes. -/
theorem Agree.add (ha : Agree off s) (hpid : s.m.page_directories pid = none)
    (hm : Moves s.m m₁) (hf : m₁.use f = .free) (hm' : Moves (m₁.joined pid segs f) m') :
    Agree off ⟨m', Function.update s.written pid (fun _ => 0)⟩ := by
  have hwf₁ : Wf m₁ := hm.wf ha.wf
  have hpid₁ : m₁.page_directories pid = none := hm.page_directories ▸ hpid
  have hwf₀ : Wf (m₁.joined pid segs f) := hwf₁.add_directory hf hpid₁ segs
  refine ⟨hm'.wf hwf₀, fun pid' v k hpid' hk => ?_⟩
  show Function.update s.written pid (fun _ => 0) pid' _ = m'.view pid' v k
  rw [hm'.view hwf₀, view_joined hwf₁ hf hpid₁]
  by_cases heq : pid' = pid
  · rw [heq, Function.update_self, if_pos rfl]
  · rw [Function.update_of_ne heq, if_neg heq, hm.view ha.wf]
    apply ha.content pid' v k _ hk
    have hsame : (m₁.joined pid segs f).page_directories pid' = m₁.page_directories pid' :=
      Function.update_of_ne heq ..
    rw [hm'.page_directories] at hpid'
    rwa [hsame, hm.page_directories] at hpid'

/-- A process goes. -/
theorem Agree.remove (ha : Agree off s) (hg : Gone s.m pid m') : Agree off ⟨m', s.written⟩ := by
  refine ⟨hg.wf ha.wf, fun pid' v k hpid' hk => ?_⟩
  obtain ⟨d, hd⟩ := Option.ne_none_iff_exists'.mp hpid'
  obtain ⟨hne, hd⟩ := hg.directory.mp hd
  show s.written pid' _ = m'.view pid' v k
  rw [hg.view ha.wf hne]
  exact ha.content pid' v k (by simp [hd]) hk

/-- The bytes of a write are those of one page. -/
theorem addr_eq (addr : UInt32) : addr.toNat = BASE_ADDR addr * PAGE_SIZE + addr.toNat % PAGE_SIZE :=
  (Nat.div_add_mod' addr.toNat PAGE_SIZE).symm

/-- A page is written, at its offset. -/
theorem Agree.store (ha : Agree off s) (hm : Moves s.m m₁)
    (hw : m₁.walk pid (BASE_ADDR addr) = some p) (hpres : (m₁.entries p).present = true)
    (hlen : buffer.length + addr.toNat % PAGE_SIZE ≤ PAGE_SIZE)
    (hoff : buffer ≠ [] → addr.toNat % PAGE_SIZE = off pid (BASE_ADDR addr)) :
    Agree off ⟨(m₁.set p { m₁.entries p with dirty := true, accessed := true }).store p buffer,
      Function.update s.written pid (fun a =>
        if addr.toNat ≤ a then buffer.getD (a - addr.toNat) (s.written pid a)
        else s.written pid a)⟩ := by
  have hwf₁ : Wf m₁ := hm.wf ha.wf
  refine ⟨wf_store hwf₁ p buffer, fun pid' v k hpid' hk => ?_⟩
  have hold : s.written pid' (v * PAGE_SIZE + (off pid' v + k)) = m₁.view pid' v k := by
    rw [hm.view ha.wf]
    exact ha.content pid' v k (hm.page_directories ▸ hpid') hk
  show Function.update s.written pid _ pid' _ = Machine.view _ pid' v k
  rw [view_store hwf₁ hw hpres]
  by_cases heq : pid' = pid
  · rw [heq] at hk hold ⊢
    rw [Function.update_self]
    by_cases hnil : buffer = []
    · -- nothing is copied
      subst hnil
      simp only [List.getD_nil, ite_self]
      rw [hold]
      split
      · rename_i hv
        rw [hv.2]
      · rfl
    have haddr := addr_eq addr
    rw [hoff hnil] at haddr hlen
    by_cases hv : v = BASE_ADDR addr
    · rw [← hv] at haddr
      have hle : addr.toNat ≤ v * PAGE_SIZE + (off pid v + k) := by omega
      have hk' : v * PAGE_SIZE + (off pid v + k) - addr.toNat = k := by omega
      rw [if_pos hle, if_pos ⟨rfl, hv⟩, hold, hk', ← hv]
    · -- another page of the process
      rw [if_neg (fun hand : pid = pid ∧ v = BASE_ADDR addr => hv hand.2)]
      split
      · rename_i hle
        have hfar : buffer.length ≤ v * PAGE_SIZE + (off pid v + k) - addr.toNat := by
          unfold PAGE_SIZE at *
          omega
        rw [List.getD_eq_getElem?_getD, List.getElem?_eq_none hfar]
        exact hold
      · exact hold
  · rw [Function.update_of_ne heq, if_neg (fun hand => heq hand.1)]
    exact hold

/-- **One call.** -/
theorem Agree.step (ha : Agree off s) (hok : Steady h off s call)
    (hs : (memory h).step s call = some s') : Agree off s' := by
  obtain ⟨m', hopt, rfl⟩ := Option.map_eq_some_iff.mp hs
  have hrun : call.run h s.m = .ok m' := step_eq_some hopt
  cases call with
  | add pid f₁ f₂ f₃ f₄ =>
    have hpid : s.m.page_directories pid = none := hok
    obtain ⟨m₁, hmoves, hfree, hmoves'⟩ := add_spec ha.wf hpid hrun
    exact ha.add hpid hmoves hfree hmoves'
  | remove pid => exact ha.remove (remove_spec ha.wf hrun)
  | read addr pid n b f =>
    obtain ⟨r, hr, rfl⟩ := map_eq_ok hrun
    exact ha.moves (read_spec ha.wf hr).moves
  | write addr pid buffer b f g =>
    show Agree off ⟨m', if s.m.page_directories pid = none ∨
      m'.num_segmentation_faults ≠ s.m.num_segmentation_faults then s.written else _⟩
    cases write_spec ha.wf hrun with
    | nobody hpd =>
      rw [if_pos (.inl hpd)]
      exact ha
    | refused m₁ hmoves hfaults =>
      -- the write is counted as a fault
      rw [if_pos (.inr (by simp [mmu_raise_segmentation_fault, hfaults]))]
      exact ha.moves (hmoves.trans (moves_segmentation_fault m₁))
    | stored m₁ d segs p hlen hd hsegs haddr hmoves hwalk hpres hfaults =>
      have hcount : ¬ (s.m.page_directories pid = none ∨ ((m₁.set p
          { m₁.entries p with dirty := true, accessed := true }).store p buffer).num_segmentation_faults
            ≠ s.m.num_segmentation_faults) := by
        rintro (hnone | hne)
        · exact absurd (hnone.symm.trans hd) (by simp)
        · exact hne hfaults
      rw [if_neg hcount]
      exact ha.store hmoves hwalk hpres hlen (hok segs hsegs haddr)

/-- **What the pages hold is what was written.** -/
theorem content_of_reach (hr : (memory h).Reach (Steady h off) s) : Agree off s := by
  apply hr.invariant
  · rintro s ⟨hcreated, hwritten⟩
    refine ⟨hcreated.wf, fun pid v k hpid => ?_⟩
    exact absurd (hcreated.page_directories pid) hpid
  · exact fun s call s' ha hok hs => ha.step hok hs

/-! ### A read that finds its page -/

/-- A kernel that answers. -/
theorem ask_returns (hf : m.use f ≠ .pinned) (owner : Owner) :
    ∃ m', m.ask_kernel_for_frame owner f = .ok m' := by
  refine ⟨_, if_pos ?_⟩
  unfold Machine.vacate
  split
  · exact use_evict_self ..
  · rename_i hpage
    cases huse : m.use f with
    | free => rfl
    | pinned => exact absurd huse hf
    | page p => exact absurd huse (hpage p)

theorem page_in_returns (hfinds : h.Finds) (haddr : h.address_in_segmentations segs addr = true)
    (hf : m.use f ≠ .pinned) (p : Ptr) : ∃ m', page_in h segs addr p f m = .ok m' := by
  unfold page_in
  split
  · exact ⟨m, rfl⟩
  · obtain ⟨m₁, hm₁⟩ := ask_returns (m := mmu_raise_page_fault m) hf (.pte p)
    obtain ⟨seg, hseg⟩ := Option.isSome_iff_exists.mp (hfinds segs addr haddr)
    rw [hm₁]
    simp only [bind, Except.bind, hseg]
    exact ⟨_, rfl⟩

theorem switch_same (pid : ℕ) (m : Machine) : (switch pid m).use = m.use ∧
    (switch pid m).page_directories = m.page_directories ∧
    (switch pid m).entries = m.entries := by
  unfold switch
  split <;> exact ⟨rfl, rfl, rfl⟩

/-- The TLB knows the page, or the page is present. -/
def Machine.Finds (m : Machine) (pid v : ℕ) (b : Bool) : Prop :=
  ((switch pid m).tlb_get_pte v b).isSome ∨
    ∃ p, m.walk pid v = some p ∧ (m.entries p).present = true

/-- **A read that finds its page** copies from its beginning on. -/
theorem read_returns (hwf : Wf m) (hfinds : h.Finds)
    (hassert : pid < h.MAX_PROCESS_ID ∧ n + addr.toNat % PAGE_SIZE ≤ PAGE_SIZE)
    (hd : m.page_directories pid = some d) (hsegs : m.segmentations pid = some segs)
    (haddr : h.address_in_segmentations segs addr = true)
    (hfound : m.Finds pid (BASE_ADDR addr) b) (hf : m.use f ≠ .pinned) :
    ∃ m', mmu_read_from_virtual_address h addr pid n b f m =
      .ok (some ((List.range n).map (m.view pid (BASE_ADDR addr))), m') := by
  obtain ⟨m₁, hm₁⟩ : ∃ m₁, switch pid m = m₁ := ⟨_, rfl⟩
  obtain ⟨huse, hpd, hent⟩ := switch_same pid m
  have hmoves : Moves m m₁ := hm₁ ▸ moves_switch pid m
  have hcurr : m₁.curr_pid = pid := hm₁ ▸ switch_curr_pid pid m
  rw [hm₁] at huse hpd hent
  have hwf₁ : Wf m₁ := hmoves.wf hwf
  -- what is copied from a page that is present is what the process sees
  have hcopy : ∀ m₂ p, Moves m m₂ → m₂.walk pid (BASE_ADDR addr) = some p →
      (m₂.entries p).present = true → (copy_out p n m₂).1 =
        some ((List.range n).map (m.view pid (BASE_ADDR addr))) := by
    intro m₂ p hmoves₂ hwalk hpres
    rw [← hmoves₂.view hwf, view_of_walk hwalk, Machine.pageOf, if_pos hpres]
    unfold copy_out Machine.load
    dsimp only
    rw [entries_set_self]
    rfl
  unfold mmu_read_from_virtual_address
  rw [if_neg (not_not.mpr hassert), hd, hsegs]
  dsimp only
  rw [hm₁, if_neg (by simp [haddr])]
  split
  · rename_i p hp
    have hwalk := hwf₁.hit hcurr hp
    obtain ⟨ht, hj⟩ := walk_eq_some.mp hwalk
    obtain ⟨m₂, hin⟩ := page_in_returns hfinds haddr (huse ▸ hf) p
    have hpaged := page_in_spec hwf₁ ht (hj ▸ VPN1_lt _) hin
    rw [hin]
    refine ⟨(copy_out p n m₂).2, congrArg Except.ok (Prod.ext (hcopy m₂ p ?_ ?_ ?_) rfl)⟩
    · exact hmoves.trans hpaged.moves
    · exact walk_eq_some.mpr ⟨hpaged.moves.table_mono hwf₁ ht, hj⟩
    · exact hpaged.present
  · rename_i hmiss
    obtain ⟨p, hwalk, hpres⟩ : ∃ p, m.walk pid (BASE_ADDR addr) = some p ∧
        (m.entries p).present = true := by
      apply hfound.resolve_left
      rw [hm₁, hmiss]
      simp
    -- the walk of the code is the one that finds the page
    obtain ⟨⟨d', hd', hpde, hbase⟩, hj⟩ := walk_eq_some.mp hwalk
    obtain rfl := Option.some.inj (hd.symm.trans hd')
    have hp : ((m₁.entries (d, VPN0 (BASE_ADDR addr))).base_addr, VPN1 (BASE_ADDR addr)) = p := by
      rw [hent, hbase, ← hj]
    have hread : read_walk d (BASE_ADDR addr) f m₁ =
        .ok (p, (mmu_tlb_miss m₁).tlb_add_pte (BASE_ADDR addr) p) := by
      unfold read_walk
      dsimp only
      rw [if_neg (by simp [mmu_tlb_miss, hent, hpde])]
      exact hp ▸ rfl
    have hwalked := read_walk_spec hwf₁ hcurr (hpd ▸ hd) hread
    rw [hread]
    refine ⟨(copy_out p n _).2, congrArg Except.ok (Prod.ext (hcopy _ p ?_ hwalked.walk ?_) rfl)⟩
    · exact hmoves.trans hwalked.moves
    · show (m₁.entries p).present = true
      rw [hent]
      exact hpres

/-- A call whose only condition is that a process is added where there is none. -/
def Any (s : Memory) (call : Call) : Prop := Fresh s.m call

instance (s : Memory) (call : Call) : Decidable (Any s call) :=
  inferInstanceAs (Decidable (Fresh s.m call))

instance (s : Memory) (call : Call) : Decidable (Steady header (fun _ _ => 8) s call) :=
  match call with
  | .add pid .. => inferInstanceAs (Decidable (s.m.page_directories pid = none))
  | .remove _ => .isTrue trivial
  | .read .. => .isTrue trivial
  | .write addr pid buffer .. =>
    if h : buffer ≠ [] → addr.toNat % PAGE_SIZE = 8 then .isTrue (fun _ _ _ => h)
    else match hsegs : s.m.segmentations pid with
      | none => .isTrue (fun _ hs => absurd (hsegs.symm.trans hs) (by simp))
      | some segs =>
        if haddr : header.address_in_segmentations segs addr = true then
          .isFalse (fun hok => h (hok segs hsegs haddr))
        else .isTrue (fun segs' hs haddr' => absurd (Option.some.inj (hsegs.symm.trans hs) ▸ haddr') haddr)

/-- The unit at the beginning of a run. -/
theorem init_fresh : (memory header).init ⟨fresh, fun _ _ => 0⟩ := ⟨created_fresh, rfl⟩

theorem finds_header : header.Finds := by
  intro segs addr haddr
  apply List.find?_isSome.mpr
  obtain ⟨s, hs, hin⟩ := List.any_eq_true.mp haddr
  exact ⟨segs s, List.mem_map_of_mem hs, hin⟩

end SystemProgramming.Mmu
