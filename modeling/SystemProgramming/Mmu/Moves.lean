import Mathlib.Logic.Relation
import SystemProgramming.Mmu.Frames

namespace SystemProgramming.Mmu

open Relation

/-!
# `ideal_indirection/mmu.c` — what a process does not see

A process sees its pages: what is in the frame of a page that is present, what was saved of
one that is not, and zeros where nothing was ever put.  Evictions, page faults, new page
tables and the TLB change the machine, but no page as its process sees it.

* `Machine.view` — a page as its process sees it.
* `Move` — a step of the unit or of the kernel that no process sees.
* `Move.wf`, `Move.view` — it keeps the invariant and every view.
-/

variable {m m' : Machine} {pid pid' i j v : ℕ} {t f d : Frame} {p q : Ptr} {e : Entry}

/-- The page of an entry. -/
def Machine.pageOf (m : Machine) (p : Ptr) : ℕ → UInt8 :=
  if (m.entries p).present = true then m.data (m.entries p).base_addr
  else (m.swap p).getD (fun _ => 0)

/-- The page `v` as the process `pid` sees it. -/
def Machine.view (m : Machine) (pid v : ℕ) : ℕ → UInt8 :=
  match m.walk pid v with
  | none => fun _ => 0
  | some p => m.pageOf p

theorem view_of_walk (h : m.walk pid v = some p) : m.view pid v = m.pageOf p := by
  rw [Machine.view, h]

theorem view_of_none (h : m.walk pid v = none) : m.view pid v = fun _ => 0 := by
  rw [Machine.view, h]

/-- The same walk, and the same pages. -/
theorem view_congr (hwalk : m'.walk pid v = m.walk pid v)
    (hpage : ∀ p, m.walk pid v = some p → m'.pageOf p = m.pageOf p) :
    m'.view pid v = m.view pid v := by
  unfold Machine.view
  rw [hwalk]
  cases hw : m.walk pid v with
  | none => rfl
  | some p => exact hpage p hw

/-- The walk is read off the tables. -/
theorem walk_congr (h : ∀ t, m'.Table pid (VPN0 v) t ↔ m.Table pid (VPN0 v) t) :
    m'.walk pid v = m.walk pid v := by
  apply Option.ext
  intro p
  rw [walk_eq_some, walk_eq_some, h]

/-- A step that no process sees. -/
inductive Move (m : Machine) : Machine → Prop
  /-- a counter, or a bit of an entry that says nothing of its frame -/
  | quiet (m' : Machine) (hpd : m'.page_directories = m.page_directories)
      (hseg : m'.segmentations = m.segmentations) (huse : m'.use = m.use)
      (hswap : m'.swap = m.swap) (hdata : m'.data = m.data) (htlb : m'.tlb = m.tlb)
      (hcurr : m'.curr_pid = m.curr_pid)
      (hent : ∀ p, (m'.entries p).present = (m.entries p).present ∧
        (m'.entries p).base_addr = (m.entries p).base_addr) : Move m m'
  /-- the TLB and the process that it is for -/
  | tlb (tlb : ℕ → Option Ptr) (curr_pid : ℕ)
      (htlb : ∀ v p, tlb v = some p → m.Table curr_pid (VPN0 v) p.1 ∧ p.2 = VPN1 v) :
      Move m { m with tlb := tlb, curr_pid := curr_pid }
  /-- a page is saved, and its frame is free -/
  | evict (p : Ptr) (f : Frame) (hp : m.use f = .page p) : Move m (m.evict p f)
  /-- a page table -/
  | table (pid : ℕ) (d : Frame) (i : ℕ) (f : Frame) (e : Entry) (hf : m.use f = .free)
      (hd : m.page_directories pid = some d) (hi : i < NUM_ENTRIES)
      (hnot : (m.entries (d, i)).present = false) (hp : e.present = true)
      (hb : e.base_addr = f) : Move m ((m.grant .pinned f).set (d, i) e)
  /-- a page, with what was saved of it -/
  | page (pid i : ℕ) (p : Ptr) (f : Frame) (e : Entry) (hf : m.use f = .free)
      (ht : m.Table pid i p.1) (hj : p.2 < NUM_ENTRIES) (hnot : (m.entries p).present = false)
      (hp : e.present = true) (hb : e.base_addr = f) :
      Move m { (m.grant (.page p) f).set p e with
        data := Function.update m.data f ((m.swap p).getD (fun _ => 0)) }

/-- **A move keeps the invariant.** -/
theorem Move.wf (hm : Move m m') (h : Wf m) : Wf m' := by
  cases hm with
  | quiet _ hpd hseg huse hswap _ htlb hcurr hent => exact h.congr hpd hseg huse hswap htlb hcurr hent
  | tlb tlb curr_pid htlb => exact h.with_tlb tlb curr_pid htlb
  | evict p f hp => exact h.evict hp
  | table pid d i f e hf hd hi hnot hp hb => exact h.add_table hf hd hi hnot hp hb
  | page pid i p f e hf ht hj hnot hp hb =>
    exact (h.add_page hf ht hj hnot hp hb).congr rfl rfl rfl rfl rfl rfl (fun _ => ⟨rfl, rfl⟩)

/-- The processes stay. -/
theorem Move.page_directories (hm : Move m m') : m'.page_directories = m.page_directories := by
  cases hm with
  | quiet _ hpd => exact hpd
  | _ => rfl

theorem Move.segmentations (hm : Move m m') : m'.segmentations = m.segmentations := by
  cases hm with
  | quiet _ _ hseg => exact hseg
  | _ => rfl

/-- Page tables stay. -/
theorem Move.table_mono (hm : Move m m') (h : Wf m) (ht : m.Table pid i t) : m'.Table pid i t := by
  cases hm with
  | quiet _ hpd _ _ _ _ _ _ hent => exact (table_congr hpd (fun _ d i _ => hent (d, i))).mpr ht
  | tlb => exact ht
  | evict p f hp => exact (h.table_evict hp).mpr ht
  | table pid' d' k f e hf hd hi hnot =>
    obtain ⟨hdir, -, -⟩ := h.ne_of_free hf
    obtain ⟨d, hd', h1, h2⟩ := ht
    have heq : (d, i) ≠ (d', k) := by
      intro heq
      rw [heq, hnot] at h1
      exact absurd h1 (by simp)
    have hne : d ≠ f := fun heq => hdir pid (heq ▸ hd')
    have hsame : ((m.grant .pinned f).set (d', k) e).entries (d, i) = m.entries (d, i) := by
      rw [entries_set_ne _ _ heq, entries_grant_ne _ _ hne]
    exact ⟨d, hd', hsame.symm ▸ h1, hsame.symm ▸ h2⟩
  | page pid' i' p f e hf ht' =>
    obtain ⟨hdir, -, -⟩ := h.ne_of_free hf
    obtain ⟨d, hd', h1, h2⟩ := ht
    have hne : d ≠ f := fun heq => hdir pid (heq ▸ hd')
    have hsame : ((m.grant (.page p) f).set p e).entries (d, i) = m.entries (d, i) := by
      rw [entries_set_ne _ _ (h.directory_ne ht' hd' i), entries_grant_ne _ _ hne]
    exact ⟨d, hd', hsame.symm ▸ h1, hsame.symm ▸ h2⟩

/-- **No process sees a move.** -/
theorem Move.view (hm : Move m m') (h : Wf m) (pid v : ℕ) : m'.view pid v = m.view pid v := by
  cases hm with
  | quiet _ hpd _ _ hswap hdata _ _ hent =>
    refine view_congr (walk_congr (fun t => table_congr hpd (fun _ d i _ => hent (d, i))))
      (fun p _ => ?_)
    unfold Machine.pageOf
    rw [(hent p).1, (hent p).2, hswap, hdata]
  | tlb => exact view_congr rfl (fun _ _ => rfl)
  | evict p f hp =>
    obtain ⟨-, hpresent, hbase⟩ := h.owner f p hp
    refine view_congr (walk_congr (fun t => h.table_evict hp)) (fun q _ => ?_)
    by_cases hq : q = p
    · -- what was in the frame is in the swap file
      subst hq
      have hnot : ((m.evict q f).entries q).present ≠ true := by
        rw [entries_evict_self]
        simp
      have hswap : (m.evict q f).swap q = some (m.data f) := Function.update_self ..
      rw [Machine.pageOf, if_neg hnot, hswap, Machine.pageOf, if_pos hpresent, hbase]
      rfl
    · have hswap : (m.evict p f).swap q = m.swap q := Function.update_of_ne hq ..
      unfold Machine.pageOf
      rw [entries_evict_ne m f hq, hswap]
      rfl
  | table pid' d k f e hf hd hi hnot hp hb =>
    obtain ⟨hdir, htab, hpage⟩ := h.ne_of_free hf
    obtain ⟨m₁, hm₁⟩ : ∃ m₁, m₁ = (m.grant .pinned f).set (d, k) e := ⟨_, rfl⟩
    have hmove : Move m m₁ := hm₁ ▸ .table pid' d k f e hf hd hi hnot hp hb
    have hwf : Wf m₁ := hmove.wf h
    rw [← hm₁]
    cases hw : m.walk pid v with
    | some p =>
      obtain ⟨ht, hj⟩ := walk_eq_some.mp hw
      have hw₁ : m₁.walk pid v = some p := walk_eq_some.mpr ⟨hmove.table_mono h ht, hj⟩
      rw [view_of_walk hw, view_of_walk hw₁]
      have hne : p.1 ≠ f := fun heq => htab _ _ (heq ▸ ht)
      have hpd : p ≠ (d, k) := fun heq => h.directory_ne ht hd k heq.symm
      have hent : m₁.entries p = m.entries p := by
        rw [hm₁, entries_set_ne _ _ hpd, entries_grant_ne _ _ hne]
      unfold Machine.pageOf
      rw [hent]
      split
      · rename_i hpres
        rw [hm₁]
        exact Function.update_of_ne (hpage pid _ p.1 p.2 ht hpres) ..
      · rw [hm₁]
        rfl
    | none =>
      rw [view_of_none hw]
      cases hw₁ : m₁.walk pid v with
      | none => rw [view_of_none hw₁]
      | some p =>
        -- the new table is empty
        rw [view_of_walk hw₁]
        obtain ⟨⟨d₁, hd₁, h1, h2⟩, hj⟩ := walk_eq_some.mp hw₁
        have hd₁' : m.page_directories pid = some d₁ := hmove.page_directories ▸ hd₁
        have hnew : (d₁, VPN0 v) = (d, k) := by
          by_contra hne
          have hsame : m₁.entries (d₁, VPN0 v) = m.entries (d₁, VPN0 v) := by
            rw [hm₁, entries_set_ne _ _ hne]
            exact entries_grant_ne _ _ (fun heq => hdir pid (heq ▸ hd₁'))
          have ht : m.Table pid (VPN0 v) p.1 := ⟨d₁, hd₁', hsame ▸ h1, hsame ▸ h2⟩
          exact absurd (hw.symm.trans (walk_eq_some.mpr ⟨ht, hj⟩)) (by simp)
        have hpf : p.1 = f := by
          rw [← h2, hnew, hm₁, entries_set_self, hb]
        have hne : p ≠ (d, k) := fun heq => hdir pid' (hpf.symm.trans (congrArg Prod.fst heq) ▸ hd)
        have hent : m₁.entries p = .zero := by
          rw [hm₁, entries_set_ne _ _ hne]
          exact if_pos hpf
        have hswap : m₁.swap p = none := by
          by_contra hsome
          obtain ⟨-, pid₂, i₂, ht⟩ := h.swap p (fun hnone => hsome (by rw [hm₁]; exact hnone))
          exact htab pid₂ i₂ (hpf ▸ ht)
        unfold Machine.pageOf
        rw [hent, hswap]
        rfl
  | page pid' i p f e hf ht hj hnot hp hb =>
    obtain ⟨hdir, htab, hpage⟩ := h.ne_of_free hf
    obtain ⟨m₁, hm₁⟩ : ∃ m₁ : Machine, m₁ = { (m.grant (.page p) f).set p e with
        data := Function.update m.data f ((m.swap p).getD (fun _ => 0)) } := ⟨_, rfl⟩
    rw [← hm₁]
    have hent : ∀ q : Ptr, q ≠ p → q.1 ≠ f → m₁.entries q = m.entries q := by
      intro q hq hqf
      rw [hm₁]
      exact (entries_set_ne _ _ hq).trans (entries_grant_ne _ _ hqf)
    have hself : m₁.entries p = e := by
      rw [hm₁]
      exact entries_set_self ..
    refine view_congr (walk_congr (fun t => table_congr (by rw [hm₁]; rfl) (fun pid₁ d k hd => ?_)))
      (fun q hq => ?_)
    · rw [hent (d, k) (h.directory_ne ht hd k) (fun heq => hdir pid₁ (heq ▸ hd))]
      exact ⟨rfl, rfl⟩
    · obtain ⟨htq, -⟩ := walk_eq_some.mp hq
      by_cases heq : q = p
      · subst heq
        rw [Machine.pageOf, hself, if_pos hp, hb, Machine.pageOf, if_neg (by simp [hnot]), hm₁]
        exact Function.update_self ..
      · unfold Machine.pageOf
        rw [hent q heq (fun h => htab _ _ (h ▸ htq))]
        split
        · rename_i hpres
          rw [hm₁]
          exact Function.update_of_ne (hpage pid _ q.1 q.2 htq hpres) ..
        · rw [hm₁]
          rfl

/-! ### Several moves -/

/-- Any number of moves. -/
def Moves : Machine → Machine → Prop := ReflTransGen Move

theorem Move.moves (hm : Move m m') : Moves m m' := .single hm

theorem Moves.refl (m : Machine) : Moves m m := ReflTransGen.refl

theorem Moves.trans {m₁ m₂ m₃ : Machine} (h : Moves m₁ m₂) (h' : Moves m₂ m₃) : Moves m₁ m₃ :=
  ReflTransGen.trans h h'

theorem Moves.wf (hm : Moves m m') (h : Wf m) : Wf m' := by
  induction hm with
  | refl => exact h
  | tail _ hm ih => exact hm.wf ih

theorem Moves.page_directories (hm : Moves m m') : m'.page_directories = m.page_directories := by
  induction hm with
  | refl => rfl
  | tail _ hm ih => exact hm.page_directories.trans ih

theorem Moves.segmentations (hm : Moves m m') : m'.segmentations = m.segmentations := by
  induction hm with
  | refl => rfl
  | tail _ hm ih => exact hm.segmentations.trans ih

theorem Moves.table_mono (hm : Moves m m') (h : Wf m) (ht : m.Table pid i t) :
    m'.Table pid i t := by
  induction hm with
  | refl => exact ht
  | tail hms hm ih => exact hm.table_mono (Moves.wf hms h) ih

/-- **No process sees them.** -/
theorem Moves.view (hm : Moves m m') (h : Wf m) (pid v : ℕ) : m'.view pid v = m.view pid v := by
  induction hm with
  | refl => rfl
  | tail hms hm ih => exact (hm.view (Moves.wf hms h) pid v).trans ih

end SystemProgramming.Mmu
