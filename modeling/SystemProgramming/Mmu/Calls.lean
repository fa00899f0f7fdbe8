import SystemProgramming.Lib.Lts
import SystemProgramming.Mmu.Machine

namespace SystemProgramming.Mmu

open SystemProgramming.Lib

/-!
# `ideal_indirection/mmu.c` — the four calls

`mmu_read_from_virtual_address`, `mmu_write_to_virtual_address`, `mmu_add_process` and
`mmu_remove_process`, and the runs of them by any processes in any order.  The frames with
which the kernel answers, and whether the TLB still has an entry, are arguments of a call.
-/

/-! ### Reading and writing -/

/-- The context switch that both functions begin with. -/
def switch (pid : ℕ) (m : Machine) : Machine :=
  if m.curr_pid ≠ pid then { m.tlb_flush with curr_pid := pid } else m

/-- `if (!pte->present) { ... }`, as both functions have it. -/
def page_in (h : Header) (myseg : vm_segmentations) (virtual_address : UInt32) (pte : Ptr)
    (f : Frame) (m : Machine) : Except Stop Machine :=
  if (m.entries pte).present = true then .ok m
  else do
    let m ← (mmu_raise_page_fault m).ask_kernel_for_frame (.pte pte) f
    let m := m.set pte { m.entries pte with base_addr := f }
    let m := m.read_page_from_disk pte
    let m := m.set pte { m.entries pte with present := true }
    match h.find_segment myseg virtual_address with
    | none => .error .null
    | some seg =>
      .ok (m.set pte { m.entries pte with
        read_write := decide (seg.permissions &&& 2 ≠ 0), user_supervisor := true })

/-- The end of a read: what it copies, and the accessed bit. -/
def copy_out (pte : Ptr) (num_bytes : ℕ) (m : Machine) : Option (List UInt8) × Machine :=
  let m := m.set pte { m.entries pte with accessed := true }
  (some (m.load pte num_bytes), m)

/-- The page walk of a read, after a miss. -/
def read_walk (mypd : Frame) (base_virtual_address : ℕ) (f : Frame) (m : Machine) :
    Except Stop (Ptr × Machine) :=
  let m := mmu_tlb_miss m
  let pde := (mypd, VPN0 base_virtual_address)
  if (m.entries pde).present = false then do
    let _ ← m.ask_kernel_for_frame .pde f
    -- `myentry->base_addr = ...`, and `myentry` is the null pointer that the TLB has returned
    .error .null
  else
    let myentry := ((m.entries pde).base_addr, VPN1 base_virtual_address)
    .ok (myentry, m.tlb_add_pte base_virtual_address myentry)

/-- `mmu_read_from_virtual_address`: what is copied to the buffer, if anything is. -/
def mmu_read_from_virtual_address (h : Header) (virtual_address : UInt32) (pid num_bytes : ℕ)
    (hit : Bool) (f : Frame) (m : Machine) : Except Stop (Option (List UInt8) × Machine) :=
  if ¬ (pid < h.MAX_PROCESS_ID ∧
      num_bytes + virtual_address.toNat % PAGE_SIZE ≤ PAGE_SIZE) then .error .assert
  else
    match m.page_directories pid, m.segmentations pid with
    | none, _ => .ok (none, m)
    | some _, none => .error .null
    | some mypd, some myseg =>
      let m := switch pid m
      if h.address_in_segmentations myseg virtual_address = false then
        .ok (none, mmu_raise_segmentation_fault m)
      else
        let base_virtual_address := BASE_ADDR virtual_address
        match m.tlb_get_pte base_virtual_address hit with
        | some myentry => do
          let m ← page_in h myseg virtual_address myentry f m
          .ok (copy_out myentry num_bytes m)
        | none => do
          -- whether the page is present is not asked
          let (myentry, m) ← read_walk mypd base_virtual_address f m
          .ok (copy_out myentry num_bytes m)

/-- `if (!pde->present) { ... }` in a write. -/
def table_in (pde : Ptr) (f : Frame) (m : Machine) : Except Stop Machine :=
  if (m.entries pde).present = true then .ok m
  else do
    let m ← (mmu_raise_page_fault m).ask_kernel_for_frame .pde f
    let m := m.set pde { m.entries pde with base_addr := f }
    let m := m.read_page_from_disk pde
    .ok (m.set pde { m.entries pde with
      present := true, read_write := true, user_supervisor := true })

/-- The page walk of a write, after a miss. -/
def write_walk (mypd : Frame) (base_virtual_address : ℕ) (f : Frame) (m : Machine) :
    Except Stop (Ptr × Machine) := do
  let pde := (mypd, VPN0 base_virtual_address)
  let m ← table_in pde f (mmu_tlb_miss m)
  .ok (((m.entries pde).base_addr, VPN1 base_virtual_address), m)

/-- The entry that a write goes to: that of the TLB, or that of the walk. -/
def write_pte (mypd : Frame) (base_virtual_address : ℕ) (hit : Bool) (f : Frame) (m : Machine) :
    Except Stop (Ptr × Machine) :=
  match m.tlb_get_pte base_virtual_address hit with
  | some pte => .ok (pte, m)
  | none => write_walk mypd base_virtual_address f m

/-- The end of a write. -/
def copy_in (pte : Ptr) (buffer : List UInt8) (m : Machine) : Machine :=
  if (m.entries pte).read_write = false then mmu_raise_segmentation_fault m
  else (m.set pte { m.entries pte with dirty := true, accessed := true }).store pte buffer

/-- `mmu_write_to_virtual_address`; the frames are for a page table and for a page. -/
def mmu_write_to_virtual_address (h : Header) (virtual_address : UInt32) (pid : ℕ)
    (buffer : List UInt8) (hit : Bool) (f g : Frame) (m : Machine) : Except Stop Machine :=
  if ¬ (pid < h.MAX_PROCESS_ID ∧
      buffer.length + virtual_address.toNat % PAGE_SIZE ≤ PAGE_SIZE) then .error .assert
  else
    match m.page_directories pid, m.segmentations pid with
    | none, _ => .ok m
    | some _, none => .error .null
    | some mypd, some myseg =>
      let m := switch pid m
      if h.address_in_segmentations myseg virtual_address = false then
        .ok (mmu_raise_segmentation_fault m)
      else do
        let base_virtual_address := BASE_ADDR virtual_address
        let (pte, m) ← write_pte mypd base_virtual_address hit f m
        let m ← page_in h myseg virtual_address pte g (m.tlb_add_pte base_virtual_address pte)
        .ok (copy_in pte buffer m)

/-! ### Processes -/

/-- The segments that `mmu_add_process` gives a process. -/
def segments (h : Header) : vm_segmentations
  | .STACK => ⟨0xBFFFE000, 0xC07FE000, h.READ ||| h.WRITE, true⟩
  | .MMAP => ⟨0xC07FE000, 0xC07FE000, h.READ ||| h.EXEC ||| h.WRITE, true⟩
  | .HEAP => ⟨0x08072000, 0x08072000, h.READ ||| h.WRITE, false⟩
  | .BSS => ⟨0x0805A000, 0x08072000, h.READ ||| h.WRITE, false⟩
  | .DATA => ⟨0x08052000, 0x0805A000, h.READ ||| h.WRITE, false⟩
  | .TEXT => ⟨0x08048000, 0x08052000, h.READ ||| h.EXEC, false⟩
  | .TESTING => ⟨4096, 3 * 4096, h.READ ||| h.WRITE, false⟩

/-- The page table of the testing memory. -/
def add_table (pd : Frame) (f : Frame) (m : Machine) : Except Stop Machine := do
  let m ← m.ask_kernel_for_frame .null f
  .ok (m.set (pd, 0) { m.entries (pd, 0) with
    base_addr := f, present := true, read_write := true, user_supervisor := true })

/-- A page of the testing memory: the body of the loop of `mmu_add_process`. -/
def add_page (pd : Frame) (i : ℕ) (f : Frame) (m : Machine) : Except Stop Machine := do
  let pte := ((m.entries (pd, 0)).base_addr, i)
  let m ← m.ask_kernel_for_frame (.pte pte) f
  .ok (m.set pte { m.entries pte with
    base_addr := f, present := true, read_write := true, user_supervisor := true })

/-- `mmu_add_process`; the frames are for the directory, a table and two pages. -/
def mmu_add_process (h : Header) (pid : ℕ) (f₁ f₂ f₃ f₄ : Frame) (m : Machine) :
    Except Stop Machine :=
  if ¬ pid < h.MAX_PROCESS_ID then .error .assert
  else do
    let m ← m.ask_kernel_for_frame .null f₁
    let m : Machine := { m with
      page_directories := Function.update m.page_directories pid (some f₁),
      segmentations := Function.update m.segmentations pid (some (segments h)) }
    let m ← add_table f₁ f₂ m
    let m ← add_page f₁ 1 f₃ m
    add_page f₁ 2 f₄ m

/-- The body of the inner loop of `mmu_remove_process`. -/
def remove_page (pt : Frame) (m : Machine) (vpn2 : ℕ) : Machine :=
  let pte := (pt, vpn2)
  let m := if (m.entries pte).present then m.return_frame_to_kernel (m.entries pte).base_addr else m
  m.remove_swap_file pte

/-- The body of the outer loop. -/
def remove_table (pd : Frame) (m : Machine) (vpn1 : ℕ) : Machine :=
  let pde := (pd, vpn1)
  if (m.entries pde).present then
    let pt := (m.entries pde).base_addr
    ((List.range NUM_ENTRIES).foldl (remove_page pt) m).return_frame_to_kernel pt
  else m

/-- `mmu_remove_process` -/
def mmu_remove_process (h : Header) (pid : ℕ) (m : Machine) : Except Stop Machine :=
  if ¬ pid < h.MAX_PROCESS_ID then .error .assert
  else
    let m := match m.page_directories pid with
      | none => m
      | some pd => ((List.range NUM_ENTRIES).foldl (remove_table pd) m).return_frame_to_kernel pd
    let m : Machine := { m with
      page_directories := Function.update m.page_directories pid none,
      segmentations := Function.update m.segmentations pid none }
    .ok (if m.curr_pid = pid then m.tlb_flush else m)

/-! ### Runs -/

/-- A call, with the answers that it gets. -/
inductive Call
  | add (pid : ℕ) (f₁ f₂ f₃ f₄ : Frame)
  | remove (pid : ℕ)
  | read (virtual_address : UInt32) (pid num_bytes : ℕ) (hit : Bool) (f : Frame)
  | write (virtual_address : UInt32) (pid : ℕ) (buffer : List UInt8) (hit : Bool) (f g : Frame)

/-- What a call does to the machine. -/
def Call.run (h : Header) (m : Machine) : Call → Except Stop Machine
  | .add pid f₁ f₂ f₃ f₄ => mmu_add_process h pid f₁ f₂ f₃ f₄ m
  | .remove pid => mmu_remove_process h pid m
  | .read addr pid n hit f => (mmu_read_from_virtual_address h addr pid n hit f m).map Prod.snd
  | .write addr pid buffer hit f g => mmu_write_to_virtual_address h addr pid buffer hit f g m

/-- `mmu_create`: no frame has a page of the new process tables, and none is on the disk. -/
structure Machine.Created (m : Machine) : Prop where
  tlb : ∀ v, m.tlb v = none
  curr_pid : m.curr_pid = 0
  page_directories : ∀ pid, m.page_directories pid = none
  segmentations : ∀ pid, m.segmentations pid = none
  counters : m.num_tlb_misses = 0 ∧ m.num_page_faults = 0 ∧ m.num_segmentation_faults = 0
  use : ∀ f p, m.use f ≠ .page p
  swap : ∀ p, m.swap p = none

/-- The unit under any calls; a call that does not return ends the run. -/
def mmu (h : Header) : Lts Machine Call where
  init := Machine.Created
  step m call := (call.run h m).toOption

end SystemProgramming.Mmu
