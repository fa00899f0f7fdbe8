import Mathlib.Algebra.Order.Group.Nat
import Mathlib.Logic.Function.Basic

namespace SystemProgramming.Mmu

/-!
# `ideal_indirection/mmu.c` — the machine

What the memory management unit works on: its own record, the physical memory with the page
directories and the page tables in it, the frames that the kernel has handed out, and the
pages on the disk.  `mmu.h`, the kernel and the TLB are not in the repository; of them the
model has what their callers and `mmu_test.c` say.

* The kernel hands out frames that are not in use, filled with zeros.  To do so it may evict
  a page, but no page table and no page directory: it clears the present bit of its entry
  and saves what is in it.
* The TLB answers with the entry that was added last for a page, or not at all.
-/

/-- A frame of the physical memory. -/
abbrev Frame := ℕ

/-- The address of an entry: the frame of its table or directory, and its index there. -/
abbrev Ptr := ℕ × ℕ

/-- `page_table_entry` and `page_directory_entry`. -/
structure Entry where
  present : Bool
  read_write : Bool
  user_supervisor : Bool
  accessed : Bool
  dirty : Bool
  /-- the number of a frame -/
  base_addr : Frame
  deriving DecidableEq

/-- An entry in a frame that was filled with zeros. -/
def Entry.zero : Entry := ⟨false, false, false, false, false, 0⟩

/-- `vm_segmentation` -/
structure vm_segmentation where
  start : UInt32
  stop : UInt32
  permissions : ℕ
  grows_down : Bool

/-- The segments of a process. -/
inductive Segment
  | STACK
  | MMAP
  | HEAP
  | BSS
  | DATA
  | TEXT
  | TESTING
  deriving DecidableEq

/-- `vm_segmentations` -/
abbrev vm_segmentations := Segment → vm_segmentation

/-- What `mmu.h` and `segments.c` define. -/
structure Header where
  MAX_PROCESS_ID : ℕ
  READ : ℕ
  WRITE : ℕ
  EXEC : ℕ
  address_in_segmentations : vm_segmentations → UInt32 → Bool
  find_segment : vm_segmentations → UInt32 → Option vm_segmentation

/-- An address of some segment has a segment. -/
def Header.Finds (h : Header) : Prop := ∀ segs addr,
  h.address_in_segmentations segs addr = true → (h.find_segment segs addr).isSome

def PAGE_SIZE : ℕ := 4096

def NUM_ENTRIES : ℕ := 1024

/-- `BASE_ADDR(addr)` -/
def BASE_ADDR (addr : UInt32) : ℕ := addr.toNat / PAGE_SIZE

/-- `VPN0(base)` -/
def VPN0 (base : ℕ) : ℕ := base / 1024

/-- `VPN1(base)` -/
def VPN1 (base : ℕ) : ℕ := base % 1024

/-- What the kernel has done with a frame. -/
inductive Use
  | free
  /-- handed out for a page directory or a page table -/
  | pinned
  /-- handed out for the page of an entry -/
  | page (pte : Ptr)
  deriving DecidableEq

/-- Whom a frame is asked for: `NULL`, an entry of a page directory, or one of a page table. -/
inductive Owner
  | null
  | pde
  | pte (p : Ptr)

/-- The eviction scheme does not page page tables or directories to disk. -/
def Owner.use : Owner → Use
  | .pte p => .page p
  | _ => .pinned

/-- The machine. -/
structure Machine where
  /-- the entry that was added last for a page since the last `tlb_flush` -/
  tlb : ℕ → Option Ptr
  curr_pid : ℕ
  page_directories : ℕ → Option Frame
  segmentations : ℕ → Option vm_segmentations
  num_tlb_misses : ℕ
  num_page_faults : ℕ
  num_segmentation_faults : ℕ
  /-- the entries in the frames that are directories and tables -/
  entries : Ptr → Entry
  /-- the bytes in the frames that are pages -/
  data : Frame → ℕ → UInt8
  /-- the frames, as the kernel sees them -/
  use : Frame → Use
  /-- the swap files, by the entries of their pages -/
  swap : Ptr → Option (ℕ → UInt8)

/-- Why a call does not return. -/
inductive Stop
  /-- an `assert` fails -/
  | assert
  /-- a null pointer is dereferenced -/
  | null
  /-- not a way in which a kernel answers: the frame is in use -/
  | impossible
  deriving DecidableEq

namespace Machine

/-- Assign to an entry. -/
def set (m : Machine) (p : Ptr) (e : Entry) : Machine :=
  { m with entries := Function.update m.entries p e }

/-- The kernel evicts the page of the entry `p` from the frame `f`. -/
def evict (p : Ptr) (f : Frame) (m : Machine) : Machine :=
  { m with
    entries := Function.update m.entries p { m.entries p with present := false },
    swap := Function.update m.swap p (some (m.data f)),
    use := Function.update m.use f .free }

/-- The kernel evicts what is in the frame `f`, if it is a page. -/
def vacate (f : Frame) (m : Machine) : Machine :=
  match m.use f with
  | .page p => m.evict p f
  | _ => m

/-- The kernel hands out the frame `f`, filled with zeros. -/
def grant (u : Use) (f : Frame) (m : Machine) : Machine :=
  { m with
    use := Function.update m.use f u,
    entries := fun p => if p.1 = f then .zero else m.entries p,
    data := Function.update m.data f (fun _ => 0) }

/-- `ask_kernel_for_frame`, where the kernel answers with `f`: a frame that is free, or is
    after the eviction of a page. -/
def ask_kernel_for_frame (owner : Owner) (f : Frame) (m : Machine) : Except Stop Machine :=
  if (m.vacate f).use f = .free then .ok ((m.vacate f).grant owner.use f) else .error .impossible

/-- `return_frame_to_kernel` -/
def return_frame_to_kernel (f : Frame) (m : Machine) : Machine :=
  { m with use := Function.update m.use f .free }

/-- `read_page_from_disk`: nothing is read where nothing was saved. -/
def read_page_from_disk (p : Ptr) (m : Machine) : Machine :=
  match m.swap p with
  | none => m
  | some page => { m with data := Function.update m.data (m.entries p).base_addr page }

/-- `remove_swap_file` -/
def remove_swap_file (p : Ptr) (m : Machine) : Machine :=
  { m with swap := Function.update m.swap p none }

/-- `tlb_flush` -/
def tlb_flush (m : Machine) : Machine := { m with tlb := fun _ => none }

/-- `tlb_add_pte` -/
def tlb_add_pte (base_virtual_address : ℕ) (pte : Ptr) (m : Machine) : Machine :=
  { m with tlb := Function.update m.tlb base_virtual_address (some pte) }

/-- `tlb_get_pte`; `hit` says whether the TLB still has the entry. -/
def tlb_get_pte (base_virtual_address : ℕ) (hit : Bool) (m : Machine) : Option Ptr :=
  if hit then m.tlb base_virtual_address else none

/-- `num_bytes` bytes from the beginning of the page of an entry on. -/
def load (p : Ptr) (num_bytes : ℕ) (m : Machine) : List UInt8 :=
  (List.range num_bytes).map (m.data (m.entries p).base_addr)

/-- `memcpy` to the beginning of the page of an entry. -/
def store (p : Ptr) (buffer : List UInt8) (m : Machine) : Machine :=
  let f := (m.entries p).base_addr
  { m with data := Function.update m.data f (fun k => buffer.getD k (m.data f k)) }

end Machine

/-- `mmu_tlb_miss` -/
def mmu_tlb_miss (m : Machine) : Machine := { m with num_tlb_misses := m.num_tlb_misses + 1 }

/-- `mmu_raise_page_fault` -/
def mmu_raise_page_fault (m : Machine) : Machine :=
  { m with num_page_faults := m.num_page_faults + 1 }

/-- `mmu_raise_segmentation_fault` -/
def mmu_raise_segmentation_fault (m : Machine) : Machine :=
  { m with num_segmentation_faults := m.num_segmentation_faults + 1 }

end SystemProgramming.Mmu
