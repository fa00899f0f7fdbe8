import SystemProgramming.Lib.Chain
import SystemProgramming.Lib.Lts
import SystemProgramming.Malloc.Heap
import SystemProgramming.Vector.Vector

namespace SystemProgramming.MiniValgrind

open Lib
open Malloc (add64 sub64 mul64)
open SystemProgramming.Vector (int)

/-!
# `mini_valgrind.c` — the metadata of every block

The wrapper puts a `meta_data` in front of each payload and links it into a list.  `sizeof` is
`sizeof(meta_data)`, which stands in a header that is not part of the repository.  The system's
`malloc` answers with an address and with what is in the metadata there, which may be anything, and
its `realloc` with an address; memory that the system has not given out cannot be accessed.

* `mini_malloc`, `mini_calloc`, `mini_realloc`, `mini_free` — the functions.
* `Session` — a state with the live blocks and the number of stray pointers, as the calls and their
  results tell.
* `Accounted` — the list, the totals and the counter agree with them.
-/

/-- What a call writes down of a block. -/
structure Info where
  request_size : ℕ
  filename : ℕ
  instruction : ℕ
  deriving DecidableEq, Repr

abbrev meta_data := Node ℕ Info

structure State where
  /-- the blocks that the system has given out, with the metadata in front -/
  nodes : ℕ → Option meta_data
  /-- how many they are -/
  blocks : ℕ
  head : Option ℕ
  total_memory_requested : ℕ
  total_memory_freed : ℕ
  invalid_addresses : ℕ

namespace State

/-- `a->next = next`. -/
def set_next (s : State) (a : ℕ) (next : Option ℕ) : Option State :=
  (s.nodes a).map fun m => { s with nodes := Function.update s.nodes a (some { m with next }) }

/-- The other fields of `*a`. -/
def set_info (s : State) (a : ℕ) (info : Info) : Option State :=
  (s.nodes a).map fun m =>
    { s with nodes := Function.update s.nodes a (some { m with data := info }) }

def free (s : State) (a : ℕ) : State :=
  { s with nodes := Function.update s.nodes a none, blocks := s.blocks - 1 }

/-- The totals, when the size of a block changes by `sub`. -/
def change (s : State) (sub : ℤ) : State :=
  if sub < 0 then { s with total_memory_freed := add64 s.total_memory_freed (-sub).toNat }
  else { s with total_memory_requested := add64 s.total_memory_requested sub.toNat }

end State

/-- The answer of the system: `NULL`, or an address with the metadata that is found there. -/
abbrev Answer := Option (ℕ × meta_data)

/-! ### The functions -/

section Functions
variable (sizeof : ℕ)

/-- `(meta_data*)payload - 1`. -/
def header (payload : ℕ) : Option ℕ :=
  if sub64 payload sizeof = 0 then none else some (sub64 payload sizeof)

/-- The common part of `mini_malloc` and `mini_calloc`, once the system has been asked for `size`
    bytes and the metadata. -/
def record (s : State) (answer : Answer) (size filename instruction : ℕ) : Option (ℕ × State) :=
  match answer with
  | none => some (0, s)
  | some (ptr, contents) =>
    -- the metadata is written into the block
    if add64 size sizeof < sizeof then none
    else do
      let s := { s with
        nodes := Function.update s.nodes ptr (some contents)
        blocks := s.blocks + 1 }
      let s ← match s.head with
        | some head => do
          let tmp := (← s.nodes head).next
          let s ← s.set_next head (some ptr)
          s.set_next ptr tmp
        | none => some { s with head := some ptr }
      let s ← s.set_info ptr ⟨size, filename, instruction⟩
      some (add64 ptr sizeof,
        { s with total_memory_requested := add64 s.total_memory_requested size })

def mini_malloc (s : State) (answer : Answer) (request_size filename instruction : ℕ) :
    Option (ℕ × State) :=
  if request_size = 0 then some (0, s)
  else record sizeof s answer request_size filename instruction

def mini_calloc (s : State) (answer : Answer)
    (num_elements element_size filename instruction : ℕ) : Option (ℕ × State) :=
  if num_elements = 0 ∨ element_size = 0 then some (0, s)
  else record sizeof s answer (mul64 num_elements element_size) filename instruction

/-- The loop of `mini_free` from `temp` on: the node in front of `ptr`.  A list in which a node
    comes twice does not end. -/
def predecessor (s : State) (ptr : Option ℕ) : ℕ → Option ℕ → Option (Option ℕ)
  | 0, _ => none
  | _ + 1, none => some none
  | fuel + 1, some temp => do
    let m ← s.nodes temp
    if ptr = m.next then some (some temp) else predecessor s ptr fuel m.next

def mini_free (s : State) (payload : ℕ) : Option State :=
  if payload = 0 then some s
  else
    let ptr := header sizeof payload
    if s.head = ptr then do
      let a ← ptr
      let m ← s.nodes a
      some { s.free a with
        head := m.next
        total_memory_freed := add64 s.total_memory_freed m.data.request_size }
    else do
      match ← predecessor s ptr (s.blocks + 1) s.head with
      | some temp =>
        let a ← ptr
        let m ← s.nodes a
        let s ← { s with
          total_memory_freed := add64 s.total_memory_freed m.data.request_size }.set_next temp m.next
        some (s.free a)
      | none => some { s with invalid_addresses := add64 s.invalid_addresses 1 }

/-- The loop of `mini_realloc` from `temp` on: whether `ptr` is in the list. -/
def listed (s : State) (ptr : Option ℕ) : ℕ → Option ℕ → Option Bool
  | 0, _ => none
  | _ + 1, none => some false
  | fuel + 1, some temp =>
    if ptr = some temp then some true
    else do
      let m ← s.nodes temp
      listed s ptr fuel m.next

/-- `(int)a - (int)b`. -/
def int_sub (a b : ℕ) : Option ℤ :=
  if -2 ^ 31 ≤ int a - int b ∧ int a - int b < 2 ^ 31 then some (int a - int b) else none

/-- The body of the loop of `mini_realloc` where it has found the block `a`. -/
def resize (s : State) (answer : Answer) (a request_size filename instruction : ℕ) :
    Option (ℕ × State) :=
  match answer with
  | none => none  -- `NULL->request_size`
  | some (ptr, _) =>
    -- the metadata is still in the block
    if add64 request_size sizeof < sizeof then none
    else do
      let m ← s.nodes a
      let s := { s with
        nodes := Function.update (Function.update s.nodes a none) ptr (some m) }
      let sub ← int_sub request_size m.data.request_size
      let s ← (s.change sub).set_info ptr ⟨request_size, filename, instruction⟩
      some (add64 ptr sizeof, s)

def mini_realloc (s : State) (answer : Answer) (payload request_size filename instruction : ℕ) :
    Option (ℕ × State) :=
  if request_size = 0 ∧ payload = 0 then some (0, s)
  else if request_size = 0 then (mini_free sizeof s payload).map (0, ·)
  else if payload = 0 then mini_malloc sizeof s answer request_size filename instruction
  else do
    match header sizeof payload, ← listed s (header sizeof payload) (s.blocks + 1) s.head with
    | some a, true => resize sizeof s answer a request_size filename instruction
    | _, _ => some (0, { s with invalid_addresses := add64 s.invalid_addresses 1 })

end Functions

/-! ### Sessions -/

inductive Call
  | malloc (request_size filename instruction : ℕ)
  | calloc (num_elements element_size filename instruction : ℕ)
  | realloc (payload request_size filename instruction : ℕ)
  | free (payload : ℕ)
  deriving DecidableEq, Repr

def Call.exec (sizeof : ℕ) (s : State) (answer : Answer) : Call → Option (ℕ × State)
  | malloc request_size filename instruction =>
    mini_malloc sizeof s answer request_size filename instruction
  | calloc num_elements element_size filename instruction =>
    mini_calloc sizeof s answer num_elements element_size filename instruction
  | realloc payload request_size filename instruction =>
    mini_realloc sizeof s answer payload request_size filename instruction
  | free payload => (mini_free sizeof s payload).map (0, ·)

/-- A live block, with the size and the place of the last request. -/
structure Live where
  payload : ℕ
  info : Info
  deriving DecidableEq, Repr

/-- The other live blocks. -/
def forget (live : List Live) (payload : ℕ) : List Live := live.filter (·.payload ≠ payload)

/-- The live blocks with the result of a request, unless it is `NULL`. -/
def keep (live : List Live) (q : ℕ) (info : Info) : List Live :=
  if q = 0 then live else ⟨q, info⟩ :: live

/-- The pointer is that of a live block. -/
def Holds (live : List Live) (payload : ℕ) : Prop := payload ∈ live.map Live.payload

instance (live : List Live) (payload : ℕ) : Decidable (Holds live payload) :=
  inferInstanceAs (Decidable (_ ∈ _))

/-- The live blocks after a call that returns `q`. -/
def Call.after (live : List Live) (q : ℕ) : Call → List Live
  | malloc request_size filename instruction => keep live q ⟨request_size, filename, instruction⟩
  | calloc num_elements element_size filename instruction =>
    keep live q ⟨num_elements * element_size, filename, instruction⟩
  | realloc payload request_size filename instruction =>
    if payload = 0 then keep live q ⟨request_size, filename, instruction⟩
    else if request_size = 0 then forget live payload
    else if q = 0 then live
    else ⟨q, ⟨request_size, filename, instruction⟩⟩ :: forget live payload
  | free payload => forget live payload

/-- The call is on a pointer that is neither `NULL` nor live. -/
def Call.Stray (live : List Live) : Call → Prop
  | realloc payload _ _ _ => payload ≠ 0 ∧ ¬Holds live payload
  | free payload => payload ≠ 0 ∧ ¬Holds live payload
  | _ => False

instance (live : List Live) : (c : Call) → Decidable (c.Stray live)
  | .malloc _ _ _ => isFalse id
  | .calloc _ _ _ _ => isFalse id
  | .realloc payload _ _ _ => inferInstanceAs (Decidable (payload ≠ 0 ∧ ¬Holds live payload))
  | .free payload => inferInstanceAs (Decidable (payload ≠ 0 ∧ ¬Holds live payload))

structure Session where
  state : State
  live : List Live
  /-- the calls on stray pointers so far -/
  stray : ℕ

def Session.step (sizeof : ℕ) (σ : Session) (e : Call × Answer) : Option Session :=
  (e.1.exec sizeof σ.state e.2).map fun r =>
    ⟨r.2, e.1.after σ.live r.1, σ.stray + if e.1.Stray σ.live then 1 else 0⟩

/-- Before the first call. -/
def Session.start : Session := ⟨⟨fun _ => none, 0, none, 0, 0, 0⟩, [], 0⟩

def system (sizeof : ℕ) : Lts Session (Call × Answer) := ⟨(· = Session.start), Session.step sizeof⟩

/-- The sizes of the live blocks. -/
def sizes (live : List Live) : ℕ := (live.map (·.info.request_size)).sum

/-- **The accounting.**  The list has the metadata of each live block once, the totals differ by
    their sizes, and the stray pointers are counted; all sums are those of `size_t`s. -/
structure Accounted (sizeof : ℕ) (σ : Session) : Prop where
  list : ∃ l, Chain σ.state.nodes σ.state.head l none ∧ (l.map Prod.fst).Nodup ∧
    (l.map fun x => (⟨add64 x.1 sizeof, x.2⟩ : Live)).Perm σ.live
  totals : σ.state.total_memory_requested = add64 σ.state.total_memory_freed (sizes σ.live)
  stray : σ.state.invalid_addresses = σ.stray % 2 ^ 64

end SystemProgramming.MiniValgrind
