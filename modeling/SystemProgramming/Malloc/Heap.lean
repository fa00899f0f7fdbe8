import SystemProgramming.Lib.Bytes

namespace SystemProgramming.Malloc

open SystemProgramming.Lib

/-!
# `malloc/alloc.c` — the allocator over byte memory

The allocator as it is written: block headers (`metadata_t`) live in the same bytes as the
payloads, every field access is a little-endian load or store at the field's offset, all
`size_t` arithmetic is modulo `2 ^ 64`, and the two lists are edited link by link through
the globals `tail` and `freehead`.

* `Field`, `Heap.get`, `Heap.set` — the fields of `metadata_t` (x86-64 layout, 56 bytes).
* `Heap.sbrk` — the system's answer is the Boolean `ok`; a granted call moves the break of
  one contiguous region that stays below `2 ^ 63`.
* `insertfree`, `removefree`, `split`, `malloc`, `calloc`, `free`, `realloc` — the source's
  functions.  A call that would not return is `none` (`firstFit` walks the free list).

`Heap.log` is a ghost: the byte ranges written so far, newest first.
-/

/-! ### `size_t` arithmetic -/

/-- `size_t` addition. -/
def add64 (a b : ℕ) : ℕ := (a + b) % 2 ^ 64

/-- `size_t` subtraction. -/
def sub64 (a b : ℕ) : ℕ := (a + (2 ^ 64 - b % 2 ^ 64)) % 2 ^ 64

/-- `size_t` multiplication. -/
def mul64 (a b : ℕ) : ℕ := a * b % 2 ^ 64

theorem add64_eq {a b : ℕ} (h : a + b < 2 ^ 64) : add64 a b = a + b := Nat.mod_eq_of_lt h

theorem sub64_eq {a b : ℕ} (hba : b ≤ a) (ha : a < 2 ^ 64) : sub64 a b = a - b := by
  rw [sub64, Nat.mod_eq_of_lt (by omega : b < 2 ^ 64)]
  omega

theorem mul64_eq {a b : ℕ} (h : a * b < 2 ^ 64) : mul64 a b = a * b := Nat.mod_eq_of_lt h

/-! ### Block headers -/

/-- The fields of `metadata_t`. -/
inductive Field
  | next | prev | freenext | freeprev | ptr | size | free
  deriving DecidableEq, Repr

/-- Byte offset of a field in the header. -/
def Field.off : Field → ℕ
  | next => 0
  | prev => 8
  | freenext => 16
  | freeprev => 24
  | ptr => 32
  | size => 40
  | free => 48

/-- Width of a field: `free` is an `int`, the others are pointers or `size_t`. -/
def Field.width : Field → ℕ
  | free => 4
  | _ => 8

/-- `sizeof(metadata_t)`, with its four bytes of padding. -/
def sizeofMetadata : ℕ := 56

/-- The allocator's memory and globals. -/
structure Heap where
  /-- all of memory -/
  mem : Mem
  /-- where the `sbrk`'d region starts -/
  start : ℕ
  /-- the break: where the region ends -/
  brk : ℕ
  /-- `static metadata_t* tail` -/
  tail : ℕ
  /-- `static metadata_t* freehead` -/
  freehead : ℕ
  /-- ghost: `(address, length)` of every write so far -/
  log : List (ℕ × ℕ)

namespace Heap

/-- `p->f`. -/
def get (h : Heap) (f : Field) (p : ℕ) : ℕ := h.mem.load f.width (p + f.off)

/-- `p->f = v`. -/
def set (h : Heap) (f : Field) (p v : ℕ) : Heap :=
  { h with mem := h.mem.store f.width (p + f.off) v
           log := (p + f.off, f.width) :: h.log }

/-- `if (p != NULL) { p->f = v; }`. -/
def setIf (h : Heap) (f : Field) (p v : ℕ) : Heap := if p ≠ 0 then h.set f p v else h

/-- `if (q == NULL) { tail = p; }`. -/
def tailIf (h : Heap) (q p : ℕ) : Heap := if q = 0 then { h with tail := p } else h

/-- `memset(a, b, n)`. -/
def memset (h : Heap) (a : ℕ) (b : UInt8) (n : ℕ) : Heap :=
  { h with mem := h.mem.fill a n b, log := (a, n) :: h.log }

/-- `memcpy(dst, src, n)`. -/
def memcpy (h : Heap) (dst src n : ℕ) : Heap :=
  { h with mem := h.mem.copy dst src n, log := (dst, n) :: h.log }

/-- `sbrk(inc)` with `inc` read as a signed increment; `ok` is the system's answer.  The
    region stays in `[start, 2 ^ 63)`; the result is the old break. -/
def sbrk (h : Heap) (ok : Bool) (inc : ℕ) : Option (ℕ × Heap) :=
  if inc < 2 ^ 63 then
    if ok ∧ h.brk + inc ≤ 2 ^ 63 then some (h.brk, { h with brk := h.brk + inc }) else none
  else
    if ok ∧ h.start + (2 ^ 64 - inc) ≤ h.brk then
      some (h.brk, { h with brk := h.brk - (2 ^ 64 - inc) })
    else none

end Heap

/-! ### The free list -/

/-- `insertfree(p)`. -/
def insertfree (h : Heap) (p : ℕ) : Heap :=
  let h := h.set .freeprev p 0
  let h := h.set .freenext p h.freehead
  let h := h.setIf .freeprev h.freehead p
  { h with freehead := p }

/-- `removefree(p)`. -/
def removefree (h : Heap) (p : ℕ) : Heap :=
  let tmp_prev := h.get .freeprev p
  let tmp_next := h.get .freenext p
  let h := h.set .freeprev p 0
  let h := h.set .freenext p 0
  let h := h.setIf .freeprev tmp_next tmp_prev
  let h := h.setIf .freenext tmp_prev tmp_next
  if p = h.freehead then { h with freehead := tmp_next } else h

/-! ### `malloc` and `calloc` -/

/-- The statements by which `split` writes the header `newptr` and links it after `p`;
    `tmp` is the old `p->next`. -/
def carve (h : Heap) (p newptr size tmp : ℕ) : Heap :=
  let h := h.set .size newptr size
  let h := h.set .ptr newptr (add64 newptr sizeofMetadata)
  let h := h.set .free newptr 1
  let h := h.set .next newptr tmp
  let h := h.setIf .prev tmp newptr
  let h := h.tailIf tmp newptr
  let h := h.set .prev newptr p
  let h := h.set .freenext newptr 0
  let h := h.set .freeprev newptr 0
  h.set .next p newptr

/-- `split(p, sz)`: the tail of `p` becomes a free block when it is large enough. -/
def split (h : Heap) (p sz : ℕ) : Heap :=
  if h.get .size p ≤ add64 sz (3 * sizeofMetadata) then h
  else
    let newptr := add64 (h.get .ptr p) sz
    if newptr = 0 then h
    else
      let size := sub64 (sub64 (h.get .size p) sz) sizeofMetadata
      insertfree (carve h p newptr size (h.get .next p)) newptr

/-- The search loop of `malloc` from the free block `tmp` on: `some 0` when the list ends,
    `none` when it has not ended after the given number of steps. -/
def firstFit (h : Heap) (size : ℕ) : ℕ → ℕ → Option ℕ
  | 0, _ => none
  | fuel + 1, tmp =>
    if tmp = 0 then some 0
    else if size ≤ h.get .size tmp then some tmp
    else firstFit h size fuel (h.get .freenext tmp)

/-- The branch of `malloc` that takes the free block `chosen`. -/
def reuse (h : Heap) (chosen size : ℕ) : ℕ × Heap :=
  let h := removefree h chosen
  let h := split h chosen size
  let h := h.set .free chosen 0
  let h := h.set .size chosen size
  (h.get .ptr chosen, h)

/-- The statements by which `malloc` writes the header of a new last block. -/
def appendBlock (h : Heap) (chosen size : ℕ) : Heap :=
  let h := h.set .ptr chosen (add64 chosen sizeofMetadata)
  let h := h.set .size chosen size
  let h := h.set .free chosen 0
  let h := h.set .next chosen 0
  let h := h.setIf .next h.tail chosen
  let h := h.set .prev chosen h.tail
  let h := { h with tail := chosen }
  let h := h.set .freenext chosen 0
  h.set .freeprev chosen 0

/-- The branch of `malloc` that extends the heap. -/
def grow (h : Heap) (ok : Bool) (size : ℕ) : ℕ × Heap :=
  match h.sbrk ok (add64 sizeofMetadata size) with
  | none => (0, h)
  | some (chosen, h) =>
    let h := appendBlock h chosen size
    let h := split h chosen size
    (h.get .ptr chosen, h)

/-- `malloc(size)`; the free list cannot hold more blocks than the region has bytes. -/
def malloc (h : Heap) (ok : Bool) (size : ℕ) : Option (ℕ × Heap) :=
  if size = 0 then some (0, h)
  else
    match firstFit h size (h.brk + 1) h.freehead with
    | none => none
    | some chosen => if chosen ≠ 0 then some (reuse h chosen size) else some (grow h ok size)

/-- `calloc(num, size)`. -/
def calloc (h : Heap) (ok : Bool) (num size : ℕ) : Option (ℕ × Heap) :=
  match malloc h ok (mul64 num size) with
  | none => none
  | some (p, h) => if p = 0 then some (0, h) else some (p, h.memset p 0 (mul64 num size))

/-! ### `free` and `realloc` -/

/-- The statements of `free` and `realloc` that unlink `temp`, the right neighbour of `p`. -/
def dropNext (h : Heap) (p temp : ℕ) : Heap :=
  let h := h.set .next p (h.get .next temp)
  let h := h.setIf .prev (h.get .next p) p
  let h := h.tailIf (h.get .next p) p
  let h := h.set .next temp 0
  h.set .prev temp 0

/-- The statements by which `free` and `realloc` merge the free right neighbour `temp` of
    `p` into `p`. -/
def absorbNext (h : Heap) (p temp : ℕ) : Heap :=
  let h := h.set .size p (add64 (h.get .size p) (add64 (h.get .size temp) sizeofMetadata))
  let h := removefree h temp
  dropNext h p temp

/-- The statements of `free` that unlink `p`, the right neighbour of `temp`, and add its
    size to `temp`. -/
def dropInto (h : Heap) (p temp : ℕ) : Heap :=
  let h := h.set .next temp (h.get .next p)
  let h := h.setIf .prev (h.get .next p) temp
  let h := h.tailIf (h.get .next p) temp
  let h := h.set .size temp (add64 (h.get .size temp) (add64 (h.get .size p) sizeofMetadata))
  let h := h.set .next p 0
  h.set .prev p 0

/-- The statements by which `free` merges `p` into its free left neighbour `temp`. -/
def mergePrev (h : Heap) (p temp : ℕ) : Heap :=
  let h := removefree h temp
  let h := dropInto h p temp
  insertfree h temp

/-- The first half of `free`: merge the marked block `p` with a free right neighbour. -/
def mergeNext (h : Heap) (p : ℕ) : Heap :=
  let temp := h.get .next p
  if temp ≠ 0 ∧ h.get .free temp = 1 then absorbNext h p temp else h

/-- The second half of `free`: `p` goes into its free left neighbour or on the free list. -/
def settle (h : Heap) (p : ℕ) : Heap :=
  let temp := h.get .prev p
  if temp ≠ 0 ∧ h.get .free temp = 1 then mergePrev h p temp else insertfree h p

/-- `free(ptr)`. -/
def free (h : Heap) (ptr : ℕ) : Heap :=
  if ptr = 0 then h
  else
    let p := sub64 ptr sizeofMetadata
    if p = 0 ∨ h.get .free p = 1 then h
    else settle (mergeNext (h.set .free p 1) p) p

/-- The test of `realloc` for growing `p` over its right neighbour. -/
def growsInPlace (h : Heap) (p size : ℕ) : Prop :=
  let temp := h.get .next p
  temp ≠ 0 ∧ size ≤ add64 (h.get .size temp) (h.get .size p) ∧ h.get .free temp = 1

instance (h : Heap) (p size : ℕ) : Decidable (growsInPlace h p size) :=
  inferInstanceAs (Decidable (_ ∧ _ ∧ _))

/-- `realloc(ptr, size)`. -/
def realloc (h : Heap) (ok : Bool) (ptr size : ℕ) : Option (ℕ × Heap) :=
  if ptr = 0 then malloc h ok size
  else if size = 0 then some (0, free h ptr)
  else
    let p := sub64 ptr sizeofMetadata
    if p = 0 then some (0, h)
    else
      let oldsz := h.get .size p
      if size ≤ oldsz then some (ptr, h)
      else
        if growsInPlace h p size then
          let h := absorbNext h p (h.get .next p)
          some (h.get .ptr p, h)
        else
          match malloc h ok size with
          | none => none
          | some (newptr, h) =>
            if newptr = 0 then some (0, h)
            else some (newptr, free (h.memcpy newptr ptr oldsz) ptr)

end SystemProgramming.Malloc
