import SystemProgramming.Lib.SearchTree
import SystemProgramming.Vector.Vector

namespace SystemProgramming.MadMadAccessPatterns

open Lib
open SystemProgramming.Vector (int)

/-!
# `lookup1.c` and `lookup2.c` — two ways to look up words in a tree

The tree is in a file.  `lookup1` reads its nodes with `fread` and `fgets`, `lookup2` finds them in
a mapping of the file.  How a `BinaryTreeNode` lies in memory is said in a header that is not part
of the repository; here it is a `Layout`.

* `lookup1.main`, `lookup2.main` — the programs.
* `WellFormed` — the file has a tree.
* `answer` — what the tree has for a word.
-/

structure BinaryTreeNode (Count Price : Type) where
  left_child : ℕ
  right_child : ℕ
  count : Count
  price : Price

/-- Where the fields of a node are.  The offsets have 32 bits, and the word of the node begins
    behind its `size` bytes. -/
structure Layout (Count Price : Type) where
  size : ℕ
  read : List UInt8 → BinaryTreeNode Count Price
  left_lt : ∀ bytes, (read bytes).left_child < 2 ^ 32
  right_lt : ∀ bytes, (read bytes).right_child < 2 ^ 32

/-- A line of output. -/
inductive Line (Count Price : Type)
  | printArgumentUsage
  | openFail
  | mmapFail
  | formatFail
  | printNotFound (word : List UInt8)
  | printFound (word : List UInt8) (count : Count) (price : Price)
  deriving DecidableEq

/-- `"BTRE"`. -/
def magic : List UInt8 := [66, 84, 82, 69]

def newline : UInt8 := 10

/-- `strcmp` of a string with what is at an address; the memory may end there. -/
def strcmp : List UInt8 → List UInt8 → Option Ordering
  | _, [] => none
  | [], b :: _ => some (if b = 0 then .eq else .lt)
  | a :: as, b :: bs => if a = b then strcmp as bs else some (compare a b)

variable {Count Price : Type}

/-! ### `lookup1` -/

structure FILE where
  bytes : List UInt8
  pos : ℕ

namespace FILE

def fseek (f : FILE) (offset : ℕ) : FILE := { f with pos := offset }

/-- The bytes that are read; they are fewer at the end of the file. -/
def fread (f : FILE) (n : ℕ) : List UInt8 × FILE :=
  let got := (f.bytes.drop f.pos).take n
  (got, { f with pos := f.pos + got.length })

/-- The string without its final null; `none` is `NULL`. -/
def fgets (f : FILE) (n : ℕ) : Option (List UInt8 × FILE) :=
  let got := (f.bytes.drop f.pos).take (n - 1)
  if got = [] then none
  else
    let line := got.takeWhile (· ≠ newline) ++ if newline ∈ got then [newline] else []
    some (line, { f with pos := f.pos + line.length })

end FILE

namespace lookup1

/-- The loop for one word.  A node that is cut off is not looked at, as there is nothing left for
    `fgets`; a walk with more nodes than the file has bytes does not end. -/
def walk (L : Layout Count Price) (word : List UInt8) :
    ℕ → BinaryTreeNode Count Price → FILE → Option (Line Count Price)
  | 0, _, _ => none
  | fuel + 1, node, file =>
    match file.fgets 100 with
    | none => some .formatFail
    | some (nword, file) => do
      match ← strcmp word (nword ++ [0]) with
      | .eq => some (.printFound word node.count node.price)
      | .gt =>
        if node.right_child = 0 then some (.printNotFound word)
        else
          let r := (file.fseek node.right_child).fread L.size
          walk L word fuel (L.read r.1) r.2
      | .lt =>
        if node.left_child = 0 then some (.printNotFound word)
        else
          let r := (file.fseek node.left_child).fread L.size
          walk L word fuel (L.read r.1) r.2

/-- The loop over the words. -/
def lookups (L : Layout Count Price) (file : FILE) :
    List (List UInt8) → Option (List (Line Count Price) × ℕ)
  | [] => some ([], 0)
  | word :: rest => do
    let r := (file.fseek 4).fread L.size
    match ← walk L word (file.bytes.length + 1) (L.read r.1) r.2 with
    | .formatFail => some ([.formatFail], 3)
    | line => do
      let (lines, code) ← lookups L file rest
      some (line :: lines, code)

/-- The output and the exit code, for a file (`none` cannot be opened) and the words. -/
def main (L : Layout Count Price) (file : Option (List UInt8)) (words : List (List UInt8)) :
    Option (List (Line Count Price) × ℕ) :=
  if words = [] then some ([.printArgumentUsage], 1)
  else
    match file with
    | none => some ([.openFail], 2)
    | some bytes =>
      let r := (FILE.mk bytes 0).fread 4
      if r.1 ≠ magic then some ([.formatFail], 2)
      else lookups L r.2 words

end lookup1

/-! ### `lookup2` -/

namespace lookup2

/-- `off` is an `int`; there is nothing in front of the mapping, and behind it. -/
def search (L : Layout Count Price) (data word : List UInt8) :
    ℕ → ℤ → Option (Line Count Price)
  | 0, _ => none
  | fuel + 1, off =>
    if off = 0 then some (.printNotFound word)
    else if off < 0 then none
    else do
      let bytes := data.drop off.toNat
      let node := L.read (bytes.take L.size)
      match ← strcmp word (bytes.drop L.size) with
      | .eq => some (.printFound word node.count node.price)
      | .lt => search L data word fuel (int node.left_child)
      | .gt => search L data word fuel (int node.right_child)

def searches (L : Layout Count Price) (data : List UInt8) :
    List (List UInt8) → Option (List (Line Count Price) × ℕ)
  | [] => some ([], 0)
  | word :: rest => do
    let line ← search L data word (data.length + 1) 4
    let (lines, code) ← searches L data rest
    some (line :: lines, code)

def main (L : Layout Count Price) (file : Option (List UInt8)) (words : List (List UInt8)) :
    Option (List (Line Count Price) × ℕ) :=
  if words = [] then some ([.printArgumentUsage], 1)
  else
    match file with
    | none => some ([.openFail], 2)
    | some [] => some ([.mmapFail], 3)  -- nothing to map
    | some data =>
      if data.take 4 ≠ magic then some ([.formatFail], 2)
      else searches L data words

end lookup2

/-! ### The file -/

/-- What the tree has with a word, and the place of its node. -/
structure Entry (Count Price : Type) where
  offset : ℕ
  count : Count
  price : Price

abbrev Tree (Count Price : Type) := SearchTree (List UInt8) (Entry Count Price)

/-- The tree is at an offset of the file: a node, its word and a null, and its children at its
    offsets.  The nodes can lie in any order. -/
def Stored (L : Layout Count Price) (bytes : List UInt8) : ℕ → Tree Count Price → Prop
  | offset, .leaf => offset = 0
  | offset, .node left word e right =>
    offset ≠ 0 ∧ e.offset = offset ∧ 0 ∉ word ∧ newline ∉ word ∧
    ∃ header rest, bytes.drop offset = header ++ (word ++ 0 :: rest) ∧ header.length = L.size ∧
      (L.read header).count = e.count ∧ (L.read header).price = e.price ∧
      Stored L bytes (L.read header).left_child left ∧
      Stored L bytes (L.read header).right_child right

structure WellFormed (L : Layout Count Price) (bytes : List UInt8) (t : Tree Count Price) :
    Prop where
  magic : bytes.take 4 = magic
  stored : Stored L bytes 4 t
  ordered : t.Ordered

/-- The line for what was found. -/
def report (word : List UInt8) : Option (Entry Count Price) → Line Count Price
  | some e => .printFound word e.count e.price
  | none => .printNotFound word

/-- **The right answer.** -/
def answer (t : Tree Count Price) (word : List UInt8) : Line Count Price :=
  report word (t.entries.lookup word)

end SystemProgramming.MadMadAccessPatterns
