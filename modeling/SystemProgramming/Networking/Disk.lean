import Mathlib.Algebra.Order.Group.Nat
import Mathlib.Logic.Function.Basic

namespace SystemProgramming.Networking

/-!
# The file system under the server

What the server asks of the directory it runs in: `open`, `read`, `write`, `fstat` and
`remove`.  Files are behind their names, so that a descriptor outlives its name, and a name
leads to a path, so that two names (`a` and `./a`) may be one.  A regular file takes
everything that is written to it, and a read of it is short only at its end.  A directory
cannot be removed: none that is empty is in reach.
-/

/-- A name, as a C string without its terminator. -/
abbrev Name := List UInt8

/-- What a path leads to. -/
inductive Entry
  /-- nothing yet; a file can be created -/
  | absent
  /-- a regular file -/
  | file (i : ℕ)
  /-- a directory -/
  | dir
  /-- nothing, and `open` fails even with `O_CREAT` -/
  | denied
  deriving DecidableEq

/-- The file system. -/
structure Disk where
  /-- the path that a name leads to -/
  place : Name → Name
  /-- what is at a path -/
  entry : Name → Entry
  /-- the contents of the files -/
  data : ℕ → List UInt8
  /-- the next file that is created -/
  next : ℕ
  /-- `st_size` of a directory -/
  dirSize : ℕ

/-- An open descriptor: a file with an offset, or a directory. -/
inductive Handle
  | file (i pos : ℕ)
  | dir
  deriving DecidableEq

namespace Disk

/-- What a name leads to. -/
def lookup (d : Disk) (name : Name) : Entry := d.entry (d.place name)

/-- `open(name, O_RDONLY)`. -/
def openRead (d : Disk) (name : Name) : Option Handle :=
  match d.lookup name with
  | .file i => some (.file i 0)
  | .dir => some .dir
  | _ => none

/-- The file that `open(name, O_CREAT | O_RDWR)` opens. -/
def openWrite (d : Disk) (name : Name) : Option (ℕ × Disk) :=
  match d.lookup name with
  | .file i => some (i, d)
  | .absent =>
    some (d.next, { d with entry := Function.update d.entry (d.place name) (.file d.next),
                           data := Function.update d.data d.next [], next := d.next + 1 })
  | _ => none

/-- `O_TRUNC`. -/
def truncate (d : Disk) (i : ℕ) : Disk := { d with data := Function.update d.data i [] }

/-- `write_all` at the end of the file. -/
def append (d : Disk) (i : ℕ) (bytes : List UInt8) : Disk :=
  { d with data := Function.update d.data i (d.data i ++ bytes) }

/-- `open(name, O_CREAT | O_RDWR | O_TRUNC)` and `write_all`; `none` when `open` fails. -/
def store (d : Disk) (name : Name) (bytes : List UInt8) : Option Disk :=
  (d.openWrite name).map (fun (i, d) => (d.truncate i).append i bytes)

/-- `open(name, O_CREAT | O_RDWR | O_APPEND)` and `write_all`; nothing is written when `open`
    fails. -/
def extend (d : Disk) (name : Name) (bytes : List UInt8) : Disk :=
  match d.openWrite name with
  | none => d
  | some (i, d) => d.append i bytes

/-- `fstat`, its `st_size`. -/
def size (d : Disk) : Handle → ℕ
  | .file i _ => (d.data i).length
  | .dir => d.dirSize

/-- `remove(name)`; `none` when it fails. -/
def remove (d : Disk) (name : Name) : Option Disk :=
  match d.lookup name with
  | .file _ => some { d with entry := Function.update d.entry (d.place name) .absent }
  | _ => none

/-- What is stored under the name. -/
def content (d : Disk) (name : Name) : Option (List UInt8) :=
  match d.lookup name with
  | .file i => some (d.data i)
  | _ => none

/-! ### What a request for one name changes -/

variable {d d' d'' : Disk} {name : Name} {i : ℕ} {bytes old : List UInt8}

/-- A file can be opened or created under the name. -/
def Writable (d : Disk) (name : Name) : Prop := d.lookup name ≠ .dir ∧ d.lookup name ≠ .denied

/-- From `d` to `d'` only what the name leads to has changed, and it leads to no file that was
    there under another path. -/
structure Only (d : Disk) (name : Name) (d' : Disk) : Prop where
  place : d'.place = d.place
  dirSize : d'.dirSize = d.dirSize
  next : d.next ≤ d'.next
  entry : ∀ p, p ≠ d.place name → d'.entry p = d.entry p
  data : ∀ i, i < d.next → d.lookup name ≠ .file i → d'.data i = d.data i
  here : ∀ i, d'.lookup name = .file i → d.lookup name = .file i ∨ d.next ≤ i ∧ i < d'.next

theorem Only.refl (d : Disk) (name : Name) : d.Only name d :=
  ⟨rfl, rfl, le_rfl, fun _ _ => rfl, fun _ _ _ => rfl, fun _ h => .inl h⟩

theorem Only.trans (h : d.Only name d') (h' : d'.Only name d'') : d.Only name d'' := by
  have hplace := h.place
  refine ⟨h'.place.trans h.place, h'.dirSize.trans h.dirSize, h.next.trans h'.next, ?_, ?_, ?_⟩
  · intro p hp
    rw [h'.entry p (hplace ▸ hp), h.entry p hp]
  · intro i hi hne
    -- `d'` does not lead to `i` either
    have hne' : d'.lookup name ≠ .file i := by
      intro hl
      rcases h.here i hl with hl | ⟨hl, -⟩
      · exact hne hl
      · exact absurd hi (Nat.not_lt.mpr hl)
    rw [h'.data i (hi.trans_le h.next) hne', h.data i hi hne]
  · intro i hl
    rcases h'.here i hl with hl | ⟨h1, h2⟩
    · exact (h.here i hl).imp_right (fun h3 => ⟨h3.1, h3.2.trans_le h'.next⟩)
    · exact .inr ⟨h.next.trans h1, h2⟩

theorem content_eq_some : d.content name = some bytes ↔
    ∃ i, d.lookup name = .file i ∧ d.data i = bytes := by
  unfold content
  split
  · rename_i i hi
    simp [hi]
  · rename_i h
    simpa using fun i hi => absurd hi (h i)

theorem openWrite_isSome : (d.openWrite name).isSome ↔ d.Writable name := by
  unfold openWrite Writable
  cases d.lookup name <;> simp

/-- Writing into the file that the name leads to. -/
theorem only_update (h : d.lookup name = .file i) (bytes : List UInt8) :
    d.Only name { d with data := Function.update d.data i bytes } := by
  refine ⟨rfl, rfl, le_rfl, fun _ _ => rfl, ?_, fun _ hl => .inl hl⟩
  intro k _ hne
  refine Function.update_of_ne ?_ _ _
  rintro rfl
  exact hne h

/-- Opening for writing: the file is there, or it is new and empty. -/
theorem openWrite_spec (h : d.openWrite name = some (i, d')) :
    d.Only name d' ∧ d'.lookup name = .file i ∧ (d.lookup name = .file i ∧ d' = d ∨
      d.lookup name = .absent ∧ d'.data i = []) := by
  unfold openWrite at h
  split at h
  · rename_i k hk
    obtain ⟨rfl, rfl⟩ := Prod.mk.inj (Option.some.inj h)
    exact ⟨.refl d name, hk, .inl ⟨hk, rfl⟩⟩
  · rename_i habs
    obtain ⟨rfl, rfl⟩ := Prod.mk.inj (Option.some.inj h)
    have hhere : Function.update d.entry (d.place name) (.file d.next) (d.place name)
        = .file d.next := Function.update_self ..
    refine ⟨⟨rfl, rfl, Nat.le_succ _, ?_, ?_, ?_⟩, hhere, .inr ⟨habs, Function.update_self ..⟩⟩
    · exact fun p hp => Function.update_of_ne hp _ _
    · exact fun k hk _ => Function.update_of_ne hk.ne _ _
    · intro k hk
      have hk' : Entry.file d.next = .file k := hhere.symm.trans hk
      obtain rfl := Entry.file.inj hk'
      exact .inr ⟨le_rfl, Nat.lt_succ_self _⟩
  · exact absurd h (by simp)

theorem store_eq_none : d.store name bytes = none ↔ ¬ d.Writable name := by
  rw [store, Option.map_eq_none_iff, ← openWrite_isSome, Option.isSome_iff_ne_none, not_not]

/-- **The first chunk**: the file holds it and nothing else. -/
theorem store_spec (h : d.store name bytes = some d') :
    d.Only name d' ∧ d'.content name = some bytes := by
  obtain ⟨⟨i, d₁⟩, hopen, rfl⟩ := Option.map_eq_some_iff.mp h
  obtain ⟨honly, hl, -⟩ := openWrite_spec hopen
  have heq : (d₁.truncate i).append i bytes
      = { d₁ with data := Function.update d₁.data i bytes } := by
    simp only [truncate, append, Function.update_self, List.nil_append, Function.update_idem]
  dsimp only
  rw [heq]
  exact ⟨honly.trans (only_update hl bytes), content_eq_some.mpr ⟨i, hl, Function.update_self ..⟩⟩

/-- **A later chunk**: it is put behind what the file holds. -/
theorem extend_spec (d : Disk) (name : Name) (bytes : List UInt8) :
    d.Only name (d.extend name bytes) ∧ ∀ old, d.content name = some old →
      (d.extend name bytes).content name = some (old ++ bytes) := by
  unfold extend
  rcases hopen : d.openWrite name with _ | ⟨i, d₁⟩
  · refine ⟨.refl d name, fun old hold => ?_⟩
    -- a file that is there can be opened
    obtain ⟨i, hi, -⟩ := content_eq_some.mp hold
    rw [openWrite, hi] at hopen
    exact absurd hopen (by simp)
  · obtain ⟨honly, hl, hnew⟩ := openWrite_spec hopen
    refine ⟨honly.trans (only_update hl _), fun old hold => ?_⟩
    obtain ⟨k, hk, rfl⟩ := content_eq_some.mp hold
    rcases hnew with ⟨hi, rfl⟩ | ⟨habs, -⟩
    · obtain rfl := Entry.file.inj (hk.symm.trans hi)
      exact content_eq_some.mpr ⟨k, hk, Function.update_self ..⟩
    · exact absurd (hk.symm.trans habs) (by simp)

/-- **Removing a file.** -/
theorem remove_spec (h : d.remove name = some d') :
    d.Only name d' ∧ d'.lookup name = .absent ∧ ∃ i, d.lookup name = .file i := by
  unfold remove at h
  split at h
  · rename_i i hi
    obtain rfl := Option.some.inj h
    have hhere : Function.update d.entry (d.place name) Entry.absent (d.place name) = .absent :=
      Function.update_self ..
    refine ⟨⟨rfl, rfl, le_rfl, fun p hp => Function.update_of_ne hp _ _, fun _ _ _ => rfl, ?_⟩,
      hhere, i, hi⟩
    intro k hk
    exact absurd (hhere.symm.trans hk) (by simp)
  · exact absurd h (by simp)

/-- Removing what is there, if it is a file. -/
theorem remove_getD (d : Disk) (name : Name) :
    d.Only name ((d.remove name).getD d) ∧ ((d.remove name).getD d).content name = none := by
  rcases h : d.remove name with _ | d'
  · refine ⟨.refl d name, ?_⟩
    show d.content name = none
    unfold remove at h
    unfold content
    cases hl : d.lookup name with
    | file i =>
      rw [hl] at h
      exact absurd h (by simp)
    | _ => rfl
  · obtain ⟨honly, habs, -⟩ := remove_spec h
    refine ⟨honly, ?_⟩
    show d'.content name = none
    unfold content
    rw [habs]

end Disk

end SystemProgramming.Networking
