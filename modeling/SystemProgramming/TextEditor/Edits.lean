import SystemProgramming.TextEditor.Document
import SystemProgramming.Vector.Vector

namespace SystemProgramming.TextEditor

open Lib
open SystemProgramming.Vector (int int_eq)

/-!
# The structural edits

Inserting into a line, splitting it, merging it with the next one and deleting it.  A position in a
line is a `size_t`, and `handle_split_line` passes it to `sstring_slice`, which takes an `int`.

* `Edit.apply` — the edits as operations on lists of strings.
* `Edit.Fits` — the cut of a split is an `int` that `sstring_slice` can take.
* `Edit.step` — one edit does what its operation does exactly if it fits.
* `edits_follow` — runs of edits, and the edits that restore the document.
-/

structure location where
  line_no : ℕ
  idx : ℕ

/-- The string that is sliced is not read beyond its end, `malloc` gets a size of one at least, and
    the size does not overflow. -/
def sstring_slice (this : Str) (start end_ : ℤ) : Option Str :=
  if 0 ≤ start ∧ start ≤ this.length ∧ 0 ≤ end_ - start ∧ end_ - start + 1 < 2 ^ 31 then
    some ((this.drop start.toNat).take (end_ - start).toNat)
  else none

/-! ### The functions -/

def handle_insert_command (d : document) (loc : location) (line : Str) : Option document :=
  if loc.line_no = 0 then none
  else if document_size d < loc.line_no then document_insert_line d loc.line_no line
  else do
    let tmp ← d.deref (← document_get_line d loc.line_no)
    -- `tmp + loc.idx` is in the string
    if loc.idx ≤ tmp.length then
      document_set_line d loc.line_no (tmp.take loc.idx ++ line ++ tmp.drop loc.idx)
    else none

def handle_delete_line (d : document) (line_no : ℕ) : Option document :=
  if line_no > document_size d then some d else document_delete_line d line_no

def handle_merge_line (d : document) (line_no : ℕ) : Option document :=
  if line_no < document_size d then do
    let temp ← d.deref (← document_get_line d line_no)
    let next ← d.deref (← document_get_line d (line_no + 1))
    let d ← document_set_line d line_no (temp ++ next)
    document_delete_line d (line_no + 1)
  else none

def handle_split_line (d : document) (loc : location) : Option document := do
  let temp ← document_get_line d loc.line_no
  let line ← d.deref temp
  if loc.idx ≥ line.length then some d
  else do
    let nextline := line.drop loc.idx
    let d ← document_insert_line d (loc.line_no + 1) nextline
    let mystr ← d.deref temp
    let temp ← sstring_slice mystr 0 (int loc.idx)
    document_set_line d loc.line_no temp

/-! ### The edits -/

inductive Edit
  | insert (loc : location) (line : Str)
  | split (loc : location)
  | merge (line_no : ℕ)
  | delete_line (line_no : ℕ)

def Edit.run (d : document) : Edit → Option document
  | insert loc line => handle_insert_command d loc line
  | split loc => handle_split_line d loc
  | merge line_no => handle_merge_line d line_no
  | delete_line line_no => handle_delete_line d line_no

/-- The edit as an operation on a list of strings. -/
def Edit.apply (ls : List Str) : Edit → List Str
  | insert loc line =>
    if ls.length < loc.line_no then padded ls (loc.line_no - 1) ++ [line]
    else ls.set (loc.line_no - 1)
      ((text ls loc.line_no).take loc.idx ++ line ++ (text ls loc.line_no).drop loc.idx)
  | split loc =>
    if loc.idx < (text ls loc.line_no).length then
      ls.take (loc.line_no - 1) ++ [(text ls loc.line_no).take loc.idx,
        (text ls loc.line_no).drop loc.idx] ++ ls.drop loc.line_no
    else ls
  | merge line_no =>
    ls.take (line_no - 1) ++ [text ls line_no ++ text ls (line_no + 1)] ++ ls.drop (line_no + 1)
  | delete_line line_no => ls.eraseIdx (line_no - 1)

/-- The range of the edit. -/
def Edit.Allowed (ls : List Str) : Edit → Prop
  | insert loc _ =>
    1 ≤ loc.line_no ∧ (loc.idx ≤ (text ls loc.line_no).length ∨ ls.length < loc.line_no)
  | split loc => 1 ≤ loc.line_no ∧ loc.line_no ≤ ls.length
  | merge line_no => line_no < ls.length
  | delete_line line_no => 1 ≤ line_no

/-- A split that goes ahead cuts the line at an `int` to which one can be added, and the line that
    is merged has a number from 1 on. -/
def Edit.Fits (ls : List Str) : Edit → Prop
  | split loc => loc.idx < (text ls loc.line_no).length → loc.idx < 2 ^ 31 - 1
  | merge line_no => 1 ≤ line_no
  | _ => True

instance (ls : List Str) : (e : Edit) → Decidable (e.Allowed ls)
  | .insert loc _ => inferInstanceAs (Decidable (1 ≤ loc.line_no ∧
      (loc.idx ≤ (text ls loc.line_no).length ∨ ls.length < loc.line_no)))
  | .split loc => inferInstanceAs (Decidable (1 ≤ loc.line_no ∧ loc.line_no ≤ ls.length))
  | .merge line_no => inferInstanceAs (Decidable (line_no < ls.length))
  | .delete_line line_no => inferInstanceAs (Decidable (1 ≤ line_no))

instance (ls : List Str) : (e : Edit) → Decidable (e.Fits ls)
  | .insert _ _ => isTrue trivial
  | .split loc =>
    inferInstanceAs (Decidable (loc.idx < (text ls loc.line_no).length → loc.idx < 2 ^ 31 - 1))
  | .merge line_no => inferInstanceAs (Decidable (1 ≤ line_no))
  | .delete_line _ => isTrue trivial

/-! ### One edit -/

variable {d : document} {ls : List Str} {l line : Str} {loc : location} {line_no n : ℕ} {e : Edit}

theorem sstring_slice_of_lt (hlt : n < 2 ^ 31 - 1) :
    sstring_slice l 0 (int n) = some (l.take n) := by
  have hdefined : (0 : ℤ) ≤ 0 ∧ (0 : ℤ) ≤ l.length ∧ 0 ≤ (n : ℤ) - 0 ∧ (n : ℤ) - 0 + 1 < 2 ^ 31 := by
    omega
  rw [sstring_slice, int_eq (by omega), if_pos hdefined, Int.toNat_zero, List.drop_zero,
    Int.sub_zero, Int.toNat_natCast]

/-- **The cut** is right exactly if the position and one more are `int`s. -/
theorem sstring_slice_int (h : n ≤ l.length) :
    sstring_slice l 0 (int n) = some (l.take n) ↔ n < 2 ^ 31 - 1 := by
  refine ⟨fun hslice => ?_, sstring_slice_of_lt⟩
  rw [sstring_slice] at hslice
  split at hslice
  · -- the slice is as long as the `int` says
    rename_i hint
    have hlen := congrArg List.length (Option.some.inj hslice)
    rw [Int.toNat_zero, List.drop_zero, List.length_take, List.length_take] at hlen
    omega
  · cases hslice

theorem handle_insert_command_lines (hallowed : (Edit.insert loc line).Allowed d.lines) :
    ∃ d', handle_insert_command d loc line = some d' ∧
      d'.lines = (Edit.insert loc line).apply d.lines := by
  obtain ⟨hpos, hidx⟩ := hallowed
  have hlength : d.lines.length = document_size d := length_lines d
  rw [handle_insert_command, if_neg (by omega), Edit.apply]
  by_cases hlt : document_size d < loc.line_no
  · obtain ⟨d', hrun, hlines, -⟩ := document_insert_line_spec (d := d) line hpos
    have hend : (padded d.lines (loc.line_no - 1)).length = loc.line_no - 1 := by
      rw [length_padded]
      omega
    refine ⟨d', by rw [if_pos hlt, hrun], ?_⟩
    rw [hlines, if_pos (by omega)]
    nth_rewrite 2 [← hend]
    exact List.insertIdx_length_self
  · have hle : loc.line_no ≤ d.lines.length := by omega
    obtain ⟨p, hget, hderef⟩ := line_spec hpos hle
    obtain ⟨d', hset, hlines⟩ := document_set_line_spec
      ((text d.lines loc.line_no).take loc.idx ++ line ++
        (text d.lines loc.line_no).drop loc.idx) hpos hle
    refine ⟨d', ?_, by rw [hlines, if_neg (by omega)]⟩
    simp only [if_neg hlt, hget, hderef d rfl, Option.bind_eq_bind, Option.bind_some,
      if_pos (hidx.resolve_right (by omega)), hset]

theorem handle_delete_line_lines (hpos : 0 < line_no) (d : document) :
    ∃ d', handle_delete_line d line_no = some d' ∧ d'.lines = d.lines.eraseIdx (line_no - 1) := by
  have hlength : d.lines.length = document_size d := length_lines d
  rw [handle_delete_line]
  by_cases hgt : line_no > document_size d
  · exact ⟨d, if_pos hgt, (List.eraseIdx_of_length_le (by omega)).symm⟩
  · rw [if_neg hgt]
    exact document_delete_line_spec hpos (by omega)

theorem handle_merge_line_lines (hpos : 0 < line_no) (hlt : line_no < d.lines.length) :
    ∃ d', handle_merge_line d line_no = some d' ∧ d'.lines = (Edit.merge line_no).apply d.lines := by
  have hlength : d.lines.length = document_size d := length_lines d
  obtain ⟨p, hget, hderef⟩ := line_spec hpos hlt.le
  obtain ⟨q, hgetq, hderefq⟩ := line_spec (Nat.succ_pos line_no) hlt
  have hset := document_set_line_spec (d := d)
    (text d.lines line_no ++ text d.lines (line_no + 1)) hpos hlt.le
  obtain ⟨d₁, hset, hlines₁⟩ := hset
  have hlength₁ : d₁.lines.length = d.lines.length := by rw [hlines₁, List.length_set]
  obtain ⟨d', hdelete, hlines⟩ := document_delete_line_spec (Nat.succ_pos line_no) (hlength₁ ▸ hlt)
  refine ⟨d', ?_, ?_⟩
  · simp only [handle_merge_line, if_pos (hlength ▸ hlt), hget, hderef d rfl, hgetq,
      hderefq d rfl, Option.bind_eq_bind, Option.bind_some, hset, hdelete]
  · have hlen : (d.lines.take (line_no - 1) ++
        [text d.lines line_no ++ text d.lines (line_no + 1)]).length = line_no := by
      rw [List.length_append, List.length_take, List.length_singleton]
      omega
    rw [hlines, hlines₁, set_eq hpos hlt.le, Nat.succ_sub_one, List.eraseIdx_eq_take_drop_succ,
      List.append_cons, List.take_left' hlen, ← List.drop_drop, List.drop_left' hlen,
      List.drop_drop, Edit.apply]

/-- What a split that goes ahead does, whatever the slice is. -/
theorem handle_split_line_lines (hpos : 0 < loc.line_no) (hle : loc.line_no ≤ d.lines.length)
    (hidx : loc.idx < (text d.lines loc.line_no).length) :
    (handle_split_line d loc).map document.lines =
      (sstring_slice (text d.lines loc.line_no) 0 (int loc.idx)).map fun l =>
        d.lines.take (loc.line_no - 1) ++ [l, (text d.lines loc.line_no).drop loc.idx] ++
          d.lines.drop loc.line_no := by
  obtain ⟨p, hget, hderef⟩ := line_spec hpos hle
  obtain ⟨d₁, hinsert, hlines₁, hdestroyed⟩ := document_insert_line_spec (d := d)
    ((text d.lines loc.line_no).drop loc.idx) (Nat.succ_pos loc.line_no)
  -- the next line is there while the line is still whole
  rw [Nat.succ_sub_one, padded_of_le hle, insertIdx_eq hle] at hlines₁
  have hlen : (d.lines.take loc.line_no).length = loc.line_no := List.length_take_of_le hle
  simp only [handle_split_line, hget, hderef d rfl, if_neg (Nat.not_le_of_lt hidx), hinsert,
    Option.bind_eq_bind, Option.bind_some]
  rw [hderef d₁ hdestroyed, Option.bind_some]
  cases sstring_slice (text d.lines loc.line_no) 0 (int loc.idx) with
  | none => rfl
  | some l =>
    have hle₁ : loc.line_no ≤ d₁.lines.length := by
      rw [hlines₁, List.length_append]
      omega
    obtain ⟨d', hset, hlines⟩ := document_set_line_spec l hpos hle₁
    rw [Option.bind_some, hset, Option.map_some, Option.map_some, hlines, set_eq hpos hle₁, hlines₁,
      List.drop_left' hlen, List.take_append_of_le_length (by omega), List.take_take,
      Nat.min_eq_left (Nat.sub_le _ _), List.append_assoc]
    rfl

/-- **One edit** does what its operation does exactly if it fits. -/
theorem Edit.step (hallowed : e.Allowed d.lines) :
    (∃ d', e.run d = some d' ∧ d'.lines = e.apply d.lines) ↔ e.Fits d.lines := by
  cases e with
  | insert loc line => exact iff_of_true (handle_insert_command_lines hallowed) trivial
  | delete_line line_no => exact iff_of_true (handle_delete_line_lines hallowed d) trivial
  | merge line_no =>
    by_cases hpos : 1 ≤ line_no
    · exact iff_of_true (handle_merge_line_lines hpos hallowed) hpos
    · -- there is no line 0
      obtain rfl : line_no = 0 := by omega
      refine iff_of_false (fun ⟨d', hrun, _⟩ => ?_) hpos
      rw [Edit.run, handle_merge_line, document_get_line, if_pos rfl] at hrun
      split at hrun <;> cases hrun
  | split loc =>
    obtain ⟨hpos, hle⟩ := hallowed
    by_cases hidx : loc.idx < (text d.lines loc.line_no).length
    · rw [← Option.map_eq_some_iff, Edit.run, handle_split_line_lines hpos hle hidx,
        Option.map_eq_some_iff, Edit.apply, if_pos hidx]
      constructor
      · rintro ⟨l, hslice, hlines⟩ -
        have hl := (List.cons.inj (List.append_cancel_left (List.append_cancel_right hlines))).1
        exact (sstring_slice_int hidx.le).mp (hl ▸ hslice)
      · intro hfits
        exact ⟨_, (sstring_slice_int hidx.le).mpr (hfits hidx), rfl⟩
    · refine iff_of_true ⟨d, ?_, ?_⟩ fun h => absurd h hidx
      · obtain ⟨p, hget, hderef⟩ := line_spec hpos hle
        simp only [Edit.run, handle_split_line, hget, hderef d rfl, if_pos (Nat.le_of_not_lt hidx),
          Option.bind_eq_bind, Option.bind_some]
      · rw [Edit.apply, if_neg hidx]

/-! ### Runs -/

def Edit.runs (d : document) (es : List Edit) : Option document := es.foldlM Edit.run d

/-- A condition on the edits, each on the list that it comes to. -/
def Edit.Along (P : List Str → Edit → Prop) : List Str → List Edit → Prop
  | _, [] => True
  | ls, e :: es => P ls e ∧ Along P (e.apply ls) es

variable {es : List Edit} {d₁ : document}

theorem Edit.runs_cons (hrun : e.run d = some d₁) : Edit.runs d (e :: es) = Edit.runs d₁ es := by
  rw [runs, List.foldlM_cons, hrun]
  rfl

/-- **A run of edits** follows the operations exactly if every edit fits. -/
theorem Edit.run_follows (hallowed : Edit.Along Edit.Allowed d.lines es) :
    (∀ k, ∃ d', Edit.runs d (es.take k) = some d' ∧
      d'.lines = (es.take k).foldl Edit.apply d.lines) ↔ Edit.Along Edit.Fits d.lines es := by
  induction es generalizing d with
  | nil =>
    refine iff_of_true (fun k => ?_) trivial
    rw [List.take_nil]
    exact ⟨d, rfl, rfl⟩
  | cons e es ih =>
    obtain ⟨he, hallowed⟩ := hallowed
    constructor
    · intro hfollows
      obtain ⟨d₁, hrun, hlines⟩ : ∃ d₁, e.run d = some d₁ ∧ d₁.lines = e.apply d.lines := by
        obtain ⟨d', hrun, hlines⟩ := hfollows 1
        obtain ⟨d₁, hstep, hend⟩ := Option.bind_eq_some_iff.mp hrun
        exact ⟨d₁, hstep, Option.some.inj hend ▸ hlines⟩
      have hfits : e.Fits d.lines := (Edit.step he).mp ⟨d₁, hrun, hlines⟩
      rw [← hlines] at hallowed
      refine ⟨hfits, hlines ▸ (ih hallowed).mp fun k => ?_⟩
      -- the rest of the run
      obtain ⟨d', hrun', hlines'⟩ := hfollows (k + 1)
      rw [List.take_succ_cons, Edit.runs_cons hrun] at hrun'
      rw [List.take_succ_cons, List.foldl_cons, ← hlines] at hlines'
      exact ⟨d', hrun', hlines'⟩
    · rintro ⟨hfits, hrest⟩
      obtain ⟨d₁, hrun, hlines⟩ := (Edit.step he).mpr hfits
      rw [← hlines] at hallowed hrest
      intro k
      cases k with
      | zero => exact ⟨d, rfl, rfl⟩
      | succ k =>
        obtain ⟨d', hrun', hlines'⟩ := (ih hallowed).mpr hrest k
        refine ⟨d', ?_, ?_⟩
        · rw [List.take_succ_cons, Edit.runs_cons hrun, hrun']
        · rw [hlines', List.take_succ_cons, List.foldl_cons, hlines]

/-! ### The edits that restore the document -/

variable {before after : List Str} {a b : Str}

theorem text_append (hn : before.length + 1 = n) : text (before ++ l :: after) n = l := by
  rw [text, ← hn, Nat.add_sub_cancel, List.getElem?_append_right le_rfl, Nat.sub_self]
  rfl

/-- The lines around a line. -/
theorem exists_line (hpos : 1 ≤ n) (hle : n ≤ ls.length) :
    ∃ before l after, ls = before ++ l :: after ∧ before.length + 1 = n := by
  have hlt : n - 1 < ls.length := by omega
  refine ⟨ls.take (n - 1), ls[n - 1], ls.drop (n - 1 + 1), ?_, ?_⟩
  · rw [← List.drop_eq_getElem_cons, List.take_append_drop]
  · rw [List.length_take]
    omega

theorem drop_append_cons (hn : before.length + 1 = n) : (before ++ l :: after).drop n = after := by
  rw [← hn, List.drop_length_add_append]
  rfl

theorem split_append (hn : before.length + 1 = loc.line_no) (hidx : loc.idx < l.length) :
    (Edit.split loc).apply (before ++ l :: after) =
      before ++ l.take loc.idx :: l.drop loc.idx :: after := by
  rw [Edit.apply, text_append hn, if_pos hidx, drop_append_cons hn, ← hn, Nat.add_sub_cancel,
    List.take_left, List.append_assoc]
  rfl

theorem merge_append (hn : before.length + 1 = n) :
    (Edit.merge n).apply (before ++ a :: b :: after) = before ++ (a ++ b) :: after := by
  have hnext : (before ++ [a]).length + 1 = n + 1 := by
    rw [List.length_append, List.length_singleton, hn]
  have hb : text (before ++ a :: b :: after) (n + 1) = b := by
    rw [List.append_cons, text_append hnext]
  have hdrop : (before ++ a :: b :: after).drop (n + 1) = after := by
    rw [List.append_cons, drop_append_cons hnext]
  rw [Edit.apply, text_append hn, hb, hdrop, ← hn, Nat.add_sub_cancel, List.take_left,
    List.append_assoc, List.singleton_append]

/-- A merge, in terms of the lines around. -/
theorem merge_at (hn : before.length + 1 = n) (hd : d.lines = before ++ a :: b :: after) :
    ∃ d', (Edit.merge n).run d = some d' ∧ d'.lines = before ++ (a ++ b) :: after := by
  have hlt : n < d.lines.length := by
    rw [hd, List.length_append, List.length_cons, List.length_cons]
    omega
  obtain ⟨d', hrun, hlines⟩ := handle_merge_line_lines (by omega) hlt
  exact ⟨d', hrun, by rw [hlines, hd, merge_append hn]⟩

/-- A split, in terms of the lines around. -/
theorem split_at (hn : before.length + 1 = loc.line_no) (hd : d.lines = before ++ l :: after)
    (hidx : loc.idx < l.length) :
    ((Edit.split loc).run d).map document.lines = (sstring_slice l 0 (int loc.idx)).map
      fun slice => before ++ slice :: l.drop loc.idx :: after := by
  have hle : loc.line_no ≤ d.lines.length := by
    rw [hd, List.length_append, List.length_cons]
    omega
  have hl : text d.lines loc.line_no = l := by rw [hd, text_append hn]
  have hlines : ((Edit.split loc).run d).map document.lines = _ :=
    handle_split_line_lines (by omega) hle (hl ▸ hidx)
  rw [hl, hd, drop_append_cons hn, ← hn, Nat.add_sub_cancel, List.take_left] at hlines
  simp only [List.append_assoc] at hlines
  exact hlines

/-- **A split and a merge** restore the document exactly if the split fits. -/
theorem split_merge (hallowed : (Edit.split loc).Allowed d.lines)
    (hidx : loc.idx < (text d.lines loc.line_no).length) :
    (∃ d', Edit.runs d [.split loc, .merge loc.line_no] = some d' ∧ d'.lines = d.lines) ↔
      loc.idx < 2 ^ 31 - 1 := by
  obtain ⟨before, l, after, hd, hn⟩ := exists_line hallowed.1 hallowed.2
  rw [hd, text_append hn] at hidx
  have hsplit := split_at hn hd hidx
  constructor
  · rintro ⟨d', hruns, hrestored⟩
    obtain ⟨d₁, hrun, hruns⟩ := Option.bind_eq_some_iff.mp hruns
    rw [hrun, Option.map_some] at hsplit
    obtain ⟨slice, hslice, h₁⟩ := Option.map_eq_some_iff.mp hsplit.symm
    obtain ⟨d₂, hrun₂, hlines₂⟩ := merge_at hn h₁.symm
    obtain rfl : d₂ = d' := by
      obtain ⟨d₃, hrun₃, hend⟩ := Option.bind_eq_some_iff.mp hruns
      exact Option.some.inj (hrun₂.symm.trans (hrun₃.trans hend))
    -- the line is whole again, so the slice was the part before the cut
    rw [hlines₂, hd] at hrestored
    have hwhole := (List.cons.inj (List.append_cancel_left hrestored)).1
    have htext : slice = l.take loc.idx :=
      List.append_cancel_right (hwhole.trans (List.take_append_drop loc.idx l).symm)
    exact (sstring_slice_int hidx.le).mp (htext ▸ hslice)
  · intro hlt
    rw [(sstring_slice_int hidx.le).mpr hlt, Option.map_some] at hsplit
    obtain ⟨d₁, hrun, h₁⟩ := Option.map_eq_some_iff.mp hsplit
    obtain ⟨d', hrun', hlines'⟩ := merge_at hn h₁
    refine ⟨d', ?_, by rw [hlines', List.take_append_drop, hd]⟩
    rw [Edit.runs_cons hrun, Edit.runs_cons hrun']
    rfl

/-- **A merge and a split** at the old length restore the document exactly if the split fits. -/
theorem merge_split (hpos : 1 ≤ n) (hlt : n < d.lines.length) (hnext : text d.lines (n + 1) ≠ []) :
    (∃ d', Edit.runs d [.merge n, .split ⟨n, (text d.lines n).length⟩] = some d' ∧
      d'.lines = d.lines) ↔ (text d.lines n).length < 2 ^ 31 - 1 := by
  obtain ⟨before, a, after, hd, hn⟩ := exists_line hpos hlt.le
  have ha : text d.lines n = a := by rw [hd, text_append hn]
  cases after with
  | nil =>
    rw [hd, List.length_append, List.length_singleton] at hlt
    omega
  | cons b after =>
    have hnext' : (before ++ [a]).length + 1 = n + 1 := by
      rw [List.length_append, List.length_singleton, hn]
    have hb : text d.lines (n + 1) = b := by rw [hd, List.append_cons, text_append hnext']
    have hidx : a.length < (a ++ b).length := by
      rw [List.length_append]
      exact Nat.lt_add_of_pos_right (List.length_pos_of_ne_nil (hb ▸ hnext))
    obtain ⟨d₁, hrun, h₁⟩ := merge_at hn hd
    have hsplit := split_at (show _ = (⟨n, a.length⟩ : location).line_no from hn) h₁ hidx
    rw [List.drop_left] at hsplit
    rw [ha, Edit.runs_cons hrun, hd, ← sstring_slice_int hidx.le, List.take_left]
    constructor
    · rintro ⟨d', hruns, hrestored⟩
      obtain ⟨d₂, hrun₂, hend⟩ := Option.bind_eq_some_iff.mp hruns
      obtain rfl := Option.some.inj hend
      rw [hrun₂, Option.map_some, hrestored] at hsplit
      obtain ⟨slice, hslice, hlines⟩ := Option.map_eq_some_iff.mp hsplit.symm
      rw [hslice, (List.cons.inj (List.append_cancel_left hlines)).1]
    · intro hslice
      rw [hslice, Option.map_some] at hsplit
      obtain ⟨d', hrun', hlines'⟩ := Option.map_eq_some_iff.mp hsplit
      exact ⟨d', by rw [Edit.runs_cons hrun']; rfl, hlines'⟩

/-- **The structural edits.**  In a run of edits in their ranges the document is always the list of
    the operations exactly if every edit fits.  A split and a merge, and a merge with a line that is
    not empty and a split, restore the document exactly if the split fits. -/
theorem edits_follow (d : document) :
    (∀ es, Edit.Along Edit.Allowed d.lines es →
      ((∀ k, ∃ d', Edit.runs d (es.take k) = some d' ∧
        d'.lines = (es.take k).foldl Edit.apply d.lines) ↔ Edit.Along Edit.Fits d.lines es)) ∧
    (∀ loc, (Edit.split loc).Allowed d.lines → loc.idx < (text d.lines loc.line_no).length →
      ((∃ d', Edit.runs d [.split loc, .merge loc.line_no] = some d' ∧ d'.lines = d.lines) ↔
        loc.idx < 2 ^ 31 - 1)) ∧
    (∀ n, 1 ≤ n → n < d.lines.length → text d.lines (n + 1) ≠ [] →
      ((∃ d', Edit.runs d [.merge n, .split ⟨n, (text d.lines n).length⟩] = some d' ∧
        d'.lines = d.lines) ↔ (text d.lines n).length < 2 ^ 31 - 1)) :=
  ⟨fun _ hallowed => Edit.run_follows hallowed, fun _ hallowed hidx => split_merge hallowed hidx,
    fun _ hpos hlt hnext => merge_split hpos hlt hnext⟩

/-- A line is inserted behind the end of an empty document, a text into the line, and the line is
    split, merged and deleted. -/
theorem edits_follow_five :
    ∃ d', Edit.runs document_create [.insert ⟨2, 0⟩ [letter_n], .insert ⟨2, 1⟩ [backslash],
        .split ⟨2, 1⟩, .merge 1, .delete_line 1] = some d' ∧ d'.lines = [[backslash]] :=
  ((edits_follow document_create).1 [.insert ⟨2, 0⟩ [letter_n], .insert ⟨2, 1⟩ [backslash],
    .split ⟨2, 1⟩, .merge 1, .delete_line 1]
    ⟨by decide, by decide, by decide, by decide, by decide, trivial⟩).mpr
    ⟨trivial, trivial, by decide, by decide, trivial, trivial⟩ 5

/-- **A split that loses text**: of the line before the cut `2 ^ 32` characters are gone. -/
theorem split_loses_text :
    ∃ d : document, d.lines = [List.replicate (2 ^ 32 + 6) letter_n] ∧
      (Edit.split ⟨1, 2 ^ 32 + 5⟩).Allowed d.lines ∧
      ((Edit.split ⟨1, 2 ^ 32 + 5⟩).run d).map document.lines =
        some [List.replicate 5 letter_n, [letter_n]] ∧
      (Edit.split ⟨1, 2 ^ 32 + 5⟩).apply d.lines ≠ [List.replicate 5 letter_n, [letter_n]] := by
  have hd : (document_create.vector_push_back (List.replicate (2 ^ 32 + 6) letter_n)).lines =
      [] ++ List.replicate (2 ^ 32 + 6) letter_n :: [] := Owned.values_grow _
  have hidx : (⟨1, 2 ^ 32 + 5⟩ : location).idx < (List.replicate (2 ^ 32 + 6) letter_n).length := by
    rw [List.length_replicate]
    exact Nat.lt_succ_self _
  have hdrop : (List.replicate (2 ^ 32 + 6) letter_n).drop (2 ^ 32 + 5) = [letter_n] := by
    rw [List.drop_replicate, show 2 ^ 32 + 6 - (2 ^ 32 + 5) = 1 from rfl]
    rfl
  refine ⟨document_create.vector_push_back (List.replicate (2 ^ 32 + 6) letter_n), hd, ?_, ?_, ?_⟩
  · rw [hd]
    exact ⟨le_rfl, le_rfl⟩
  · have hint : int (2 ^ 32 + 5) = 5 := rfl
    have hdefined : (0 : ℤ) ≤ 0 ∧ (0 : ℤ) ≤ (List.replicate (2 ^ 32 + 6) letter_n).length ∧
        (0 : ℤ) ≤ 5 - 0 ∧ (5 : ℤ) - 0 + 1 < 2 ^ 31 :=
      ⟨le_rfl, Int.natCast_nonneg _, by decide, by decide⟩
    rw [split_at rfl hd hidx, hdrop, hint, sstring_slice, if_pos hdefined, Option.map_some,
      Int.toNat_zero, List.drop_zero, List.take_replicate]
    rfl
  · rw [hd, split_append rfl hidx]
    intro h
    have hlen := congrArg List.length (List.cons.inj h).1
    rw [List.length_take, List.length_replicate, List.length_replicate] at hlen
    exact absurd hlen (by decide)

end SystemProgramming.TextEditor
