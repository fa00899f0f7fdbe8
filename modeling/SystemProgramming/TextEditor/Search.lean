import SystemProgramming.TextEditor.Edits
import Mathlib.Data.List.Infix
import Mathlib.Data.Prod.Lex

namespace SystemProgramming.TextEditor

open Lib
open SystemProgramming.Vector (int int_le)

/-!
# Searching

`handle_search_command` goes once through the lines in a circle.  The cursor's line is looked at in
the first round only, from a column on that is the one behind the cursor, or the first one where the
cursor is not in the line.

* `place` — the order of the positions around the cursor.
* `search_cases` — the three results of the command.
* `handle_search_command_finds_iff` — when it finds the first occurrence.
-/

/-- The first place where the needle stands. -/
def strstr (haystack needle : Str) : Option ℕ := haystack.tails.findIdx? needle.isPrefixOf

/-- The loop, for the `rounds` numbers from `i` on. -/
def search_loop (d : document) (line_no : ℕ) (search_str : Str) : ℕ → ℕ → ℤ → Option location
  | 0, _, _ => some ⟨0, 0⟩
  | rounds + 1, i, index => do
    let j := if i > document_size d then i - document_size d else i
    let curr ← d.deref (← document_get_line d j)
    let index := if index ≥ int curr.length then -1 else index
    let index := if i > line_no then -1 else index
    -- `curr + index + 1` is in the string
    if 0 ≤ index + 1 ∧ index + 1 ≤ curr.length then
      match strstr (curr.drop (index + 1).toNat) search_str with
      | some search => some ⟨j, (index + 1).toNat + search⟩
      | none => search_loop d line_no search_str rounds (i + 1) index
    else none

def handle_search_command (d : document) (loc : location) (search_str : Str) : Option location :=
  if search_str = [] then some ⟨0, 0⟩
  else search_loop d loc.line_no search_str (document_size d) loc.line_no (int loc.idx)

/-! ### Occurrences -/

/-- The string stands at a position of the document. -/
def Occurs (ls : List Str) (s : Str) (q : location) : Prop :=
  (1 ≤ q.line_no ∧ q.line_no ≤ ls.length) ∧ s <+: (text ls q.line_no).drop q.idx

/-- The lines between the cursor and a position: the cursor's line comes first behind the cursor,
    and again after all the other lines. -/
def lap (size : ℕ) (loc q : location) : ℕ :=
  if q.line_no = loc.line_no then if loc.idx < q.idx then 0 else size
  else if loc.line_no < q.line_no then q.line_no - loc.line_no
  else q.line_no + size - loc.line_no

/-- The cyclic order of the positions from the cursor on. -/
def place (size : ℕ) (loc q : location) : ℕ ×ₗ ℕ := toLex (lap size loc q, q.idx)

/-- The search finds the first occurrence, and `(0, 0)` if there is none. -/
def Finds (d : document) (loc : location) (s : Str) : Prop :=
  ∃ r, handle_search_command d loc s = some r ∧
    ((∃ q, Occurs d.lines s q) → Occurs d.lines s r ∧
      ∀ q, Occurs d.lines s q → place d.lines.length loc r ≤ place d.lines.length loc q) ∧
    (r = ⟨0, 0⟩ ↔ ¬∃ q, Occurs d.lines s q)

/-- The column of the cursor's line at which the search begins. -/
def column (ls : List Str) (loc : location) : ℤ :=
  (if int loc.idx ≥ int (text ls loc.line_no).length then -1 else int loc.idx) + 1

/-- The string occurs behind the cursor or on another line. -/
def Ahead (ls : List Str) (loc : location) (s : Str) : Prop :=
  ∃ q, Occurs ls s q ∧ (q.line_no = loc.line_no → loc.idx < q.idx)

/-- The search begins in the cursor's line.  If the string occurs ahead of the cursor, it begins
    among the occurrences of that line where the cursor stands, and in front of them otherwise. -/
def SearchFits (ls : List Str) (loc : location) (s : Str) : Prop :=
  0 ≤ column ls loc ∧ ∀ q, Occurs ls s q → q.line_no = loc.line_no →
    (Ahead ls loc s → (column ls loc ≤ q.idx ↔ loc.idx < q.idx)) ∧
    (¬Ahead ls loc s → column ls loc ≤ q.idx)

/-! ### The order -/

variable {d : document} {ls : List Str} {l s : Str} {loc q r : location} {line_no size n : ℕ}

theorem place_le : place size loc q ≤ place size loc r ↔
    lap size loc q < lap size loc r ∨ lap size loc q = lap size loc r ∧ q.idx ≤ r.idx :=
  Prod.Lex.toLex_le_toLex

theorem lap_ahead (hline : q.line_no = loc.line_no) (hlt : loc.idx < q.idx) :
    lap size loc q = 0 := by
  rw [lap, if_pos hline, if_pos hlt]

theorem lap_behind (hline : q.line_no = loc.line_no) (hle : ¬loc.idx < q.idx) :
    lap size loc q = size := by
  rw [lap, if_pos hline, if_neg hle]

theorem lap_between (hloc : 1 ≤ loc.line_no ∧ loc.line_no ≤ size)
    (hq : 1 ≤ q.line_no ∧ q.line_no ≤ size) (hline : q.line_no ≠ loc.line_no) :
    0 < lap size loc q ∧ lap size loc q < size := by
  rw [lap, if_neg hline]
  split <;> omega

/-! ### One line -/

theorem strstr_eq_some :
    strstr l s = some n ↔ n ≤ l.length ∧ s <+: l.drop n ∧ ∀ k < n, ¬s <+: l.drop k := by
  rw [strstr, List.findIdx?_eq_some_iff_getElem]
  simp only [List.length_tails, Nat.lt_succ_iff, List.getElem_tails, List.isPrefixOf_iff_prefix,
    exists_prop]

theorem strstr_eq_none : strstr l s = none ↔ ∀ k, ¬s <+: l.drop k := by
  rw [strstr, List.findIdx?_eq_none_iff]
  simp only [List.mem_tails, Bool.eq_false_iff, ne_eq, List.isPrefixOf_iff_prefix]
  refine ⟨fun h k => h _ (List.drop_suffix k l), fun h t ht => ?_⟩
  obtain ⟨before, rfl⟩ := ht
  have hprefix := h before.length
  rwa [List.drop_left] at hprefix

/-- The first occurrence in a line from a column on. -/
theorem strstr_from (l s : Str) (c : ℕ) :
    (∃ k, strstr (l.drop c) s = some k ∧ s <+: l.drop (c + k) ∧
      ∀ p, c ≤ p → s <+: l.drop p → c + k ≤ p) ∨
    strstr (l.drop c) s = none ∧ ∀ p, c ≤ p → ¬s <+: l.drop p := by
  cases hstr : strstr (l.drop c) s with
  | some k =>
    obtain ⟨-, hk, hfirst⟩ := strstr_eq_some.1 hstr
    rw [List.drop_drop] at hk
    refine .inl ⟨k, rfl, hk, fun p hp hprefix => not_lt.1 fun hlt => ?_⟩
    refine hfirst (p - c) (by omega) ?_
    rwa [List.drop_drop, Nat.add_sub_cancel' hp]
  | none =>
    refine .inr ⟨rfl, fun p hp hprefix => strstr_eq_none.1 hstr (p - c) ?_⟩
    rwa [List.drop_drop, Nat.add_sub_cancel' hp]

/-! ### The loop -/

/-- The line with the number `i` of the circle. -/
def circle (size i : ℕ) : ℕ := if i > size then i - size else i

theorem column_le (ls : List Str) (loc : location) :
    column ls loc ≤ (text ls loc.line_no).length := by
  rw [column]
  have hle := int_le (text ls loc.line_no).length
  split <;> omega

/-- **One round** looks at a line behind an index. -/
theorem search_loop_round {i : ℕ} {index index' : ℤ} (rounds : ℕ)
    (hi : 1 ≤ circle d.lines.length i ∧ circle d.lines.length i ≤ d.lines.length)
    (hindex : (if i > line_no then -1 else
      if index ≥ int (text d.lines (circle d.lines.length i)).length then -1 else index) = index') :
    search_loop d line_no s (rounds + 1) i index =
      if 0 ≤ index' + 1 ∧ index' + 1 ≤ (text d.lines (circle d.lines.length i)).length then
        match strstr ((text d.lines (circle d.lines.length i)).drop (index' + 1).toNat) s with
        | some search => some ⟨circle d.lines.length i, (index' + 1).toNat + search⟩
        | none => search_loop d line_no s rounds (i + 1) index'
      else none := by
  obtain ⟨p, hget, hderef⟩ := line_spec hi.1 hi.2
  rw [length_lines] at hget hderef hindex ⊢
  have hj : (if i > document_size d then i - document_size d else i) =
    circle (document_size d) i := rfl
  rw [search_loop]
  simp only [hj, hget, hderef d rfl, Option.bind_eq_bind, Option.bind_some, hindex]

/-- **The later rounds** look at whole lines, and find the first occurrence in the first line that
    has one. -/
theorem search_loop_later {i : ℕ} (rounds : ℕ) (index : ℤ) (hlt : line_no < i)
    (hline : line_no ≤ d.lines.length) (hend : i + rounds ≤ d.lines.length + line_no) :
    (∃ m p, search_loop d line_no s rounds i index = some ⟨circle d.lines.length m, p⟩ ∧
      (i ≤ m ∧ m < i + rounds) ∧ s <+: (text d.lines (circle d.lines.length m)).drop p ∧
      ∀ m' p', i ≤ m' → s <+: (text d.lines (circle d.lines.length m')).drop p' →
        m < m' ∨ m = m' ∧ p ≤ p') ∨
    search_loop d line_no s rounds i index = some ⟨0, 0⟩ ∧
      ∀ m p, i ≤ m → m < i + rounds → ¬s <+: (text d.lines (circle d.lines.length m)).drop p := by
  induction rounds generalizing i index with
  | zero => exact .inr ⟨rfl, fun m p hm hm' => absurd hm' (by omega)⟩
  | succ rounds ih =>
    have hcircle : 1 ≤ circle d.lines.length i ∧ circle d.lines.length i ≤ d.lines.length := by
      rw [circle]
      split <;> omega
    have hzero : (-1 + 1 : ℤ).toNat = 0 := rfl
    rw [search_loop_round rounds hcircle (if_pos hlt), if_pos (by omega), hzero]
    obtain ⟨k, hstr, hk, hfirst⟩ | ⟨hstr, hnone⟩ :=
      strstr_from (text d.lines (circle d.lines.length i)) s 0
    · rw [hstr]
      refine .inl ⟨i, 0 + k, rfl, by omega, hk, fun m' p' hm' hp' => ?_⟩
      obtain rfl | hne := eq_or_ne i m'
      · exact .inr ⟨rfl, hfirst p' (Nat.zero_le _) hp'⟩
      · exact .inl (by omega)
    · rw [hstr]
      have hlater := ih (-1) (i := i + 1) (by omega) (by omega)
      obtain ⟨m, p, hrun, hm, hp, hfirst⟩ | ⟨hrun, hfirst⟩ := hlater
      · refine .inl ⟨m, p, hrun, by omega, hp, fun m' p' hm' hp' => ?_⟩
        obtain rfl | hne := eq_or_ne i m'
        · exact absurd hp' (hnone p' (Nat.zero_le _))
        · exact hfirst m' p' (by omega) hp'
      · refine .inr ⟨hrun, fun m p hm hm' hp => ?_⟩
        obtain rfl | hne := eq_or_ne i m
        · exact hnone p (Nat.zero_le _) hp
        · exact hfirst m p (by omega) (by omega) hp

/-! ### The command -/

/-- **The first round** looks at the cursor's line from the column on. -/
theorem search_first (hloc : 1 ≤ loc.line_no ∧ loc.line_no ≤ d.lines.length) (hs : s ≠ []) :
    handle_search_command d loc s =
      if 0 ≤ column d.lines loc then
        match strstr ((text d.lines loc.line_no).drop (column d.lines loc).toNat) s with
        | some search => some ⟨loc.line_no, (column d.lines loc).toNat + search⟩
        | none => search_loop d loc.line_no s (d.lines.length - 1) (loc.line_no + 1)
            (column d.lines loc - 1)
      else none := by
  have hcircle : circle d.lines.length loc.line_no = loc.line_no := if_neg (by omega)
  have hle := column_le d.lines loc
  obtain ⟨rounds, hrounds⟩ : ∃ rounds, d.lines.length = rounds + 1 :=
    ⟨d.lines.length - 1, by omega⟩
  have hindex : (if loc.line_no > loc.line_no then -1 else
      if int loc.idx ≥ int (text d.lines (circle d.lines.length loc.line_no)).length then -1
      else int loc.idx) = column d.lines loc - 1 := by
    rw [if_neg (lt_irrefl _), hcircle, column, Int.add_sub_cancel]
  have hround := search_loop_round (s := s) rounds (by rwa [hcircle]) hindex
  rw [hcircle, Int.sub_add_cancel] at hround
  rw [handle_search_command, if_neg hs, ← length_lines, hrounds, hround, ← hrounds, hrounds,
    Nat.add_sub_cancel]
  simp only [hle, and_true]

/-- **The three results**: the first occurrence in the cursor's line from the column on, or else the
    first one on another line, or else `(0, 0)`. -/
theorem search_cases (hloc : 1 ≤ loc.line_no ∧ loc.line_no ≤ d.lines.length) (hs : s ≠ [])
    (hcolumn : 0 ≤ column d.lines loc) :
    (∃ r, handle_search_command d loc s = some r ∧ Occurs d.lines s r ∧
      r.line_no = loc.line_no ∧ column d.lines loc ≤ r.idx ∧
      ∀ q, Occurs d.lines s q → q.line_no = loc.line_no → column d.lines loc ≤ q.idx →
        r.idx ≤ q.idx) ∨
    (∀ q, Occurs d.lines s q → q.line_no = loc.line_no → q.idx < column d.lines loc) ∧
    ((∃ r, handle_search_command d loc s = some r ∧ Occurs d.lines s r ∧
        r.line_no ≠ loc.line_no ∧
        ∀ q, Occurs d.lines s q → q.line_no ≠ loc.line_no →
          place d.lines.length loc r ≤ place d.lines.length loc q) ∨
      handle_search_command d loc s = some ⟨0, 0⟩ ∧
        ∀ q, Occurs d.lines s q → q.line_no = loc.line_no) := by
  obtain ⟨c, hc⟩ := Int.eq_ofNat_of_zero_le hcolumn
  rw [search_first hloc hs, if_pos hcolumn, hc, Int.toNat_natCast]
  obtain ⟨k, hstr, hk, hleast⟩ | ⟨hstr, hnone⟩ :=
    strstr_from (text d.lines loc.line_no) s c
  · rw [hstr]
    refine .inl ⟨⟨loc.line_no, c + k⟩, rfl, ⟨hloc, hk⟩, rfl,
      Int.ofNat_le.2 (Nat.le_add_right c k), ?_⟩
    rintro q ⟨-, hq⟩ hline hqc
    rw [hline] at hq
    exact hleast q.idx (by omega) hq
  · rw [hstr]
    refine .inr ⟨fun q hq hline => ?_, ?_⟩
    · have hq' := hq.2
      rw [hline] at hq'
      exact not_le.1 fun hge => hnone q.idx (Int.ofNat_le.1 hge) hq'
    · -- the number in the circle of another line
      have hnumber (q : location) (hq : 1 ≤ q.line_no ∧ q.line_no ≤ d.lines.length)
          (hline : q.line_no ≠ loc.line_no) :
          q.line_no = circle d.lines.length (loc.line_no + lap d.lines.length loc q) := by
        rw [lap, if_neg hline, circle]
        split_ifs <;> omega
      have hlater := search_loop_later (s := s) (d.lines.length - 1) (c - 1)
        (Nat.lt_succ_self loc.line_no) hloc.2 (by omega)
      obtain ⟨m, p, hrun, hm, hp, hfirst⟩ | ⟨hrun, hnone⟩ := hlater
      · have hcirclem : 1 ≤ circle d.lines.length m ∧ circle d.lines.length m ≤ d.lines.length ∧
            circle d.lines.length m ≠ loc.line_no ∧
            lap d.lines.length loc ⟨circle d.lines.length m, p⟩ = m - loc.line_no := by
          rw [circle, lap]
          dsimp only
          split_ifs <;> omega
        refine .inl ⟨_, hrun, ⟨⟨hcirclem.1, hcirclem.2.1⟩, hp⟩, hcirclem.2.2.1, fun q hq hline => ?_⟩
        have hlap := lap_between hloc hq.1 hline
        have hocc := hq.2
        rw [hnumber q hq.1 hline] at hocc
        rw [place_le, hcirclem.2.2.2]
        have hbefore := hfirst _ q.idx (by omega) hocc
        show _ ∨ _ ∧ p ≤ q.idx
        omega
      · refine .inr ⟨hrun, fun q hq => not_not.1 fun hline => ?_⟩
        have hlap := lap_between hloc hq.1 hline
        have hocc := hq.2
        rw [hnumber q hq.1 hline] at hocc
        exact hnone _ q.idx (by omega) (by omega) hocc

/-- Where the column is not in the line, the search reads outside of it. -/
theorem search_outside (hloc : 1 ≤ loc.line_no ∧ loc.line_no ≤ d.lines.length) (hs : s ≠ [])
    (hcolumn : ¬0 ≤ column d.lines loc) : handle_search_command d loc s = none := by
  rw [search_first hloc hs, if_neg hcolumn]

theorem finds_of_occurs (hr : handle_search_command d loc s = some r) (hocc : Occurs d.lines s r) :
    Finds d loc s ↔
      ∀ q, Occurs d.lines s q → place d.lines.length loc r ≤ place d.lines.length loc q := by
  constructor
  · rintro ⟨r', hr', hfirst, -⟩
    rw [hr, Option.some.injEq] at hr'
    exact hr' ▸ (hfirst ⟨r, hocc⟩).2
  · refine fun hfirst => ⟨r, hr, fun _ => ⟨hocc, hfirst⟩, fun hzero => ?_, fun h => absurd ⟨r, hocc⟩ h⟩
    -- no line has the number 0
    have hpos := hocc.1.1
    rw [hzero] at hpos
    exact absurd hpos (Nat.not_succ_le_zero 0)

/-- A result on the cursor's line is the first occurrence if the search begins well. -/
theorem first_here_iff (hloc : 1 ≤ loc.line_no ∧ loc.line_no ≤ ls.length)
    (hocc : Occurs ls s r) (hrline : r.line_no = loc.line_no) (hrc : column ls loc ≤ r.idx)
    (hcolumn : 0 ≤ column ls loc)
    (hleast : ∀ q, Occurs ls s q → q.line_no = loc.line_no → column ls loc ≤ q.idx →
      r.idx ≤ q.idx) :
    (∀ q, Occurs ls s q → place ls.length loc r ≤ place ls.length loc q) ↔
      SearchFits ls loc s := by
  simp only [place_le]
  refine ⟨fun hfirst => ⟨hcolumn, fun q hq hline => ⟨?_, fun hnot => ?_⟩⟩, fun hfits q hq => ?_⟩
  · rintro ⟨q', hq', hahead⟩
    -- the result is in front of `q'`, and so behind the cursor
    have hlt : loc.idx < r.idx := not_le.1 fun hle => by
      have hlast := hfirst q' hq'
      rw [lap_behind hrline hle.not_gt] at hlast
      by_cases hline' : q'.line_no = loc.line_no
      · rw [lap_ahead hline' (hahead hline')] at hlast
        omega
      · have hlap := lap_between hloc hq'.1 hline'
        omega
    refine ⟨fun hc => hlt.trans_le (hleast q hq hline hc), fun hafter => ?_⟩
    have hplace := hfirst q hq
    rw [lap_ahead hrline hlt, lap_ahead hline hafter] at hplace
    omega
  · have hbehind (q : location) (hq : Occurs ls s q) (hline : q.line_no = loc.line_no) :
        ¬loc.idx < q.idx := fun hlt => hnot ⟨q, hq, fun _ => hlt⟩
    have hplace := hfirst q hq
    rw [lap_behind hrline (hbehind r hocc hrline), lap_behind hline (hbehind q hq hline)] at hplace
    omega
  · obtain ⟨hboth, hnone⟩ := hfits.2 r hocc hrline
    by_cases hahead : Ahead ls loc s
    · have hlt := (hboth hahead).1 hrc
      rw [lap_ahead hrline hlt]
      by_cases hline : q.line_no = loc.line_no
      · by_cases hafter : loc.idx < q.idx
        · have hq' := hleast q hq hline (((hfits.2 q hq hline).1 hahead).2 hafter)
          exact .inr ⟨(lap_ahead hline hafter).symm, hq'⟩
        · rw [lap_behind hline hafter]
          omega
      · exact .inl (lap_between hloc hq.1 hline).1
    · have hline (q : location) (hq : Occurs ls s q) :
          q.line_no = loc.line_no ∧ ¬loc.idx < q.idx :=
        ⟨not_not.1 fun h => hahead ⟨q, hq, fun h' => absurd h' h⟩,
          fun hlt => hahead ⟨q, hq, fun _ => hlt⟩⟩
      have hq' := hleast q hq (hline q hq).1 ((hfits.2 q hq (hline q hq).1).2 hahead)
      rw [lap_behind hrline (hline r hocc).2, lap_behind (hline q hq).1 (hline q hq).2]
      exact .inr ⟨rfl, hq'⟩

/-- A result on another line is the first occurrence if none stands behind the cursor. -/
theorem first_there_iff (hloc : 1 ≤ loc.line_no ∧ loc.line_no ≤ ls.length)
    (hocc : Occurs ls s r) (hrline : r.line_no ≠ loc.line_no) (hcolumn : 0 ≤ column ls loc)
    (hnone : ∀ q, Occurs ls s q → q.line_no = loc.line_no → q.idx < column ls loc)
    (hleast : ∀ q, Occurs ls s q → q.line_no ≠ loc.line_no →
      place ls.length loc r ≤ place ls.length loc q) :
    (∀ q, Occurs ls s q → place ls.length loc r ≤ place ls.length loc q) ↔
      SearchFits ls loc s := by
  have hahead : Ahead ls loc s := ⟨r, hocc, fun h => absurd h hrline⟩
  have hlap := lap_between hloc hocc.1 hrline
  refine ⟨fun hfirst => ⟨hcolumn, fun q hq hline => ⟨fun _ => ?_, fun h => absurd hahead h⟩⟩,
    fun hfits q hq => ?_⟩
  · refine ⟨fun hc => absurd (hnone q hq hline) hc.not_gt, fun hafter => ?_⟩
    have hplace := place_le.1 (hfirst q hq)
    rw [lap_ahead hline hafter] at hplace
    omega
  · by_cases hline : q.line_no = loc.line_no
    · have hbehind : ¬loc.idx < q.idx := fun hafter =>
        (hnone q hq hline).not_ge ((((hfits.2 q hq hline).1 hahead)).2 hafter)
      rw [place_le, lap_behind hline hbehind]
      exact .inl hlap.2
    · exact hleast q hq hline

/-- No result is right if there is no occurrence at all. -/
theorem first_none_iff (hr : handle_search_command d loc s = some ⟨0, 0⟩)
    (hcolumn : 0 ≤ column d.lines loc)
    (hnone : ∀ q, Occurs d.lines s q → q.line_no = loc.line_no → q.idx < column d.lines loc)
    (hall : ∀ q, Occurs d.lines s q → q.line_no = loc.line_no) :
    Finds d loc s ↔ SearchFits d.lines loc s := by
  constructor
  · rintro ⟨r, hr', -, hzero⟩
    rw [hr, Option.some.injEq] at hr'
    have hempty := hzero.1 hr'.symm
    exact ⟨hcolumn, fun q hq _ => absurd ⟨q, hq⟩ hempty⟩
  · intro hfits
    have hempty : ¬∃ q, Occurs d.lines s q := by
      rintro ⟨q, hq⟩
      have hlt := hnone q hq (hall q hq)
      by_cases hahead : Ahead d.lines loc s
      · obtain ⟨q', hq', hafter⟩ := hahead
        have hline := hall q' hq'
        exact absurd (hnone q' hq' hline)
          (((hfits.2 q' hq' hline).1 ⟨q', hq', hafter⟩).2 (hafter hline)).not_gt
      · exact absurd hlt ((hfits.2 q hq (hall q hq)).2 hahead).not_gt
    exact ⟨_, hr, fun h => absurd h hempty, fun _ => hempty, fun _ => rfl⟩

/-- **The search** finds the first occurrence behind the cursor exactly if it begins where the
    occurrences of the cursor's line allow it. -/
theorem handle_search_command_finds_iff (d : document) (loc : location) (s : Str)
    (hloc : 1 ≤ loc.line_no ∧ loc.line_no ≤ d.lines.length) (hs : s ≠ []) :
    Finds d loc s ↔ SearchFits d.lines loc s := by
  by_cases hcolumn : 0 ≤ column d.lines loc
  · obtain ⟨r, hr, hocc, hline, hrc, hleast⟩ | ⟨hnone, hother⟩ := search_cases hloc hs hcolumn
    · rw [finds_of_occurs hr hocc, first_here_iff hloc hocc hline hrc hcolumn hleast]
    · obtain ⟨r, hr, hocc, hline, hleast⟩ | ⟨hr, hall⟩ := hother
      · rw [finds_of_occurs hr hocc, first_there_iff hloc hocc hline hcolumn hnone hleast]
      · exact first_none_iff hr hcolumn hnone hall
  · -- the search is not defined
    refine ⟨?_, fun h => absurd h.1 hcolumn⟩
    rintro ⟨r, hr, -⟩
    rw [search_outside hloc hs hcolumn] at hr
    cases hr

/-- In a line of two characters the second one is found from the first one on. -/
theorem handle_search_command_finds_second :
    Finds (document_create.vector_push_back [letter_n, backslash]) ⟨1, 0⟩ [backslash] := by
  refine (handle_search_command_finds_iff
    (document_create.vector_push_back [letter_n, backslash]) ⟨1, 0⟩ [backslash]
    (by decide) (by decide)).mpr ⟨by decide, fun q hq hline => ?_⟩
  have hidx : 0 < q.idx := Nat.pos_of_ne_zero fun hzero => by
    have hprefix := hq.2
    rw [hline, hzero] at hprefix
    exact absurd hprefix (by decide)
  have hcolumn : column (document_create.vector_push_back [letter_n, backslash]).lines ⟨1, 0⟩ =
      1 := by decide
  rw [hcolumn]
  exact ⟨fun _ => ⟨fun _ => hidx, fun _ => Int.ofNat_le.mpr hidx⟩, fun _ => Int.ofNat_le.mpr hidx⟩

/-- **A search that misses the string**: the first character of the line is in front of the
    cursor, and the cursor's line is not looked at again. -/
theorem search_misses_the_beginning :
    ¬∀ (d : document) (loc : location) (s : Str),
      (1 ≤ loc.line_no ∧ loc.line_no ≤ d.lines.length) → s ≠ [] → Finds d loc s := by
  intro h
  obtain ⟨r, hr, -, hzero⟩ := h (document_create.vector_push_back [letter_n, backslash]) ⟨1, 1⟩
    [letter_n] (by decide) (by decide)
  have hmissed : handle_search_command
      (document_create.vector_push_back [letter_n, backslash]) ⟨1, 1⟩ [letter_n] =
      some ⟨0, 0⟩ := rfl
  rw [hmissed, Option.some.injEq] at hr
  exact hzero.mp hr.symm ⟨⟨1, 0⟩, by decide, by decide⟩

end SystemProgramming.TextEditor
