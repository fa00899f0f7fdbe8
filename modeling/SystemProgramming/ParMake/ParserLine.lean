import SystemProgramming.ParMake.Makefile

namespace SystemProgramming.ParMake

open Lib Lib.Ctype

/-!
# One line of a makefile

The parser removes the end of a line, then its beginning, and looks for the comment by counting
the quotes again from the beginning at each `#`.

* `strip_back_comments_eq` — the comment is what is behind the first `#` outside quotes.
* `strip_eq` — the ends of a line can be removed in any order.
* `parse_line_eq` — what the loop does is decided by what the line is.
-/

variable {s : Str} {c : UInt8}

/-! ### Comments -/

/-- One more character: whether what follows is in quotes, and whether it is escaped. -/
def scan (state : Bool × Bool) (c : UInt8) : Bool × Bool :=
  (if c = 34 ∧ ! state.2 then ! state.1 else state.1, c = 92 ∧ ! state.2)

/-- The quotes are counted the same way. -/
theorem in_quotes_eq (quoted : Bool) (s : Str) :
    in_quotes quoted s = (s.foldl scan (quoted, false)).1 := by
  induction quoted, s using in_quotes.induct with
  | case1 quoted => rfl
  | case2 quoted => simp [in_quotes, scan]
  | case3 quoted hc => simp [in_quotes, scan]
  | case4 quoted c hc hq => simp [in_quotes, scan, hc, hq]
  | case5 quoted d s ih =>
    rw [in_quotes, if_pos rfl, ih]
    simp [scan]
  | case6 quoted c d s hc ih =>
    rw [in_quotes, if_neg hc, ih, List.foldl_cons]
    simp [scan, hc]

theorem uncomment_append {a : Str} (ha : 35 ∉ a) (state : Bool × Bool) (b : Str) :
    uncomment state.1 state.2 (a ++ b) =
      a ++ uncomment (a.foldl scan state).1 (a.foldl scan state).2 b := by
  induction a generalizing state with
  | nil => rfl
  | cons c a ih =>
    obtain ⟨hc, ha⟩ := not_or.mp (List.mem_cons.not.mp ha)
    rw [List.cons_append, uncomment, if_neg fun h => hc h.1.symm, List.foldl_cons,
      List.cons_append, ← ih ha]
    rfl

theorem strip_comments_from_eq (seen rest : Str) :
    strip_comments_from seen rest = seen ++
      uncomment (seen.foldl scan (false, false)).1 (seen.foldl scan (false, false)).2 rest := by
  induction hn : rest.length using Nat.strong_induction_on generalizing seen rest with
  | _ n ih =>
    -- what is in front of the next `#`
    have hfront : 35 ∉ rest.takeWhile (· ≠ 35) := fun h => by simpa using List.mem_takeWhile_imp h
    have hsplit := List.takeWhile_append_dropWhile (p := (· ≠ 35)) (l := rest)
    rw [strip_comments_from]
    split
    · rename_i hdrop
      rw [hdrop, List.append_nil] at hsplit
      have heq := uncomment_append hfront (seen.foldl scan (false, false)) []
      rw [hsplit, List.append_nil, uncomment, List.append_nil] at heq
      rw [heq]
    · rename_i c rest' hdrop
      have hc : c = 35 := by
        have hhead := List.head?_dropWhile_not (· ≠ 35) rest
        rw [hdrop] at hhead
        simpa using hhead
      have hlen : rest'.length < n := by
        have hle := (List.dropWhile_sublist (· ≠ 35) (l := rest)).length_le
        rw [hdrop, List.length_cons] at hle
        omega
      subst hc
      rw [hdrop] at hsplit
      conv_rhs => rw [← hsplit]
      rw [uncomment_append hfront, ← List.append_assoc, ← List.foldl_append]
      generalize seen ++ rest.takeWhile (· ≠ 35) = before
      dsimp only
      rw [in_quotes_eq, uncomment]
      cases hquoted : (before.foldl scan (false, false)).1 with
      | false =>
        rw [if_pos (by rfl), if_pos (by simp), List.append_nil]
      | true =>
        rw [if_neg (by simp), if_neg (by simp), ih _ hlen _ _ rfl, List.foldl_concat,
          List.append_assoc, List.singleton_append, scan, hquoted]

theorem strip_back_comments_eq (s : Str) : strip_back_comments s = uncomment false false s :=
  strip_comments_from_eq [] s

/-! ### The ends of a line -/

/-- **The ends** can be removed in any order. -/
theorem strip_eq (s : Str) : skip_whitespace (strip_back_whitespace s) = trim s := by
  rw [skip_whitespace, strip_back_whitespace, trim]
  induction s using List.reverseRecOn with
  | nil => rfl
  | append_singleton s c ih =>
    rw [List.rdropWhile_concat, List.dropWhile_append]
    by_cases hnil : (s.dropWhile isspace).isEmpty
    · rw [List.isEmpty_iff.mp hnil] at ih
      split_ifs with hc
      · rw [ih, List.dropWhile_cons_of_pos hc]
        rfl
      · rw [List.dropWhile_append, if_pos hnil, List.dropWhile_cons_of_neg hc,
          List.rdropWhile_singleton, if_neg hc]
    · rw [if_neg hnil, List.rdropWhile_concat]
      split_ifs with hc
      · exact ih
      · rw [List.dropWhile_append, if_neg hnil]

/-- A blank at the end of a line is no matter. -/
theorem strip_takeWhile_concat (s : Str) (hc : isspace c = true) (hc0 : c ≠ 0) :
    strip_back_whitespace ((s ++ [c]).takeWhile (· ≠ 0)) =
      strip_back_whitespace (s.takeWhile (· ≠ 0)) := by
  rw [List.takeWhile_append]
  split_ifs with hlen
  · have hall : s.takeWhile (· ≠ 0) = s := (List.takeWhile_prefix _).eq_of_length hlen
    rw [hall, List.takeWhile_cons_of_pos (by simpa using hc0), List.takeWhile_nil]
    exact List.rdropWhile_concat_pos _ _ _ hc
  · rfl

theorem strip_chomp (buf : Str) :
    strip_back_whitespace (chomp buf) = strip_back_whitespace (buf.takeWhile (· ≠ 0)) := by
  rw [chomp]
  split_ifs with hnl hcr
  · obtain ⟨s, rfl⟩ := List.getLast?_eq_some_iff.mp hnl
    rw [List.dropLast_concat] at hcr ⊢
    obtain ⟨s, rfl⟩ := List.getLast?_eq_some_iff.mp hcr
    rw [List.dropLast_concat, strip_takeWhile_concat _ (by decide) (by decide),
      strip_takeWhile_concat _ (by decide) (by decide)]
  · obtain ⟨s, rfl⟩ := List.getLast?_eq_some_iff.mp hnl
    rw [List.dropLast_concat, strip_takeWhile_concat _ (by decide) (by decide)]
  · rfl

/-- The first character of a line is still the first. -/
theorem head?_strip (h : strip_back_whitespace s ≠ []) :
    (strip_back_whitespace s).head? = s.head? := by
  obtain ⟨r, hr⟩ := List.rdropWhile_prefix isspace (l := s)
  conv_rhs => rw [← hr]
  obtain ⟨c, s', hs'⟩ := List.exists_cons_of_ne_nil h
  rw [strip_back_whitespace] at hs'
  rw [strip_back_whitespace, hs']
  rfl

/-! ### The line -/

theorem split_line_on_spaces_eq (s : Str) :
    split_line_on_spaces s = (s.splitOn 32).filter (· ≠ []) := by
  rw [split_line_on_spaces, tokens_eq, List.filter_filter, List.splitOn_eq_splitOnP]
  simp

section
variable {lib : GraphLib Str Rule}

theorem rule_line_of_mem (makeFileName : Str) {line : Str} (st : State lib) (h : 58 ∈ line) :
    rule_line makeFileName line st =
      .ok (new_rule ((line.takeWhile (· ≠ 58)).takeWhile (! isspace ·))
        (((line.dropWhile (· ≠ 58)).tail.splitOn 32).filter (· ≠ [])) st) := by
  rw [rule_line]
  split
  · rename_i hdrop
    simpa using List.dropWhile_eq_nil_iff.mp hdrop 58 h
  · rename_i c depLine hdrop
    rw [split_line_on_spaces_eq, hdrop]
    rfl

theorem rule_line_of_not_mem (makeFileName : Str) {line : Str} (st : State lib) (h : 58 ∉ line) :
    rule_line makeFileName line st = .error (missing_separator makeFileName st.line_number) := by
  have hdrop : line.dropWhile (· ≠ 58) = [] :=
    List.dropWhile_eq_nil_iff.mpr fun c hc => by simpa using ne_of_mem_of_not_mem hc h
  rw [rule_line, hdrop]
  rfl

/-- What the loop does with a line. -/
def line_step (makeFileName : Str) (st : State lib) : Line → Except Exit (State lib)
  | .blank => .ok st
  | .recipe c => recipe_line makeFileName c st
  | .rule t ws => .ok (new_rule t ws st)
  | .malformed => .error (missing_separator makeFileName st.line_number)

/-- **A line** is taken for what it is. -/
theorem parse_line_eq (makeFileName : Str) (st : State lib) (buf : Str) :
    parse_line makeFileName st buf =
      line_step makeFileName { st with line_number := st.line_number + 1 }
        (Line.ofRaw (buf.takeWhile (· ≠ 0))) := by
  have hline : strip_back_comments (skip_whitespace (strip_back_whitespace (chomp buf))) =
      content (buf.takeWhile (· ≠ 0)) := by
    rw [strip_chomp, strip_eq, strip_back_comments_eq, content]
  rw [parse_line, Line.ofRaw, hline]
  dsimp only
  by_cases hnil : content (buf.takeWhile (· ≠ 0)) = []
  · rw [if_pos hnil, if_pos hnil]
    rfl
  · have hhead : (strip_back_whitespace (chomp buf)).head? = (buf.takeWhile (· ≠ 0)).head? := by
      rw [strip_chomp]
      refine head?_strip fun h => hnil ?_
      rw [← hline, strip_chomp, h, strip_back_comments_eq]
      rfl
    rw [if_neg hnil, if_neg hnil, hhead]
    by_cases htab : (buf.takeWhile (· ≠ 0)).head? = some 9
    · rw [if_pos htab, if_pos htab]
      rfl
    · rw [if_neg htab, if_neg htab]
      by_cases htarget : is_makefile_target (content (buf.takeWhile (· ≠ 0)))
      · rw [if_pos htarget]
        by_cases hcolon : 58 ∈ content (buf.takeWhile (· ≠ 0))
        · rw [if_pos ⟨htarget, hcolon⟩, rule_line_of_mem _ _ hcolon]
          rfl
        · rw [if_neg fun h => hcolon h.2, rule_line_of_not_mem _ _ hcolon]
          rfl
      · rw [if_neg htarget, if_neg fun h => htarget h.1]
        rfl

/-- What begins a target does not end it. -/
theorem begins_target : ∀ c, (isalnum c || c == 46 || c == 47) = true →
    (c == 58) = false ∧ isspace c = false :=
  forall_of_fin (by decide +kernel)

/-- A rule line has a target. -/
theorem target_ne_nil {raw t : Str} {ws : List Str} (h : Line.ofRaw raw = .rule t ws) :
    t ≠ [] := by
  rw [Line.ofRaw] at h
  split_ifs at h with hnil htab hrule
  obtain ⟨rfl, -⟩ := Line.rule.inj h
  obtain ⟨c, s, hs⟩ := List.exists_cons_of_ne_nil hnil
  rw [hs] at hrule ⊢
  obtain ⟨hcolon, hspace⟩ := begins_target c hrule.1
  rw [List.takeWhile_cons_of_pos (by simpa using hcolon),
    List.takeWhile_cons_of_pos (by simpa using hspace)]
  exact List.cons_ne_nil _ _

end

end SystemProgramming.ParMake
