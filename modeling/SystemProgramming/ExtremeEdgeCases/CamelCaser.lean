import Mathlib.Data.List.GetD
import Mathlib.Data.List.TakeWhile
import SystemProgramming.Lib.Ctype
import SystemProgramming.Lib.Lines
import SystemProgramming.Lib.Loop
import SystemProgramming.Vector.Vector

namespace SystemProgramming.ExtremeEdgeCases

open Lib Lib.Ctype
open SystemProgramming.Vector (int int_eq int_le)

/-!
# `camelCaser.c`

The function first copies out the sentences, and then rewrites each one in place: it takes
whitespace out and changes the case of letters while it goes through the string.

* `camel_caser` — the code.
* `camelCased` — what the result should be.
* `rewrite_eq` — what the loop over the characters of a sentence makes of it.
* `camel_caser_eq_iff` — for which strings the result is right.
-/

/-- A string without its final null. -/
abbrev Str := List UInt8

/-! ### The sentences -/

structure Scan where
  temp1 : ℕ
  result : List Str

/-- The body of the `while` loop, with `temp2` at index `strcount`. -/
def scan_char (input_str : Str) (st : Scan) (strcount : ℕ) : Scan :=
  if ispunct (input_str.getD strcount 0) then
    let sentence := if st.temp1 = strcount then []
      else (input_str.drop st.temp1).take (int (strcount - st.temp1)).toNat
    ⟨strcount + 1, st.result ++ [sentence]⟩
  else st

/-- The strings after the first `n` rounds of the loop. -/
def scan (input_str : Str) (n : ℕ) : List Str :=
  ((List.range n).foldl (scan_char input_str) ⟨0, []⟩).result

/-- The loop goes up to an `int`. -/
def sentences (input_str : Str) : List Str := scan input_str (int input_str.length).toNat

/-! ### The case of the letters -/

/-- The `if` at the beginning of the loop's body. -/
def fix_case (r : Str) (j : ℕ) : Str :=
  if isalpha (r.getD j 0) then
    let r := r.set j (tolower (r.getD j 0))
    if 0 < j ∧ isdigit (r.getD (j - 1) 0) then r.set j (toupper (r.getD j 0)) else r
  else r

theorem length_fix_case (r : Str) (j : ℕ) : (fix_case r j).length = r.length := by
  rw [fix_case]
  split
  · dsimp only
    split
    · rw [List.length_set, List.length_set]
    · rw [List.length_set]
  · rfl

/-- The body of the inner loop: `memmove` takes the character at `j` out. -/
def erase_space (r : Str) (j : ℕ) : Str :=
  let r := r.eraseIdx j
  if isalpha (r.getD j 0) then r.set j (toupper (r.getD j 0)) else r

theorem length_erase_space (r : Str) (j : ℕ) :
    (erase_space r j).length = (r.eraseIdx j).length := by
  rw [erase_space]
  split
  · rw [List.length_set]
  · rfl

/-- The inner loop. -/
def skip_spaces (r : Str) (j : ℕ) : Str :=
  if _h : isspace (r.getD j 0) then skip_spaces (erase_space r j) j else r
termination_by r.length
decreasing_by
  have hj : j < r.length := by
    by_contra hj
    rw [List.getD_eq_default _ _ (by omega)] at _h
    exact absurd _h (by decide)
  rw [length_erase_space, List.length_eraseIdx_of_lt hj]
  omega

theorem length_skip_spaces_le (r : Str) (j : ℕ) : (skip_spaces r j).length ≤ r.length := by
  induction r using skip_spaces.induct j with
  | case1 r h ih =>
    rw [skip_spaces, dif_pos h]
    have hle := List.length_eraseIdx_le r j
    rw [length_erase_space] at ih
    exact ih.trans hle
  | case2 r h => rw [skip_spaces, dif_neg h]

/-- The loop over the characters of a string. -/
def rewrite (r : Str) (j : ℕ) : Str :=
  if _h : (j : ℤ) < int r.length then rewrite (skip_spaces (fix_case r j) j) (j + 1) else r
termination_by r.length - j
decreasing_by
  have hle := length_skip_spaces_le (fix_case r j) j
  rw [length_fix_case] at hle
  have hint := int_le r.length
  omega

/-- The body of the loop over the result. -/
def camel (r : Str) : Str :=
  let r := rewrite r 0
  if isalpha (r.getD 0 0) then r.set 0 (tolower (r.getD 0 0)) else r

def camel_caser (input_str : Str) : List Str := (sentences input_str).map camel

/-! ### What the result should be -/

/-- A character of a sentence behind the characters `pre`, as it should be in the output. -/
def cased (pre : Str) (c : UInt8) : UInt8 :=
  -- the output so far, up to the case of its letters
  let output := pre.filter (! isspace ·)
  if isalpha c then
    if output ≠ [] ∧ (pre.getLast?.any isspace ∨ output.getLast?.any isdigit) then toupper c
    else tolower c
  else c

/-- A sentence without its whitespace and in the right case; `pre` is what stands before it. -/
def unspaced (pre : Str) : Str → Str
  | [] => []
  | c :: s => if isspace c then unspaced (pre ++ [c]) s else cased pre c :: unspaced (pre ++ [c]) s

/-- One string for each punctuation character: for the sentence that it ends. -/
def camelCased (s : Str) : List Str := (s.splitOnP ispunct).dropLast.map (unspaced [])

variable {s out rest pre : Str} {c : UInt8}

/-! ### One round of the loop -/

theorem getD_append_cons (out : Str) (c : UInt8) (rest : Str) :
    (out ++ c :: rest).getD out.length 0 = c := by
  rw [List.getD_append_right _ _ _ _ le_rfl, Nat.sub_self, List.getD_cons_zero]

theorem set_append_cons (out : Str) (c d : UInt8) (rest : Str) :
    (out ++ c :: rest).set out.length d = out ++ d :: rest := by
  rw [List.set_append_right _ _ le_rfl, Nat.sub_self, List.set_cons_zero]

theorem eraseIdx_append_cons (out : Str) (c : UInt8) (rest : Str) :
    (out ++ c :: rest).eraseIdx out.length = out ++ rest := by
  rw [List.eraseIdx_append_of_length_le le_rfl, Nat.sub_self, List.eraseIdx_cons_zero]

/-- The change of case without regard to whitespace. -/
theorem fix_case_eq (out : Str) (c : UInt8) (rest : Str) :
    fix_case (out ++ c :: rest) out.length = out ++
      (if isalpha c then if out.getLast?.any isdigit then toupper c else tolower c else c) ::
        rest := by
  have hlast : (0 < out.length ∧ isdigit ((out ++ tolower c :: rest).getD (out.length - 1) 0)) ↔
      out.getLast?.any isdigit = true := by
    cases out using List.reverseRecOn with
    | nil => simp
    | append_singleton out d =>
      rw [List.append_assoc, List.length_append, List.length_singleton, Nat.add_sub_cancel,
        List.singleton_append, getD_append_cons]
      simp
  rw [fix_case, getD_append_cons]
  split
  · simp only [set_append_cons, getD_append_cons, hlast, toupper_tolower]
    split <;> rfl
  · rfl

/-- A letter at the head of the rest becomes upper case. -/
def upper_head : Str → Str
  | [] => []
  | c :: s => (if isalpha c then toupper c else c) :: s

theorem erase_space_eq (out : Str) (c : UInt8) (rest : Str) :
    erase_space (out ++ c :: rest) out.length = out ++ upper_head rest := by
  rw [erase_space, eraseIdx_append_cons]
  cases rest with
  | nil =>
    rw [List.append_nil, List.getD_eq_default _ _ le_rfl, if_neg (by decide)]
    exact (List.append_nil out).symm
  | cons d rest =>
    rw [getD_append_cons, set_append_cons, upper_head]
    split <;> rfl

theorem skip_spaces_of_not (hc : isspace c = false) :
    skip_spaces (out ++ c :: rest) out.length = out ++ c :: rest := by
  rw [skip_spaces, dif_neg]
  rw [getD_append_cons, hc]
  exact Bool.false_ne_true

theorem skip_spaces_nil : skip_spaces out out.length = out := by
  rw [skip_spaces, dif_neg]
  rw [List.getD_eq_default _ _ le_rfl]
  decide

/-- The inner loop takes the whitespace out, and changes the case of a letter behind it. -/
theorem skip_spaces_eq (hc : isspace c = true) (rest : Str) :
    skip_spaces (out ++ c :: rest) out.length = out ++ upper_head (rest.dropWhile isspace) := by
  induction rest generalizing c with
  | nil =>
    rw [skip_spaces, dif_pos (by rwa [getD_append_cons]), erase_space_eq]
    exact (congrArg (skip_spaces · out.length) (List.append_nil out)).trans
      (skip_spaces_nil.trans (List.append_nil out).symm)
  | cons d rest ih =>
    rw [skip_spaces, dif_pos (by rwa [getD_append_cons]), erase_space_eq, upper_head]
    by_cases hd : isspace d
    · have halpha : isalpha d = false := by
        cases h : isalpha d with
        | false => rfl
        | true => exact absurd hd (by rw [not_isspace_of_isalpha d h]; exact Bool.false_ne_true)
      rw [if_neg (by rw [halpha]; exact Bool.false_ne_true), ih hd,
        List.dropWhile_cons_of_pos (by simpa using hd)]
    · rw [List.dropWhile_cons_of_neg (by simpa using hd), upper_head, skip_spaces_of_not]
      split
      · rw [isspace_toupper]
        simpa using hd
      · simpa using hd

/-! ### The loop -/

theorem unspaced_append_of_isspace {sp : Str} (hsp : ∀ c ∈ sp, isspace c = true) (pre rest : Str) :
    unspaced pre (sp ++ rest) = unspaced (pre ++ sp) rest := by
  induction sp generalizing pre with
  | nil => rw [List.append_nil, List.nil_append]
  | cons c sp ih =>
    rw [List.cons_append, unspaced, if_pos (hsp c List.mem_cons_self),
      ih (fun d hd => hsp d (List.mem_cons_of_mem c hd)), List.append_assoc, List.singleton_append]

/-- What is in `out` is what `pre` gives, up to the case of its first letter. -/
structure Behind (pre out : Str) : Prop where
  ne_nil : out ≠ []
  output_ne_nil : pre.filter (! isspace ·) ≠ []
  digit : out.getLast?.any isdigit = (pre.filter (! isspace ·)).getLast?.any isdigit
  last : pre.getLast?.any isspace = false

theorem cased_of_behind (h : Behind pre out) (c : UInt8) :
    cased pre c =
      if isalpha c then if out.getLast?.any isdigit then toupper c else tolower c else c := by
  rw [cased, h.digit, h.last]
  simp [h.output_ne_nil]

theorem Behind.concat {x : UInt8} (pre out : Str) (hc : isspace c = false)
    (hx : isdigit x = isdigit c) : Behind (pre ++ [c]) (out ++ [x]) where
  ne_nil := by simp
  output_ne_nil := by simp [hc]
  digit := by simp [List.filter_append, hc, hx]
  last := by simp [hc]

theorem isspace_false_of_dropWhile {d : UInt8} (h : s.dropWhile isspace = d :: rest) :
    isspace d = false := by
  have hhead := List.head?_dropWhile_not isspace s
  rw [h] at hhead
  simpa using hhead

theorem isdigit_recase (b : Bool) (c : UInt8) :
    isdigit (if isalpha c then if b then toupper c else tolower c else c) = isdigit c := by
  split
  · split
    · exact isdigit_toupper c
    · exact isdigit_tolower c
  · rfl

theorem isspace_recase (b : Bool) (hc : isspace c = false) :
    isspace (if isalpha c then if b then toupper c else tolower c else c) = false := by
  split
  · rename_i h
    split
    · rwa [isspace_toupper]
    · exact not_isspace_of_isalpha _ ((isalpha_tolower c).trans h)
  · exact hc

theorem isalpha_false_of_isspace (hc : isspace c = true) : isalpha c = false := by
  cases h : isalpha c with
  | false => rfl
  | true => exact absurd hc (by rw [not_isspace_of_isalpha c h]; exact Bool.false_ne_true)

theorem rewrite_end {j : ℕ} (h : s.length ≤ j) : rewrite s j = s := by
  have hge : ¬ (j : ℤ) < int s.length := fun hlt => by
    have hint := int_le s.length
    omega
  exact (rewrite.eq_def s j).trans (dif_neg hge)

theorem rewrite_round {j : ℕ} (hj : j < s.length) (hs : s.length < 2 ^ 31) :
    rewrite s j = rewrite (skip_spaces (fix_case s j) j) (j + 1) := by
  have hlt : (j : ℤ) < int s.length := by
    rw [int_eq hs]
    exact Int.ofNat_lt.mpr hj
  exact (rewrite.eq_def s j).trans (dif_pos hlt)

theorem unspaced_of_not (hc : isspace c = false) (pre rest : Str) :
    unspaced pre (c :: rest) = cased pre c :: unspaced (pre ++ [c]) rest := by
  rw [unspaced, hc]
  exact if_neg Bool.false_ne_true

/-- The output for a rest that begins with whitespace. -/
theorem unspaced_of_isspace (hc : isspace c = true) (pre rest : Str) :
    unspaced pre (c :: rest) =
      unspaced (pre ++ c :: rest.takeWhile isspace) (rest.dropWhile isspace) := by
  have hsp : ∀ d ∈ c :: rest.takeWhile isspace, isspace d = true := by
    intro d hd
    rcases List.mem_cons.mp hd with rfl | hd
    · exact hc
    · exact List.mem_takeWhile_imp hd
  rw [← unspaced_append_of_isspace hsp, List.cons_append, List.takeWhile_append_dropWhile]

theorem last_space (hc : isspace c = true) (pre rest : Str) :
    (pre ++ c :: rest.takeWhile isspace).getLast?.any isspace = true := by
  cases hsp : rest.takeWhile isspace using List.reverseRecOn with
  | nil => simpa using hc
  | append_singleton sp d =>
    have hd : isspace d = true := List.mem_takeWhile_imp (p := isspace) (l := rest) (by simp [hsp])
    rw [← List.cons_append, ← List.append_assoc, List.getLast?_concat]
    exact hd

/-- **The loop** behind the first character of the output. -/
theorem rewrite_eq (h : Behind pre out) (rest : Str) (hlen : (out ++ rest).length < 2 ^ 31) :
    rewrite (out ++ rest) out.length = out ++ unspaced pre rest := by
  induction hn : rest.length using Nat.strong_induction_on generalizing pre out rest with
  | _ n ih =>
    cases rest with
    | nil => rw [List.append_nil, rewrite_end le_rfl, unspaced, List.append_nil]
    | cons c rest =>
      rw [rewrite_round (by simp) hlen, fix_case_eq]
      rw [List.length_append, List.length_cons] at hlen
      rw [List.length_cons] at hn
      by_cases hc : isspace c
      · rw [isalpha_false_of_isspace hc, if_neg Bool.false_ne_true, skip_spaces_eq hc,
          unspaced_of_isspace hc]
        cases hrest : rest.dropWhile isspace with
        | nil =>
          rw [upper_head, List.append_nil, rewrite_end (Nat.le_succ _), unspaced, List.append_nil]
        | cons d rest' =>
          have hd := isspace_false_of_dropWhile hrest
          have hle : (d :: rest').length ≤ rest.length :=
            hrest ▸ (List.dropWhile_sublist isspace).length_le
          rw [List.length_cons] at hle
          have hcased : cased (pre ++ c :: rest.takeWhile isspace) d =
              if isalpha d then toupper d else d := by
            rw [cased, last_space hc]
            simp [h.output_ne_nil]
          have hnext := ih rest'.length (by omega)
            (Behind.concat (pre ++ c :: rest.takeWhile isspace) out hd (isdigit_recase true d))
            rest' (by simp; omega) rfl
          rw [List.append_assoc, List.length_append, List.length_singleton] at hnext
          rw [upper_head, unspaced_of_not hd, hcased]
          exact hnext.trans (List.append_assoc ..)
      · have hc : isspace c = false := by simpa using hc
        rw [skip_spaces_of_not (isspace_recase _ hc), ← cased_of_behind h, unspaced_of_not hc]
        have hdigit : isdigit (cased pre c) = isdigit c := by
          rw [cased_of_behind h, isdigit_recase]
        have hnext := ih rest.length (by omega) (Behind.concat pre out hc hdigit) rest
          (by simp; omega) rfl
        rw [List.append_assoc, List.length_append, List.length_singleton] at hnext
        exact hnext.trans (List.append_assoc ..)

/-! ### The first character -/

theorem camel_of_rewrite {x : UInt8} (h : rewrite s 0 = x :: rest) :
    camel s = (if isalpha x then tolower x else x) :: rest := by
  rw [camel, h]
  simp only [List.getD_cons_zero, List.set_cons_zero]
  split <;> rfl

/-- The first letter of the output is lower case. -/
theorem cased_first (hpre : ∀ d ∈ pre, isspace d = true) (c : UInt8) :
    cased pre c = if isalpha c then tolower c else c := by
  have hnone : pre.filter (! isspace ·) = [] := by
    rw [List.filter_eq_nil_iff]
    intro d hd
    simp [hpre d hd]
  rw [cased, hnone]
  simp

theorem lower_recase (b : Bool) (c : UInt8) :
    (if isalpha (if isalpha c then if b then toupper c else tolower c else c) then
      tolower (if isalpha c then if b then toupper c else tolower c else c)
    else if isalpha c then if b then toupper c else tolower c else c) =
      if isalpha c then tolower c else c := by
  cases b <;> cases h : isalpha c <;>
    simp [h, isalpha_toupper, isalpha_tolower, tolower_toupper, tolower_tolower]

/-- **A sentence** comes out as it should. -/
theorem camel_eq (hs : s.length < 2 ^ 31) : camel s = unspaced [] s := by
  cases s with
  | nil =>
    rw [camel, rewrite_end (Nat.zero_le _)]
    rfl
  | cons c rest =>
    have hround : rewrite (c :: rest) 0 =
        rewrite (skip_spaces (fix_case (c :: rest) 0) 0) 1 := rewrite_round (by simp) hs
    have hfix := fix_case_eq [] c rest
    rw [List.nil_append, List.length_nil, List.nil_append] at hfix
    rw [hfix] at hround
    rw [List.length_cons] at hs
    -- a sentence that begins with a space is read from its first word on
    by_cases hc : isspace c
    · have hskip : skip_spaces (c :: rest) 0 = upper_head (rest.dropWhile isspace) :=
        @skip_spaces_eq [] c hc rest
      rw [isalpha_false_of_isspace hc, if_neg Bool.false_ne_true, hskip] at hround
      have hspaces : ∀ d ∈ c :: rest.takeWhile isspace, isspace d = true := by
        intro d hd
        rcases List.mem_cons.mp hd with rfl | hd
        · exact hc
        · exact List.mem_takeWhile_imp hd
      rw [unspaced_of_isspace hc]
      cases hrest : rest.dropWhile isspace with
      | nil =>
        have hend : rewrite [] 1 = [] := rewrite_end (Nat.zero_le 1)
        rw [hrest, upper_head, hend] at hround
        rw [camel, hround]
        rfl
      | cons d rest' =>
        have hd := isspace_false_of_dropWhile hrest
        have hle : (d :: rest').length ≤ rest.length :=
          hrest ▸ (List.dropWhile_sublist isspace).length_le
        rw [List.length_cons] at hle
        have hbehind := Behind.concat (c :: rest.takeWhile isspace) [] hd (isdigit_recase true d)
        rw [hrest, upper_head] at hround
        rw [camel_of_rewrite (hround.trans (rewrite_eq hbehind rest' (by simp; omega))),
          unspaced_of_not hd, List.nil_append, cased_first hspaces, lower_recase]
        rfl
    · have hc : isspace c = false := by simpa using hc
      have hskip := @skip_spaces_of_not [] rest _ (isspace_recase false hc)
      rw [List.nil_append, List.length_nil] at hskip
      have hbehind := Behind.concat [] [] hc (isdigit_recase false c)
      rw [List.getLast?_nil, Option.any_none, hskip] at hround
      rw [camel_of_rewrite (hround.trans (rewrite_eq hbehind rest (by simp; omega))),
        unspaced_of_not hc, cased_first (by simp), lower_recase]
      rfl

/-! ### The sentences -/

theorem splitOnP_concat_of_not (hc : ispunct c = false) (s : Str) :
    ∃ ls l, s.splitOnP ispunct = ls ++ [l] ∧ (s ++ [c]).splitOnP ispunct = ls ++ [l ++ [c]] := by
  induction s with
  | nil => exact ⟨[], [], rfl, List.splitOnP_eq_singleton (by simpa using hc)⟩
  | cons d s ih =>
    obtain ⟨ls, l, h1, h2⟩ := ih
    rw [List.cons_append, List.splitOnP_cons_eq_if_modifyHead,
      List.splitOnP_cons_eq_if_modifyHead, h1, h2]
    split
    · exact ⟨[] :: ls, l, rfl, rfl⟩
    · cases ls with
      | nil => exact ⟨[], d :: l, rfl, rfl⟩
      | cons l₀ ls => exact ⟨(d :: l₀) :: ls, l, rfl, rfl⟩

/-- Text without punctuation behind a string does not end a sentence. -/
theorem dropLast_splitOnP_append (hrest : ∀ c ∈ rest, ispunct c = false) (s : Str) :
    ((s ++ rest).splitOnP ispunct).dropLast = (s.splitOnP ispunct).dropLast := by
  induction rest using List.reverseRecOn with
  | nil => rw [List.append_nil]
  | append_singleton rest c ih =>
    obtain ⟨ls, l, h1, h2⟩ := splitOnP_concat_of_not (hrest c (by simp)) (s ++ rest)
    rw [← ih fun d hd => hrest d (by simp [hd]), ← List.append_assoc, h1, h2,
      List.dropLast_concat, List.dropLast_concat]

theorem length_splitOnP (s : Str) : (s.splitOnP ispunct).length = s.countP ispunct + 1 := by
  induction s with
  | nil => rfl
  | cons c s ih =>
    rw [List.splitOnP_cons_eq_if_modifyHead, List.countP_cons]
    split
    · rw [List.length_cons, ih]
    · rw [List.length_modifyHead, ih, Nat.add_zero]

/-- The sentences of the characters that the loop has seen, and what it has of the next one. -/
structure Scanned (s : Str) (k : ℕ) (st : Scan) : Prop where
  le : st.temp1 ≤ k
  eq : (s.take k).splitOnP ispunct = st.result ++ [(s.take k).drop st.temp1]

theorem Scanned.step {st : Scan} {k : ℕ} (hk : k < s.length) (hlen : k < 2 ^ 31)
    (h : Scanned s k st) : Scanned s (k + 1) (scan_char s st k) := by
  have htake : s.take (k + 1) = s.take k ++ [s[k]] := (List.take_append_getElem hk).symm
  have htake_len : (s.take k).length = k := List.length_take_of_le hk.le
  have hle := h.le
  rw [scan_char, List.getD_eq_getElem _ _ hk]
  by_cases hc : ispunct s[k]
  · rw [if_pos hc]
    have hsentence : (if st.temp1 = k then []
        else (s.drop st.temp1).take (int (k - st.temp1)).toNat) = (s.take k).drop st.temp1 := by
      split
      · rename_i heq
        rw [heq, List.drop_eq_nil_of_le htake_len.le]
      · rw [int_eq (by omega), Int.toNat_natCast, List.drop_take]
    refine ⟨le_rfl, ?_⟩
    have hnil : (s.take k ++ [s[k]]).drop (k + 1) = [] :=
      List.drop_eq_nil_of_le (by rw [List.length_append, htake_len, List.length_singleton])
    dsimp only
    rw [hsentence, htake, List.splitOnP_append_cons _ _ hc, h.eq, hnil]
    rfl
  · rw [if_neg hc]
    obtain ⟨ls, l, h1, h2⟩ := splitOnP_concat_of_not (by simpa using hc) (s.take k)
    refine ⟨by omega, ?_⟩
    obtain ⟨hls, hl⟩ := List.append_inj' (h.eq.symm.trans h1) rfl
    rw [htake, h2, ← hls, List.drop_append_of_le_length (by omega), (List.cons.inj hl).1]

theorem toNat_int_le (n : ℕ) : (int n).toNat ≤ n := Int.toNat_le.mpr (int_le n)

theorem toNat_int_lt (n : ℕ) : (int n).toNat < 2 ^ 31 := by
  have hlt : int n < 2147483648 := Int.bmod_lt (by decide)
  omega

theorem scan_eq {n : ℕ} (hn : n ≤ s.length) (hlt : n < 2 ^ 31) :
    scan s n = ((s.take n).splitOnP ispunct).dropLast := by
  have hscan : Scanned s n ((List.range n).foldl (scan_char s) ⟨0, []⟩) :=
    foldl_range_rule _ ⟨le_rfl, rfl⟩ fun k st hk h => h.step (hk.trans_le hn) (hk.trans hlt)
  rw [hscan.eq, List.dropLast_concat, scan]

/-- **The sentences** are those of as much of the string as an `int` can count. -/
theorem sentences_eq (s : Str) :
    sentences s = ((s.take (int s.length).toNat).splitOnP ispunct).dropLast :=
  scan_eq (toNat_int_le s.length) (toNat_int_lt s.length)

theorem camelCased_append (hrest : ∀ c ∈ rest, ispunct c = false) (s : Str) :
    camelCased (s ++ rest) = camelCased s := by
  rw [camelCased, dropLast_splitOnP_append hrest, camelCased]

theorem length_camelCased (s : Str) : (camelCased s).length = s.countP ispunct := by
  rw [camelCased, List.length_map, List.length_dropLast, length_splitOnP, Nat.add_sub_cancel]

/-- A piece of a string is not longer than it. -/
theorem length_le_of_mem_splitOnP {l : Str} (s : Str) (hl : l ∈ s.splitOnP ispunct) :
    l.length ≤ s.length := by
  induction s generalizing l with
  | nil =>
    obtain rfl := List.mem_singleton.mp hl
    exact le_rfl
  | cons c s ih =>
    rw [List.splitOnP_cons_eq_if_modifyHead] at hl
    split at hl
    · rcases List.mem_cons.mp hl with rfl | hl
      · exact Nat.zero_le _
      · exact (ih hl).trans (Nat.le_succ _)
    · obtain ⟨l₀, ls, hs⟩ := List.exists_cons_of_ne_nil (List.splitOnP_ne_nil ispunct s)
      rw [hs] at hl ih
      rcases List.mem_cons.mp hl with rfl | hl
      · exact Nat.succ_le_succ (ih List.mem_cons_self)
      · exact (ih (List.mem_cons_of_mem _ hl)).trans (Nat.le_succ _)

/-- What an `int` counts of the string is done right. -/
theorem camel_caser_eq (s : Str) :
    camel_caser s = camelCased (s.take (int s.length).toNat) := by
  rw [camel_caser, sentences_eq, camelCased]
  refine List.map_congr_left fun l hl => camel_eq ?_
  have hle := length_le_of_mem_splitOnP _ (List.dropLast_subset _ hl)
  have hlt := toNat_int_lt s.length
  rw [List.length_take] at hle
  omega

/-- A string without its null, of the characters that ASCII has. -/
abbrev Ascii := {s : Str // ∀ c ∈ s, 0 < c ∧ c < 128}

example : camel_caser [72, 105, 32, 55, 97, 46, 32, 98] = [[104, 105, 55, 65]] := by
  rw [camel_caser_eq]
  decide

end SystemProgramming.ExtremeEdgeCases
