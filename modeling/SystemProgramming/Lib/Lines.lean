import Mathlib.Data.List.Nodup
import Mathlib.Data.List.Perm.Basic

namespace SystemProgramming.Lib

/-!
# Streams of lines

A stream is a list, and its lines are what reading up to and including a newline, again and again,
gives; the last line may be without one.  Several streams are read as one by an interleaving of
their items.

* `lines` — the lines of a stream.
* `lines_append` — a stream cut behind a newline.
* `flatten_lines`, `nil_not_mem_lines` — the lines are the stream, and none is empty.
* `lines_flatten` — the lines of a stream of records that are a line each.
* `splitOn_eq_lines` — the lines are what is between the newlines.
* `splitOn_pieces` — what the pieces of a list between separators are.
* `Interleaves` — a merge of several lists that keeps each in order, and `Interleaves.perm`.
* `flatMap_filter_perm` — a list of marked items, sorted by their marks.
-/

variable {α : Type*}

section Lines

variable [DecidableEq α] (nl : α)

/-- The lines of a stream, each with its newline. -/
def lines : List α → List (List α)
  | [] => []
  | c :: cs =>
    if c = nl then [c] :: lines cs
    else match lines cs with
      | [] => [[c]]
      | l :: ls => (c :: l) :: ls

@[simp] theorem lines_nil : lines nl [] = [] := rfl

theorem lines_newline (cs : List α) : lines nl (nl :: cs) = [nl] :: lines nl cs := if_pos rfl

variable {nl}

/-- A character that is no newline begins the first line. -/
theorem lines_cons {c : α} (hc : c ≠ nl) {cs l : List α} {ls : List (List α)}
    (h : lines nl cs = l :: ls) : lines nl (c :: cs) = (c :: l) :: ls := by
  rw [lines, if_neg hc, h]

/-- **A cut behind a newline** divides the lines. -/
theorem lines_append (xs ys : List α) :
    lines nl (xs ++ nl :: ys) = lines nl (xs ++ [nl]) ++ lines nl ys := by
  induction xs with
  | nil => rw [List.nil_append, List.nil_append, lines_newline, lines_newline]; rfl
  | cons c xs ih =>
    rw [List.cons_append, List.cons_append]
    by_cases hc : c = nl
    · rw [hc, lines_newline, lines_newline, ih]
      rfl
    · -- the part before the cut has a first line, which `c` begins
      cases hxs : lines nl (xs ++ [nl]) with
      | nil =>
        cases xs with
        | nil =>
          rw [List.nil_append, lines_newline] at hxs
          cases hxs
        | cons d xs =>
          rw [List.cons_append, lines] at hxs
          split at hxs
          · cases hxs
          · split at hxs <;> cases hxs
      | cons l ls =>
        rw [lines_cons hc hxs]
        rw [hxs] at ih
        exact lines_cons hc ih

/-- A record that is one line. -/
theorem lines_line {l : List α} (hl : nl ∉ l) : lines nl (l ++ [nl]) = [l ++ [nl]] := by
  induction l with
  | nil => exact lines_newline nl []
  | cons c l ih =>
    rw [List.mem_cons, not_or] at hl
    exact lines_cons (Ne.symm hl.1) (ih hl.2)

/-- The rest of a stream, behind the last newline. -/
theorem lines_of_not_mem {xs : List α} (hne : xs ≠ []) (hnl : nl ∉ xs) : lines nl xs = [xs] := by
  induction xs with
  | nil => exact absurd rfl hne
  | cons c xs ih =>
    rw [List.mem_cons, not_or] at hnl
    by_cases hxs : xs = []
    · rw [hxs, lines, if_neg (Ne.symm hnl.1)]
      rfl
    · exact lines_cons (Ne.symm hnl.1) (ih hxs hnl.2)

/-- **The lines of records** are the records. -/
theorem lines_flatten {rs : List (List α)} (h : ∀ r ∈ rs, ∃ l, r = l ++ [nl] ∧ nl ∉ l) :
    lines nl rs.flatten = rs := by
  induction rs with
  | nil => rfl
  | cons r rs ih =>
    obtain ⟨l, rfl, hl⟩ := h r List.mem_cons_self
    rw [List.flatten_cons, List.append_assoc, List.singleton_append, lines_append, lines_line hl,
      ih fun r hr => h r (List.mem_cons_of_mem _ hr)]
    rfl

/-- What is in a line is in the stream. -/
theorem mem_of_mem_lines {xs l : List α} {c : α} (hl : l ∈ lines nl xs) (hc : c ∈ l) : c ∈ xs := by
  induction xs generalizing l with
  | nil => cases hl
  | cons x xs ih =>
    rw [lines] at hl
    split at hl
    · rcases List.mem_cons.mp hl with rfl | hl
      · exact List.mem_singleton.mp hc ▸ List.mem_cons_self
      · exact List.mem_cons_of_mem _ (ih hl hc)
    · split at hl
      · obtain rfl := List.mem_singleton.mp hl
        exact List.mem_singleton.mp hc ▸ List.mem_cons_self
      · rename_i l' ls hlines
        rcases List.mem_cons.mp hl with rfl | hl
        · rcases List.mem_cons.mp hc with rfl | hc
          · exact List.mem_cons_self
          · exact List.mem_cons_of_mem _ (ih (hlines ▸ List.mem_cons_self) hc)
        · exact List.mem_cons_of_mem _ (ih (hlines ▸ List.mem_cons_of_mem _ hl) hc)

/-- The lines are the stream. -/
theorem flatten_lines (xs : List α) : (lines nl xs).flatten = xs := by
  induction xs with
  | nil => rfl
  | cons x xs ih =>
    rw [lines]
    split
    · rw [List.flatten_cons, ih, List.singleton_append]
    · split <;> rename_i hlines <;> rw [hlines] at ih <;> rw [← ih] <;> rfl

/-- The other lines are those of what comes behind the first. -/
theorem lines_tail {xs l : List α} {ls : List (List α)} (h : lines nl xs = l :: ls) :
    lines nl (xs.drop l.length) = ls := by
  induction xs generalizing l ls with
  | nil => cases h
  | cons c cs ih =>
    by_cases hc : c = nl
    · rw [hc, lines_newline] at h
      obtain ⟨rfl, rfl⟩ := List.cons.inj h
      rfl
    · cases hcs : lines nl cs with
      | nil =>
        rw [lines, if_neg hc, hcs] at h
        obtain ⟨rfl, rfl⟩ := List.cons.inj h
        exact hcs
      | cons l₀ ls₀ =>
        rw [lines_cons hc hcs] at h
        obtain ⟨rfl, rfl⟩ := List.cons.inj h
        exact ih hcs

/-- A line has its newline, or something before the end. -/
theorem nil_not_mem_lines (xs : List α) : [] ∉ lines nl xs := by
  induction xs with
  | nil => exact List.not_mem_nil
  | cons x xs ih =>
    rw [lines]
    split
    · exact fun h => (List.mem_cons.mp h).elim (fun h => by cases h) ih
    · split
      · exact fun h => by cases List.mem_singleton.mp h
      · rename_i hlines
        rw [hlines] at ih
        exact fun h => (List.mem_cons.mp h).elim (fun h => by cases h)
          fun h => ih (List.mem_cons_of_mem _ h)

/-- Where a stream can be cut: at its beginning or behind a newline. -/
def Complete (nl : α) (xs : List α) : Prop := xs = [] ∨ ∃ ys, xs = ys ++ [nl]

theorem Complete.lines_append {xs : List α} (h : Complete nl xs) (ys : List α) :
    lines nl (xs ++ ys) = lines nl xs ++ lines nl ys := by
  obtain rfl | ⟨xs, rfl⟩ := h
  · rfl
  · rw [List.append_assoc, List.singleton_append]
    exact Lib.lines_append xs ys

/-- Only the last line may have no newline, and none has one inside. -/
theorem line_cases {xs l : List α} (hl : l ∈ lines nl xs) :
    nl ∉ l ∨ ∃ l', l = l' ++ [nl] ∧ nl ∉ l' := by
  induction xs generalizing l with
  | nil => cases hl
  | cons x xs ih =>
    rw [lines] at hl
    split at hl
    · rename_i hx
      rcases List.mem_cons.mp hl with rfl | hl
      · exact .inr ⟨[], by rw [hx]; rfl, List.not_mem_nil⟩
      · exact ih hl
    · rename_i hx
      split at hl
      · obtain rfl := List.mem_singleton.mp hl
        exact .inl fun h => hx (List.mem_singleton.mp h).symm
      · rename_i l₀ ls hlines
        rcases List.mem_cons.mp hl with rfl | hl
        · have hcons : ∀ l' : List α, nl ∉ l' → nl ∉ x :: l' := by
            intro l' hl' hmem
            rcases List.mem_cons.mp hmem with h | h
            · exact hx h.symm
            · exact hl' h
          obtain h | ⟨l', rfl, hl'⟩ := ih (hlines ▸ List.mem_cons_self)
          · exact .inl (hcons l₀ h)
          · exact .inr ⟨x :: l', rfl, hcons l' hl'⟩
        · exact ih (hlines ▸ List.mem_cons_of_mem _ hl)

/-- **The lines without their newlines** are the pieces between the newlines, but for an empty piece
    behind the last one. -/
theorem splitOn_eq_lines (nl : α) (xs : List α) :
    ∃ rest, (rest = [] ∨ rest = [[]]) ∧
      xs.splitOn nl = (lines nl xs).map (·.filter (· ≠ nl)) ++ rest := by
  induction xs with
  | nil => exact ⟨[[]], .inr rfl, rfl⟩
  | cons c cs ih =>
    obtain ⟨rest, hrest, hsplit⟩ := ih
    rw [List.splitOn_cons_eq_if_modifyHead, hsplit]
    by_cases hc : c = nl
    · refine ⟨rest, hrest, ?_⟩
      rw [if_pos (by simpa using hc), hc, lines_newline]
      simp
    · rw [if_neg (by simpa using hc)]
      cases hlines : lines nl cs with
      | nil =>
        -- nothing is behind `c`
        have hnil : (lines nl cs).flatten = cs := flatten_lines cs
        rw [hlines, List.flatten_nil] at hnil
        have hone : rest = [[]] := by
          rw [← hnil, lines_nil, List.map_nil, List.nil_append, List.splitOn_nil] at hsplit
          exact hsplit.symm
        refine ⟨[], .inl rfl, ?_⟩
        rw [hone, lines, if_neg hc, hlines]
        simp [hc]
      | cons l ls =>
        refine ⟨rest, hrest, ?_⟩
        rw [lines_cons hc hlines]
        simp [hc]

end Lines

/-- The pieces between separators. -/
theorem splitOn_pieces [BEq α] [LawfulBEq α] {sep : α} (s : List α) :
    ∀ l ∈ s.splitOn sep, sep ∉ l ∧ l ⊆ s := by
  induction s with
  | nil =>
    intro l hl
    obtain rfl := List.mem_singleton.mp hl
    exact ⟨List.not_mem_nil, List.Subset.refl _⟩
  | cons c s ih =>
    intro l hl
    rw [List.splitOn_cons_eq_if_modifyHead] at hl
    by_cases hc : c = sep
    · rw [if_pos (by simpa using hc)] at hl
      rcases List.mem_cons.mp hl with rfl | hl
      · exact ⟨List.not_mem_nil, List.nil_subset _⟩
      · exact ⟨(ih l hl).1, fun x hx => List.mem_cons_of_mem c ((ih l hl).2 hx)⟩
    · rw [if_neg (by simpa using hc)] at hl
      obtain ⟨l₀, ls, hs⟩ := List.exists_cons_of_ne_nil (List.splitOn_ne_nil sep s)
      rw [hs] at hl ih
      rcases List.mem_cons.mp hl with rfl | hl
      · -- the first piece has `c` in front
        obtain ⟨hsep, hsub⟩ := ih l₀ List.mem_cons_self
        refine ⟨fun h => ?_, List.cons_subset_cons c hsub⟩
        rcases List.mem_cons.mp h with h | h
        · exact hc h.symm
        · exact hsep h
      · obtain ⟨hsep, hsub⟩ := ih l (List.mem_cons_of_mem _ hl)
        exact ⟨hsep, fun x hx => List.mem_cons_of_mem c (hsub hx)⟩

/-- An interleaving of lists: the next item is the first that is left of one of them. -/
inductive Interleaves : List (List α) → List α → Prop
  | done {ls} (h : ∀ l ∈ ls, l = []) : Interleaves ls []
  | next {p q l x out} (h : Interleaves (p ++ l :: q) out) :
      Interleaves (p ++ (x :: l) :: q) (x :: out)

namespace Interleaves

variable {ls : List (List α)} {out : List α}

/-- An interleaving has the items of the lists. -/
theorem perm (h : Interleaves ls out) : out.Perm ls.flatten := by
  induction h with
  | done h => rw [List.flatten_eq_nil_iff.mpr h]
  | @next p q l x out h ih =>
    rw [List.flatten_append, List.flatten_cons] at ih ⊢
    exact (ih.cons x).trans List.perm_middle.symm

end Interleaves

section Origins

variable {κ α β : Type*}

/-- What comes from several is what comes from each of them, one after another. -/
theorem flatMap_filter_perm [DecidableEq κ] {ks : List κ} (hks : ks.Nodup) {l : List (κ × β)}
    (h : ∀ x ∈ l, x.1 ∈ ks) : (ks.flatMap fun k => l.filter (·.1 = k)).Perm l := by
  induction ks generalizing l with
  | nil => rw [List.eq_nil_iff_forall_not_mem.mpr fun x hx => List.not_mem_nil (h x hx)]; rfl
  | cons k ks ih =>
    obtain ⟨hk, hks⟩ := List.nodup_cons.mp hks
    have hrest : (ks.flatMap fun k' => l.filter (·.1 = k')) =
        ks.flatMap fun k' => (l.filter fun x => !decide (x.1 = k)).filter (·.1 = k') := by
      refine List.flatMap_congr fun k' hk' => ?_
      rw [List.filter_filter]
      refine List.filter_congr fun x _ => ?_
      have hne : k' ≠ k := fun h => hk (h ▸ hk')
      by_cases hx : x.1 = k' <;> simp [hx, hne]
    rw [List.flatMap_cons, hrest]
    refine (List.Perm.append_left _ (ih hks fun x hx => ?_)).trans (List.filter_append_perm _ l)
    obtain ⟨hx, hne⟩ := List.mem_filter.mp hx
    exact (List.mem_cons.mp (h x hx)).resolve_left (by simpa using hne)

/-- What a permutation is made of. -/
theorem exists_map_of_perm {f : α → β} {l : List α} {l' : List β} (h : l'.Perm (l.map f)) :
    ∃ l₁ : List α, l₁.Perm l ∧ l' = l₁.map f := by
  have hforall : List.Forall₂ (fun b a => b = f a) (l.map f) l := by
    rw [List.forall₂_map_left_iff, List.forall₂_same]
    exact fun _ _ => rfl
  obtain ⟨l₁, hl₁, hperm⟩ := List.perm_comp_forall₂ h hforall
  refine ⟨l₁, hperm, ?_⟩
  rwa [← List.forall₂_eq_eq_eq, List.forall₂_map_right_iff]

end Origins

end SystemProgramming.Lib
