import Mathlib.Data.List.Infix
import Mathlib.Data.List.TakeWhile
import SystemProgramming.Lib.Lines

namespace SystemProgramming.Lib

/-!
# Fields and tokens of a text

The two ways in which C takes a string apart at separators: `strsep` gives every field, `strtok`
only those that are not empty.

* `strtok_append`, `strtok_self` — the next token of a text that begins with one.
* `fields`, `tokens` — the loops around the two functions.
* `fields_eq`, `tokens_eq` — what they find, in terms of `List.splitOnP`.
* `splitOn_unique` — the fields are the only way to write a text with its separators.
* `replicate_nil_infix_iff` — fields that are empty are separators in a row.
-/

section

variable {α : Type*}

/-- The next field, and what is behind its separator if it has one. -/
def strsep (delim : α → Bool) (s : List α) : List α × Option (List α) :=
  (s.takeWhile (! delim ·),
    match s.dropWhile (! delim ·) with
    | [] => none
    | _ :: rest => some rest)

/-- The next token, and what is behind it. -/
def strtok (delim : α → Bool) (s : List α) : Option (List α × List α) :=
  match s.dropWhile delim with
  | [] => none
  | c :: s => some (c :: s.takeWhile (! delim ·), (s.dropWhile (! delim ·)).tail)

variable {delim : α → Bool} {s rest token f : List α}

theorem strsep_length (h : strsep delim s = (f, some rest)) : rest.length < s.length := by
  obtain ⟨-, h⟩ := Prod.mk.inj h
  split at h
  · cases h
  · rename_i c rest' hs
    obtain rfl := Option.some.inj h
    have hdrop : (s.dropWhile (! delim ·)).length ≤ s.length :=
      (List.dropWhile_sublist _).length_le
    rw [hs, List.length_cons] at hdrop
    exact hdrop

theorem strtok_length (h : strtok delim s = some (token, rest)) : rest.length < s.length := by
  rw [strtok] at h
  split at h
  · cases h
  · rename_i c s' hs
    cases h
    have hdrop : (s.dropWhile delim).length ≤ s.length := (List.dropWhile_sublist _).length_le
    have hdrop' : (s'.dropWhile (! delim ·)).length ≤ s'.length :=
      (List.dropWhile_sublist _).length_le
    rw [hs, List.length_cons] at hdrop
    rw [List.length_tail]
    omega

/-- The next token, when the text begins with it. -/
theorem strtok_append {c : α} (hne : token ≠ []) (htoken : ∀ x ∈ token, delim x = false)
    (hc : delim c = true) (rest : List α) :
    strtok delim (token ++ c :: rest) = some (token, rest) := by
  obtain ⟨b, token, rfl⟩ := List.exists_cons_of_ne_nil hne
  have hb : delim b = false := htoken b List.mem_cons_self
  have hall : ∀ x ∈ token, (! delim x) = true := fun x hx => by
    rw [htoken x (List.mem_cons_of_mem _ hx)]
    rfl
  rw [strtok, List.cons_append, List.dropWhile_cons_of_neg (by rw [hb]; decide)]
  dsimp only
  rw [List.takeWhile_append_of_pos hall, List.dropWhile_append_of_pos hall]
  simp [hc]

/-- The last token, when there is nothing behind it. -/
theorem strtok_self (hne : token ≠ []) (htoken : ∀ x ∈ token, delim x = false) :
    strtok delim token = some (token, []) := by
  obtain ⟨b, token, rfl⟩ := List.exists_cons_of_ne_nil hne
  have hb : delim b = false := htoken b List.mem_cons_self
  have hall : ∀ x ∈ token, (! delim x) = true := fun x hx => by
    rw [htoken x (List.mem_cons_of_mem _ hx)]
    rfl
  rw [strtok, List.dropWhile_cons_of_neg (by rw [hb]; decide)]
  dsimp only
  rw [List.takeWhile_eq_self_iff.mpr hall, List.dropWhile_eq_nil_iff.mpr hall, List.tail_nil]

/-- A token is not empty and has no separator, and all is from the text. -/
theorem strtok_spec (h : strtok delim s = some (token, rest)) :
    token ≠ [] ∧ (∀ x ∈ token, delim x = false) ∧ token ⊆ s ∧ rest ⊆ s := by
  rw [strtok] at h
  split at h
  · cases h
  · rename_i c s' hs
    cases h
    have hc : delim c = false := by
      have hhead := List.head?_dropWhile_not delim s
      rw [hs] at hhead
      simpa using hhead
    have hsub : c :: s' ⊆ s := hs ▸ (List.dropWhile_sublist delim).subset
    refine ⟨List.cons_ne_nil _ _, fun x hx => ?_, fun x hx => hsub ?_, fun x hx => hsub ?_⟩
    · rcases List.mem_cons.mp hx with rfl | hx
      · exact hc
      · simpa using List.mem_takeWhile_imp hx
    · rcases List.mem_cons.mp hx with rfl | hx
      · exact List.mem_cons_self
      · exact List.mem_cons_of_mem _ ((List.takeWhile_sublist _).subset hx)
    · have hdrop := (List.dropWhile_sublist (! delim ·)).subset (List.mem_of_mem_tail hx)
      exact List.mem_cons_of_mem _ hdrop

/-- `while (ptr) { s = strsep(&ptr, delim); … }` -/
def fields (delim : α → Bool) (s : List α) : List (List α) :=
  match _h : strsep delim s with
  | (f, none) => [f]
  | (f, some rest) => f :: fields delim rest
termination_by s.length
decreasing_by exact strsep_length _h

/-- The tokens that `strtok` finds until it returns `NULL`. -/
def tokens (delim : α → Bool) (s : List α) : List (List α) :=
  match _h : strtok delim s with
  | none => []
  | some (token, rest) => token :: tokens delim rest
termination_by s.length
decreasing_by exact strtok_length _h

/-! ### What the loops find -/

theorem not_delim_of_mem_takeWhile {c : α} (h : c ∈ s.takeWhile (! delim ·)) : delim c = false := by
  simpa using List.mem_takeWhile_imp h

theorem delim_of_dropWhile {c : α} (h : s.dropWhile (! delim ·) = c :: rest) : delim c = true := by
  have hhead := List.head?_dropWhile_not (! delim ·) s
  rw [h] at hhead
  simpa using hhead

/-- **Fields** are the pieces between the separators. -/
theorem fields_eq (delim : α → Bool) (s : List α) : fields delim s = s.splitOnP delim := by
  induction hn : s.length using Nat.strong_induction_on generalizing s with
  | _ n ih =>
    have hsplit := List.takeWhile_append_dropWhile (p := (! delim ·)) (l := s)
    rw [fields]
    split
    · rename_i f h
      obtain ⟨rfl, hrest⟩ := Prod.mk.inj h
      split at hrest
      · rename_i hs
        rw [hs, List.append_nil] at hsplit
        rw [hsplit]
        refine (List.splitOnP_eq_singleton fun c hc => ?_).symm
        exact not_delim_of_mem_takeWhile (hsplit.symm ▸ hc)
      · cases hrest
    · rename_i f rest h
      rw [ih rest.length (hn ▸ strsep_length h) rest rfl]
      obtain ⟨rfl, hrest⟩ := Prod.mk.inj h
      split at hrest
      · cases hrest
      · rename_i c rest' hs
        obtain rfl := Option.some.inj hrest
        have hfield : ∀ x ∈ s.takeWhile (! delim ·), delim x = false :=
          fun x hx => not_delim_of_mem_takeWhile hx
        conv_rhs => rw [← hsplit, hs]
        exact (List.splitOnP_append_cons_of_forall_mem hfield c (delim_of_dropWhile hs) _).symm

theorem filter_splitOnP_dropWhile (delim : α → Bool) (s : List α) :
    ((s.dropWhile delim).splitOnP delim).filter (· ≠ []) =
      (s.splitOnP delim).filter (· ≠ []) := by
  induction s with
  | nil => rfl
  | cons c s ih =>
    by_cases hc : delim c
    · rw [List.dropWhile_cons_of_pos hc, ih, List.splitOnP_cons_eq_if_modifyHead, if_pos hc]
      rfl
    · rw [List.dropWhile_cons_of_neg hc]

/-- **Tokens** are the pieces that are not empty. -/
theorem tokens_eq (delim : α → Bool) (s : List α) :
    tokens delim s = (s.splitOnP delim).filter (· ≠ []) := by
  induction hn : s.length using Nat.strong_induction_on generalizing s with
  | _ n ih =>
    rw [tokens]
    split
    · rename_i h
      rw [strtok] at h
      split at h
      · rename_i hs
        rw [← filter_splitOnP_dropWhile, hs]
        rfl
      · cases h
    · rename_i token rest h
      rw [ih rest.length (hn ▸ strtok_length h) rest rfl]
      rw [strtok] at h
      split at h
      · cases h
      · rename_i c s' hs
        cases h
        have hc : delim c = false := by
          have hhead := List.head?_dropWhile_not delim s
          rw [hs] at hhead
          simpa using hhead
        -- the token ends at a separator or with the text
        have htoken : ∀ x ∈ c :: s'.takeWhile (! delim ·), delim x = false := by
          intro x hx
          rcases List.mem_cons.mp hx with rfl | hx
          · exact hc
          · exact not_delim_of_mem_takeWhile hx
        have hsplit : s.dropWhile delim =
            (c :: s'.takeWhile (! delim ·)) ++ s'.dropWhile (! delim ·) := by
          rw [hs, List.cons_append, List.takeWhile_append_dropWhile]
        rw [← filter_splitOnP_dropWhile delim s, hsplit]
        cases hrest : s'.dropWhile (! delim ·) with
        | nil =>
          rw [List.append_nil, List.splitOnP_eq_singleton htoken]
          rfl
        | cons b rest =>
          rw [List.splitOnP_append_cons_of_forall_mem htoken b (delim_of_dropWhile hrest)]
          rfl

end

/-! ### Fields at one separator -/

variable {α : Type*} [DecidableEq α] {d : α} {s : List α} {fs : List (List α)}

/-- Each field stands behind a separator when one is put in front of the text. -/
theorem flatMap_splitOn (d : α) (s : List α) : (s.splitOn d).flatMap (d :: ·) = d :: s := by
  induction s with
  | nil => rfl
  | cons c s ih =>
    rw [List.splitOn_cons_eq_if_modifyHead]
    by_cases hc : c = d
    · rw [if_pos (by simpa using hc), List.flatMap_cons, ih, hc]
      rfl
    · obtain ⟨f, fs, hs⟩ := List.exists_cons_of_ne_nil (List.splitOn_ne_nil d s)
      rw [if_neg (by simpa using hc), hs, List.modifyHead_cons, List.flatMap_cons]
      rw [hs, List.flatMap_cons, List.cons_append] at ih
      rw [List.cons_append, List.cons_append, (List.cons.inj ih).2]

theorem length_splitOn (d : α) (s : List α) : (s.splitOn d).length = s.count d + 1 := by
  induction s with
  | nil => rfl
  | cons c s ih =>
    rw [List.splitOn_cons_eq_if_modifyHead, List.count_cons]
    split
    · rw [List.length_cons, ih]
    · rw [List.length_modifyHead, ih, Nat.add_zero]

/-- **The fields** are the only pieces without a separator that make the text when they are
    joined. -/
theorem splitOn_unique (hlen : fs.length = s.count d + 1) (hd : ∀ f ∈ fs, d ∉ f)
    (hjoin : [d].intercalate fs = s) : fs = s.splitOn d := by
  have hne : fs ≠ [] := by
    rintro rfl
    cases hlen
  rw [← hjoin, List.splitOn_intercalate d hd hne]

omit [DecidableEq α] in
theorem replicate_prefix_iff (hd : ∀ f ∈ fs, d ∉ f) (k : ℕ) :
    List.replicate (k + 1) d <+: fs.flatMap (d :: ·) ++ [d] ↔ List.replicate k [] <+: fs := by
  induction fs generalizing k with
  | nil => cases k <;> simp [List.replicate_succ]
  | cons f fs ih =>
    cases k with
    | zero => simp [List.replicate_succ]
    | succ k =>
      rw [List.replicate_succ, List.flatMap_cons, List.cons_append, List.cons_append,
        List.cons_prefix_cons, List.replicate_succ (n := k) (a := []), List.cons_prefix_cons]
      cases f with
      | nil =>
        rw [List.nil_append, ih fun f hf => hd f (List.mem_cons_of_mem _ hf)]
        simp
      | cons c f =>
        have hc : c ≠ d := fun h => hd (c :: f) List.mem_cons_self (h ▸ List.mem_cons_self)
        rw [List.replicate_succ, List.cons_append, List.cons_append, List.cons_prefix_cons]
        simp [Ne.symm hc]

omit [DecidableEq α] in
theorem replicate_infix_append {f t : List α} (hf : d ∉ f) (k : ℕ) :
    List.replicate (k + 1) d <:+: f ++ t ↔ List.replicate (k + 1) d <:+: t := by
  induction f with
  | nil => rfl
  | cons c f ih =>
    obtain ⟨hc, hf⟩ := not_or.mp (List.mem_cons.not.mp hf)
    rw [List.cons_append, List.infix_cons_iff, ih hf, List.replicate_succ, List.cons_prefix_cons]
    simp [hc]

omit [DecidableEq α] in
theorem replicate_infix_iff (hd : ∀ f ∈ fs, d ∉ f) (k : ℕ) :
    List.replicate (k + 1) d <:+: fs.flatMap (d :: ·) ++ [d] ↔ List.replicate k [] <:+: fs := by
  induction fs with
  | nil =>
    cases k with
    | zero => simp
    | succ k => simp [List.replicate_succ, List.infix_cons_iff]
  | cons f fs ih =>
    have hd' : ∀ f ∈ fs, d ∉ f := fun f hf => hd f (List.mem_cons_of_mem _ hf)
    have hpre := replicate_prefix_iff hd k
    rw [List.flatMap_cons, List.cons_append, List.cons_append] at hpre ⊢
    rw [List.infix_cons_iff, List.infix_cons_iff, hpre, List.append_assoc,
      replicate_infix_append (hd f List.mem_cons_self), ih hd']

/-- **Empty fields** in a row are separators in a row, where the text counts as having one at
    each end. -/
theorem replicate_nil_infix_iff (d : α) (s : List α) (k : ℕ) :
    List.replicate k [] <:+: s.splitOn d ↔ List.replicate (k + 1) d <:+: d :: s ++ [d] := by
  rw [← replicate_infix_iff (fun f hf => (splitOn_pieces s f hf).1), flatMap_splitOn]

end SystemProgramming.Lib
