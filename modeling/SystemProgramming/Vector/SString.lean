import Mathlib.Data.List.Forall2
import Mathlib.Data.Nat.Find
import SystemProgramming.Lib.CString
import SystemProgramming.Lib.Fields
import SystemProgramming.Vector.Vector

namespace SystemProgramming.Vector

open Lib Lib.CString

/-!
# `sstring.c`

An `sstring` keeps a string in a block of memory, and its length.  Reading a block that has no
null and writing behind the end of one have no result.

* `cstr_to_sstring`, `sstring_append`, `sstring_split`, `sstring_substitute` — the code.
* `Holds` — the block is as long as the string needs, and the length is right.
* `sstring_split_iff` — for which strings the fields are those of Python's `split`.
* `run_spec` — any calls on any number of `sstring`s do what they should.
-/

/-- A string without its final null. -/
abbrev Str := List UInt8

/-- What a `char *` points to. -/
abbrev CStr := {s : Str // 0 ∉ s}

structure sstring where
  source : Block
  len : ℕ
  deriving DecidableEq

def cstr_to_sstring (input : CStr) : sstring := ⟨input.1 ++ [0], input.1.length⟩

def sstring_append (fresh : ℕ → UInt8) (this addition : sstring) : Option (sstring × ℤ) := do
  let source := realloc fresh this.source ((this.len + addition.len + 1) % 2 ^ 64)
  let source ← strcat source (← text addition.source)
  let len := (this.len + addition.len) % 2 ^ 64
  some (⟨source, len⟩, int len)

def sstring_split (this : sstring) (delimiter : UInt8) : Option (List Str) := do
  let d ← text [delimiter, 0]
  let sstr ← text this.source
  some (tokens (d.contains ·) sstr)

def sstring_substitute (fresh : ℕ → UInt8) (this : sstring) (offset : ℕ)
    (target substitution : Str) : Option (sstring × ℤ) := do
  match strstr (← text (this.source.drop offset)) target with
  | none => some (this, -1)
  | some k => do
    let a := offset + k
    let s ← text this.source
    let part1 := int a
    let part2 := ((s.length - a - target.length : ℤ)).bmod (2 ^ 32)
    -- `char b[part1 + 1]` and `char c[part2 + 1]` need a positive size
    if part1 < 0 ∨ part2 < 0 then none
    else do
      let b ← strncpy (alloc fresh (part1.toNat + 1)) s part1.toNat
      let b ← write b part1.toNat [0]
      let c ← write (alloc fresh (part2.toNat + 1)) part2.toNat [0]
      let c ← strcpy c (← text (this.source.drop (a + target.length)))
      let len := (this.len + 2 ^ 64 - target.length + substitution.length) % 2 ^ 64
      let source := realloc fresh this.source ((len + 1) % 2 ^ 64)
      let source ← strcpy source (← text b)
      let source ← strcat source substitution
      let source ← strcat source (← text c)
      some (⟨source, len⟩, 0)

variable {fresh : ℕ → UInt8} {this addition : sstring} {s t u target substitution : Str}
  {offset a : ℕ}

/-- The `sstring` is the string: its block has room for it and for nothing else. -/
structure Holds (this : sstring) (t : Str) : Prop where
  zero_notMem : 0 ∉ t
  source_eq : this.source = t ++ [0]
  len_eq : this.len = t.length

theorem Holds.text_eq (h : Holds this t) : text this.source = some t := by
  rw [h.source_eq]
  exact CString.text_eq h.zero_notMem []

theorem Holds.of_cstr (input : CStr) : Holds (cstr_to_sstring input) input.1 :=
  ⟨input.2, rfl, rfl⟩

/-! ### `sstring_split` -/

/-- What the header promises of the fields. -/
def Documented (s : Str) (delimiter : UInt8) (fs : List Str) : Prop :=
  fs.length = s.count delimiter + 1 ∧ (∀ f ∈ fs, delimiter ∉ f) ∧
    [delimiter].intercalate fs = s

theorem sstring_split_eq {d : UInt8} (hd : d ≠ 0) (h : Holds this t) :
    sstring_split this d = some ((t.splitOn d).filter (· ≠ [])) := by
  have hdelim : text [d, 0] = some [d] := CString.text_eq (t := [d]) (by simpa using hd.symm) []
  have hcontains : ([d].contains ·) = (· == d) := by
    funext c
    rw [List.contains_cons, List.contains_nil, Bool.or_false]
  rw [sstring_split, hdelim, Option.bind_eq_bind, Option.bind_some, h.text_eq, Option.bind_some,
    tokens_eq, hcontains, ← List.splitOn_eq_splitOnP]

/-- **`sstring_split`** returns the fields just when none of them is empty: the string is not
    empty, no delimiter is at an end of it, and no two are next to each other. -/
theorem sstring_split_iff (s : CStr) {d : UInt8} (hd : d ≠ 0) :
    (∃ fs, sstring_split (cstr_to_sstring s) d = some fs ∧ Documented s.1 d fs) ↔
      ¬ [d, d] <:+: d :: s.1 ++ [d] := by
  rw [sstring_split_eq hd (Holds.of_cstr s)]
  have hempty : [] ∈ s.1.splitOn d ↔ [d, d] <:+: d :: s.1 ++ [d] := by
    rw [← List.singleton_infix_iff]
    exact replicate_nil_infix_iff d s.1 1
  rw [← hempty]
  constructor
  · rintro ⟨fs, hfs, hlen, hmem, hjoin⟩ hnil
    rw [Option.some.injEq, splitOn_unique hlen hmem hjoin, List.filter_eq_self] at hfs
    simpa using hfs [] hnil
  · intro hnil
    have hfs : (s.1.splitOn d).filter (· ≠ []) = s.1.splitOn d := by
      rw [List.filter_eq_self]
      intro f hf
      have hne : f ≠ [] := fun h => hnil (h ▸ hf)
      simpa using hne
    exact ⟨_, rfl, by rw [hfs, length_splitOn], fun f hf => (splitOn_pieces s.1 f (hfs ▸ hf)).1,
      by rw [hfs, List.intercalate_splitOn]⟩

theorem sstring_split_iff_comma :
    (∃ fs, sstring_split (cstr_to_sstring ⟨[97, 44, 98], by decide⟩) 44 = some fs ∧
      Documented [97, 44, 98] 44 fs) ↔ ¬ [(44 : UInt8), 44] <:+: 44 :: [97, 44, 98] ++ [44] :=
  sstring_split_iff ⟨[97, 44, 98], by decide⟩ (d := 44) (by decide)

/-- `"a,,b"` and the empty string have empty fields. -/
theorem sstring_split_drops :
    (¬ ∃ fs, sstring_split (cstr_to_sstring ⟨[97, 44, 44, 98], by decide⟩) 44 = some fs ∧
      Documented [97, 44, 44, 98] 44 fs) ∧
    ¬ ∃ fs, sstring_split (cstr_to_sstring ⟨[], by decide⟩) 44 = some fs ∧ Documented [] 44 fs := by
  constructor
  · rw [sstring_split_eq (by decide) (Holds.of_cstr ⟨[97, 44, 44, 98], by decide⟩)]
    rintro ⟨fs, hfs, hlen, -⟩
    rw [← Option.some.inj hfs] at hlen
    exact absurd hlen (by decide)
  · rw [sstring_split_eq (by decide) (Holds.of_cstr ⟨[], by decide⟩)]
    rintro ⟨fs, hfs, hlen, -⟩
    rw [← Option.some.inj hfs] at hlen
    exact absurd hlen (by decide)

/-! ### `sstring_append` and `sstring_substitute` -/

theorem sstring_append_spec (fresh : ℕ → UInt8) (ht : Holds this t) (hu : Holds addition u)
    (hlen : (t ++ u).length < 2 ^ 31) :
    ∃ this', sstring_append fresh this addition = some (this', ((t ++ u).length : ℤ)) ∧
      Holds this' (t ++ u) := by
  have hlen' : t.length + u.length < 2 ^ 31 := by rwa [← List.length_append]
  have hsize : (this.len + addition.len + 1) % 2 ^ 64 = (t ++ [0]).length + u.length := by
    rw [ht.len_eq, hu.len_eq, List.length_append, List.length_singleton]
    omega
  have hlen_eq : (this.len + addition.len) % 2 ^ 64 = (t ++ u).length := by
    rw [ht.len_eq, hu.len_eq, List.length_append]
    omega
  -- behind the null of the string there is room for the characters of the addition
  have hcat : strcat (realloc fresh this.source ((t ++ [0]).length + u.length)) u =
      some (t ++ u ++ [0]) := by
    rw [ht.source_eq, realloc_of_le (by omega), List.append_assoc, List.singleton_append,
      strcat_eq ht.zero_notMem]
    · rw [List.drop_eq_nil_of_le]
      simp
    · simp
  refine ⟨⟨t ++ u ++ [0], (t ++ u).length⟩, ?_, ?_, rfl, rfl⟩
  · simp only [sstring_append, hsize, hu.text_eq, hcat, hlen_eq, Option.bind_eq_bind,
      Option.bind_some, int_eq hlen]
  · rw [List.mem_append, not_or]
    exact ⟨ht.zero_notMem, hu.zero_notMem⟩

/-- The first place at or behind `offset` where `target` is. -/
def FirstAt (t : Str) (offset : ℕ) (target : Str) (a : ℕ) : Prop :=
  offset ≤ a ∧ target <+: t.drop a ∧ ∀ i, offset ≤ i → i < a → ¬ target <+: t.drop i

theorem text_drop (h : Holds this t) (ha : a ≤ t.length) :
    text (this.source.drop a) = some (t.drop a) := by
  rw [h.source_eq, List.drop_append_of_le_length ha]
  exact CString.text_eq (fun hmem => h.zero_notMem (List.mem_of_mem_drop hmem)) []

theorem sstring_substitute_none (fresh : ℕ → UInt8) (h : Holds this t) (ho : offset ≤ t.length)
    (hno : ∀ i, offset ≤ i → i ≤ t.length → ¬ target <+: t.drop i) :
    sstring_substitute fresh this offset target substitution = some (this, -1) := by
  have hstr : strstr (t.drop offset) target = none := by
    rw [strstr_eq_none_iff]
    intro i hi
    rw [List.length_drop] at hi
    rw [List.drop_drop]
    exact hno (offset + i) (by omega) (by omega)
  rw [sstring_substitute, text_drop h ho, Option.bind_eq_bind, Option.bind_some, hstr]

theorem sstring_substitute_some (fresh : ℕ → UInt8) (h : Holds this t) (ho : offset ≤ t.length)
    (htarget : target ≠ []) (hsub : 0 ∉ substitution) (hlen : t.length < 2 ^ 31)
    (hlen' : (t.take a ++ substitution ++ t.drop (a + target.length)).length < 2 ^ 31)
    (ha : FirstAt t offset target a) :
    ∃ this', sstring_substitute fresh this offset target substitution = some (this', 0) ∧
      Holds this' (t.take a ++ substitution ++ t.drop (a + target.length)) := by
  obtain ⟨hle, hat, hbefore⟩ := ha
  have hroom : a + target.length ≤ t.length := by
    have hprefix := hat.length_le
    have hpos := List.length_pos_of_ne_nil htarget
    rw [List.length_drop] at hprefix
    omega
  have hstr : strstr (t.drop offset) target = some (a - offset) := by
    rw [strstr_eq_some_iff]
    refine ⟨by rw [List.length_drop]; omega, ?_, fun i hi => ?_⟩
    · rwa [List.drop_drop, Nat.add_sub_cancel' hle]
    · rw [List.drop_drop]
      exact hbefore (offset + i) (by omega) (by omega)
  have hstart : offset + (a - offset) = a := by omega
  have hpart2 : ((t.length - a - target.length : ℤ)).bmod (2 ^ 32) =
      (t.length - (a + target.length) : ℕ) := by
    rw [show (t.length - a - target.length : ℤ) = (t.length - (a + target.length) : ℕ) by omega]
    exact int_eq (by omega)
  have hlens : (t.take a ++ substitution ++ t.drop (a + target.length)).length =
      a + substitution.length + (t.length - (a + target.length)) := by
    rw [List.length_append, List.length_append, List.length_take, List.length_drop]
    omega
  have htake : (t.take a).length = a := List.length_take_of_le (by omega)
  have hdrop : (t.drop (a + target.length)).length = t.length - (a + target.length) :=
    List.length_drop
  have hzero : 0 ∉ t.take a := fun hmem => h.zero_notMem (List.mem_of_mem_take hmem)
  have hzero' : 0 ∉ t.drop (a + target.length) := fun hmem =>
    h.zero_notMem (List.mem_of_mem_drop hmem)
  -- the two arrays, and what is copied into them
  obtain ⟨b, hb, hb'⟩ := strncpy_eq (b := alloc fresh (a + 1)) (s := t) (n := a) (by omega)
    length_alloc
  have hb_text : text (t.take a ++ [0]) = some (t.take a) := CString.text_eq hzero []
  obtain ⟨c, hc⟩ : ∃ c, write (alloc fresh (t.length - (a + target.length) + 1))
      (t.length - (a + target.length)) [0] = some c :=
    ⟨_, write_eq (by rw [length_alloc, List.length_singleton])⟩
  have hc_len := (length_of_write hc).trans length_alloc
  have hc' : strcpy c (t.drop (a + target.length)) = some (t.drop (a + target.length) ++ [0]) := by
    have hlt : (t.drop (a + target.length)).length < c.length := by omega
    have hnil : c.drop ((t.drop (a + target.length)).length + 1) = [] :=
      List.drop_eq_nil_of_le (by omega)
    rw [strcpy_eq hlt, hnil]
  have hc_text : text (t.drop (a + target.length) ++ [0]) = some (t.drop (a + target.length)) :=
    CString.text_eq hzero' []
  -- the block of the new length, and the three pieces one behind the other
  generalize ht' : t.take a ++ substitution ++ t.drop (a + target.length) = t' at *
  have hsize : (this.len + 2 ^ 64 - target.length + substitution.length) % 2 ^ 64 = t'.length := by
    rw [h.len_eq]
    omega
  have hsize' : (t'.length + 1) % 2 ^ 64 = t'.length + 1 := by omega
  have hcopy : ∃ r, strcpy (realloc fresh this.source (t'.length + 1)) (t.take a) =
      some (t.take a ++ 0 :: r) ∧ r.length = t'.length - a := by
    have hlt : (t.take a).length < (realloc fresh this.source (t'.length + 1)).length := by
      rw [length_realloc]
      omega
    refine ⟨_, strcpy_eq hlt, ?_⟩
    rw [List.length_drop, length_realloc, htake]
    omega
  obtain ⟨r, hcopy, hr⟩ := hcopy
  have hcat := strcat_eq (s := substitution) (r := r) hzero (by omega)
  have hcat' := strcat_eq (t := t.take a ++ substitution) (s := t.drop (a + target.length))
    (r := r.drop substitution.length) (by simp [hzero, hsub])
    (by rw [List.length_drop (l := r)]; omega)
  have hnil : r.drop (substitution.length + (t.drop (a + target.length)).length) = [] :=
    List.drop_eq_nil_of_le (by omega)
  rw [ht', List.drop_drop, hnil] at hcat'
  refine ⟨⟨t' ++ [0], t'.length⟩, ?_, ?_, rfl, rfl⟩
  · have hint : int a = a := int_eq (by omega)
    have hsigns : ¬((a : ℤ) < 0 ∨ ((t.length - (a + target.length) : ℕ) : ℤ) < 0) :=
      not_or.mpr ⟨(Int.natCast_nonneg _).not_gt, (Int.natCast_nonneg _).not_gt⟩
    rw [sstring_substitute, text_drop h ho, Option.bind_eq_bind, Option.bind_some, hstr]
    dsimp only
    rw [hstart, h.text_eq, Option.bind_some, hint, hpart2, if_neg hsigns, Int.toNat_natCast,
      Int.toNat_natCast, hb, Option.bind_some, hb', Option.bind_some, hc, Option.bind_some,
      text_drop h hroom, Option.bind_some, hc', Option.bind_some, hb_text, Option.bind_some, hsize,
      hsize', hcopy, Option.bind_some, hcat, Option.bind_some, hc_text, Option.bind_some, hcat',
      Option.bind_some]
  · rw [← ht']
    simp [hzero, hzero', hsub]

/-! ### Calls on any number of strings -/

/-- A call; an `sstring` is named by when it was made. -/
inductive Call
  | cstr_to_sstring (input : CStr)
  | append (this addition : ℕ)
  | substitute (this offset : ℕ) (target substitution : CStr)

def Call.run (fresh : ℕ → UInt8) (pool : List sstring) : Call → Option (List sstring × ℤ)
  | cstr_to_sstring input => some (pool ++ [Vector.cstr_to_sstring input], 0)
  | append this addition => do
    let (s, r) ← sstring_append fresh (← pool[this]?) (← pool[addition]?)
    some (pool.set this s, r)
  | substitute this offset target substitution => do
    let (s, r) ← sstring_substitute fresh (← pool[this]?) offset target.1 substitution.1
    some (pool.set this s, r)

/-- The calls in turn, with what they return.  Each one may find other bytes in new memory. -/
def runs (fresh : ℕ → ℕ → UInt8) (n : ℕ) (pool : List sstring) :
    List Call → Option (List sstring × List ℤ)
  | [] => some (pool, [])
  | c :: cs => do
    let (pool, r) ← c.run (fresh n) pool
    let (pool, rs) ← runs fresh (n + 1) pool cs
    some (pool, r :: rs)

/-- What a call does to the strings, and what it returns. -/
inductive Call.Does (texts : List Str) : Call → List Str → ℤ → Prop
  | cstr_to_sstring (input : CStr) :
    Does texts (.cstr_to_sstring input) (texts ++ [input.1]) 0
  | append {i j : ℕ} {t u : Str} (hi : texts[i]? = some t) (hj : texts[j]? = some u)
      (hij : i ≠ j) : Does texts (.append i j) (texts.set i (t ++ u)) (t ++ u).length
  | replaced {i offset a : ℕ} {target substitution : CStr} {t : Str} (hi : texts[i]? = some t)
      (ho : offset ≤ t.length) (htarget : target.1 ≠ []) (ha : FirstAt t offset target.1 a) :
    Does texts (.substitute i offset target substitution)
      (texts.set i (t.take a ++ substitution.1 ++ t.drop (a + target.1.length))) 0
  | absent {i offset : ℕ} {target substitution : CStr} {t : Str} (hi : texts[i]? = some t)
      (ho : offset ≤ t.length) (htarget : target.1 ≠ [])
      (hno : ∀ a, offset ≤ a → a ≤ t.length → ¬ target.1 <+: t.drop a) :
    Does texts (.substitute i offset target substitution) texts (-1)

/-- The lengths are below `2 ^ 31`. -/
def Fits (texts : List Str) : Prop := ∀ t ∈ texts, t.length < 2 ^ 31

/-- A sequence of calls on strings that stay short enough. -/
inductive Run : List Str → List Call → List Str → List ℤ → Prop
  | nil (texts : List Str) : Run texts [] texts []
  | cons {texts texts' texts'' : List Str} {c : Call} {cs : List Call} {r : ℤ} {rs : List ℤ}
      (hdoes : c.Does texts texts' r) (hfits : Fits texts') (hrun : Run texts' cs texts'' rs) :
    Run texts (c :: cs) texts'' (r :: rs)

/-- A substitution at an offset in the string either finds the target or does not. -/
theorem Call.exists_does {texts : List Str} {i : ℕ} {target substitution : CStr}
    (hi : texts[i]? = some t) (ho : offset ≤ t.length) (htarget : target.1 ≠ []) :
    ∃ texts' r, Does texts (.substitute i offset target substitution) texts' r := by
  by_cases h : ∃ a, offset ≤ a ∧ a ≤ t.length ∧ target.1 <+: t.drop a
  · have hfirst := Nat.find_spec h
    refine ⟨_, _, .replaced hi ho htarget (a := Nat.find h)
      ⟨hfirst.1, hfirst.2.2, fun j hj hlt hat => Nat.find_min h hlt ⟨hj, ?_, hat⟩⟩⟩
    exact (hlt.le).trans hfirst.2.1
  · exact ⟨_, _, .absent hi ho htarget fun a h1 h2 h3 => h ⟨a, h1, h2, h3⟩⟩

section

variable {α β : Type*} {R : α → β → Prop} {l : List α} {l' : List β} {x : α} {y : β} {i : ℕ}

theorem forall₂_getElem? (h : List.Forall₂ R l l') (hy : l'[i]? = some y) :
    ∃ x, l[i]? = some x ∧ R x y := by
  induction h generalizing i with
  | nil => cases hy
  | cons hxy _ ih =>
    cases i with
    | zero => exact ⟨_, rfl, Option.some.inj hy ▸ hxy⟩
    | succ i => exact ih hy

theorem forall₂_set (h : List.Forall₂ R l l') (hxy : R x y) (i : ℕ) :
    List.Forall₂ R (l.set i x) (l'.set i y) := by
  induction h generalizing i with
  | nil => exact .nil
  | cons hab htail ih =>
    cases i with
    | zero => exact .cons hxy htail
    | succ i => exact .cons hab (ih i)

theorem forall₂_concat (h : List.Forall₂ R l l') (hxy : R x y) :
    List.Forall₂ R (l ++ [x]) (l' ++ [y]) := by
  induction h with
  | nil => exact .cons hxy .nil
  | cons hab _ ih => exact .cons hab ih

end

theorem length_lt_of_set {texts : List Str} {i : ℕ} (hi : texts[i]? = some t)
    (hfits : Fits (texts.set i u)) : u.length < 2 ^ 31 := by
  obtain ⟨hlt, -⟩ := List.getElem?_eq_some_iff.mp hi
  exact hfits u (List.mem_set hlt u)

/-- **One call.** -/
theorem Call.run_spec (fresh : ℕ → UInt8) {pool : List sstring} {texts texts' : List Str} {c : Call} {r : ℤ}
    (hpool : List.Forall₂ Holds pool texts) (hfits : Fits texts)
    (hdoes : c.Does texts texts' r) (hfits' : Fits texts') :
    ∃ pool', c.run fresh pool = some (pool', r) ∧ List.Forall₂ Holds pool' texts' := by
  cases hdoes with
  | cstr_to_sstring input => exact ⟨_, rfl, forall₂_concat hpool (Holds.of_cstr input)⟩
  | append hi hj hij =>
    obtain ⟨s, hs, hst⟩ := forall₂_getElem? hpool hi
    obtain ⟨s', hs', hsu⟩ := forall₂_getElem? hpool hj
    obtain ⟨this', hrun, hthis⟩ :=
      sstring_append_spec fresh hst hsu (length_lt_of_set hi hfits')
    exact ⟨_, by simp only [Call.run, hs, hs', hrun, Option.bind_eq_bind, Option.bind_some],
      forall₂_set hpool hthis _⟩
  | @replaced i offset a target substitution t hi ho htarget ha =>
    obtain ⟨s, hs, hst⟩ := forall₂_getElem? hpool hi
    obtain ⟨this', hrun, hthis⟩ := sstring_substitute_some fresh hst ho htarget substitution.2
      (hfits t (List.mem_of_getElem? hi)) (length_lt_of_set hi hfits') ha
    exact ⟨_, by simp only [Call.run, hs, hrun, Option.bind_eq_bind, Option.bind_some],
      forall₂_set hpool hthis _⟩
  | @absent i offset target substitution t hi ho htarget hno =>
    obtain ⟨s, hs, hst⟩ := forall₂_getElem? hpool hi
    have hrun : sstring_substitute fresh s offset target substitution.1 = some (s, -1) :=
      sstring_substitute_none fresh hst ho hno
    have hset : pool.set i s = pool := by
      obtain ⟨hlt, rfl⟩ := List.getElem?_eq_some_iff.mp hs
      exact List.set_getElem_self hlt
    exact ⟨pool.set i s, by simp only [Call.run, hs, hrun, Option.bind_eq_bind, Option.bind_some],
      hset.symm ▸ hpool⟩

theorem runs_spec' {fresh : ℕ → ℕ → UInt8} {pool : List sstring} {calls : List Call}
    {texts texts' : List Str} {rs : List ℤ} (n : ℕ) (hpool : List.Forall₂ Holds pool texts)
    (hfits : Fits texts) (hrun : Run texts calls texts' rs) :
    ∃ pool', runs fresh n pool calls = some (pool', rs) ∧ List.Forall₂ Holds pool' texts' := by
  induction hrun generalizing n pool with
  | nil => exact ⟨pool, rfl, hpool⟩
  | cons hdoes hfits' _ ih =>
    obtain ⟨pool₁, hcall, hpool₁⟩ := Call.run_spec (fresh n) hpool hfits hdoes hfits'
    obtain ⟨pool₂, hruns, hpool₂⟩ := ih (n + 1) hpool₁ hfits'
    exact ⟨pool₂, by simp only [runs, hcall, hruns, Option.bind_eq_bind, Option.bind_some], hpool₂⟩

/-- **Any sequence of calls** has the results it should have, and leaves blocks that are as long
    as their strings need. -/
theorem runs_spec {fresh : ℕ → ℕ → UInt8} {calls : List Call} {texts : List Str} {rs : List ℤ}
    (hrun : Run [] calls texts rs) :
    ∃ pool, runs fresh 0 [] calls = some (pool, rs) ∧ List.Forall₂ Holds pool texts :=
  runs_spec' 0 .nil (fun t ht => by cases ht) hrun

/-- `"abc"`, with `"d"` appended and `"b"` replaced by `"xy"`; then there is no `"b"` left. -/
theorem runs_spec_five :
    ∃ pool, runs (fun _ _ => 0) 0 [] [.cstr_to_sstring ⟨[97, 98, 99], by decide⟩,
        .cstr_to_sstring ⟨[100], by decide⟩, .append 0 1,
        .substitute 0 0 ⟨[98], by decide⟩ ⟨[120, 121], by decide⟩,
        .substitute 0 0 ⟨[98], by decide⟩ ⟨[120, 121], by decide⟩] =
        some (pool, [0, 0, 4, 0, -1]) ∧
      List.Forall₂ Holds pool [[97, 120, 121, 99, 100], [100]] := by
  have hno : ∀ a ≤ 5, ¬ [98] <+: ([97, 120, 121, 99, 100] : Str).drop a := by decide
  refine runs_spec (.cons (.cstr_to_sstring _) (by simp [Fits]) (.cons (.cstr_to_sstring _)
    (by simp [Fits]) (.cons (.append (t := [97, 98, 99]) (u := [100]) rfl rfl (by decide))
    (by simp [Fits]) (.cons (.replaced (t := [97, 98, 99, 100]) (a := 1) rfl (by decide)
    (by decide) ⟨by decide, by decide, fun i _ hi => ?_⟩) (by simp [Fits]) (.cons (.absent
    (t := [97, 120, 121, 99, 100]) rfl (by decide) (by decide) fun a _ ha => hno a ha)
    (by simp [Fits]) (.nil _))))))
  obtain rfl : i = 0 := by omega
  decide

end SystemProgramming.Vector
