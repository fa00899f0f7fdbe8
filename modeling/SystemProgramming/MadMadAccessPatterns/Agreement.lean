import SystemProgramming.MadMadAccessPatterns.Lookup
import SystemProgramming.Lib.Bytes
import Mathlib.Data.List.TakeWhile

namespace SystemProgramming.MadMadAccessPatterns

open Lib
open SystemProgramming.Vector (int int_eq)

/-!
# The two lookups agree

Both programs search the tree of the file, `lookup2` with the words and `lookup1` with their first
99 characters, which is what fits its buffer.

* `lookup1.walk_eq`, `lookup2.search_eq` — the loops are searches.
* `Fits` — the condition on a word.
* `agree_iff` — both programs give the right answers exactly for the words that meet it.
-/

variable {Count Price : Type}

/-- It does no harm that words end behind 99 characters: the word has fewer; or it has 99, and the
    first node on its way whose word begins with it has that word, or the same to say; or it has
    more and is not in the tree. -/
def Told (t : Tree Count Price) (word : List UInt8) : Prop :=
  (word.length = 99 → ∀ x, ((t.path (compare word)).find? fun x => word.isPrefixOf x.1) = some x →
    ∃ e, (word, e) ∈ t.entries ∧ e.count = x.2.count ∧ e.price = x.2.price) ∧
  (99 < word.length → ∀ e, (word, e) ∉ t.entries)

/-- **The condition** on a word: also, the nodes on its way lie at offsets that are `int`s. -/
def Fits (t : Tree Count Price) (word : List UInt8) : Prop :=
  (∀ x ∈ t.path (compare word), x.2.offset < 2 ^ 31) ∧ Told t word

variable {L : Layout Count Price} {bytes word w rest : List UInt8}
  {t left right : Tree Count Price} {e : Entry Count Price} {offset fuel n : ℕ}

/-! ### Comparing strings -/

/-- `strcmp` finds the word up to the null. -/
theorem strcmp_word (hword : 0 ∉ word) (hw : 0 ∉ w) (rest : List UInt8) :
    strcmp word (w ++ 0 :: rest) = some (compare word w) := by
  induction word generalizing w with
  | nil =>
    cases w with
    | nil => rfl
    | cons b w =>
      have hb : b ≠ 0 := fun h => hw (by simp [h])
      rw [List.cons_append, strcmp, if_neg hb]
      rfl
  | cons a word ih =>
    have ha : a ≠ 0 := fun h => hword (by simp [h])
    cases w with
    | nil =>
      rw [List.nil_append, strcmp, if_neg ha, Std.compare_eq_gt.mpr (UInt8.pos_iff_ne_zero.mpr ha)]
      rfl
    | cons b w =>
      rw [List.cons_append, strcmp, List.compare_cons_cons]
      by_cases hab : a = b
      · subst hab
        rw [if_pos rfl, Std.compare_self]
        exact ih (fun h => hword (List.mem_cons_of_mem _ h)) fun h => hw (List.mem_cons_of_mem _ h)
      · rw [if_neg hab]
        cases hcmp : compare a b with
        | lt => rfl
        | eq => exact absurd (Std.LawfulEqCmp.eq_of_compare hcmp) hab
        | gt => rfl

/-- A word that is cut off behind the length of the other one compares equal, or as it did. -/
theorem compare_take (hn : word.length ≤ n) (w : List UInt8) :
    compare word (w.take n) = .eq ∨ compare word (w.take n) = compare word w := by
  induction word generalizing w n with
  | nil =>
    cases n with
    | zero => exact .inl rfl
    | succ n => cases w <;> exact .inr rfl
  | cons a word ih =>
    cases n with
    | zero => cases hn
    | succ n =>
      cases w with
      | nil => exact .inr rfl
      | cons b w =>
        rw [List.take_succ_cons, List.compare_cons_cons, List.compare_cons_cons]
        cases hab : compare a b with
        | lt => exact .inr rfl
        | eq => exact ih (Nat.le_of_succ_le_succ hn) w
        | gt => exact .inr rfl

/-- What `lookup1` has to say of a word: its first 99 characters are compared. -/
def truncated (word w : List UInt8) : Ordering := compare word (w.take 99)

theorem truncated_of_lt (h : word.length < 99) (w : List UInt8) :
    truncated word w = compare word w := by
  obtain heq | heq := compare_take h.le w
  · have hw := Std.LawfulEqCmp.eq_of_compare heq
    have hlen := congrArg List.length hw
    rw [List.length_take] at hlen
    rw [truncated, List.take_of_length_le (by omega)]
  · exact heq

theorem truncated_ne_eq (h : 99 < word.length) (w : List UInt8) : truncated word w ≠ .eq := by
  intro heq
  have hw : word = w.take 99 := Std.LawfulEqCmp.eq_of_compare heq
  have hlen := congrArg List.length hw
  rw [List.length_take] at hlen
  omega

theorem truncated_eq_iff (h : word.length = 99) : truncated word w = .eq ↔ word <+: w := by
  rw [List.prefix_iff_eq_take, h]
  constructor
  · intro heq
    exact Std.LawfulEqCmp.eq_of_compare heq
  · intro heq
    rw [truncated, ← heq]
    exact Std.compare_self

theorem fgets_eq {file : FILE} {got : List UInt8}
    (hgot : (file.bytes.drop file.pos).take (n - 1) = got) (hne : got ≠ []) :
    ∃ pos, file.fgets n = some (got.takeWhile (· ≠ newline) ++
      (if newline ∈ got then [newline] else []), ⟨file.bytes, pos⟩) := by
  subst hgot
  exact ⟨_, if_neg hne⟩

/-- What `fgets` leaves of a word in the file. -/
theorem fgets_word (file : FILE) (hfile : file.bytes.drop file.pos = w ++ 0 :: rest) (hw : 0 ∉ w)
    (hnewline : newline ∉ w) (hword : 0 ∉ word) :
    ∃ nword pos, file.fgets 100 = some (nword, ⟨file.bytes, pos⟩) ∧
      strcmp word (nword ++ [0]) = some (truncated word w) := by
  have hall : ∀ c ∈ w, decide (c ≠ newline) = true :=
    fun c hc => decide_eq_true fun h => hnewline (h ▸ hc)
  obtain hlt | hle := Nat.lt_or_ge w.length 99
  · -- the null is in the buffer too, whatever comes behind it
    obtain ⟨k, hk⟩ := Nat.exists_eq_add_of_lt hlt
    have hgot : (w ++ 0 :: rest).take 99 = w ++ 0 :: rest.take k := by
      rw [List.take_append, List.take_of_length_le hlt.le,
        show 99 - w.length = k + 1 by omega, List.take_succ_cons]
    obtain ⟨pos, hrun⟩ := fgets_eq (n := 100) (hfile ▸ hgot) (by simp)
    refine ⟨_, pos, hrun, ?_⟩
    rw [List.takeWhile_append_of_pos hall, List.takeWhile_cons_of_pos (by decide), truncated,
      List.take_of_length_le hlt.le, List.append_assoc, List.append_assoc]
    exact strcmp_word hword hw _
  · -- the buffer is full before the null
    have hgot : (w ++ 0 :: rest).take 99 = w.take 99 := List.take_append_of_le_length hle
    have hne : w.take 99 ≠ [] := by
      refine List.ne_nil_of_length_pos ?_
      rw [List.length_take]
      omega
    have hnewline' : newline ∉ w.take 99 := fun h => hnewline (List.mem_of_mem_take h)
    have htake : (w.take 99).takeWhile (· ≠ newline) = w.take 99 :=
      List.takeWhile_eq_self_iff.mpr fun c hc => hall c (List.mem_of_mem_take hc)
    obtain ⟨pos, hrun⟩ := fgets_eq (n := 100) (hfile ▸ hgot) hne
    rw [htake, if_neg hnewline', List.append_nil] at hrun
    exact ⟨_, pos, hrun, strcmp_word hword (fun h => hw (List.mem_of_mem_take h)) []⟩

/-! ### The loops -/

theorem stored_zero (h : Stored L bytes 0 t) : t = .leaf := by
  cases t with
  | leaf => rfl
  | node left w e right => exact absurd rfl h.1

/-- **The loop of `lookup1`** is a search with truncated words. -/
theorem lookup1.walk_eq (hstored : Stored L bytes offset t) (h0 : offset ≠ 0) (hword : 0 ∉ word)
    (hfuel : t.height ≤ fuel) :
    lookup1.walk L word fuel (L.read (FILE.fread ⟨bytes, offset⟩ L.size).1)
      (FILE.fread ⟨bytes, offset⟩ L.size).2 = some (report word (t.search (truncated word))) := by
  induction t generalizing offset fuel with
  | leaf => exact absurd hstored h0
  | node left w e right ihl ihr =>
    obtain ⟨-, -, hw, hnewline, header, rest, hbytes, hsize, hcount, hprice, hleft, hright⟩ := hstored
    obtain ⟨fuel, rfl⟩ := Nat.exists_eq_add_of_lt (Nat.lt_of_succ_le hfuel)
    have hlfuel : left.height ≤ max left.height right.height + fuel := by omega
    have hrfuel : right.height ≤ max left.height right.height + fuel := by omega
    have hread : FILE.fread ⟨bytes, offset⟩ L.size = (header, ⟨bytes, offset + header.length⟩) := by
      simp only [FILE.fread, hbytes, ← hsize, List.take_left']
    have hrest : bytes.drop (offset + header.length) = w ++ 0 :: rest := by
      rw [← List.drop_drop, hbytes, List.drop_left]
    obtain ⟨nword, pos, hgets, hcmp⟩ := fgets_word ⟨bytes, offset + header.length⟩ hrest hw
      hnewline hword
    rw [hread, lookup1.walk, hgets]
    simp only [Option.bind_eq_bind, hcmp, Option.bind_some]
    rw [SearchTree.search]
    cases truncated word w with
    | lt =>
      by_cases hchild : (L.read header).left_child = 0
      · obtain rfl := stored_zero (hchild ▸ hleft)
        simp only [hchild, if_pos]
        rfl
      · simp only [if_neg hchild]
        exact ihl hleft hchild hlfuel
    | eq => rw [hcount, hprice, report]
    | gt =>
      by_cases hchild : (L.read header).right_child = 0
      · obtain rfl := stored_zero (hchild ▸ hright)
        simp only [hchild, if_pos]
        rfl
      · simp only [if_neg hchild]
        exact ihr hright hchild hrfuel

theorem int_neg (hle : 2 ^ 31 ≤ n) (hlt : n < 2 ^ 32) : int n < 0 := by
  rw [show int n = (n : ℤ).bmod 4294967296 from rfl, Int.bmod_def]
  split <;> omega

/-- **The recursion of `lookup2`** is a search, as long as the offsets are `int`s. -/
theorem lookup2.search_eq (hstored : Stored L bytes offset t) (hoffset : offset < 2 ^ 32)
    (hword : 0 ∉ word) (hfuel : t.height < fuel) :
    lookup2.search L bytes word fuel (int offset) =
      if ∀ x ∈ t.path (compare word), x.2.offset < 2 ^ 31
      then some (report word (t.search (compare word))) else none := by
  induction t generalizing offset fuel with
  | leaf =>
    obtain ⟨fuel, rfl⟩ := Nat.exists_eq_add_of_lt hfuel
    obtain rfl : offset = 0 := hstored
    rfl
  | node left w e right ihl ihr =>
    obtain ⟨fuel, rfl⟩ := Nat.exists_eq_add_of_lt hfuel
    rw [SearchTree.height]
    obtain ⟨h0, rfl, hw, -, header, rest, hbytes, hsize, hcount, hprice, hleft, hright⟩ := hstored
    rw [lookup2.search, SearchTree.search, SearchTree.path]
    obtain hle | hlt := Nat.lt_or_ge e.offset (2 ^ 31)
    · have hne : (e.offset : ℤ) ≠ 0 := Int.natCast_ne_zero.mpr h0
      have hnonneg : ¬(e.offset : ℤ) < 0 := Int.not_lt.mpr (Int.natCast_nonneg _)
      have hlfuel : left.height < max left.height right.height + 1 + fuel := by omega
      have hrfuel : right.height < max left.height right.height + 1 + fuel := by omega
      have hhead : ∀ l : List (List UInt8 × Entry Count Price),
          (∀ x ∈ (w, e) :: l, x.2.offset < 2 ^ 31) ↔ ∀ x ∈ l, x.2.offset < 2 ^ 31 :=
        fun l => List.forall_mem_cons.trans (and_iff_right hle)
      rw [int_eq hle, if_neg hne, if_neg hnonneg]
      simp only [Int.toNat_natCast, hbytes, ← hsize, List.take_left', List.drop_left,
        strcmp_word hword hw, Option.bind_eq_bind, Option.bind_some, hhead]
      cases compare word w with
      | lt => exact ihl hleft (L.left_lt _) hlfuel
      | eq =>
        rw [hcount, hprice, if_pos (fun x hx => absurd hx List.not_mem_nil)]
        rfl
      | gt => exact ihr hright (L.right_lt _) hrfuel
    · -- the node is looked for in front of the mapping
      have hneg := int_neg hlt hoffset
      rw [if_neg hneg.ne, if_pos hneg, if_neg]
      exact fun h => absurd (h (w, e) (List.mem_cons_self ..)) hlt.not_gt

/-! ### The tree in the file -/

/-- The entries are in the file, and the words are those at their offsets. -/
theorem stored_mem (h : Stored L bytes offset t) {x : List UInt8 × Entry Count Price}
    (hx : x ∈ t.entries) : x.2.offset < bytes.length ∧
      x.1 = (bytes.drop (x.2.offset + L.size)).takeWhile (· ≠ 0) := by
  induction t generalizing offset with
  | leaf => cases hx
  | node left w e right ihl ihr =>
    obtain ⟨-, rfl, hw, -, header, rest, hbytes, hsize, -, -, hleft, hright⟩ := h
    obtain hx | rfl | hx := SearchTree.mem_node.mp hx
    · exact ihl hleft hx
    · have hall : ∀ c ∈ w, decide (c ≠ 0) = true := fun c hc => decide_eq_true fun h => hw (h ▸ hc)
      constructor
      · by_contra hle
        rw [List.drop_eq_nil_of_le (Nat.le_of_not_lt hle)] at hbytes
        simp at hbytes
      · rw [← List.drop_drop, hbytes, ← hsize, List.drop_left, List.takeWhile_append_of_pos hall,
          List.takeWhile_cons_of_neg (by simp), List.append_nil]
    · exact ihr hright hx

/-- A walk meets no more nodes than the file has bytes. -/
theorem WellFormed.height_le (h : WellFormed L bytes t) : t.height ≤ bytes.length := by
  -- the words are different, so they are at different offsets
  have hnodup : (t.entries.map fun x => x.2.offset).Nodup := by
    have hkeys := h.ordered.nodup
    have hwords : t.entries.map Prod.fst = (t.entries.map fun x => x.2.offset).map
        fun o => (bytes.drop (o + L.size)).takeWhile (· ≠ 0) := by
      rw [List.map_map]
      exact List.map_congr_left fun x hx => (stored_mem h.stored hx).2
    exact List.Nodup.of_map _ (hwords ▸ hkeys)
  have hsub : (t.entries.map fun x => x.2.offset) ⊆ List.range bytes.length := by
    intro o ho
    obtain ⟨x, hx, rfl⟩ := List.mem_map.mp ho
    exact List.mem_range.mpr (stored_mem h.stored hx).1
  have hle := (List.subperm_of_subset hnodup hsub).length_le
  rw [List.length_map, List.length_range] at hle
  exact t.height_le_length.trans hle

theorem WellFormed.answer_eq (h : WellFormed L bytes t) (word : List UInt8) :
    answer t word = report word (t.search (compare word)) := by
  rw [answer, h.ordered.lookup_entries]

/-! ### Agreement -/

theorem report_inj {o o' : Option (Entry Count Price)} : report word o = report word o' ↔
    o.map (fun e => (e.count, e.price)) = o'.map fun e => (e.count, e.price) := by
  cases o <;> cases o' <;> simp [report]

/-- A word of 99 characters is found at the first node whose word begins with it. -/
theorem search_truncated_of_eq (h : word.length = 99) (t : Tree Count Price) :
    t.search (truncated word) =
      ((t.path (compare word)).find? fun x => word.isPrefixOf x.1).map Prod.snd := by
  have hpred : (fun x : List UInt8 × Entry Count Price => decide (truncated word x.1 = .eq)) =
      fun x => word.isPrefixOf x.1 := by
    funext x
    rw [Bool.eq_iff_iff, decide_eq_true_iff, truncated_eq_iff h, List.isPrefixOf_iff_prefix]
  rw [← hpred]
  exact SearchTree.search_eq_find (fun w => compare_take h.le w) t

/-- A longer one is not found. -/
theorem search_truncated_of_gt (h : 99 < word.length) (t : Tree Count Price) :
    t.search (truncated word) = none :=
  SearchTree.search_eq_none fun x _ => truncated_ne_eq h x.1

/-- Truncating the words changes nothing exactly if they are told. -/
theorem report_truncated_iff (h : t.Ordered) : report word (t.search (truncated word)) =
    report word (t.search (compare word)) ↔ Told t word := by
  rw [report_inj]
  obtain hlt | heq | hgt := Nat.lt_trichotomy word.length 99
  · rw [show truncated word = compare word from funext (truncated_of_lt hlt)]
    exact iff_of_true rfl ⟨fun h => absurd h hlt.ne, fun h => absurd h hlt.not_gt⟩
  · rw [search_truncated_of_eq heq, Told, and_iff_left (fun h => absurd heq h.ne'),
      imp_iff_right heq]
    cases hfind : (t.path (compare word)).find? fun x => word.isPrefixOf x.1 with
    | none =>
      -- then the word is not in the tree
      have hnone : t.search (compare word) = none := by
        refine SearchTree.search_eq_none fun x hx hcmp => List.find?_eq_none.mp hfind x hx ?_
        obtain rfl : word = x.1 := Std.LawfulEqCmp.eq_of_compare hcmp
        exact List.isPrefixOf_iff_prefix.mpr List.prefix_rfl
      rw [hnone]
      exact iff_of_true rfl fun x hx => by cases hx
    | some x =>
      rw [Option.map_some, Option.map_some, eq_comm, Option.map_eq_some_iff]
      constructor
      · rintro ⟨e, he, hsame⟩ _ ⟨⟩
        obtain ⟨hcount, hprice⟩ := Prod.mk.inj hsame
        exact ⟨e, (SearchTree.search_eq_some_iff h).mp he, hcount, hprice⟩
      · intro hall
        obtain ⟨e, he, hcount, hprice⟩ := hall x rfl
        exact ⟨e, (SearchTree.search_eq_some_iff h).mpr he, Prod.ext hcount hprice⟩
  · rw [search_truncated_of_gt hgt, Told, and_iff_right (fun h => absurd h hgt.ne'),
      imp_iff_right hgt, eq_comm, Option.map_none, Option.map_eq_none_iff,
      Option.eq_none_iff_forall_ne_some]
    exact forall_congr' fun e => not_congr (SearchTree.search_eq_some_iff h)

theorem lookup1.lookups_eq (h : WellFormed L bytes t) {words : List (List UInt8)}
    (hnull : ∀ word ∈ words, 0 ∉ word) (pos : ℕ) : lookup1.lookups L ⟨bytes, pos⟩ words =
      some (words.map fun word => report word (t.search (truncated word)), 0) := by
  induction words with
  | nil => rfl
  | cons word words ih =>
    obtain ⟨hword, hwords⟩ := List.forall_mem_cons.mp hnull
    have hwalk := lookup1.walk_eq h.stored (by decide) hword (Nat.le_succ_of_le h.height_le)
    have hrun := ih hwords
    rw [lookup1.lookups]
    simp only [FILE.fseek, hwalk, Option.bind_eq_bind, Option.bind_some, hrun, List.map_cons]
    cases t.search (truncated word) with
    | none => rfl
    | some e => rfl

theorem lookup2.searches_eq (h : WellFormed L bytes t) {words : List (List UInt8)}
    (hnull : ∀ word ∈ words, 0 ∉ word) : lookup2.searches L bytes words =
      if ∀ word ∈ words, ∀ x ∈ t.path (compare word), x.2.offset < 2 ^ 31
      then some (words.map (answer t), 0) else none := by
  induction words with
  | nil => rfl
  | cons word words ih =>
    obtain ⟨hword, hwords⟩ := List.forall_mem_cons.mp hnull
    have hsearch := lookup2.search_eq h.stored (by decide) hword
      (Nat.lt_succ_of_le h.height_le)
    rw [int_eq (by decide)] at hsearch
    rw [lookup2.searches, show (4 : ℤ) = (4 : ℕ) from rfl, hsearch, ih hwords]
    by_cases hoff : ∀ x ∈ t.path (compare word), x.2.offset < 2 ^ 31
    · rw [if_pos hoff, ← h.answer_eq]
      by_cases hoffs : ∀ word ∈ words, ∀ x ∈ t.path (compare word), x.2.offset < 2 ^ 31
      · rw [if_pos hoffs, if_pos (List.forall_mem_cons.mpr ⟨hoff, hoffs⟩)]
        rfl
      · rw [if_neg hoffs, if_neg (fun h => hoffs (List.forall_mem_cons.mp h).2)]
        rfl
    · rw [if_neg hoff, if_neg (fun h => hoff (List.forall_mem_cons.mp h).1)]
      rfl

/-- **The two lookups agree.**  Both programs print the right answer for each word exactly if the
    words meet the condition. -/
theorem agree_iff (h : WellFormed L bytes t) {words : List (List UInt8)} (hwords : words ≠ [])
    (hnull : ∀ word ∈ words, 0 ∉ word) :
    lookup1.main L (some bytes) words = some (words.map (answer t), 0) ∧
      lookup2.main L (some bytes) words = some (words.map (answer t), 0) ↔
    ∀ word ∈ words, Fits t word := by
  have h1 : lookup1.main L (some bytes) words =
      some (words.map fun word => report word (t.search (truncated word)), 0) := by
    rw [lookup1.main, if_neg hwords]
    show (if bytes.take 4 ≠ magic then _ else _) = _
    rw [if_neg (not_not.mpr h.magic)]
    exact lookup1.lookups_eq h hnull _
  have h2 : lookup2.main L (some bytes) words =
      if ∀ word ∈ words, ∀ x ∈ t.path (compare word), x.2.offset < 2 ^ 31
      then some (words.map (answer t), 0) else none := by
    have hne : bytes = [] → False := by
      rintro rfl
      exact absurd h.magic (by decide)
    rw [lookup2.main, if_neg hwords, if_neg (not_not.mpr h.magic)]
    · exact lookup2.searches_eq h hnull
    · exact hne
  rw [h1, h2]
  constructor
  · rintro ⟨hsame, hoffsets⟩ word hword
    have hmap := List.map_inj_left.mp (Prod.mk.inj (Option.some.inj hsame)).1 word hword
    rw [h.answer_eq] at hmap
    refine ⟨?_, (report_truncated_iff h.ordered).mp hmap⟩
    by_contra hoff
    rw [if_neg (fun hall => hoff (hall word hword))] at hoffsets
    cases hoffsets
  · intro hfits
    refine ⟨?_, if_pos fun word hword => (hfits word hword).1⟩
    congr 2
    refine List.map_inj_left.mpr fun word hword => ?_
    rw [h.answer_eq]
    exact (report_truncated_iff h.ordered).mpr (hfits word hword).2

/-! ### Files -/

/-- Four little-endian words of 32 bits. -/
def four_words : Layout ℕ ℕ where
  size := 16
  read bytes := ⟨leValue (bytes.take 4), leValue ((bytes.drop 4).take 4),
    leValue ((bytes.drop 8).take 4), leValue ((bytes.drop 12).take 4)⟩
  left_lt _ := (leValue_lt _).trans_le
    (Nat.pow_le_pow_right (by decide) (List.length_take_le 4 _))
  right_lt _ := (leValue_lt _).trans_le
    (Nat.pow_le_pow_right (by decide) (List.length_take_le 4 _))

/-- A node with its word, in that layout. -/
def node_bytes (left right count price : ℕ) (word : List UInt8) : List UInt8 :=
  leBytes 4 left ++ leBytes 4 right ++ leBytes 4 count ++ leBytes 4 price ++ word ++ [0]

/-- The words `"m"`, `"a"` and `"zz"`. -/
def small_file : List UInt8 :=
  magic ++ node_bytes 22 40 1 10 [109] ++ node_bytes 0 0 10 20 [97] ++ node_bytes 0 0 3 30 [122, 122]

def small_tree : Tree ℕ ℕ :=
  .node (.node .leaf [97] ⟨22, 10, 20⟩ .leaf) [109] ⟨4, 1, 10⟩
    (.node .leaf [122, 122] ⟨40, 3, 30⟩ .leaf)

theorem small_file_wellFormed : WellFormed four_words small_file small_tree where
  magic := rfl
  stored := ⟨by decide, rfl, by decide, by decide, (small_file.drop 4).take 16, small_file.drop 22,
    rfl, rfl, rfl, rfl, ⟨by decide, rfl, by decide, by decide, (small_file.drop 22).take 16,
      small_file.drop 40, rfl, rfl, rfl, rfl, rfl, rfl⟩, ⟨by decide, rfl, by decide, by decide,
      (small_file.drop 40).take 16, [], rfl, rfl, rfl, rfl, rfl, rfl⟩⟩
  ordered := ⟨⟨trivial, trivial, by simp [SearchTree.entries], by simp [SearchTree.entries]⟩,
    ⟨trivial, trivial, by simp [SearchTree.entries], by simp [SearchTree.entries]⟩,
    by decide, by decide⟩

/-- A word that is in the small tree, and one that is not. -/
theorem agree_iff_small :
    lookup1.main four_words (some small_file) [[97], [98]] =
        some ([.printFound [97] 10 20, .printNotFound [98]], 0) ∧
      lookup2.main four_words (some small_file) [[97], [98]] =
        some ([.printFound [97] 10 20, .printNotFound [98]], 0) := by
  refine (agree_iff small_file_wellFormed (by decide) (by decide)).mpr ?_
  simp only [List.forall_mem_cons]
  refine ⟨⟨by decide, ?_⟩, ⟨by decide, ?_⟩, by simp⟩
  · exact ⟨fun h => absurd h (by decide), fun h => absurd h (by decide)⟩
  · exact ⟨fun h => absurd h (by decide), fun h => absurd h (by decide)⟩

/-- One word of 100 characters. -/
def long_word : List UInt8 := List.replicate 100 97

def long_file : List UInt8 := magic ++ node_bytes 0 0 1 10 long_word

/-- `lookup1` does not find the word, and `lookup2` does. -/
theorem long_word_disagrees :
    WellFormed four_words long_file (.node .leaf long_word ⟨4, 1, 10⟩ .leaf) ∧
      lookup1.main four_words (some long_file) [long_word] = some ([.printNotFound long_word], 0) ∧
      lookup2.main four_words (some long_file) [long_word] =
        some ([.printFound long_word 1 10], 0) := by
  refine ⟨⟨rfl, ⟨by decide, rfl, by decide, by decide, (long_file.drop 4).take 16, [],
    rfl, rfl, rfl, rfl, rfl, rfl⟩, trivial, trivial, ?_, ?_⟩, ?_, ?_⟩
  · simp [SearchTree.entries]
  · simp [SearchTree.entries]
  · decide +kernel
  · decide +kernel

end SystemProgramming.MadMadAccessPatterns
