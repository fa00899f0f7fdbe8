import Mathlib.Data.List.Basic
import Mathlib.Data.List.Nodup

namespace SystemProgramming.Lib

/-!
# Intrusive doubly linked lists

A doubly linked list whose links live in its nodes, as two functions `nxt` and `prv` on
node names and a null name `nil`.  `Seg nxt prv p xs q` says that the nodes `xs` are
linked in this order, with `p` before the first and `q` after the last.

* `seg_append` — a segment splits anywhere into two segments.
* `Seg.reend` — changing only the two outer links moves a segment's ends.
* `Seg.unlink` / `Seg.link` — removing a node and adding one, stated by what the two link
  functions return afterwards, so that any code that edits links can be checked against
  them.
* `Chases` — the nodes met by following one link function up to `nil`; a segment is
  chased in both directions (`Seg.chases`, `Seg.chases_reverse`).
-/

variable {α : Type*} {nxt prv nxt' prv' : α → α} {p q p' q' nil x : α} {xs ys l r : List α}

/-- The first element, or `q` if there is none. -/
def headOr : List α → α → α
  | [], q => q
  | x :: _, _ => x

/-- The last element, or `p` if there is none. -/
def lastOr : List α → α → α
  | [], p => p
  | x :: xs, _ => lastOr xs x

@[simp] theorem headOr_nil : headOr [] q = q := rfl
@[simp] theorem headOr_cons : headOr (x :: xs) q = x := rfl
@[simp] theorem lastOr_nil : lastOr [] p = p := rfl
@[simp] theorem lastOr_cons : lastOr (x :: xs) p = lastOr xs x := rfl

@[simp] theorem headOr_append : headOr (xs ++ ys) q = headOr xs (headOr ys q) := by
  cases xs <;> rfl

@[simp] theorem lastOr_append : lastOr (xs ++ ys) p = lastOr ys (lastOr xs p) := by
  induction xs generalizing p with
  | nil => rfl
  | cons x xs ih => exact ih

theorem headOr_mem (q : α) (hxs : xs ≠ []) : headOr xs q ∈ xs := by
  cases xs with
  | nil => exact absurd rfl hxs
  | cons y ys => exact List.mem_cons_self

theorem lastOr_mem (p : α) (hxs : xs ≠ []) : lastOr xs p ∈ xs := by
  induction xs generalizing p with
  | nil => exact absurd rfl hxs
  | cons y ys ih =>
    cases ys with
    | nil => simp
    | cons z zs => exact List.mem_cons_of_mem _ (ih y (by simp))

/-- The nodes `xs` are doubly linked in this order, `p` precedes the first of them and
    `q` follows the last. -/
def Seg (nxt prv : α → α) : α → List α → α → Prop
  | _, [], _ => True
  | p, x :: xs, q => prv x = p ∧ nxt x = headOr xs q ∧ Seg nxt prv x xs q

@[simp] theorem seg_nil : Seg nxt prv p [] q := trivial

@[simp] theorem seg_cons :
    Seg nxt prv p (x :: xs) q ↔ prv x = p ∧ nxt x = headOr xs q ∧ Seg nxt prv x xs q :=
  Iff.rfl

/-- A segment splits anywhere. -/
theorem seg_append :
    Seg nxt prv p (xs ++ ys) q ↔
      Seg nxt prv p xs (headOr ys q) ∧ Seg nxt prv (lastOr xs p) ys q := by
  induction xs generalizing p with
  | nil => simp
  | cons x xs ih =>
    simp only [List.cons_append, seg_cons, headOr_append, lastOr_cons, ih, and_assoc]

/-- A segment depends only on the links of its own nodes. -/
theorem Seg.congr (h : Seg nxt prv p xs q)
    (hn : ∀ y ∈ xs, nxt' y = nxt y) (hp : ∀ y ∈ xs, prv' y = prv y) :
    Seg nxt' prv' p xs q := by
  induction xs generalizing p with
  | nil => trivial
  | cons y ys ih =>
    obtain ⟨h1, h2, h3⟩ := h
    refine ⟨(hp y (by simp)).trans h1, (hn y (by simp)).trans h2, ih h3 ?_ ?_⟩
    · exact fun z hz => hn z (by simp [hz])
    · exact fun z hz => hp z (by simp [hz])

theorem headOr_reverse : headOr xs.reverse q = lastOr xs q := by
  induction xs generalizing q with
  | nil => rfl
  | cons x xs ih => rw [List.reverse_cons, headOr_append, ih]; rfl

theorem lastOr_reverse : lastOr xs.reverse q = headOr xs q := by
  rw [← headOr_reverse, List.reverse_reverse]

/-- The link out of the last node of a segment. -/
theorem Seg.nxt_last (h : Seg nxt prv p xs q) (hxs : xs ≠ []) : nxt (lastOr xs p) = q := by
  induction xs generalizing p with
  | nil => exact absurd rfl hxs
  | cons y ys ih =>
    cases ys with
    | nil => exact h.2.1
    | cons z zs => exact ih h.2.2 (by simp)

/-- The link into the first node of a segment. -/
theorem Seg.prv_head (h : Seg nxt prv p xs q) (hxs : xs ≠ []) : prv (headOr xs q) = p := by
  cases xs with
  | nil => exact absurd rfl hxs
  | cons y ys => exact h.1

/-- **Moving the ends.**  If only the outgoing link of the last node and the incoming link
    of the first node change, to `q'` and `p'`, the segment now runs from `p'` to `q'`. -/
theorem Seg.reend (h : Seg nxt prv p xs q) (hnd : xs.Nodup)
    (hn : ∀ y ∈ xs, y ≠ lastOr xs p → nxt' y = nxt y)
    (hl : xs ≠ [] → nxt' (lastOr xs p) = q')
    (hp : ∀ y ∈ xs, y ≠ headOr xs q → prv' y = prv y)
    (hh : xs ≠ [] → prv' (headOr xs q) = p') :
    Seg nxt' prv' p' xs q' := by
  induction xs generalizing p p' with
  | nil => trivial
  | cons y ys ih =>
    obtain ⟨-, h2, h3⟩ := h
    obtain ⟨hy, hys⟩ := List.nodup_cons.mp hnd
    simp only [lastOr_cons, headOr_cons] at hn hl hp hh
    -- `y` differs from every later node, so only its incoming link can have moved.
    have hne : ∀ z ∈ ys, z ≠ y := fun z hz he => hy (he ▸ hz)
    refine ⟨hh (by simp), ?_, ih h3 hys ?_ ?_ ?_ ?_⟩
    · cases ys with
      | nil => exact hl (by simp)
      | cons z zs =>
        have hlast : y ≠ lastOr (z :: zs) y :=
          fun he => hne _ (lastOr_mem y (by simp)) he.symm
        exact (hn y (by simp) hlast).trans h2
    · exact fun z hz hz' => hn z (by simp [hz]) hz'
    · exact fun _ => hl (by simp)
    · exact fun z hz _ => hp z (by simp [hz]) (hne z hz)
    · intro hnil
      have hmem := headOr_mem q hnil
      rw [hp _ (List.mem_cons_of_mem _ hmem) (hne _ hmem), h3.prv_head hnil]

/-! ### Editing -/

/-- The node before a list is none of the list's nodes. -/
theorem ne_lastOr (hdis : ∀ a ∈ l, ∀ b ∈ r, a ≠ b) (hpr : p ∉ r) :
    ∀ y ∈ r, y ≠ lastOr l p := by
  intro y hy he
  cases l with
  | nil => exact hpr (by simpa [he] using hy)
  | cons a l' => exact hdis _ (lastOr_mem p (by simp)) y hy he.symm

/-- The node after a list is none of the list's nodes. -/
theorem ne_headOr (hdis : ∀ a ∈ l, ∀ b ∈ r, a ≠ b) (hql : q ∉ l) :
    ∀ y ∈ l, y ≠ headOr r q := by
  intro y hy he
  cases r with
  | nil => exact hql (by simpa [he] using hy)
  | cons b r' => exact hdis y hy _ (headOr_mem q (by simp)) he

section Edit
variable [DecidableEq α]

/-- **Unlinking.**  Redirecting the links of the neighbours of `x` around it removes `x`. -/
theorem Seg.unlink (h : Seg nxt prv p (l ++ x :: r) q) (hnd : (l ++ x :: r).Nodup)
    (hpr : p ∉ r) (hql : q ∉ l)
    (hn : ∀ y ∈ l ++ r, nxt' y = if y = lastOr l p then headOr r q else nxt y)
    (hp : ∀ y ∈ l ++ r, prv' y = if y = headOr r q then lastOr l p else prv y) :
    Seg nxt' prv' p (l ++ r) q := by
  rw [seg_append] at h ⊢
  obtain ⟨hl, -, -, hr⟩ := h
  obtain ⟨hndl, hndr, hdis⟩ := List.nodup_append.mp hnd
  have hdis' : ∀ a ∈ l, ∀ b ∈ r, a ≠ b := fun a ha b hb => hdis a ha b (by simp [hb])
  have hlast := ne_lastOr hdis' hpr
  have hhead := ne_headOr hdis' hql
  constructor
  · refine hl.reend hndl (fun y hy hy' => ?_) (fun hne => ?_) (fun y hy _ => ?_) (fun hne => ?_)
    · rw [hn y (by simp [hy]), if_neg hy']
    · rw [hn _ (by simp [lastOr_mem p hne]), if_pos rfl]
    · rw [hp y (by simp [hy]), if_neg (hhead y hy)]
    · have hmem := headOr_mem (headOr (x :: r) q) hne
      rw [hp _ (List.mem_append_left r hmem), if_neg (hhead _ hmem), hl.prv_head hne]
  · refine hr.reend hndr.of_cons (fun y hy _ => ?_) (fun hne => ?_) (fun y hy hy' => ?_)
      (fun hne => ?_)
    · rw [hn y (by simp [hy]), if_neg (hlast y hy)]
    · have hmem := lastOr_mem x hne
      rw [hn _ (by simp [hmem]), if_neg (hlast _ hmem), hr.nxt_last hne]
    · rw [hp y (by simp [hy]), if_neg hy']
    · rw [hp _ (by simp [headOr_mem q hne]), if_pos rfl]

/-- **Linking in.**  Setting the two links of a fresh node `x` and redirecting its
    neighbours to it inserts `x` between `l` and `r`. -/
theorem Seg.link (h : Seg nxt prv p (l ++ r) q) (hnd : (l ++ r).Nodup)
    (hpr : p ∉ r) (hql : q ∉ l)
    (hn : ∀ y ∈ l ++ r, nxt' y = if y = lastOr l p then x else nxt y)
    (hp : ∀ y ∈ l ++ r, prv' y = if y = headOr r q then x else prv y)
    (hxn : nxt' x = headOr r q) (hxp : prv' x = lastOr l p) :
    Seg nxt' prv' p (l ++ x :: r) q := by
  rw [seg_append] at h ⊢
  obtain ⟨hl, hr⟩ := h
  obtain ⟨hndl, hndr, hdis⟩ := List.nodup_append.mp hnd
  have hlast := ne_lastOr hdis hpr
  have hhead := ne_headOr hdis hql
  refine ⟨?_, hxp, hxn, ?_⟩
  · refine hl.reend hndl (fun y hy hy' => ?_) (fun hne => ?_) (fun y hy _ => ?_) (fun hne => ?_)
    · rw [hn y (by simp [hy]), if_neg hy']
    · rw [hn _ (by simp [lastOr_mem p hne]), if_pos rfl]; rfl
    · rw [hp y (by simp [hy]), if_neg (hhead y hy)]
    · have hmem := headOr_mem (headOr r q) hne
      rw [hp _ (by simp [hmem]), if_neg (hhead _ hmem), hl.prv_head hne]
  · refine hr.reend hndr (fun y hy _ => ?_) (fun hne => ?_) (fun y hy hy' => ?_) (fun hne => ?_)
    · rw [hn y (by simp [hy]), if_neg (hlast y hy)]
    · have hmem := lastOr_mem (lastOr l p) hne
      rw [hn _ (by simp [hmem]), if_neg (hlast _ hmem), hr.nxt_last hne]
    · rw [hp y (by simp [hy]), if_neg hy']
    · rw [hp _ (by simp [headOr_mem q hne]), if_pos rfl]

end Edit

/-! ### Following one link -/

/-- Following `nxt` from `a` meets exactly the nodes `xs`, in order, and then `nil`. -/
def Chases (nxt : α → α) (nil : α) : α → List α → Prop
  | a, [] => a = nil
  | a, x :: xs => a = x ∧ x ≠ nil ∧ Chases nxt nil (nxt x) xs

/-- What a link function meets from a node is determined by it. -/
theorem Chases.unique {a : α} (h : Chases nxt nil a xs) (h' : Chases nxt nil a ys) : xs = ys := by
  induction xs generalizing a ys with
  | nil =>
    cases ys with
    | nil => rfl
    | cons y ys => exact absurd (h'.1.symm.trans h) h'.2.1
  | cons x xs ih =>
    cases ys with
    | nil => exact absurd (h.1.symm.trans h') h.2.1
    | cons y ys =>
      obtain rfl := h.1.symm.trans h'.1
      rw [ih h.2.2 h'.2.2]

theorem Seg.chases (h : Seg nxt prv p xs nil) (h0 : nil ∉ xs) :
    Chases nxt nil (headOr xs nil) xs := by
  induction xs generalizing p with
  | nil => rfl
  | cons y ys ih =>
    obtain ⟨-, h2, h3⟩ := h
    rw [List.mem_cons, not_or] at h0
    exact ⟨rfl, Ne.symm h0.1, h2 ▸ ih h3 h0.2⟩

/-- A segment read backwards is a segment of the swapped links. -/
theorem Seg.reverse (h : Seg nxt prv p xs q) : Seg prv nxt q xs.reverse p := by
  induction xs generalizing p with
  | nil => trivial
  | cons y ys ih =>
    obtain ⟨h1, h2, h3⟩ := h
    rw [List.reverse_cons, seg_append]
    exact ⟨ih h3, lastOr_reverse ▸ h2, h1, trivial⟩

/-- On a list, one link is the inverse of the other. -/
theorem Seg.inverse (h : Seg nxt prv nil xs nil) (hnd : xs.Nodup) (h0 : nil ∉ xs) :
    ∀ a ∈ xs, ∀ b ∈ xs, nxt a = b ↔ prv b = a := by
  -- one direction for either link; the other is the same on the reversed list
  have hone : ∀ {f g : α → α} {ys : List α}, Seg f g nil ys nil → ys.Nodup → nil ∉ ys →
      ∀ a ∈ ys, ∀ b ∈ ys, f a = b → g b = a := by
    intro f g ys hs hnd h0 a ha b hb hab
    obtain ⟨l, r, rfl⟩ := List.append_of_mem ha
    rw [seg_append] at hs
    cases r with
    | nil =>
      obtain rfl : b = nil := hab.symm.trans hs.2.2.1
      exact absurd hb h0
    | cons c r =>
      obtain rfl : b = c := hab.symm.trans hs.2.2.1
      exact hs.2.2.2.1
  intro a ha b hb
  exact ⟨hone h hnd h0 a ha b hb, hone h.reverse (List.nodup_reverse.mpr hnd) (by simpa using h0)
    b (by simpa using hb) a (by simpa using ha)⟩

theorem Seg.chases_reverse (h : Seg nxt prv nil xs q) (h0 : nil ∉ xs) :
    Chases prv nil (lastOr xs nil) xs.reverse :=
  headOr_reverse (q := nil) ▸ h.reverse.chases (by simpa using h0)

end SystemProgramming.Lib
