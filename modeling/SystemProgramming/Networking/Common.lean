import SystemProgramming.Lib.Framing

namespace SystemProgramming.Networking

open SystemProgramming.Lib

/-!
# `nonstop_networking/common.c` — `reader` and `writer`

The two loops around `read` and `write` on a non-blocking descriptor.  A turn of the event
loop is the list of the answers of the kernel up to the next `EAGAIN`: with no answer left
the call is answered `EAGAIN`.

* `writer_written`, `reader_read` — how they may end.
* `writer_spec` — on steady answers `writer` moves its buffer as `accept` moves a piece.
-/

/-- The `int` that the functions of the server return. -/
inductive Ret
  /-- 0 -/
  | ok
  /-- 1: `EAGAIN` -/
  | again
  /-- -1 -/
  | err
  /-- -2: the header is too long -/
  | tooLong
  deriving DecidableEq

/-- A connection, as the server sees it. -/
structure Conn where
  /-- what the client has sent and was not read; behind it the end of the stream -/
  inp : List UInt8
  /-- what was written -/
  out : List UInt8
  /-- the answers in the rest of the turn -/
  answers : List Answer
  /-- the descriptor was shut down and closed -/
  closed : Bool

/-- `writer(fd, buf, count, &offset)`: its result, `offset`, and the answers left. -/
def writer : List Answer → List UInt8 → Ret × ℕ × List Answer
  | as, [] => (.ok, 0, as)
  | [], _ :: _ => (.again, 0, [])
  | .intr :: as, b :: buf => writer as (b :: buf)
  | .fail :: as, _ :: _ => (.err, 0, as)
  | .bytes k :: as, b :: buf =>
    -- `writtern == 0` ends the loop
    if k = 0 then (.ok, 0, as)
    else
      let (ret, offset, rest) := writer as ((b :: buf).drop k)
      (ret, min k (b :: buf).length + offset, rest)

/-- `writer` on the descriptor of the connection. -/
def Conn.writer (c : Conn) (buf : List UInt8) : Ret × ℕ × Conn :=
  let (ret, offset, rest) := Networking.writer c.answers buf
  (ret, offset, { c with out := c.out ++ buf.take offset, answers := rest })

/-- `reader(fd, buf, count, &offset)`: its result, the bytes put into `buf`, what is left of
    the stream and the answers left. -/
def reader : List Answer → List UInt8 → ℕ → Ret × List UInt8 × List UInt8 × List Answer
  | as, inp, 0 => (.ok, [], inp, as)
  | [], inp, _ + 1 => (.again, [], inp, [])
  | .intr :: as, inp, count + 1 => reader as inp (count + 1)
  | .fail :: as, inp, _ + 1 => (.err, [], inp, as)
  | .bytes k :: as, inp, count + 1 =>
    let got := inp.take (min k (count + 1))
    -- `nread == 0` ends the loop
    if got = [] then (.ok, [], inp, as)
    else
      let (ret, data, inp', rest) := reader as (inp.drop got.length) (count + 1 - got.length)
      (ret, got ++ data, inp', rest)

/-- `reader` on the descriptor of the connection. -/
def Conn.reader (c : Conn) (count : ℕ) : Ret × List UInt8 × Conn :=
  let (ret, data, inp, rest) := Networking.reader c.answers c.inp count
  (ret, data, { c with inp := inp, answers := rest })

/-! ### What they do -/

variable {as : List Answer} {buf inp : List UInt8} {count : ℕ}

@[simp] theorem writer_nil (as : List Answer) : writer as [] = (.ok, 0, as) := by
  cases as <;> rfl

@[simp] theorem reader_zero (as : List Answer) (inp : List UInt8) :
    reader as inp 0 = (.ok, [], inp, as) := by
  cases as <;> rfl

/-- **`writer`** on steady answers: all of the buffer is written, as one piece, or the turn
    ends and the rest of the piece is left. -/
theorem writer_spec (has : ∀ a ∈ as, a.Steady) (hbuf : buf ≠ []) (ps : List (List UInt8)) :
    (∃ rest, writer as buf = (.ok, buf.length, rest) ∧ accept as (buf :: ps) = accept rest ps ∧
      rest.length < as.length ∧ ∀ a ∈ rest, a.Steady) ∨
    ∃ offset, writer as buf = (.again, offset, []) ∧ offset < buf.length ∧
      accept as (buf :: ps) = buf.drop offset :: ps := by
  induction as generalizing buf with
  | nil =>
    obtain ⟨b, buf, rfl⟩ := List.exists_cons_of_ne_nil hbuf
    exact .inr ⟨0, rfl, by simp, rfl⟩
  | cons a as ih =>
    have has' : ∀ a ∈ as, a.Steady := fun b hb => has b (List.mem_cons_of_mem a hb)
    obtain ⟨b, buf, rfl⟩ := List.exists_cons_of_ne_nil hbuf
    cases a with
    | intr =>
      rw [writer, accept_intr]
      rcases ih has' hbuf with ⟨rest, h1, h2, h3, h4⟩ | h
      · exact .inl ⟨rest, h1, h2, by rw [List.length_cons]; omega, h4⟩
      · exact .inr h
    | fail => exact (has .fail (by simp)).elim
    | bytes k =>
      have hk : 0 < k := has (.bytes k) (by simp)
      rw [writer, if_neg (by omega), accept_bytes]
      by_cases hlt : k < (b :: buf).length
      · -- part of the buffer is written
        have hrest : (b :: buf).drop k ≠ [] := by simpa using hlt
        rw [if_pos hlt]
        rcases ih has' hrest with ⟨rest, h1, h2, h3, h4⟩ | ⟨offset, h1, h2, h3⟩
        · refine .inl ⟨rest, ?_, h2, by rw [List.length_cons]; omega, h4⟩
          rw [h1, List.length_drop]
          simp only [Prod.mk.injEq, true_and, and_true]
          omega
        · rw [List.length_drop] at h2
          refine .inr ⟨k + offset, ?_, by omega, ?_⟩
          · rw [h1]
            simp only [Prod.mk.injEq, true_and, and_true]
            omega
          · rw [h3, List.drop_drop]
      · -- all of it is
        have hnil : (b :: buf).drop k = [] := List.drop_eq_nil_iff.mpr (by omega)
        rw [if_neg hlt, hnil]
        refine .inl ⟨as, ?_, rfl, by simp, has'⟩
        rw [writer_nil]
        exact Prod.ext rfl (Prod.ext (Nat.min_eq_right (by omega)) rfl)

/-- How `writer` may end. -/
inductive Written (as : List Answer) (buf : List UInt8) : Ret × ℕ × List Answer → Prop
  | full (rest : List Answer) (hsub : rest <:+ as) (hlt : buf ≠ [] → rest.length < as.length)
      (hcap : capacity as ≤ capacity rest + buf.length) : Written as buf (.ok, buf.length, rest)
  | part (offset : ℕ) (hlt : offset < buf.length) (hcap : capacity as ≤ offset) :
      Written as buf (.again, offset, [])
  | fail (offset : ℕ) (rest : List Answer) (hlt : offset < buf.length) (hsub : rest <:+ as)
      (hfail : .fail ∈ as) : Written as buf (.err, offset, rest)

/-- **`writer`** -/
theorem writer_written (has : ∀ a ∈ as, a.Moves) : Written as buf (writer as buf) := by
  induction as generalizing buf with
  | nil =>
    cases buf with
    | nil => exact .full [] (by simp) (by simp) (by simp)
    | cons b buf => exact .part 0 (by simp) (by simp)
  | cons a as ih =>
    have has' : ∀ a ∈ as, a.Moves := fun b hb => has b (List.mem_cons_of_mem a hb)
    cases buf with
    | nil =>
      rw [writer_nil]
      exact .full (a :: as) (List.suffix_rfl) (by simp) (by simp)
    | cons b buf =>
      cases a with
      | intr =>
        rw [writer]
        -- the loop goes round
        obtain ⟨r, hr⟩ : ∃ r, writer as (b :: buf) = r := ⟨_, rfl⟩
        have h : Written as (b :: buf) r := hr ▸ ih has'
        rw [hr]
        cases h with
        | full rest hsub hlt hcap =>
          have hshort := hlt (by simp)
          exact .full rest (hsub.trans (List.suffix_cons _ _))
            (fun _ => by rw [List.length_cons]; omega) (by rw [capacity_intr]; exact hcap)
        | part offset hlt hcap => exact .part offset hlt (by rw [capacity_intr]; exact hcap)
        | fail offset rest hlt hsub hfail =>
          exact .fail offset rest hlt (hsub.trans (List.suffix_cons _ _))
            (List.mem_cons_of_mem _ hfail)
      | fail =>
        rw [writer]
        exact .fail 0 as (by simp) (List.suffix_cons _ _) (by simp)
      | bytes k =>
        have hk : k ≠ 0 := fun h => has (.bytes k) (by simp) (h ▸ rfl)
        rw [writer, if_neg hk]
        obtain ⟨r, hr⟩ : ∃ r, writer as ((b :: buf).drop k) = r := ⟨_, rfl⟩
        have h : Written as ((b :: buf).drop k) r := hr ▸ ih has'
        have hlen : ((b :: buf).drop k).length = (b :: buf).length - k := List.length_drop
        rw [hr]
        cases h with
        | full rest hsub hlt hcap =>
          dsimp only
          have hsum : min k (b :: buf).length + ((b :: buf).drop k).length = (b :: buf).length := by
            omega
          rw [hsum]
          have hpos : 0 < (b :: buf).length := by simp
          refine .full rest (hsub.trans (List.suffix_cons _ _)) (fun _ => ?_) ?_
          · by_cases hd : (b :: buf).drop k = []
            · -- nothing is left for the rest of the answers
              rw [hd, writer_nil] at hr
              rw [← (Prod.mk.inj (Prod.mk.inj hr).2).2, List.length_cons]
              omega
            · have hshort := hlt hd
              rw [List.length_cons]
              omega
          · rw [capacity_bytes]
            omega
        | part offset hlt hcap =>
          exact .part _ (by omega) (by rw [capacity_bytes]; omega)
        | fail offset rest hlt hsub hfail =>
          exact .fail _ rest (by omega) (hsub.trans (List.suffix_cons _ _))
            (List.mem_cons_of_mem _ hfail)

/-- How `reader` may end: with what was asked for or the end of the stream, at the end of the
    turn, or with an error. -/
inductive Read (as : List Answer) (inp : List UInt8) (count : ℕ) :
    Ret × List UInt8 × List UInt8 × List Answer → Prop
  | full (rest : List Answer) (hsub : rest <:+ as) (hlt : rest.length < as.length)
      (hcap : capacity as ≤
        capacity rest + min inp.length count + if inp.length < count then 1 else 0) :
      Read as inp count (.ok, inp.take count, inp.drop count, rest)
  | part (m : ℕ) (hlt : m < count) (hle : m ≤ inp.length) (hcap : capacity as ≤ m) :
      Read as inp count (.again, inp.take m, inp.drop m, [])
  | fail (m : ℕ) (rest : List Answer) (hlt : m < count) (hle : m ≤ inp.length) (hsub : rest <:+ as)
      (hfail : .fail ∈ as) : Read as inp count (.err, inp.take m, inp.drop m, rest)

/-- **`reader`** -/
theorem reader_read (has : ∀ a ∈ as, a.Moves) (hcount : 0 < count) :
    Read as inp count (reader as inp count) := by
  induction as generalizing inp count with
  | nil =>
    obtain ⟨count, rfl⟩ := Nat.exists_eq_add_one_of_ne_zero hcount.ne'
    exact .part 0 hcount (Nat.zero_le _) le_rfl
  | cons a as ih =>
    have has' : ∀ a ∈ as, a.Moves := fun b hb => has b (List.mem_cons_of_mem a hb)
    obtain ⟨count, rfl⟩ := Nat.exists_eq_add_one_of_ne_zero hcount.ne'
    cases a with
    | intr =>
      rw [reader]
      obtain ⟨r, hr⟩ : ∃ r, reader as inp (count + 1) = r := ⟨_, rfl⟩
      have h : Read as inp (count + 1) r := hr ▸ ih has' hcount
      rw [hr]
      cases h with
      | full rest hsub hlt hcap =>
        exact .full rest (hsub.trans (List.suffix_cons _ _)) (by rw [List.length_cons]; omega)
          (by rw [capacity_intr]; exact hcap)
      | part m hlt hle hcap => exact .part m hlt hle (by rw [capacity_intr]; exact hcap)
      | fail m rest hlt hle hsub hfail =>
        exact .fail m rest hlt hle (hsub.trans (List.suffix_cons _ _)) (List.mem_cons_of_mem _ hfail)
    | fail => exact .fail 0 as hcount (Nat.zero_le _) (List.suffix_cons _ _) (by simp)
    | bytes k =>
      have hk : k ≠ 0 := fun h => has (.bytes k) (by simp) (h ▸ rfl)
      rw [reader]
      by_cases hinp : inp = []
      · -- the end of the stream
        subst hinp
        simp only [List.take_nil, ↓reduceIte]
        exact .full as (List.suffix_cons _ _) (by simp) (by simp)
      · have hpos := List.length_pos_iff.mpr hinp
        have hgot : inp.take (min k (count + 1)) ≠ [] := by
          intro h
          have hlength := congrArg List.length h
          rw [List.length_take, List.length_nil] at hlength
          omega
        dsimp only
        rw [if_neg hgot]
        -- `g` bytes are taken now, the others by the rest of the loop
        obtain ⟨g, hg⟩ : ∃ g, (inp.take (min k (count + 1))).length = g := ⟨_, rfl⟩
        have htake : inp.take (min k (count + 1)) = inp.take g := by
          rw [← hg, List.length_take, List.take_eq_take_min]
        have hgle : g ≤ count + 1 ∧ g ≤ inp.length ∧ 0 < g := by
          rw [List.length_take] at hg
          omega
        rw [hg, htake]
        by_cases hfull : count + 1 - g = 0
        · rw [hfull, reader_zero]
          obtain rfl : g = count + 1 := by omega
          dsimp only
          rw [List.append_nil]
          refine .full as (List.suffix_cons _ _) (by simp) ?_
          rw [capacity_bytes, Nat.min_eq_right hgle.2.1]
          omega
        · obtain ⟨r, hr⟩ : ∃ r, reader as (inp.drop g) (count + 1 - g) = r := ⟨_, rfl⟩
          have h : Read as (inp.drop g) (count + 1 - g) r := hr ▸ ih has' (Nat.pos_of_ne_zero hfull)
          have hlen : (inp.drop g).length = inp.length - g := List.length_drop
          rw [hr]
          cases h with
          | full rest hsub hlt hcap =>
            dsimp only
            rw [List.drop_drop, ← List.take_add, show g + (count + 1 - g) = count + 1 by omega]
            refine .full rest (hsub.trans (List.suffix_cons _ _)) (by rw [List.length_cons]; omega) ?_
            rw [capacity_bytes]
            split at hcap
            · rw [if_pos (by omega)]
              omega
            · rw [if_neg (by omega)]
              omega
          | part m hlt hle hcap =>
            dsimp only
            rw [List.drop_drop, ← List.take_add]
            exact .part (g + m) (by omega) (by omega) (by rw [capacity_bytes]; omega)
          | fail m rest hlt hle hsub hfail =>
            dsimp only
            rw [List.drop_drop, ← List.take_add]
            exact .fail (g + m) rest (by omega) (by omega) (hsub.trans (List.suffix_cons _ _))
              (List.mem_cons_of_mem _ hfail)

/-- **`writer`** on a connection. -/
theorem Conn.writer_spec {c : Conn} (has : ∀ a ∈ c.answers, a.Steady) (hbuf : buf ≠ [])
    (ps : List (List UInt8)) :
    (∃ rest, c.writer buf = (.ok, buf.length, { c with out := c.out ++ buf, answers := rest }) ∧
      accept c.answers (buf :: ps) = accept rest ps ∧ rest.length < c.answers.length ∧
      ∀ a ∈ rest, a.Steady) ∨
    ∃ offset, c.writer buf =
        (.again, offset, { c with out := c.out ++ buf.take offset, answers := [] }) ∧
      offset < buf.length ∧ accept c.answers (buf :: ps) = buf.drop offset :: ps := by
  unfold Conn.writer
  rcases Networking.writer_spec has hbuf ps with ⟨rest, h1, h2, h3, h4⟩ | ⟨offset, h1, h2, h3⟩
  · refine .inl ⟨rest, ?_, h2, h3, h4⟩
    rw [h1]
    simp
  · refine .inr ⟨offset, ?_, h2, h3⟩
    rw [h1]

end SystemProgramming.Networking
