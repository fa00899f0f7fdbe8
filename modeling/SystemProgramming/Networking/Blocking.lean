import SystemProgramming.Networking.Handlers

namespace SystemProgramming.Networking

open SystemProgramming.Lib

/-!
# `nonstop_networking/common.c` — `read_all` and `write_all`

The loops of the client around `read` and `write` on a blocking descriptor.

* `write_all` — what it returns, and which bytes of the buffer went out, by their offsets.
* `write_all_truthful_iff` — when its result tells what was delivered: an `errno` other than
  `EINTR` and `EPIPE` moves the offset back by one.
* `read_all_spec` — on a stream that ends with an orderly close, `read_all` takes what was
  asked for or what is left.
-/

/-! ### `write_all` -/

/-- A buffer: no object of C has more than `PTRDIFF_MAX` bytes. -/
structure Buffer where
  bytes : List UInt8
  small : bytes.length < 2 ^ 63

/-- What `write` answers: -1 with an `errno`, or how many bytes it would take. -/
inductive WriteResult
  /-- `EINTR` -/
  | eintr
  /-- `EPIPE` -/
  | epipe
  /-- any other `errno` -/
  | error
  | bytes (k : ℕ)
  deriving DecidableEq

/-- A call of `write_all` after some results of `write`. -/
structure Writing where
  /-- what was returned; `none` while the loop goes on -/
  ret : Option ℤ
  /-- the offsets of the bytes that were delivered, in order -/
  sent : List ℕ

/-- The loop of `write_all`. -/
def write_loop (count : ℕ) : List WriteResult → ℤ → List ℕ → Writing
  | [], offset, sent => ⟨if size_t offset < count then none else some count, sent⟩
  | r :: results, offset, sent =>
    if size_t offset < count then
      match r with
      | .eintr => write_loop count results offset sent
      | .epipe => ⟨some (-1), sent⟩
      -- not returned for, so that `result`, which is -1, is added to `offset`
      | .error => write_loop count results (offset + -1) sent
      | .bytes k =>
        let result := min k (count - size_t offset)
        if result = 0 then ⟨some offset, sent⟩
        else
          write_loop count results (offset + result) (sent ++ List.range' (size_t offset) result)
    else ⟨some count, sent⟩

/-- `write_all(socket, buffer, count)` for all of a buffer. -/
def write_all (buffer : Buffer) (results : List WriteResult) : Writing :=
  write_loop buffer.bytes.length results 0 []

/-- The bytes that were delivered. -/
def Writing.delivered (w : Writing) (buffer : Buffer) : List UInt8 :=
  w.sent.map (fun i => buffer.bytes.getD i 0)

/-- The result of `write_all` tells what was delivered. -/
structure Truthful (buffer : Buffer) (results : List WriteResult) (w : Writing) : Prop where
  /-- in order, and no byte twice -/
  order : w.sent = List.range w.sent.length
  /-- a prefix of the buffer -/
  content : w.delivered buffer = buffer.bytes.take w.sent.length
  full : w.ret = some (buffer.bytes.length : ℤ) → w.sent.length = buffer.bytes.length
  short : ∀ r, w.ret = some r → r ≠ buffer.bytes.length →
    r = -1 ∧ (.epipe ∈ results ∨ .error ∈ results) ∨ r = w.sent.length

/-- With the offset `back` behind a failure that was not noticed, the call comes to its end, if
    it does, with `EPIPE`. -/
def Excused : ℕ → List WriteResult → Prop
  | _, [] => True
  | back, .eintr :: results => Excused back results
  | _, .epipe :: _ => True
  | 0, .error :: _ => False
  | back + 1, .error :: results => Excused back results
  | _, .bytes _ :: _ => False

/-- With `sent` bytes delivered, no `errno` other than `EINTR` and `EPIPE` does harm. -/
def Tolerated (count : ℕ) : ℕ → List WriteResult → Prop
  | _, [] => True
  | sent, .eintr :: results => Tolerated count sent results
  | _, .epipe :: _ => True
  | sent, .error :: results => Excused sent (.error :: results)
  | sent, .bytes k :: results => k = 0 ∨ count ≤ sent + k ∨ Tolerated count (sent + k) results

variable {count offset n : ℕ} {results : List WriteResult} {sent : List ℕ}

theorem size_t_ofNat (h : n < 2 ^ 63) : size_t (n : ℤ) = n := by
  unfold size_t
  omega

/-- The offset in front of the buffer is no offset into it. -/
theorem size_t_neg_one : size_t (-1) = 2 ^ 64 - 1 := by decide

/-- The loop is left. -/
theorem write_loop_done {offset : ℤ} (h : ¬ size_t offset < count) :
    write_loop count results offset sent = ⟨some count, sent⟩ := by
  cases results with
  | nil => rw [write_loop, if_neg h]
  | cons r results => cases r <;> rw [write_loop, if_neg h]

/-- What was delivered stays delivered. -/
theorem write_loop_sent (results : List WriteResult) (offset : ℤ) (sent : List ℕ) :
    sent <+: (write_loop count results offset sent).sent := by
  induction results generalizing offset sent with
  | nil => exact List.prefix_rfl
  | cons r results ih =>
    by_cases hlt : size_t offset < count
    · cases r with
      | eintr =>
        rw [write_loop, if_pos hlt]
        exact ih offset sent
      | epipe => simp only [write_loop, if_pos hlt, List.prefix_rfl]
      | error =>
        rw [write_loop, if_pos hlt]
        exact ih (offset + -1) sent
      | bytes k =>
        rw [write_loop, if_pos hlt]
        dsimp only
        split
        · exact List.prefix_rfl
        · exact (List.prefix_append _ _).trans (ih _ _)
    · exact ⟨[], (List.append_nil _).trans (congrArg Writing.sent (write_loop_done hlt)).symm⟩

/-- A byte that stands behind another one was not sent in order. -/
theorem not_in_order {l : List ℕ} (hlt : offset < n) (hl : List.range n ++ [offset] <+: l) :
    l ≠ List.range l.length := by
  intro h
  obtain ⟨rest, rfl⟩ := hl
  have hget : (List.range n ++ [offset] ++ rest)[n]? = some n := by
    rw [h, List.getElem?_range]
    simp
  rw [List.append_assoc, List.getElem?_append_right (by simp)] at hget
  simp only [List.length_range, Nat.sub_self, List.cons_append, List.getElem?_cons_zero,
    Option.some.injEq] at hget
  omega

variable {buffer : Buffer} {all : List WriteResult}

/-- A prefix was delivered. -/
theorem delivered_range (ret : Option ℤ) (hn : n ≤ buffer.bytes.length) :
    Writing.delivered ⟨ret, List.range n⟩ buffer = buffer.bytes.take n := by
  apply List.ext_getElem
  · rw [Writing.delivered, List.length_map, List.length_range, List.length_take,
      Nat.min_eq_left hn]
  · intro i h1 h2
    simp only [Writing.delivered, List.getElem_map, List.getElem_range, List.getElem_take]
    rw [List.getD_eq_getElem?_getD, List.getElem?_eq_getElem]
    rfl

/-- What is truthful, with a prefix delivered. -/
theorem truthful_range {ret : Option ℤ} (hn : n ≤ buffer.bytes.length) :
    Truthful buffer all ⟨ret, List.range n⟩ ↔
      ∀ r, ret = some r → r = -1 ∧ (.epipe ∈ all ∨ .error ∈ all) ∨ r = n := by
  have hlen : (List.range n).length = n := List.length_range
  constructor
  · intro h r hr
    by_cases hfull : r = buffer.bytes.length
    · have hsent := h.full (hr.trans (congrArg some hfull))
      rw [hlen] at hsent
      exact .inr (by omega)
    · have hshort := h.short r hr hfull
      rwa [hlen] at hshort
  · intro h
    refine ⟨by rw [hlen], by rw [hlen]; exact delivered_range ret hn, ?_, ?_⟩
    · intro hr
      rw [hlen]
      have hend := h _ hr
      omega
    · intro r hr _
      rw [hlen]
      exact h r hr

/-- In front of the buffer the loop is left, as if all had been delivered. -/
theorem write_loop_front (hcount : count < 2 ^ 63) :
    write_loop count results (-1) sent = ⟨some count, sent⟩ := by
  apply write_loop_done
  rw [size_t_neg_one]
  omega

/-- One step back after a failure, with `n` bytes delivered. -/
theorem write_loop_back (hn : n < buffer.bytes.length)
    (hback : ∀ back, offset = back + 1 →
      (Truthful buffer all (write_loop buffer.bytes.length results back (List.range n)) ↔
        Excused back results)) :
    Truthful buffer all (write_loop buffer.bytes.length results (offset + -1) (List.range n)) ↔
      Excused offset (.error :: results) := by
  have hsmall := buffer.small
  cases offset with
  | zero =>
    rw [Nat.cast_zero, zero_add, write_loop_front hsmall, truthful_range hn.le]
    refine iff_of_false (fun h => ?_) (fun h => h)
    have hret := h _ rfl
    omega
  | succ back =>
    rw [Nat.cast_succ, Int.add_neg_cancel_right]
    exact hback back rfl

/-- **After an unnoticed failure** the offset is behind what was delivered, and only `EPIPE`
    makes an end of it that is truthful. -/
theorem write_loop_behind (hsub : results ⊆ all) (hlt : offset < n) (hn : n < buffer.bytes.length) :
    Truthful buffer all (write_loop buffer.bytes.length results offset (List.range n)) ↔
      Excused offset results := by
  have hsmall := buffer.small
  have hsize : size_t (offset : ℤ) = offset := size_t_ofNat (by omega)
  have hloop : offset < buffer.bytes.length := by omega
  induction results generalizing offset with
  | nil =>
    rw [write_loop, hsize, if_pos hloop, truthful_range hn.le]
    simp [Excused]
  | cons r results ih =>
    have hsub' : results ⊆ all := fun r hr => hsub (List.mem_cons_of_mem _ hr)
    cases r with
    | eintr =>
      rw [write_loop, hsize, if_pos hloop]
      exact ih hsub' hlt hsize hloop
    | epipe =>
      rw [write_loop, hsize, if_pos hloop, truthful_range hn.le]
      refine iff_of_true (fun r hr => .inl ⟨(Option.some.inj hr).symm, .inl (hsub (by simp))⟩) ?_
      rw [Excused]
      trivial
    | error =>
      rw [write_loop, hsize, if_pos hloop]
      refine write_loop_back hn (fun back h => ?_)
      exact ih hsub' (by omega) (size_t_ofNat (by omega)) (by omega)
    | bytes k =>
      rw [write_loop, hsize, if_pos hloop]
      refine iff_of_false ?_ (by rw [Excused]; exact not_false)
      dsimp only
      split
      · -- what is returned is the offset
        rw [truthful_range hn.le]
        intro h
        have hret := h _ rfl
        omega
      · -- the byte at the offset is delivered once more
        rename_i hk
        intro h
        refine not_in_order hlt (List.IsPrefix.trans ?_ (write_loop_sent _ _ _)) h.order
        obtain ⟨m, hm⟩ := Nat.exists_eq_add_one_of_ne_zero hk
        rw [hm, List.range'_succ]
        exact (List.prefix_append_right_inj _).mpr ⟨_, rfl⟩

/-- **The loop** from an offset up to which all was delivered. -/
theorem write_loop_truthful (hsub : results ⊆ all) (hn : n < buffer.bytes.length) :
    Truthful buffer all (write_loop buffer.bytes.length results n (List.range n)) ↔
      Tolerated buffer.bytes.length n results := by
  have hsmall := buffer.small
  induction results generalizing n with
  | nil =>
    rw [write_loop, size_t_ofNat (by omega), if_pos hn, truthful_range hn.le]
    simp [Tolerated]
  | cons r results ih =>
    have hsize : size_t (n : ℤ) = n := size_t_ofNat (by omega)
    have hsub' : results ⊆ all := fun r hr => hsub (List.mem_cons_of_mem _ hr)
    cases r with
    | eintr =>
      rw [write_loop, hsize, if_pos hn]
      exact ih hsub' hn
    | epipe =>
      rw [write_loop, hsize, if_pos hn, truthful_range hn.le]
      refine iff_of_true (fun r hr => .inl ⟨(Option.some.inj hr).symm, .inl (hsub (by simp))⟩) ?_
      rw [Tolerated]
      trivial
    | error =>
      rw [write_loop, hsize, if_pos hn, Tolerated]
      exact write_loop_back hn (fun back h => write_loop_behind hsub' (by omega) hn)
    | bytes k =>
      rw [write_loop, hsize, if_pos hn, Tolerated]
      dsimp only
      split
      · -- nothing is taken, and the offset is returned
        rename_i hk
        rw [truthful_range hn.le]
        exact iff_of_true (fun r hr => .inr (Option.some.inj hr).symm) (.inl (by omega))
      · rename_i hk
        have hrange : List.range n ++ List.range' n (min k (buffer.bytes.length - n))
            = List.range (n + min k (buffer.bytes.length - n)) := by
          rw [List.range_add, List.range'_eq_map_range]
        rw [hrange, ← Nat.cast_add]
        by_cases hfull : buffer.bytes.length ≤ n + k
        · -- the rest of the buffer is taken
          rw [show n + min k (buffer.bytes.length - n) = buffer.bytes.length by omega]
          refine iff_of_true ?_ (.inr (.inl hfull))
          have hend : ¬ size_t (buffer.bytes.length : ℤ) < buffer.bytes.length := by
            rw [size_t_ofNat hsmall]
            omega
          rw [write_loop_done hend, truthful_range le_rfl]
          exact fun r hr => .inr (Option.some.inj hr).symm
        · rw [show n + min k (buffer.bytes.length - n) = n + k by omega, or_iff_right (by omega),
            or_iff_right hfull]
          exact ih hsub' (by omega)

/-- **`write_all` reports truthfully** exactly if no `errno` other than `EINTR` and `EPIPE` does
    harm. -/
theorem write_all_truthful_iff (buffer : Buffer) (results : List WriteResult) :
    Truthful buffer results (write_all buffer results) ↔
      buffer.bytes = [] ∨ Tolerated buffer.bytes.length 0 results := by
  by_cases hempty : buffer.bytes = []
  · refine iff_of_true ?_ (.inl hempty)
    have hend : ¬ size_t 0 < buffer.bytes.length := by
      rw [hempty]
      exact Nat.not_lt_zero _
    have hdone : write_all buffer results = ⟨some buffer.bytes.length, List.range 0⟩ :=
      write_loop_done hend
    rw [hdone, truthful_range (Nat.zero_le _)]
    intro r hr
    rw [hempty] at hr
    exact .inr (Option.some.inj hr).symm
  · have hloop := write_loop_truthful (n := 0) (List.Subset.refl results)
      (List.length_pos_iff.mpr hempty)
    rw [or_iff_right hempty]
    exact hloop

/-- An I/O error at the first byte: nothing is delivered, and the call returns `count`. -/
theorem not_write_all_truthful :
    ¬ Truthful ⟨[7], by decide⟩ [.error] (write_all ⟨[7], by decide⟩ [.error]) := by
  intro h
  exact absurd (h.full rfl) (by decide)

/-! ### `read_all` -/

/-- A stream that ends with an orderly close.  Behind the answers, what was sent has come in. -/
structure Stream where
  inp : List UInt8
  answers : List Answer

/-- The loop of `read_all`, with the first `offset` bytes of the buffer in `data`: the result,
    what is in the buffer, and the stream. -/
def read_loop (count : ℕ) : List Answer → List UInt8 → List UInt8 → ℤ × List UInt8 × Stream
  | [], inp, data =>
    let rest := inp.take (count - data.length)
    (((data ++ rest).length : ℤ), data ++ rest, ⟨inp.drop rest.length, []⟩)
  | a :: answers, inp, data =>
    if data.length < count then
      match a with
      | .intr => read_loop count answers inp data
      | .fail => (-1, data, ⟨inp, answers⟩)
      | .bytes k =>
        let got := inp.take (min k (count - data.length))
        -- the end of the stream
        if got = [] then (data.length, data, ⟨inp, answers⟩)
        else read_loop count answers (inp.drop got.length) (data ++ got)
    else (count, data, ⟨inp, a :: answers⟩)

/-- `read_all(socket, buffer, count)` -/
def read_all (count : ℕ) (s : Stream) : ℤ × List UInt8 × Stream :=
  read_loop count s.answers s.inp []

/-- An `ssize_t`. -/
def ssize_t (n : ℕ) : ℤ := (n : ℤ).bmod (2 ^ 64)

/-- `read_message_size(socket)`, where `size` holds the bytes that nobody has set. -/
def read_message_size (size : List UInt8) (s : Stream) : ℤ × Stream :=
  let (read_bytes, data, s) := read_all 8 s
  if read_bytes = 0 ∨ read_bytes = -1 then (read_bytes, s)
  else (ssize_t (leValue (splice size 0 data)), s)

/-- No failure, and no end before the end. -/
def Stream.Steady (s : Stream) : Prop := ∀ a ∈ s.answers, a.Steady

/-- **The loop** takes what was asked for, or what is left. -/
theorem read_loop_spec {answers : List Answer} {inp data : List UInt8}
    (has : ∀ a ∈ answers, a.Steady) (hle : data.length ≤ count) :
    ∃ rest : List Answer, (∀ a ∈ rest, a.Steady) ∧
      read_loop count answers inp data =
        (((data ++ inp.take (count - data.length)).length : ℤ),
          data ++ inp.take (count - data.length), ⟨inp.drop (count - data.length), rest⟩) := by
  induction answers generalizing inp data with
  | nil =>
    refine ⟨[], by simp, ?_⟩
    rw [read_loop, List.length_take]
    by_cases h : count - data.length ≤ inp.length
    · rw [Nat.min_eq_left h]
    · rw [Nat.min_eq_right (by omega), List.drop_length, List.drop_eq_nil_of_le (by omega)]
  | cons a answers ih =>
    have has' : ∀ a ∈ answers, a.Steady := fun b hb => has b (List.mem_cons_of_mem a hb)
    by_cases hlt : data.length < count
    · cases a with
      | intr =>
        rw [read_loop, if_pos hlt]
        exact ih has' hle
      | fail => exact (has .fail (by simp)).elim
      | bytes k =>
        have hk : 0 < k := has (.bytes k) (by simp)
        rw [read_loop, if_pos hlt]
        dsimp only
        by_cases hinp : inp = []
        · refine ⟨answers, has', ?_⟩
          rw [hinp, List.take_nil, List.take_nil, if_pos rfl, List.append_nil, List.drop_nil]
        · -- `g` bytes are taken now, the others by the rest of the loop
          have hpos := List.length_pos_iff.mpr hinp
          obtain ⟨g, hg⟩ : ∃ g, (inp.take (min k (count - data.length))).length = g := ⟨_, rfl⟩
          have htake : inp.take (min k (count - data.length)) = inp.take g := by
            rw [← hg, List.length_take, List.take_eq_take_min]
          rw [hg, htake]
          rw [List.length_take] at hg
          have hlen : (inp.take g).length = g := by
            rw [List.length_take]
            omega
          rw [if_neg (List.ne_nil_of_length_pos (by omega))]
          obtain ⟨rest, hrest, h⟩ := ih has' (show (data ++ inp.take g).length ≤ count by
            rw [List.length_append]
            omega)
          have hroom : count - (data ++ inp.take g).length = count - data.length - g := by
            rw [List.length_append]
            omega
          refine ⟨rest, hrest, ?_⟩
          rw [h, hroom, List.append_assoc, ← List.take_add, List.drop_drop,
            Nat.add_sub_cancel' (by omega)]
    · have hfull : count - data.length = 0 := by omega
      refine ⟨a :: answers, has, ?_⟩
      have hdone : read_loop count (a :: answers) inp data =
          ((count : ℤ), data, ⟨inp, a :: answers⟩) := by
        cases a <;> rw [read_loop, if_neg hlt]
      rw [hdone, hfull, List.take_zero, List.append_nil, List.drop_zero,
        show data.length = count by omega]

/-- **`read_all`** on a stream that closes in order. -/
theorem read_all_spec {s : Stream} (hs : s.Steady) (count : ℕ) :
    ∃ s' : Stream, s'.Steady ∧ s'.inp = s.inp.drop count ∧
      read_all count s = (((s.inp.take count).length : ℤ), s.inp.take count, s') := by
  obtain ⟨rest, hrest, h⟩ := read_loop_spec hs (show ([] : List UInt8).length ≤ count by simp)
  exact ⟨⟨_, rest⟩, hrest, rfl, h⟩

/-- **`read_message_size`**: the bytes that did not come read as they were before. -/
theorem read_message_size_spec {s : Stream} (hs : s.Steady) {size : List UInt8}
    (hsize : size.length = 8) :
    ∃ s' : Stream, s'.Steady ∧ s'.inp = s.inp.drop 8 ∧
      read_message_size size s =
        (if s.inp = [] then 0
          else ssize_t (leValue (s.inp.take 8 ++ size.drop s.inp.length)), s') := by
  obtain ⟨s', hs', hinp, h⟩ := read_all_spec hs 8
  refine ⟨s', hs', hinp, ?_⟩
  unfold read_message_size
  rw [h]
  dsimp only
  by_cases hnil : s.inp = []
  · rw [if_pos hnil, if_pos (.inl (by rw [hnil]; rfl)), hnil]
    rfl
  · have hpos := List.length_pos_iff.mpr hnil
    have hlen : (s.inp.take 8).length = min 8 s.inp.length := List.length_take
    rw [if_neg hnil, if_neg (by omega), splice, List.take_zero, List.nil_append, Nat.zero_add, hlen]
    congr 4
    by_cases h8 : 8 ≤ s.inp.length
    · rw [Nat.min_eq_left h8, List.drop_eq_nil_of_le (by omega), List.drop_eq_nil_of_le (by omega)]
    · rw [Nat.min_eq_right (by omega)]

end SystemProgramming.Networking
