import SystemProgramming.Networking.Turns

namespace SystemProgramming.Networking

open SystemProgramming.Lib

/-!
# `nonstop_networking/server.c` — a turn of `handle_get`

The reply to a GET is the pieces `"OK\n"`, the size, and the chunks of the file, sent one
after the other.  `handle_get` sends them as `accept` does (`Sending`), with one exception:
when a turn ends before the first byte of a chunk is written, `writesz` is 0, the chunk that
is in the buffer is forgotten, and the next turn reads the one behind it (`Lost`).

* `get_phases_spec` — a turn from `Sending`.
* `get_data_lost` — the loop once a chunk is lost.
-/

variable {msgs : Messages} {content : List UInt8} {name : Name} {i fuel : ℕ} {c : Ctx} {t : Turn}
  {rem : List (List UInt8)}

/-- The pieces of the reply to a GET. -/
def pieces (content : List UInt8) : List (List UInt8) :=
  ascii "OK\n" :: leBytes 8 content.length :: chunks 1023 content

/-- What a GET of a file with the given content is to send. -/
def reply (content : List UInt8) : List UInt8 :=
  ascii "OK\n" ++ leBytes 8 content.length ++ content

theorem flatten_pieces (content : List UInt8) : (pieces content).flatten = reply content := by
  rw [pieces, List.flatten_cons, List.flatten_cons, flatten_chunks, reply, List.append_assoc]

theorem pieces_ne_nil (content : List UInt8) : ∀ p ∈ pieces content, p ≠ [] := by
  intro p hp
  rcases List.mem_cons.mp hp with rfl | hp
  · decide
  rcases List.mem_cons.mp hp with rfl | hp
  · exact List.ne_nil_of_length_pos (by rw [length_leBytes]; omega)
  · exact chunks_ne_nil 1023 content p hp

/-! ### Where a job is between two turns -/

/-- What stays the same until the end. -/
structure Serving (content : List UInt8) (name : Name) (i : ℕ) (c : Ctx) : Prop where
  request : c.job.request = .get
  filename : c.job.filename = some name
  entry : c.srv.disk.lookup name = .file i
  data : c.srv.disk.data i = content
  opened : c.conn.closed = false

/-- `rem` is what is left to be sent. -/
inductive Sending (content : List UInt8) (i : ℕ) (j : Job) : List (List UInt8) → Prop
  | serving (hst : j.state = .serving) (hw : j.writesz = 0) (hd : j.datasz = 0) :
      Sending content i j (pieces content)
  | response (hst : j.state = .writeResponse) (hw : j.writesz < 3) (hd : j.datasz = 0)
      (hfd : j.filefd = some (.file i 0)) (hsz : j.filesize = content.length) :
      Sending content i j
        ((ascii "OK\n").drop j.writesz :: leBytes 8 content.length :: chunks 1023 content)
  | size (hst : j.state = .writeSize) (hw : j.writesz < 8) (hd : j.datasz = 0)
      (hfd : j.filefd = some (.file i 0)) (hsz : j.filesize = content.length) :
      Sending content i j ((leBytes 8 content.length).drop j.writesz :: chunks 1023 content)
  | chunk (hst : j.state = .writeData) (hw : 0 < j.writesz) (hr : j.writesz < j.readsz)
      (hbuf : j.readsz ≤ j.buf.length) (hfd : j.filefd = some (.file i (j.datasz + j.readsz)))
      (hsz : j.filesize = content.length) (hd : 1024 ∣ j.datasz)
      (hlen : j.readsz = min (content.length - j.datasz) 1024) :
      Sending content i j ((j.buf.drop j.writesz).take (j.readsz - j.writesz) ::
        chunks 1023 (content.drop (j.datasz + j.readsz)))

/-- The bytes that are in the buffer or still to be read are fewer than those that
    `handle_get` waits for. -/
structure Lost (content : List UInt8) (i : ℕ) (j : Job) : Prop where
  state : j.state = .writeData
  short : ∃ pos, j.filefd = some (.file i pos) ∧
    j.datasz + (if j.writesz = 0 then 0 else j.readsz) + (content.length - pos) < j.filesize
  mid : j.writesz = 0 ∨ j.writesz < j.readsz ∧ j.readsz ≤ j.buf.length

/-- What is left is the file from a chunk boundary on. -/
def Boundary (content : List UInt8) (rem : List (List UInt8)) : Prop :=
  ∃ k, 1024 * k < content.length ∧ rem.flatten.length = content.length - 1024 * k

/-- What a job remembers of the pieces that are left: all of them, or, behind a chunk
    boundary, too few. -/
def Pending (content : List UInt8) (i : ℕ) (j : Job) (rem : List (List UInt8)) : Prop :=
  Sending content i j rem ∧ ¬ Boundary content rem ∨ Lost content i j ∧ Boundary content rem

/-! ### The loop -/

/-- A chunk is read. -/
theorem get_read_spec {pos : ℕ} (hfd : c.job.filefd = some (.file i pos))
    (hdata : c.srv.disk.data i = content) : get_read c = some { c with job := { c.job with
      filefd := some (.file i (pos + ((content.drop pos).take 1024).length)),
      buf := splice c.job.buf 0 ((content.drop pos).take 1024),
      readsz := ((content.drop pos).take 1024).length } } := by
  unfold get_read
  rw [hfd]
  simp only [hdata]

/-- What was written into the start of a buffer. -/
theorem take_splice_zero (buf data : List UInt8) : (splice buf 0 data).take data.length = data := by
  simp [splice]

theorem length_splice_zero (buf data : List UInt8) : data.length ≤ (splice buf 0 data).length := by
  simp [splice]

/-- The head of the loop, with a chunk in the buffer. -/
structure Loaded (content : List UInt8) (i : ℕ) (c : Ctx) : Prop where
  state : c.job.state = .writeData
  mid : c.job.writesz < c.job.readsz
  buf : c.job.readsz ≤ c.job.buf.length
  filefd : c.job.filefd = some (.file i (c.job.datasz + c.job.readsz))
  filesize : c.job.filesize = content.length
  aligned : 1024 ∣ c.job.datasz
  readsz : c.job.readsz = min (content.length - c.job.datasz) 1024
  data : c.srv.disk.data i = content
  steady : ∀ a ∈ c.conn.answers, a.Steady

/-- The head of the loop, before a chunk is read. -/
structure Fresh (content : List UInt8) (i : ℕ) (c : Ctx) : Prop where
  state : c.job.state = .writeData
  writesz : c.job.writesz = 0
  filefd : c.job.filefd = some (.file i c.job.datasz)
  filesize : c.job.filesize = content.length
  aligned : 1024 ∣ c.job.datasz
  more : c.job.datasz < content.length
  data : c.srv.disk.data i = content
  steady : ∀ a ∈ c.conn.answers, a.Steady

/-- The rest of the chunk in the buffer. -/
def Job.piece (j : Job) : List UInt8 := (j.buf.drop j.writesz).take (j.readsz - j.writesz)

theorem Loaded.length_piece (h : Loaded content i c) :
    c.job.piece.length = c.job.readsz - c.job.writesz := by
  have h1 := h.mid
  have h2 := h.buf
  rw [Job.piece, List.length_take, List.length_drop]
  omega

/-- What a loaded job has to send, when nothing of the chunk is written yet. -/
theorem Fresh.load (h : Fresh content i c) : ∃ c₁, get_read c = some c₁ ∧ Loaded content i c₁ ∧
    Same c c₁ ∧ c₁.conn = c.conn ∧ c₁.job.writesz = 0 ∧ c₁.job.datasz = c.job.datasz ∧
    c₁.job.piece = (content.drop c.job.datasz).take 1024 := by
  have hlen : ((content.drop c.job.datasz).take 1024).length
      = min (content.length - c.job.datasz) 1024 := by
    rw [List.length_take, List.length_drop, Nat.min_comm]
  have hmore := h.more
  refine ⟨_, get_read_spec h.filefd h.data, ?_, ⟨rfl, rfl, rfl, rfl⟩, rfl, h.writesz, rfl, ?_⟩
  · refine ⟨h.state, ?_, length_splice_zero _ _, rfl, h.filesize, h.aligned, hlen, h.data, h.steady⟩
    show c.job.writesz < ((content.drop c.job.datasz).take 1024).length
    rw [h.writesz, hlen]
    omega
  · show ((splice _ 0 _).drop c.job.writesz).take (_ - c.job.writesz) = _
    rw [h.writesz, List.drop_zero, Nat.sub_zero, take_splice_zero]

/-- One iteration of the loop, once a chunk is in the buffer; `IH` is about the iterations
    after it. -/
theorem get_data_loaded {c c₁ : Ctx} (hst : c.job.state = .writeData)
    (hload : (if c.job.writesz = 0 then get_read c else some c) = some c₁)
    (h : Loaded content i c₁) (hfuel : c₁.conn.answers.length < fuel + 1)
    (IH : ∀ c₂ : Ctx, Fresh content i c₂ → c₂.conn.answers.length < fuel →
      ∃ r, get_data fuel c₂ = .ok r ∧ Took (Pending content i) c₂ (chunks 1023 (content.drop c₂.job.datasz)) r) :
    ∃ r, get_data (fuel + 1) c = .ok r ∧ Took (Pending content i) c₁
      (c₁.job.piece :: chunks 1023 (content.drop (c₁.job.datasz + c₁.job.readsz))) r := by
  have hlen := h.length_piece
  have hmid := h.mid
  have hbuf := h.buf
  have hread := h.readsz
  have hne : c₁.job.piece ≠ [] := List.ne_nil_of_length_pos (by omega)
  have hrest := List.length_drop (i := c₁.job.datasz + c₁.job.readsz) (l := content)
  rw [get_data, if_neg (by simp [hst]), hload]
  dsimp only
  rw [← Job.piece]
  rcases Conn.writer_cases h.steady hne (chunks 1023 (content.drop (c₁.job.datasz + c₁.job.readsz)))
    with ⟨rest, hw, hacc, hshort, hsteady⟩ | ⟨offset, hw, hacc, hoff⟩
  · -- the chunk is written
    rw [hw]
    have hsum : c₁.job.datasz + (c₁.job.writesz + c₁.job.piece.length)
        = c₁.job.datasz + c₁.job.readsz := by omega
    dsimp only
    rw [hsum]
    obtain ⟨fuel, rfl⟩ := Nat.exists_eq_add_one_of_ne_zero (show fuel ≠ 0 by omega)
    have hsize := h.filesize
    by_cases hend : c₁.job.filesize ≤ c₁.job.datasz + c₁.job.readsz
    · have hnil : content.drop (c₁.job.datasz + c₁.job.readsz) = [] :=
        List.drop_eq_nil_iff.mpr (hsize ▸ hend)
      rw [if_pos hend, get_data, if_pos (by simp)]
      refine ⟨_, rfl, ?_⟩
      rw [hnil, chunks_nil] at hacc ⊢
      refine .all _ ⟨rfl, rfl, rfl, rfl⟩ (by rw [hacc, accept_nil]) rfl ?_
      rw [Conn.out_sent, List.flatten_singleton]
    · rw [if_neg hend]
      have hal := h.aligned
      have hfresh : Fresh content i { c₁ with
          job := { c₁.job with writesz := 0, datasz := c₁.job.datasz + c₁.job.readsz, buf := zeros,
                               state := .writeData },
          conn := c₁.conn.sent c₁.job.piece rest } :=
        ⟨rfl, rfl, h.filefd, hsize, show 1024 ∣ c₁.job.datasz + c₁.job.readsz by omega,
          show c₁.job.datasz + c₁.job.readsz < _ by omega, h.data, hsteady⟩
      obtain ⟨r, hr, hsent⟩ := IH _ hfresh (show rest.length < fuel + 1 by omega)
      exact ⟨r, hr, hsent.cons ⟨rfl, rfl, rfl, rfl⟩ rfl hacc⟩
  · -- the socket is full
    rw [hw]
    refine ⟨_, rfl, ?_⟩
    have hflat : (accept c₁.conn.answers (c₁.job.piece ::
          chunks 1023 (content.drop (c₁.job.datasz + c₁.job.readsz)))).flatten
        = c₁.job.piece.drop offset ++ content.drop (c₁.job.datasz + c₁.job.readsz) := by
      rw [hacc, List.flatten_cons, flatten_chunks]
    have hleft : (c₁.job.piece.drop offset ++
          content.drop (c₁.job.datasz + c₁.job.readsz)).length
        = content.length - (c₁.job.datasz + (c₁.job.writesz + offset)) := by
      rw [List.length_append, List.length_drop, hrest]
      omega
    have hal := h.aligned
    refine .full ⟨hacc, hoff⟩ ⟨rfl, rfl, rfl, rfl⟩ rfl ?_
    rw [← hacc]
    by_cases hzero : c₁.job.writesz + offset = 0
    · -- nothing of the chunk was written: it is forgotten
      refine .inr ⟨⟨h.state, ⟨_, h.filefd, ?_⟩, .inl hzero⟩, ?_⟩
      · show c₁.job.datasz + (if c₁.job.writesz + offset = 0 then 0 else c₁.job.readsz)
          + (content.length - (c₁.job.datasz + c₁.job.readsz)) < c₁.job.filesize
        rw [if_pos hzero, h.filesize]
        omega
      · obtain ⟨k, hk⟩ := hal
        refine ⟨k, by omega, ?_⟩
        rw [hflat, hleft]
        omega
    · refine .inl ⟨?_, ?_⟩
      · have hpiece : c₁.job.piece.drop offset = (c₁.job.buf.drop (c₁.job.writesz + offset)).take
            (c₁.job.readsz - (c₁.job.writesz + offset)) := by
          rw [Job.piece, List.drop_take, List.drop_drop, Nat.sub_sub]
        rw [hacc, hpiece]
        exact .chunk h.state (Nat.pos_of_ne_zero hzero)
          (show c₁.job.writesz + offset < c₁.job.readsz by omega)
          h.buf h.filefd h.filesize h.aligned h.readsz
      · -- no boundary: part of the chunk was written, and part of it is left
        rintro ⟨k, hk1, hk2⟩
        rw [hflat, hleft] at hk2
        omega

/-- The loop, from a chunk boundary on. -/
theorem get_data_fresh (h : Fresh content i c) (hfuel : c.conn.answers.length < fuel) :
    ∃ r, get_data fuel c = .ok r ∧ Took (Pending content i) c (chunks 1023 (content.drop c.job.datasz)) r := by
  induction fuel generalizing c with
  | zero => omega
  | succ fuel ih =>
    obtain ⟨c₁, hread, hloaded, hsame, hconn, hw, hd, hpiece⟩ := h.load
    have hmore := h.more
    have hne : content.drop c.job.datasz ≠ [] := by simpa using hmore
    have hload : (if c.job.writesz = 0 then get_read c else some c) = some c₁ := by
      rw [if_pos h.writesz, hread]
    obtain ⟨r, hr, hsent⟩ := get_data_loaded h.state hload hloaded (hconn ▸ hfuel)
      (fun c₂ h₂ hf₂ => ih h₂ hf₂)
    -- the chunk is the next 1024 bytes, or all that is left
    have hrest : content.drop (c₁.job.datasz + c₁.job.readsz)
        = (content.drop c.job.datasz).drop (1023 + 1) := by
      rw [List.drop_drop, hloaded.readsz, hd]
      by_cases hlt : content.length - c.job.datasz < 1024
      · rw [List.drop_eq_nil_iff.mpr (by omega), List.drop_eq_nil_iff.mpr (by omega)]
      · rw [Nat.min_eq_right (by omega)]
    rw [hpiece, hrest, ← chunks_of_ne_nil 1023 hne] at hsent
    exact ⟨r, hr, hsent.of_same hsame hconn⟩

/-- The loop goes on for ever, or waits with the chunk still lost. -/
def StaysLost (content : List UInt8) (i : ℕ) (c : Ctx) (p : Phase) : Prop :=
  p = .error .fuel ∨ ∃ c', p = .ok (some .again, c') ∧ Same c c' ∧ Lost content i c'.job

/-- What is lost stays lost: the loop does not come to its end. -/
theorem get_data_lost (h : Lost content i c.job) (hdata : c.srv.disk.data i = content)
    (has : ∀ a ∈ c.conn.answers, a.Steady) : StaysLost content i c (get_data fuel c) := by
  induction fuel generalizing c with
  | zero => exact .inl rfl
  | succ fuel ih =>
    obtain ⟨pos, hfd, hshort⟩ := h.short
    -- `c₁` has a piece in its buffer, which may be empty at the end of the file
    have hload : ∃ c₁, (if c.job.writesz = 0 then get_read c else some c) = some c₁ ∧
        Same c c₁ ∧ c₁.conn = c.conn ∧ c₁.job.state = .writeData ∧
        c₁.job.writesz ≤ c₁.job.readsz ∧ c₁.job.readsz ≤ c₁.job.buf.length ∧
        ∃ pos', c₁.job.filefd = some (.file i pos') ∧
          c₁.job.datasz + c₁.job.readsz + (content.length - pos') < c₁.job.filesize ∧
          (c₁.job.writesz = 0 ∨ c₁.job.writesz < c₁.job.readsz) := by
      by_cases hw : c.job.writesz = 0
      · rw [if_pos hw, get_read_spec hfd hdata]
        rw [if_pos hw] at hshort
        refine ⟨_, rfl, ⟨rfl, rfl, rfl, rfl⟩, rfl, h.state, ?_, length_splice_zero _ _, _, rfl, ?_,
          .inl hw⟩
        · show c.job.writesz ≤ _
          omega
        · show c.job.datasz + ((content.drop pos).take 1024).length
            + (content.length - (pos + ((content.drop pos).take 1024).length)) < c.job.filesize
          rw [List.length_take, List.length_drop]
          omega
      · rw [if_neg hw] at hshort ⊢
        have hmid := h.mid.resolve_left hw
        exact ⟨c, rfl, Same.refl c, rfl, h.state, hmid.1.le, hmid.2, pos, hfd, hshort, .inr hmid.1⟩
    obtain ⟨c₁, hload, hsame, hconn, hst, hle, hbuf, pos', hfd', hshort', hmid⟩ := hload
    have hlen : c₁.job.piece.length = c₁.job.readsz - c₁.job.writesz := by
      rw [Job.piece, List.length_take, List.length_drop]
      omega
    rw [get_data, if_neg (by simp [h.state]), hload]
    dsimp only
    rw [← Job.piece]
    -- the iterations after this one
    have hnext : ∀ conn : Conn, conn.closed = c.conn.closed → (∀ a ∈ conn.answers, a.Steady) →
        ∀ offset, offset = c₁.job.piece.length →
        StaysLost content i c (get_data fuel { c₁ with
          job := { c₁.job with writesz := 0, datasz := c₁.job.datasz + (c₁.job.writesz + offset),
                               buf := zeros, state := .writeData },
          conn := conn }) := by
      rintro conn hclosed hsteady offset rfl
      have hlost : Lost content i { c₁.job with
          writesz := 0, datasz := c₁.job.datasz + (c₁.job.writesz + c₁.job.piece.length),
          buf := zeros, state := .writeData } := by
        refine ⟨rfl, ⟨pos', hfd', ?_⟩, .inl rfl⟩
        show c₁.job.datasz + (c₁.job.writesz + c₁.job.piece.length) + 0
          + (content.length - pos') < c₁.job.filesize
        omega
      refine (ih hlost (hsame.srv ▸ hdata) hsteady).imp_right ?_
      rintro ⟨c', hc', hs, hl⟩
      exact ⟨c', hc', ⟨hs.srv.trans hsame.srv, hs.request.trans hsame.request,
        hs.filename.trans hsame.filename, hs.closed.trans hclosed⟩, hl⟩
    have has₁ : ∀ a ∈ c₁.conn.answers, a.Steady := hconn ▸ has
    have hfar : ∀ offset, offset ≤ c₁.job.piece.length →
        ¬ c₁.job.filesize ≤ c₁.job.datasz + (c₁.job.writesz + offset) := by
      intro offset hoff
      omega
    by_cases hnil : c₁.job.piece = []
    · rw [hnil, Conn.writer, writer_nil]
      dsimp only
      rw [if_neg (hfar 0 (Nat.zero_le _))]
      exact hnext { c₁.conn with out := c₁.conn.out ++ List.take 0 [] } hsame.closed has₁ 0
        (by rw [hnil]; rfl)
    · -- a whole piece is written, or the socket is full
      rcases Conn.writer_cases has₁ hnil [] with ⟨rest, hw, hwrote⟩ | ⟨offset, hw, hfull⟩
      · rw [hw]
        dsimp only
        rw [if_neg (hfar _ le_rfl)]
        exact hnext (c₁.conn.sent c₁.job.piece rest) hsame.closed hwrote.steady _ rfl
      · rw [hw]
        refine .inr ⟨_, rfl, ⟨hsame.srv, hsame.request, hsame.filename, hsame.closed⟩, hst, ?_, ?_⟩
        · refine ⟨pos', hfd', ?_⟩
          show c₁.job.datasz + (if c₁.job.writesz + offset = 0 then 0 else c₁.job.readsz)
            + (content.length - pos') < c₁.job.filesize
          split <;> omega
        · have hoff := hfull.lt
          exact .inr ⟨show c₁.job.writesz + offset < c₁.job.readsz by omega, hbuf⟩

/-! ### The phases -/

/-- What a turn of `handle_get` does from the size on. -/
theorem get_size_spec (h : Serving content name i c) (has : ∀ a ∈ c.conn.answers, a.Steady)
    (hst : c.job.state = .writeSize) (hw : c.job.writesz < 8) (hd : c.job.datasz = 0)
    (hfd : c.job.filefd = some (.file i 0)) (hsz : c.job.filesize = content.length)
    (hfuel : c.conn.answers.length < fuel) :
    ∃ r, (whenState .writeSize (fun c => checked (write_size c)) c).next (get_data fuel) = .ok r ∧
      Took (Pending content i) c
        ((leBytes 8 content.length).drop c.job.writesz :: chunks 1023 content) r := by
  rw [← hsz]
  apply took_size has hst hw
  · -- part of the size, and the whole file, are no boundary
    intro w _ hlt
    refine .inl ⟨hsz ▸ .size hst hlt hd hfd hsz, ?_⟩
    rintro ⟨k, hk1, hk2⟩
    rw [List.flatten_cons, flatten_chunks, List.length_append, List.length_drop,
      length_leBytes] at hk2
    omega
  · rintro rest hshort hsteady c₁ rfl
    by_cases hzero : c.job.filesize = 0
    · have hnil : content = [] := List.length_eq_zero_iff.mp (hsz ▸ hzero)
      obtain ⟨fuel, rfl⟩ := Nat.exists_eq_add_one_of_ne_zero (show fuel ≠ 0 by omega)
      rw [if_pos hzero, get_data, if_pos (by simp)]
      refine ⟨_, rfl, ?_⟩
      rw [hnil, chunks_nil]
      exact .all _ ⟨rfl, rfl, rfl, rfl⟩ (accept_nil _) rfl (by simp)
    · rw [if_neg hzero]
      have hfresh : Fresh content i { c with
          job := { c.job with writesz := 0, state := .writeData },
          conn := c.conn.sent ((leBytes 8 c.job.filesize).drop c.job.writesz) rest } :=
        ⟨rfl, rfl, hfd.trans (by rw [hd]), hsz, show 1024 ∣ c.job.datasz by rw [hd]; exact dvd_zero _,
          show c.job.datasz < content.length by omega, h.data, hsteady⟩
      obtain ⟨r, hr, htook⟩ := get_data_fresh hfresh (hshort.trans hfuel)
      rw [show content.drop c.job.datasz = content by rw [hd, List.drop_zero]] at htook
      exact ⟨r, hr, htook⟩

/-- What a turn of `handle_get` does from the response on. -/
theorem get_response_spec (h : Serving content name i c) (has : ∀ a ∈ c.conn.answers, a.Steady)
    (hst : c.job.state = .writeResponse) (hw : c.job.writesz < 3) (hd : c.job.datasz = 0)
    (hfd : c.job.filefd = some (.file i 0)) (hsz : c.job.filesize = content.length)
    (hfuel : c.conn.answers.length < fuel) :
    ∃ r, (whenState .writeResponse (fun c => checked (write_response c)) c).next (fun c =>
        (whenState .writeSize (fun c => checked (write_size c)) c).next (get_data fuel)) = .ok r ∧
      Took (Pending content i) c ((ascii "OK\n").drop c.job.writesz :: leBytes 8 content.length ::
        chunks 1023 content) r := by
  apply took_response has (.inr h.request) hst hw
  · intro w _ hlt
    refine .inl ⟨.response hst hlt hd hfd hsz, ?_⟩
    rintro ⟨k, hk1, hk2⟩
    rw [List.flatten_cons, List.flatten_cons, flatten_chunks, List.length_append,
      List.length_append, length_leBytes] at hk2
    omega
  · rintro rest hshort hsteady c₁ rfl
    exact get_size_spec ⟨h.request, h.filename, h.entry, h.data, h.opened⟩ hsteady rfl
      (show 0 < 8 by omega) hd hfd hsz (hshort.trans hfuel)

/-- All phases of a turn of `handle_get`. -/
def get_phases (msgs : Messages) (fuel : ℕ) (c : Ctx) : Phase :=
  (((whenState .serving (get_serving msgs) c).next
    (whenState .writeResponse (fun c => checked (write_response c)))).next
    (whenState .writeSize (fun c => checked (write_size c)))).next (get_data fuel)

/-- **A turn of `handle_get`**: it sends what `accept` takes, or a chunk is lost. -/
theorem get_phases_spec (h : Serving content name i c) (hsend : Sending content i c.job rem)
    (has : ∀ a ∈ c.conn.answers, a.Steady) (hfuel : c.conn.answers.length < fuel) :
    ∃ r, get_phases msgs fuel c = .ok r ∧ Took (Pending content i) c rem r := by
  unfold get_phases
  rw [Phase.next_assoc, Phase.next_assoc]
  cases hsend with
  | serving hst hw hd =>
    have hopen : c.srv.disk.openRead (c.job.filename.getD []) = some (.file i 0) := by
      rw [h.filename, Option.getD_some, Disk.openRead, h.entry]
    have hserve : get_serving msgs c = .ok (none, { c with job := { c.job with
        filefd := some (.file i 0), filesize := content.length, state := .writeResponse } }) := by
      rw [get_serving, openfile, hopen]
      dsimp only
      rw [Disk.size, h.data]
    rw [whenState_pos hst, hserve, Phase.next_none]
    obtain ⟨r, hr, hsent⟩ := get_response_spec (c := { c with job := { c.job with
        filefd := some (.file i 0), filesize := content.length, state := .writeResponse } })
      ⟨h.request, h.filename, h.entry, h.data, h.opened⟩ has rfl (by rw [hw]; omega) hd rfl rfl hfuel
    rw [hw, List.drop_zero] at hsent
    exact ⟨r, hr, hsent.of_same ⟨rfl, rfl, rfl, rfl⟩ rfl⟩
  | response hst hw hd hfd hsz =>
    rw [whenState_neg (by simp [hst]), Phase.next_none]
    exact get_response_spec h has hst hw hd hfd hsz hfuel
  | size hst hw hd hfd hsz =>
    rw [whenState_neg (by simp [hst]), Phase.next_none, whenState_neg (by simp [hst]),
      Phase.next_none]
    exact get_size_spec h has hst hw hd hfd hsz hfuel
  | chunk hst hw hr hbuf hfd hsz hd hlen =>
    rw [whenState_neg (by simp [hst]), Phase.next_none, whenState_neg (by simp [hst]),
      Phase.next_none, whenState_neg (by simp [hst]), Phase.next_none]
    obtain ⟨fuel, rfl⟩ := Nat.exists_eq_add_one_of_ne_zero (show fuel ≠ 0 by omega)
    -- the chunk is still in the buffer
    exact get_data_loaded hst (if_neg hw.ne') ⟨hst, hr, hbuf, hfd, hsz, hd, hlen, h.data, has⟩ hfuel
      (fun c₂ h₂ hf₂ => get_data_fresh h₂ hf₂)

end SystemProgramming.Networking
