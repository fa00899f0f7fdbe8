import SystemProgramming.Networking.Header

namespace SystemProgramming.Networking

open SystemProgramming.Lib

/-!
# `nonstop_networking/server.c` — a turn of `put`

`put` takes the size and then the body off the stream, 1024 bytes at a time, and decides
after every chunk whether the body is too long, too short, complete or to be continued.

* `Receiving` — a PUT that is still reading.
* `Accepts` — the sizes and bodies that it takes.
* `upload_spec` — a turn of `put`, up to the point where the file is complete.
-/

variable {msgs : Messages} {stream : List UInt8} {name : Name} {c : Ctx} {fuel : ℕ}
  {rest inp b : List UInt8} {j : Job} {n k r : ℕ}

/-! ### What is accepted -/

/-- The body has the announced length, or it is longer and the announced length is that of
    some full chunks. -/
def Accepts (filesize : ℕ) (body : List UInt8) : Prop :=
  body.length = filesize ∨ 0 < filesize ∧ 1024 ∣ filesize ∧ filesize < body.length

/-- The decision after a chunk of `r` bytes behind `k` others. -/
theorem accepts_cases (hdvd : 1024 ∣ k) (hkn : k < n ∨ k = 0) (hkb : k ≤ b.length)
    (hr : r = min (b.length - k) 1024) :
    (n < k + r → ¬ Accepts n b) ∧ (k + r < n → r < 1024 → ¬ Accepts n b) ∧
    (k + r = n → Accepts n b) ∧ (¬ n < k + r → ¬ (k + r < n ∧ r < 1024) → k + r ≠ n →
      1024 ∣ k + r ∧ k + r < n ∧ k + r ≤ b.length) := by
  unfold Accepts
  refine ⟨?_, ?_, ?_, ?_⟩
  · rintro h (h1 | ⟨h1, h2, h3⟩)
    · omega
    · -- a multiple of 1024 above `k` is at least a chunk away
      omega
  · rintro h h' (h1 | ⟨h1, h2, h3⟩) <;> omega
  · intro h
    by_cases hlt : b.length - k < 1024
    · exact .inl (by omega)
    · by_cases heq : b.length = n
      · exact .inl heq
      · exact .inr ⟨by omega, by omega, by omega⟩
  · intro h1 h2 h3
    omega

/-! ### A PUT that is still reading -/

/-- The buffer holds what was read of `rest`, less than a chunk. -/
structure Chunk (rest : List UInt8) (j : Job) (inp : List UInt8) : Prop where
  split : rest = j.buf.take j.readsz ++ inp
  len : (j.buf.take j.readsz).length = j.readsz
  lt : j.readsz < 1024

/-- A PUT that is still reading its size or its body. -/
inductive Receiving (stream : List UInt8) (j : Job) (inp : List UInt8) : Prop
  | size (sz : List UInt8) (hst : j.state = .readSize) (hrest : afterHeader stream = sz ++ inp)
      (hlen : sz.length = j.readsz) (hlt : j.readsz < 8) (hval : j.filesize = leValue sz)
      (hd : j.datasz = 0)
  | first (hst : j.state = .serving) (hchunk : Chunk (body stream) j inp)
      (hsz : j.filesize = announced stream) (hd : j.datasz = 0)
  | data (hst : j.state = .readData) (hchunk : Chunk ((body stream).drop j.datasz) j inp)
      (hsz : j.filesize = announced stream) (hdvd : 1024 ∣ j.datasz)
      (hle : j.datasz ≤ (body stream).length) (hlt : j.datasz < announced stream)

/-- From the first chunk on the file holds what was written. -/
def Stored (stream : List UInt8) (name : Name) (c : Ctx) : Prop :=
  c.job.state = .readData →
    c.srv.disk.content name = some ((body stream).take c.job.datasz)

/-- What an upload leaves alone. -/
structure Uploads (name : Name) (c c' : Ctx) : Prop where
  request : c'.job.request = c.job.request
  filename : c'.job.filename = c.job.filename
  writesz : c'.job.writesz = c.job.writesz
  list : c'.srv.file_list = c.srv.file_list
  disk : c.srv.disk.Only name c'.srv.disk
  out : c'.conn.out = c.conn.out
  closed : c'.conn.closed = c.conn.closed
  answers : c'.conn.answers <:+ c.conn.answers

theorem Uploads.refl (name : Name) (c : Ctx) : Uploads name c c :=
  ⟨rfl, rfl, rfl, rfl, .refl _ _, rfl, rfl, List.suffix_rfl⟩

theorem Uploads.trans {c₁ c₂ c₃ : Ctx} (h : Uploads name c₁ c₂) (h' : Uploads name c₂ c₃) :
    Uploads name c₁ c₃ :=
  ⟨h'.request.trans h.request, h'.filename.trans h.filename, h'.writesz.trans h.writesz,
    h'.list.trans h.list, h.disk.trans h'.disk, h'.out.trans h.out, h'.closed.trans h.closed,
    h'.answers.trans h.answers⟩

/-- The turn is over, or the socket has failed. -/
def Stops (c : Ctx) (ret : Ret) (c' : Ctx) : Prop :=
  ret = .again ∧ c'.conn.answers = [] ∨ ret = .err ∧ .fail ∈ c.conn.answers

/-- The answers that a turn has used are paid for by the bytes that were read; `eof` more are
    for the end of the stream. -/
def Paid (c c' : Ctx) (eof : ℕ) : Prop :=
  capacity c.conn.answers + c'.conn.inp.length
    ≤ capacity c'.conn.answers + c.conn.inp.length + eof

/-- How `put` may go on until the file is complete. -/
inductive Uploaded (msgs : Messages) (stream : List UInt8) (name : Name) (c : Ctx) : Phase → Prop
  | waits (ret : Ret) (c' : Ctx) (hstops : Stops c ret c') (hup : Uploads name c c')
      (hrec : Receiving stream c'.job c'.conn.inp)
      (hstored : Stored stream name c → Stored stream name c')
      (hsrv : c'.job.state ≠ .readData → c'.srv = c.srv ∧ c.job.state ≠ .readData)
      (hpaid : ret = .again → 8 ≤ (afterHeader stream).length → Paid c c' 0) :
      Uploaded msgs stream name c (.ok (some ret, c'))
  | bad (c' : Ctx) (hup : Uploads name c c') (hst : c'.job.state = .error)
      (herr : c'.job.errmsg = msgs.err_bad_file_size)
      (hnot : ¬ Accepts (announced stream) (body stream)) (hgone : c'.srv.disk.content name = none)
      (hpaid : 8 ≤ (afterHeader stream).length → Paid c c' 1) :
      Uploaded msgs stream name c (.ok (some .ok, c'))
  | good (c' : Ctx) (hup : Uploads name c c') (hst : c'.job.state = .done)
      (hyes : Accepts (announced stream) (body stream)) (hsz : c'.job.filesize = announced stream)
      (hcontent : Stored stream name c →
        c'.srv.disk.content name = some ((body stream).take (announced stream)))
      (hpaid : 8 ≤ (afterHeader stream).length → Paid c c' 1) :
      Uploaded msgs stream name c (.ok (none, c'))
  | exits (hst : c.job.state ≠ .readData) (hno : ¬ c.srv.disk.Writable name) :
      Uploaded msgs stream name c (.error .exited)

/-! ### One read -/

theorem Chunk.length (h : Chunk rest j inp) : rest.length = j.readsz + inp.length := by
  have hlen := congrArg List.length h.split
  rwa [List.length_append, h.len] at hlen

/-- `data` is read behind what the buffer holds. -/
theorem Chunk.take_splice (h : Chunk rest j inp) (data : List UInt8) :
    (splice j.buf j.readsz data).take (j.readsz + data.length) = j.buf.take j.readsz ++ data := by
  have hlen : (j.buf.take j.readsz ++ data).length = j.readsz + data.length := by
    rw [List.length_append, h.len]
  rw [splice, ← hlen, List.take_left]

/-- **A `reader` into the buffer**: the chunk is complete, or more of it is there. -/
theorem put_read_spec (h : Chunk rest c.job c.conn.inp) (has : ∀ a ∈ c.conn.answers, a.Moves) :
    (∃ buf as, put_read c = (.ok, { c with
        job := { c.job with buf := buf, readsz := min rest.length 1024 },
        conn := { c.conn with inp := rest.drop 1024, answers := as } }) ∧
      buf.take (min rest.length 1024) = rest.take 1024 ∧ as <:+ c.conn.answers ∧
      as.length < c.conn.answers.length ∧
      capacity c.conn.answers + (rest.drop 1024).length ≤
        capacity as + c.conn.inp.length + if rest.length < 1024 then 1 else 0) ∨
    ∃ ret buf readsz inp as, put_read c = (ret, { c with
        job := { c.job with buf := buf, readsz := readsz },
        conn := { c.conn with inp := inp, answers := as } }) ∧
      (ret = .again ∧ as = [] ∨ ret = .err ∧ .fail ∈ c.conn.answers) ∧ as <:+ c.conn.answers ∧
      Chunk rest { c.job with buf := buf, readsz := readsz } inp ∧
      (ret = .again → capacity c.conn.answers + inp.length ≤ c.conn.inp.length) := by
  have hlen := h.length
  have hlt := h.lt
  have hsplit := h.split
  unfold put_read Conn.reader
  obtain ⟨r, hr⟩ : ∃ r, reader c.conn.answers c.conn.inp (1024 - c.job.readsz) = r := ⟨_, rfl⟩
  have hread : Read c.conn.answers c.conn.inp (1024 - c.job.readsz) r :=
    hr ▸ reader_read has (by omega)
  rw [hr]
  -- what stays a chunk when `m` more bytes are read
  have hpart : ∀ m, m < 1024 - c.job.readsz → m ≤ c.conn.inp.length →
      Chunk rest { c.job with buf := splice c.job.buf c.job.readsz (c.conn.inp.take m),
                              readsz := c.job.readsz + (c.conn.inp.take m).length }
        (c.conn.inp.drop m) := by
    intro m hm hle
    have htake := h.take_splice (c.conn.inp.take m)
    have hmlen : (c.conn.inp.take m).length = m := List.length_take_of_le hle
    refine ⟨?_, ?_, ?_⟩
    · show rest = (splice _ _ _).take (_ + _) ++ _
      rw [htake, List.append_assoc, List.take_append_drop, ← hsplit]
    · show ((splice _ _ _).take (_ + _)).length = _
      rw [htake, List.length_append, h.len]
    · show c.job.readsz + (c.conn.inp.take m).length < 1024
      omega
  cases hread with
  | full as hsub hshort hcap =>
    -- `take` and `drop` of the whole chunk, from those of what was read now
    have hk : (c.job.buf.take c.job.readsz).length = c.job.readsz := h.len
    have htake : rest.take 1024 = c.job.buf.take c.job.readsz ++
        c.conn.inp.take (1024 - c.job.readsz) := by
      rw [hsplit, List.take_append, hk, List.take_of_length_le (by omega)]
    have hdrop : rest.drop 1024 = c.conn.inp.drop (1024 - c.job.readsz) := by
      rw [hsplit, List.drop_append, hk, List.drop_of_length_le (by omega), List.nil_append]
    have hmin : c.job.readsz + (c.conn.inp.take (1024 - c.job.readsz)).length
        = min rest.length 1024 := by
      rw [List.length_take]
      omega
    refine .inl ⟨splice c.job.buf c.job.readsz (c.conn.inp.take (1024 - c.job.readsz)), as, ?_, ?_,
      hsub, hshort, ?_⟩
    · dsimp only
      rw [hmin, hdrop]
    · rw [← hmin, h.take_splice, htake]
    · rw [hdrop, List.length_drop]
      split at hcap
      · rw [if_pos (by omega)]
        omega
      · rw [if_neg (by omega)]
        omega
  | part m hm hle hcap =>
    refine .inr ⟨.again, _, _, _, [], rfl, .inl ⟨rfl, rfl⟩, by simp, hpart m hm hle, fun _ => ?_⟩
    rw [List.length_drop]
    omega
  | fail m as hm hle hsub hfail =>
    exact .inr ⟨.err, _, _, _, as, rfl, .inr ⟨rfl, hfail⟩, hsub, hpart m hm hle, by simp⟩

/-! ### The size -/

/-- More bytes of the size are read. -/
theorem sizeWith_spec {sz data : List UInt8} {filesize off : ℕ} (hval : filesize = leValue sz)
    (hoff : sz.length = off) (hle : off + data.length ≤ 8) :
    sizeWith filesize off data = leValue (sz ++ data) := by
  have hbytes : leBytes 8 filesize = sz ++ List.replicate (8 - off) 0 := by
    rw [hval, leBytes_leValue 8 sz (by omega), hoff]
  unfold sizeWith splice
  rw [hbytes, ← hoff, List.take_left, ← List.drop_drop, List.drop_left, List.drop_replicate,
    leValue_append_zeros]

/-- **The size phase** of a turn. -/
theorem put_size_spec {sz : List UInt8} (hst : c.job.state = .readSize)
    (hrest : afterHeader stream = sz ++ c.conn.inp) (hlen : sz.length = c.job.readsz)
    (hlt : c.job.readsz < 8) (hval : c.job.filesize = leValue sz) (hd : c.job.datasz = 0)
    (has : ∀ a ∈ c.conn.answers, a.Moves) :
    (∃ c', put_size c = .ok (none, c') ∧ Uploads name c c' ∧ c'.job.state = .serving ∧
      Receiving stream c'.job c'.conn.inp ∧ c'.conn.answers.length < c.conn.answers.length ∧
      (8 ≤ (afterHeader stream).length → Paid c c' 0) ∧ c'.srv = c.srv) ∨
    ∃ ret c', put_size c = .ok (some ret, c') ∧ Stops c ret c' ∧ Uploads name c c' ∧
      c'.job.state = .readSize ∧ Receiving stream c'.job c'.conn.inp ∧
      (ret = .again → Paid c c' 0) ∧ c'.srv = c.srv := by
  have hall := congrArg List.length hrest
  rw [List.length_append, hlen] at hall
  unfold put_size Conn.reader
  obtain ⟨r, hr⟩ : ∃ r, reader c.conn.answers c.conn.inp (8 - c.job.readsz) = r := ⟨_, rfl⟩
  have hread : Read c.conn.answers c.conn.inp (8 - c.job.readsz) r :=
    hr ▸ reader_read has (by omega)
  rw [hr]
  -- the size with `m` more bytes
  have hsize : ∀ m, m ≤ 8 - c.job.readsz →
      sizeWith c.job.filesize c.job.readsz (c.conn.inp.take m) = leValue (sz ++ c.conn.inp.take m) := by
    intro m hm
    apply sizeWith_spec hval hlen
    rw [List.length_take]
    omega
  cases hread with
  | full as hsub hshort hcap =>
    refine .inl ⟨_, rfl, ⟨rfl, rfl, rfl, rfl, .refl _ _, rfl, rfl, hsub⟩, rfl, ?_, hshort, ?_, rfl⟩
    · -- the size is complete, or the stream has ended in it
      have htake : (afterHeader stream).take 8 = sz ++ c.conn.inp.take (8 - c.job.readsz) := by
        rw [hrest, List.take_append, hlen, List.take_of_length_le (by omega)]
      have hdrop : body stream = c.conn.inp.drop (8 - c.job.readsz) := by
        rw [body, hrest, List.drop_append, hlen, List.drop_of_length_le (by omega), List.nil_append]
      refine .first rfl ⟨?_, rfl, Nat.zero_lt_succ _⟩ ?_ hd
      · show body stream = zeros.take 0 ++ c.conn.inp.drop (8 - c.job.readsz)
        rw [hdrop, List.take_zero, List.nil_append]
      · show sizeWith c.job.filesize c.job.readsz (c.conn.inp.take (8 - c.job.readsz)) = _
        rw [hsize _ le_rfl, announced, htake]
    · intro h8
      show capacity c.conn.answers + (c.conn.inp.drop (8 - c.job.readsz)).length ≤ _
      rw [if_neg (by omega)] at hcap
      rw [List.length_drop]
      dsimp only
      omega
  | part m hm hle hcap =>
    refine .inr ⟨.again, _, rfl, .inl ⟨rfl, rfl⟩,
      ⟨rfl, rfl, rfl, rfl, .refl _ _, rfl, rfl, by simp⟩, hst, ?_, ?_, rfl⟩
    · have hmlen : (c.conn.inp.take m).length = m := List.length_take_of_le hle
      refine .size (sz ++ c.conn.inp.take m) hst ?_ ?_ ?_ ?_ hd
      · rw [List.append_assoc, List.take_append_drop, hrest]
      · show (sz ++ c.conn.inp.take m).length = c.job.readsz + (c.conn.inp.take m).length
        rw [List.length_append, hlen]
      · show c.job.readsz + (c.conn.inp.take m).length < 8
        omega
      · exact hsize m (by omega)
    · intro _
      show capacity c.conn.answers + (c.conn.inp.drop m).length ≤ _
      rw [List.length_drop]
      dsimp only
      omega
  | fail m as hm hle hsub hfail =>
    refine .inr ⟨.err, _, rfl, .inr ⟨rfl, hfail⟩,
      ⟨rfl, rfl, rfl, rfl, .refl _ _, rfl, rfl, hsub⟩, hst, ?_, by simp, rfl⟩
    have hmlen : (c.conn.inp.take m).length = m := List.length_take_of_le hle
    refine .size (sz ++ c.conn.inp.take m) hst ?_ ?_ ?_ ?_ hd
    · rw [List.append_assoc, List.take_append_drop, hrest]
    · show (sz ++ c.conn.inp.take m).length = c.job.readsz + (c.conn.inp.take m).length
      rw [List.length_append, hlen]
    · show c.job.readsz + (c.conn.inp.take m).length < 8
      omega
    · exact hsize m (by omega)

/-! ### The chunks -/

theorem Paid.trans {c₁ c₂ c₃ : Ctx} {e : ℕ} (h : Paid c₁ c₂ 0) (h' : Paid c₂ c₃ e) :
    Paid c₁ c₃ e := by
  unfold Paid at h h' ⊢
  omega

/-- The turn has only come from `c` to `c₂` so far. -/
theorem Uploaded.of_uploads {c c₂ : Ctx} {p : Phase} (h : Uploaded msgs stream name c₂ p)
    (hup : Uploads name c c₂) (hpaid : 8 ≤ (afterHeader stream).length → Paid c c₂ 0)
    (hstored : Stored stream name c → Stored stream name c₂)
    (hsrv : c₂.job.state ≠ .readData → c₂.srv = c.srv ∧ c.job.state ≠ .readData) :
    Uploaded msgs stream name c p := by
  cases h with
  | waits ret c' hstops hup' hrec hst hs' hp =>
    refine .waits ret c' ?_ (hup.trans hup') hrec (fun hs => hst (hstored hs)) (fun hne => ?_)
      (fun hr h8 => (hpaid h8).trans (hp hr h8))
    · exact hstops.imp_right (fun h => ⟨h.1, hup.answers.subset h.2⟩)
    · obtain ⟨h1, h2⟩ := hs' hne
      obtain ⟨h3, h4⟩ := hsrv h2
      exact ⟨h1.trans h3, h4⟩
  | bad c' hup' hst herr hnot hgone hp =>
    exact .bad c' (hup.trans hup') hst herr hnot hgone (fun h8 => (hpaid h8).trans (hp h8))
  | good c' hup' hst hyes hsz hcontent hp =>
    exact .good c' (hup.trans hup') hst hyes hsz (fun hs => hcontent (hstored hs))
      (fun h8 => (hpaid h8).trans (hp h8))
  | exits hst hno => exact .exits (hsrv hst).2 ((hsrv hst).1 ▸ hno)

/-- The end of the file is reached at most once. -/
def eofAfter (k : ℕ) (body : List UInt8) : ℕ := if body.length - k < 1024 then 1 else 0

/-- What holds after a chunk was written: `k` bytes came before it. -/
structure ChunkDone (stream : List UInt8) (name : Name) (c c₂ : Ctx) (k : ℕ) : Prop where
  dvd : 1024 ∣ k
  lt : k < announced stream ∨ k = 0
  le : k ≤ (body stream).length
  uploads : Uploads name c c₂
  filename : c₂.job.filename = some name
  readsz : c₂.job.readsz = min ((body stream).length - k) 1024
  datasz : c₂.job.datasz = k + c₂.job.readsz
  filesize : c₂.job.filesize = announced stream
  inp : c₂.conn.inp = ((body stream).drop k).drop 1024
  content : Stored stream name c →
    c₂.srv.disk.content name = some ((body stream).take (k + c₂.job.readsz))
  paid : 8 ≤ (afterHeader stream).length → Paid c c₂ (eofAfter k (body stream))
  moves : ∀ a ∈ c₂.conn.answers, a.Moves

/-- The head of the loop in `READ_DATA`. -/
structure DataHead (stream : List UInt8) (name : Name) (c : Ctx) : Prop where
  state : c.job.state = .readData
  filename : c.job.filename = some name
  chunk : Chunk ((body stream).drop c.job.datasz) c.job c.conn.inp
  filesize : c.job.filesize = announced stream
  dvd : 1024 ∣ c.job.datasz
  le : c.job.datasz ≤ (body stream).length
  lt : c.job.datasz < announced stream
  moves : ∀ a ∈ c.conn.answers, a.Moves

/-- **The decision after a chunk**; `IH` is about the rest of the loop. -/
theorem put_decide {c c₂ : Ctx} {k : ℕ} (h : ChunkDone stream name c c₂ k)
    (hfuel : c₂.conn.answers.length < fuel)
    (IH : ∀ c' : Ctx, DataHead stream name c' → c'.conn.answers.length < fuel →
      Uploaded msgs stream name c' (put_data msgs fuel c')) :
    Uploaded msgs stream name c
      (if c₂.job.filesize < c₂.job.datasz then .ok (some .ok, put_badSize msgs c₂)
      else if c₂.job.datasz < c₂.job.filesize ∧ c₂.job.readsz < 1024 then
        .ok (some .ok, put_badSize msgs c₂)
      else put_data msgs fuel { c₂ with job := { c₂.job with
        state := if c₂.job.datasz = c₂.job.filesize then .done else .readData,
        buf := zeros, readsz := 0 } }) := by
  obtain ⟨hlong, hshort, hyes, hmore⟩ := accepts_cases h.dvd h.lt h.le h.readsz
  have hsz := h.filesize
  have hd := h.datasz
  have heof : eofAfter k (body stream) ≤ 1 := by unfold eofAfter; split <;> omega
  have hpaid : 8 ≤ (afterHeader stream).length → Paid c c₂ 1 := fun h8 => by
    have hpaid := h.paid h8
    unfold Paid at hpaid ⊢
    omega
  -- the file is removed
  have hbad : ¬ Accepts (announced stream) (body stream) →
      Uploaded msgs stream name c (.ok (some .ok, put_badSize msgs c₂)) := by
    intro hnot
    have hremove := c₂.srv.disk.remove_getD name
    have hup := h.uploads
    refine .bad _ ⟨hup.request, hup.filename, hup.writesz, hup.list, ?_, hup.out, hup.closed,
      hup.answers⟩ rfl rfl hnot ?_ hpaid
    · show c.srv.disk.Only name ((c₂.srv.disk.remove (c₂.job.filename.getD [])).getD c₂.srv.disk)
      rw [h.filename]
      exact hup.disk.trans hremove.1
    · show ((c₂.srv.disk.remove (c₂.job.filename.getD [])).getD c₂.srv.disk).content name = none
      rw [h.filename]
      exact hremove.2
  rw [hsz, hd]
  split
  · rename_i hlt
    exact hbad (hlong hlt)
  split
  · rename_i _ hlt
    exact hbad (hshort hlt.1 hlt.2)
  rename_i h1 h2
  obtain ⟨fuel, rfl⟩ := Nat.exists_eq_add_one_of_ne_zero (show fuel ≠ 0 by omega)
  have hup := h.uploads
  have hup' : ∀ st : State, Uploads name c { c₂ with job := { c₂.job with
      state := st, buf := zeros, readsz := 0 } } := fun st =>
    ⟨hup.request, hup.filename, hup.writesz, hup.list, hup.disk, hup.out, hup.closed, hup.answers⟩
  by_cases heq : k + c₂.job.readsz = announced stream
  · -- the file is complete
    rw [if_pos heq, put_data, if_pos (by simp)]
    exact .good _ (hup' .done) rfl (hyes heq) hsz (fun hs => heq ▸ h.content hs) hpaid
  · -- there is more to come
    obtain ⟨hdvd, hlt, hle⟩ := hmore h1 h2 heq
    have hfull : c₂.job.readsz = 1024 := by
      have hread := h.readsz
      omega
    rw [if_neg heq]
    have hinp : c₂.conn.inp = (body stream).drop (k + c₂.job.readsz) := by
      rw [h.inp, List.drop_drop, hfull]
    have hhead : DataHead stream name { c₂ with job := { c₂.job with
        state := .readData, buf := zeros, readsz := 0 } } := by
      refine ⟨rfl, h.filename, ⟨?_, rfl, Nat.zero_lt_succ _⟩, hsz, ?_, ?_, ?_, h.moves⟩
      · show (body stream).drop c₂.job.datasz = zeros.take 0 ++ c₂.conn.inp
        rw [hd, List.take_zero, List.nil_append, hinp]
      · show 1024 ∣ c₂.job.datasz
        exact hd ▸ hdvd
      · show c₂.job.datasz ≤ _
        exact hd ▸ hle
      · show c₂.job.datasz < _
        exact hd ▸ hlt
    have hrest := IH _ hhead hfuel
    refine hrest.of_uploads (hup' .readData) (fun h8 => ?_) (fun hs _ => ?_)
      (fun hst => absurd rfl hst)
    · have hp := h.paid h8
      have hzero : eofAfter k (body stream) = 0 := by
        have hread := h.readsz
        unfold eofAfter
        rw [if_neg (by omega)]
      rw [hzero] at hp
      exact hp
    · show c₂.srv.disk.content name = some ((body stream).take c₂.job.datasz)
      rw [hd]
      exact h.content hs

/-- The parts of a chunk that was read to its end. -/
theorem take_add_chunk (l : List UInt8) (k : ℕ) :
    l.take k ++ (l.drop k).take 1024 = l.take (k + min (l.length - k) 1024) := by
  rw [List.take_add]
  congr 1
  rw [← List.length_drop, Nat.min_comm, ← List.take_eq_take_min]

/-- **The loop in `READ_DATA`.** -/
theorem put_data_spec (h : DataHead stream name c) (hfuel : c.conn.answers.length < fuel) :
    Uploaded msgs stream name c (put_data msgs fuel c) := by
  induction fuel generalizing c with
  | zero => omega
  | succ fuel ih =>
    rw [put_data, if_neg (by simp [h.state])]
    have hlen : ((body stream).drop c.job.datasz).length = (body stream).length - c.job.datasz :=
      List.length_drop
    have hname : c.job.filename.getD [] = name := by rw [h.filename, Option.getD_some]
    rcases put_read_spec h.chunk h.moves with ⟨buf, as, hread, hbuf, hsub, hshort, hcap⟩ |
      ⟨ret, buf, readsz, inp, as, hread, hstops, hsub, hchunk, hcap⟩
    · rw [hread]
      dsimp only
      rw [hname, hbuf]
      have hextend := c.srv.disk.extend_spec name (((body stream).drop c.job.datasz).take 1024)
      have hcontent : Stored stream name c →
          (c.srv.disk.extend name (((body stream).drop c.job.datasz).take 1024)).content name
            = some ((body stream).take
                (c.job.datasz + min ((body stream).length - c.job.datasz) 1024)) := by
        intro hs
        rw [← take_add_chunk]
        exact hextend.2 _ (hs h.state)
      rw [hlen]
      have hdone : ChunkDone stream name c { c with
          srv := { c.srv with
            disk := c.srv.disk.extend name (((body stream).drop c.job.datasz).take 1024) },
          job := { c.job with
            buf := buf, readsz := min ((body stream).length - c.job.datasz) 1024,
            datasz := c.job.datasz + min ((body stream).length - c.job.datasz) 1024 },
          conn := { c.conn with inp := ((body stream).drop c.job.datasz).drop 1024, answers := as } }
          c.job.datasz := by
        refine ⟨h.dvd, .inl h.lt, h.le, ⟨rfl, rfl, rfl, rfl, hextend.1, rfl, rfl, hsub⟩,
          h.filename, rfl, rfl, h.filesize, rfl, hcontent, fun _ => ?_, fun a ha => h.moves a (hsub.subset ha)⟩
        unfold Paid eofAfter
        rw [hlen] at hcap
        dsimp only
        omega
      exact put_decide hdone (show as.length < fuel by omega) (fun c' h' hf' => ih h' hf')
    · -- the chunk is not complete
      have hret : ret ≠ .ok := by
        rcases hstops with ⟨rfl, -⟩ | ⟨rfl, -⟩ <;> decide
      rw [hread]
      have hwaits : Uploaded msgs stream name c (.ok (some ret, { c with
          job := { c.job with buf := buf, readsz := readsz },
          conn := { c.conn with inp := inp, answers := as } })) := by
        refine .waits ret _ hstops ⟨rfl, rfl, rfl, rfl, .refl _ _, rfl, rfl, hsub⟩
          (.data h.state hchunk h.filesize h.dvd h.le h.lt) (fun hs => hs)
          (fun hne => absurd h.state hne) (fun hr _ => ?_)
        have hleft := hcap hr
        unfold Paid
        dsimp only
        omega
      cases ret with
      | ok => exact absurd rfl hret
      | _ => exact hwaits

/-! ### A turn -/

/-- All phases of `put` before the one in which the file is complete. -/
def upload (msgs : Messages) (fuel : ℕ) (c : Ctx) : Phase :=
  ((whenState .readSize put_size c).next (whenState .serving (put_serving msgs))).next
    (put_data msgs fuel)

theorem put_eq (h : c.job.state ≠ .error) :
    put msgs fuel c = ((upload msgs fuel c).next put_done).result := if_neg h

/-- The loop comes behind the first chunk. -/
theorem next_decision {p q : Prop} [Decidable p] [Decidable q] {ret ret' : Ret} {c₁ c₂ c₃ : Ctx}
    (f : Ctx → Phase) :
    Phase.next (if p then .ok (some ret, c₁) else if q then .ok (some ret', c₂) else .ok (none, c₃)) f
      = if p then .ok (some ret, c₁) else if q then .ok (some ret', c₂) else f c₃ := by
  split_ifs <;> rfl

/-- What a turn of `put` does from `SERVING` on. -/
theorem put_serving_spec (hst : c.job.state = .serving) (hfile : c.job.filename = some name)
    (hchunk : Chunk (body stream) c.job c.conn.inp) (hsz : c.job.filesize = announced stream)
    (hd : c.job.datasz = 0) (has : ∀ a ∈ c.conn.answers, a.Moves)
    (hfuel : c.conn.answers.length < fuel) :
    Uploaded msgs stream name c ((put_serving msgs c).next (put_data msgs fuel)) := by
  have hname : c.job.filename.getD [] = name := by rw [hfile, Option.getD_some]
  unfold put_serving
  rcases put_read_spec hchunk has with ⟨buf, as, hread, hbuf, hsub, hshort, hcap⟩ |
    ⟨ret, buf, readsz, inp, as, hread, hstops, hsub, hchunk', hcap⟩
  · rw [hread]
    dsimp only
    rw [hname, hbuf]
    rcases hstore : c.srv.disk.store name ((body stream).take 1024) with _ | disk
    · -- the file cannot be opened
      exact .exits (by simp [hst]) (Disk.store_eq_none.mp hstore)
    · obtain ⟨honly, hcontent⟩ := Disk.store_spec hstore
      dsimp only
      rw [next_decision]
      have hdone : ChunkDone stream name c { c with
          srv := { c.srv with disk := disk },
          job := { c.job with
            buf := buf, readsz := min (body stream).length 1024,
            datasz := c.job.datasz + min (body stream).length 1024 },
          conn := { c.conn with inp := (body stream).drop 1024, answers := as } } 0 := by
        refine ⟨dvd_zero _, .inr rfl, Nat.zero_le _, ⟨rfl, rfl, rfl, rfl, honly, rfl, rfl, hsub⟩,
          hfile, rfl, by rw [hd], hsz, rfl, fun _ => ?_, fun _ => ?_, fun a ha => has a (hsub.subset ha)⟩
        · show disk.content name = some ((body stream).take (0 + min (body stream).length 1024))
          rw [hcontent, Nat.zero_add, Nat.min_comm, ← List.take_eq_take_min]
        · unfold Paid eofAfter
          dsimp only
          omega
      exact put_decide hdone (show as.length < fuel by omega)
        (fun c' h' hf' => put_data_spec h' hf')
  · -- the chunk is not complete
    have hret : ret ≠ .ok := by
      rcases hstops with ⟨rfl, -⟩ | ⟨rfl, -⟩ <;> decide
    rw [hread]
    have hwaits : Uploaded msgs stream name c (.ok (some ret, { c with
        job := { c.job with buf := buf, readsz := readsz },
        conn := { c.conn with inp := inp, answers := as } })) := by
      refine .waits ret _ hstops ⟨rfl, rfl, rfl, rfl, .refl _ _, rfl, rfl, hsub⟩
        (.first hst hchunk' hsz hd) (fun hs => hs) (fun hne => ⟨rfl, hne⟩) (fun hr _ => ?_)
      have hleft := hcap hr
      unfold Paid
      dsimp only
      omega
    cases ret with
    | ok => exact absurd rfl hret
    | _ => exact hwaits

/-- **A turn of `put`**, up to the point where the file is complete. -/
theorem upload_spec (h : Receiving stream c.job c.conn.inp) (hfile : c.job.filename = some name)
    (has : ∀ a ∈ c.conn.answers, a.Moves) (hfuel : c.conn.answers.length < fuel) :
    Uploaded msgs stream name c (upload msgs fuel c) := by
  unfold upload
  cases h with
  | size sz hst hrest hlen hlt hval hd =>
    rw [whenState_pos hst]
    rcases put_size_spec hst hrest hlen hlt hval hd has with
      ⟨c', hc', hup, hst', hrec, hshort, hpaid, hsrv⟩ | ⟨ret, c', hc', hstops, hup, hst', hrec, hpaid, hsrv⟩
    · rw [hc', Phase.next_none, whenState_pos hst']
      cases hrec with
      | first _ hchunk hsz hd' =>
        refine (put_serving_spec hst' (hup.filename.trans hfile) hchunk hsz hd'
          (fun a ha => has a (hup.answers.subset ha)) (hshort.trans hfuel)).of_uploads hup hpaid
          (fun _ h => absurd (hst'.symm.trans h) (by decide)) (fun _ => ?_)
        exact ⟨hsrv, by simp [hst]⟩
      | size _ h => exact absurd (hst'.symm.trans h) (by decide)
      | data h => exact absurd (hst'.symm.trans h) (by decide)
    · rw [hc']
      exact .waits ret c' hstops hup hrec (fun _ h => absurd (hst'.symm.trans h) (by decide))
        (fun _ => ⟨hsrv, by simp [hst]⟩) (fun hr _ => hpaid hr)
  | first hst hchunk hsz hd =>
    rw [whenState_neg (by simp [hst]), Phase.next_none, whenState_pos hst]
    exact put_serving_spec hst hfile hchunk hsz hd has hfuel
  | data hst hchunk hsz hdvd hle hlt =>
    rw [whenState_neg (by simp [hst]), Phase.next_none, whenState_neg (by simp [hst]),
      Phase.next_none]
    exact put_data_spec ⟨hst, hfile, hchunk, hsz, hdvd, hle, hlt, has⟩ hfuel

end SystemProgramming.Networking
