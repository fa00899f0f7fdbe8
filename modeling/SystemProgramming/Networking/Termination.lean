import SystemProgramming.Lib.Lts
import SystemProgramming.Networking.Live

namespace SystemProgramming.Networking

open SystemProgramming.Lib

/-!
# `nonstop_networking/server.c` — which turns come to their end

Every loop of the handlers uses up an answer in every iteration, but for one: at the end of
its file `handle_get` writes nothing, and reads again, for as long as it has sent fewer bytes
than the file once had.

* `writesAll` — the socket takes these pieces within the turn.
* `Stuck` — the file gives fewer bytes than are waited for, and the socket takes them all.
* `serve_fuel_iff` — a call of a handler does not return exactly if its job is stuck.
* `turn_terminates_iff` — the same for a turn of a job that a run has reached.
-/

variable {msgs : Messages} {c c₁ : Ctx} {fuel : ℕ} {t : Turn} {as : List Answer}
  {p : List UInt8} {ps : List (List UInt8)} {mixed dirs : Prop} {stream : List UInt8}

/-! ### The condition -/

/-- The answers take all pieces. -/
def writesAll : List Answer → List (List UInt8) → Prop
  | _, [] => True
  | as, p :: ps => (writer as p).1 = .ok ∧ writesAll (writer as p).2.2 ps

/-- What the descriptor of a GET still gives. -/
def fileRest (srv : Server) (j : Job) : List UInt8 :=
  match j.filefd with
  | some (.file i pos) => (srv.disk.data i).drop pos
  | _ => []

/-- What is in the buffer of a GET, and the chunks that are still to be read. -/
def dataUnsent (srv : Server) (j : Job) : List (List UInt8) :=
  if j.writesz = 0 then chunks 1023 (fileRest srv j)
  else (j.buf.drop j.writesz).take (j.readsz - j.writesz) :: chunks 1023 (fileRest srv j)

/-- All that a GET can still send. -/
def unsent (srv : Server) (j : Job) : List (List UInt8) :=
  match j.state with
  | .writeResponse =>
    (ascii "OK\n").drop j.writesz :: leBytes 8 j.filesize :: chunks 1023 (fileRest srv j)
  | .writeSize => (leBytes 8 j.filesize).drop j.writesz :: chunks 1023 (fileRest srv j)
  | _ => dataUnsent srv j

/-- How many bytes of the file will have been sent in the end. -/
def supply (srv : Server) (j : Job) : ℕ :=
  j.datasz + (if j.state = .writeData ∧ j.writesz ≠ 0 then j.readsz else 0) +
    (fileRest srv j).length

/-- A GET that waits for more bytes than its file gives, on a socket that takes them all. -/
structure Stuck (srv : Server) (j : Job) (as : List Answer) : Prop where
  request : j.request = .get
  state : j.state = .writeResponse ∨ j.state = .writeSize ∨ j.state = .writeData
  file : ∃ i pos, j.filefd = some (.file i pos)
  short : supply srv j < j.filesize
  takes : writesAll as (unsent srv j)

/-! ### The loop -/

/-- A GET of a file, in its loop. -/
structure AtLoop (c : Ctx) : Prop where
  state : c.job.state = .writeData
  file : ∃ i pos, c.job.filefd = some (.file i pos)
  mid : Midway c.job

/-- How many bytes the loop will have sent. -/
def loopSupply (c : Ctx) : ℕ :=
  c.job.datasz + (if c.job.writesz = 0 then 0 else c.job.readsz) + (fileRest c.srv c.job).length

/-- The loop goes on behind the piece that was written. -/
def Ctx.sentChunk (c : Ctx) (offset : ℕ) (conn : Conn) : Ctx :=
  { c with
    job := { c.job with
      writesz := 0, datasz := c.job.datasz + (c.job.writesz + offset), buf := zeros,
      state := if c.job.filesize ≤ c.job.datasz + (c.job.writesz + offset) then .done
        else .writeData },
    conn := conn }

/-- **One iteration**: the piece `p`, and what is known of it. -/
theorem get_data_step (h : AtLoop c) : ∃ (p : List UInt8) (c₁ : Ctx),
    (∀ fuel, get_data (fuel + 1) c = match c₁.conn.writer p with
      | (.ok, offset, conn) => get_data fuel (c₁.sentChunk offset conn)
      | (ret, offset, conn) => .ok (some ret,
          { c₁ with job := { c₁.job with writesz := c₁.job.writesz + offset }, conn := conn })) ∧
    c₁.conn = c.conn ∧ c₁.job.filesize = c.job.filesize ∧
    (∃ i pos, c₁.job.filefd = some (.file i pos)) ∧
    c₁.job.datasz + (c₁.job.writesz + p.length) + (fileRest c₁.srv c₁.job).length = loopSupply c ∧
    (dataUnsent c.srv c.job = p :: chunks 1023 (fileRest c₁.srv c₁.job) ∧ p ≠ [] ∨
      dataUnsent c.srv c.job = [] ∧ p = [] ∧ fileRest c₁.srv c₁.job = []) := by
  obtain ⟨i, pos, hfd⟩ := h.file
  have hrest : fileRest c.srv c.job = (c.srv.disk.data i).drop pos := by
    unfold fileRest
    rw [hfd]
  by_cases hw : c.job.writesz = 0
  · -- a chunk is read
    obtain ⟨c₁, hc₁⟩ : ∃ c₁ : Ctx, c₁ = { c with job := { c.job with
        filefd := some (.file i (pos + (((c.srv.disk.data i).drop pos).take 1024).length)),
        buf := splice c.job.buf 0 (((c.srv.disk.data i).drop pos).take 1024),
        readsz := (((c.srv.disk.data i).drop pos).take 1024).length } } := ⟨_, rfl⟩
    have hread : get_read c = some c₁ := hc₁ ▸ get_read_spec hfd rfl
    have hpiece : (c₁.job.buf.drop c₁.job.writesz).take (c₁.job.readsz - c₁.job.writesz)
        = ((c.srv.disk.data i).drop pos).take 1024 := by
      rw [hc₁]
      dsimp only
      rw [hw, List.drop_zero, Nat.sub_zero, take_splice_zero]
    have hrest₁ : fileRest c₁.srv c₁.job = (fileRest c.srv c.job).drop 1024 := by
      rw [hrest, hc₁]
      show (c.srv.disk.data i).drop (pos + (((c.srv.disk.data i).drop pos).take 1024).length) = _
      rw [List.length_take, List.length_drop, List.drop_drop]
      by_cases hlt : (c.srv.disk.data i).length - pos < 1024
      · rw [List.drop_eq_nil_iff.mpr (by omega), List.drop_eq_nil_iff.mpr (by omega)]
      · rw [Nat.min_eq_left (by omega)]
    refine ⟨((c.srv.disk.data i).drop pos).take 1024, c₁, fun fuel => ?_, by rw [hc₁], by rw [hc₁],
      ⟨i, _, by rw [hc₁]⟩, ?_, ?_⟩
    · rw [get_data, if_neg (by simp [h.state]), if_pos hw, hread]
      dsimp only
      rw [hpiece]
      rfl
    · unfold loopSupply
      rw [if_pos hw, hrest₁, hrest, hc₁]
      simp only [List.length_take, List.length_drop]
      omega
    · unfold dataUnsent
      rw [if_pos hw, hrest₁, hrest]
      by_cases hnil : (c.srv.disk.data i).drop pos = []
      · rw [hnil]
        exact .inr ⟨chunks_nil _, rfl, rfl⟩
      · refine .inl ⟨chunks_of_ne_nil _ hnil, ?_⟩
        simpa using hnil
  · -- the rest of a chunk is in the buffer
    obtain ⟨hlt, hbuf⟩ := h.mid.resolve_left hw
    have hlen : ((c.job.buf.drop c.job.writesz).take (c.job.readsz - c.job.writesz)).length
        = c.job.readsz - c.job.writesz := by
      rw [List.length_take, List.length_drop]
      omega
    refine ⟨_, c, fun fuel => ?_, rfl, rfl, ⟨i, pos, hfd⟩, ?_, .inl ⟨if_neg hw, ?_⟩⟩
    · rw [get_data, if_neg (by simp [h.state]), if_neg hw]
      rfl
    · unfold loopSupply
      rw [if_neg hw, hlen]
      omega
    · exact List.ne_nil_of_length_pos (by omega)

theorem loopSupply_sentChunk (conn : Conn) (offset : ℕ) : loopSupply (c.sentChunk offset conn)
    = c.job.datasz + (c.job.writesz + offset) + (fileRest c.srv c.job).length := rfl

/-- Nothing of the next chunk is written yet. -/
theorem AtLoop.of_sentChunk {conn : Conn} {offset : ℕ}
    (hfd : ∃ i pos, c.job.filefd = some (.file i pos))
    (hlt : c.job.datasz + (c.job.writesz + offset) < c.job.filesize) :
    AtLoop (c.sentChunk offset conn) :=
  ⟨if_neg (Nat.not_le.mpr hlt), hfd, .inl rfl⟩

/-- **A loop that waits for more than its file gives** does not return. -/
theorem get_data_stuck (h : AtLoop c) (has : ∀ a ∈ c.conn.answers, a.Moves)
    (hshort : loopSupply c < c.job.filesize)
    (htakes : writesAll c.conn.answers (dataUnsent c.srv c.job)) :
    get_data fuel c = .error .fuel := by
  induction fuel generalizing c with
  | zero => rfl
  | succ fuel ih =>
    obtain ⟨p, c₁, hstep, hconn, hsz, hfd, hsupply, hpieces⟩ := get_data_step h
    -- the piece is written, and the others will be
    have hwrite : (writer c₁.conn.answers p).1 = .ok ∧
        writesAll (writer c₁.conn.answers p).2.2 (chunks 1023 (fileRest c₁.srv c₁.job)) := by
      rw [hconn]
      rcases hpieces with ⟨hp, -⟩ | ⟨-, hp, hrest⟩
      · rw [hp] at htakes
        exact htakes
      · rw [hp, hrest, writer_nil, chunks_nil]
        exact ⟨rfl, trivial⟩
    obtain ⟨r, hr⟩ : ∃ r, writer c₁.conn.answers p = r := ⟨_, rfl⟩
    have hwritten : Written c₁.conn.answers p r := hr ▸ writer_written (hconn ▸ has)
    rw [hstep]
    unfold Conn.writer
    rw [hr] at hwrite ⊢
    cases hwritten with
    | part offset hlt hcap => exact absurd hwrite.1 (by simp)
    | fail offset rest hlt hsub hfail => exact absurd hwrite.1 (by simp)
    | full rest hsub hshorter hcap =>
      have hlt : c₁.job.datasz + (c₁.job.writesz + p.length) < c₁.job.filesize := by omega
      dsimp only
      refine ih (.of_sentChunk hfd hlt) (fun a ha => has a (hconn ▸ hsub.subset ha)) ?_ hwrite.2
      rw [loopSupply_sentChunk]
      show _ < c₁.job.filesize
      omega

/-- **A loop that does not return** waits for more than its file gives. -/
theorem stuck_of_get_data (h : AtLoop c) (has : ∀ a ∈ c.conn.answers, a.Moves)
    (hfuel : c.conn.answers.length + 2 ≤ fuel) (hr : get_data fuel c = .error .fuel) :
    loopSupply c < c.job.filesize ∧ writesAll c.conn.answers (dataUnsent c.srv c.job) := by
  induction fuel generalizing c with
  | zero => omega
  | succ fuel ih =>
    obtain ⟨p, c₁, hstep, hconn, hsz, hfd, hsupply, hpieces⟩ := get_data_step h
    rw [hstep] at hr
    obtain ⟨r, hw⟩ : ∃ r, writer c₁.conn.answers p = r := ⟨_, rfl⟩
    have hwritten : Written c₁.conn.answers p r := hw ▸ writer_written (hconn ▸ has)
    unfold Conn.writer at hr
    rw [hw] at hr
    cases hwritten with
    | part offset hlt hcap => exact absurd hr (by simp)
    | fail offset rest hlt hsub hfail => exact absurd hr (by simp)
    | full rest hsub hshorter hcap =>
      dsimp only at hr
      by_cases hend : c₁.job.filesize ≤ c₁.job.datasz + (c₁.job.writesz + p.length)
      · -- the loop ends
        obtain ⟨fuel, rfl⟩ := Nat.exists_eq_add_one_of_ne_zero (show fuel ≠ 0 by omega)
        rw [get_data, if_pos (by simp [Ctx.sentChunk, hend])] at hr
        exact absurd hr (by simp)
      · rcases hpieces with ⟨hp, hne⟩ | ⟨hp, hnil, hrest⟩
        · have hless := hshorter hne
          rw [hconn] at hless
          have hmoves : ∀ a ∈ rest, a.Moves := fun a ha => has a (hconn ▸ hsub.subset ha)
          obtain ⟨hshort, htakes⟩ := ih (.of_sentChunk hfd (Nat.lt_of_not_le hend))
            (by exact hmoves) (by show rest.length + 2 ≤ fuel; omega) hr
          rw [loopSupply_sentChunk, hsupply] at hshort
          refine ⟨hsz ▸ hshort, ?_⟩
          rw [hp, ← hconn]
          unfold writesAll
          rw [hw]
          exact ⟨rfl, htakes⟩
        · -- the end of the file
          rw [hnil, hrest] at hsupply
          rw [hnil] at hend
          simp only [List.length_nil] at hsupply hend
          refine ⟨by omega, ?_⟩
          rw [hp]
          trivial

/-! ### A call of a handler -/

/-- The response of a GET goes on with the size if the socket takes it. -/
theorem response_next (hreq : c.job.request = .get) (hst : c.job.state = .writeResponse)
    (f : Ctx → Phase) : ∃ c', (whenState .writeResponse (fun c => checked (write_response c)) c).next f
      = if (writer c.conn.answers ((ascii "OK\n").drop c.job.writesz)).1 = .ok then
          f { c with job := { c.job with writesz := 0, state := .writeSize },
                     conn := (c.conn.writer ((ascii "OK\n").drop c.job.writesz)).2.2 }
        else .ok (some (writer c.conn.answers ((ascii "OK\n").drop c.job.writesz)).1, c') := by
  rw [whenState_pos hst]
  unfold write_response Conn.writer
  obtain ⟨ret, offset, rest⟩ := writer c.conn.answers ((ascii "OK\n").drop c.job.writesz)
  cases ret with
  | ok =>
    dsimp only
    rw [if_pos (.inr hreq)]
    exact ⟨c, rfl⟩
  | _ => exact ⟨_, rfl⟩

/-- The size of a GET goes on with the file if the socket takes it. -/
theorem size_next (hst : c.job.state = .writeSize) (f : Ctx → Phase) :
    ∃ c', (whenState .writeSize (fun c => checked (write_size c)) c).next f
      = if (writer c.conn.answers ((leBytes 8 c.job.filesize).drop c.job.writesz)).1 = .ok then
          f { c with
            job := { c.job with
              writesz := 0, state := if c.job.filesize = 0 then .done else .writeData },
            conn := (c.conn.writer ((leBytes 8 c.job.filesize).drop c.job.writesz)).2.2 }
        else .ok (some (writer c.conn.answers
          ((leBytes 8 c.job.filesize).drop c.job.writesz)).1, c') := by
  rw [whenState_pos hst]
  unfold write_size Conn.writer
  obtain ⟨ret, offset, rest⟩ := writer c.conn.answers ((leBytes 8 c.job.filesize).drop c.job.writesz)
  cases ret with
  | ok => exact ⟨c, rfl⟩
  | _ => exact ⟨_, rfl⟩

/-- The answers that are left behind a piece. -/
theorem writer_suffix (has : ∀ a ∈ as, a.Moves) (p : List UInt8) :
    (writer as p).2.2 <:+ as := by
  obtain ⟨r, hr⟩ : ∃ r, writer as p = r := ⟨_, rfl⟩
  have h : Written as p r := hr ▸ writer_written has
  rw [hr]
  cases h with
  | full rest hsub => exact hsub
  | part => exact List.nil_suffix
  | fail _ rest _ hsub => exact hsub

/-- The bytes of a directory cannot be read, so the loop ends in one way or the other. -/
theorem get_data_dir (hst : c.job.state = .writeData) (hfd : c.job.filefd = some .dir)
    (hfuel : 2 ≤ fuel) : get_data fuel c ≠ .error .fuel := by
  obtain ⟨fuel, rfl⟩ := Nat.exists_eq_add_of_le' hfuel
  have hread : ∀ {c : Ctx}, c.job.filefd = some .dir → get_read c = none := by
    intro c hfd
    rw [get_read, hfd]
  rw [get_data, if_neg (by simp [hst])]
  by_cases hw : c.job.writesz = 0
  · rw [if_pos hw, hread hfd]
    simp
  · rw [if_neg hw]
    dsimp only
    obtain ⟨ret, offset, conn⟩ := c.conn.writer
      ((c.job.buf.drop c.job.writesz).take (c.job.readsz - c.job.writesz))
    cases ret with
    | ok =>
      dsimp only
      rw [get_data]
      split
      · simp
      · rw [if_pos rfl, hread (by exact hfd)]
        simp
    | _ => simp

/-- **The loop**, entered with the file as it is now. -/
theorem get_data_fuel (fuel : ℕ) (hst : c.job.state = .writeData)
    (hfd : (∃ i pos, c.job.filefd = some (.file i pos)) ∨ c.job.filefd = some .dir)
    (hmid : Midway c.job) (has : ∀ a ∈ c.conn.answers, a.Moves) :
    (Stuck c.srv c.job c.conn.answers → c.job.request = .get → get_data fuel c = .error .fuel) ∧
    (c.conn.answers.length + 2 ≤ fuel → c.job.request = .get → get_data fuel c = .error .fuel →
      Stuck c.srv c.job c.conn.answers) := by
  have hunsent : unsent c.srv c.job = dataUnsent c.srv c.job := by
    unfold unsent
    rw [hst]
  have hsupply : supply c.srv c.job = loopSupply c := by
    unfold supply loopSupply
    simp only [hst, true_and, ne_eq]
    split_ifs <;> omega
  constructor
  · intro h _
    exact get_data_stuck ⟨hst, h.file, hmid⟩ has (hsupply ▸ h.short) (hunsent ▸ h.takes)
  · intro hfuel hreq hr
    rcases hfd with hfile | hdir
    · obtain ⟨hshort, htakes⟩ := stuck_of_get_data ⟨hst, hfile, hmid⟩ has hfuel hr
      exact ⟨hreq, .inr (.inr hst), hfile, hsupply ▸ hshort, hunsent ▸ htakes⟩
    · exact absurd hr (get_data_dir hst hdir (by omega))

/-- A reply that is not in its loop yet: the answers that take its head, and the others. -/
theorem answer_size_fuel (fuel : ℕ) (hreq : c.job.request = .get) (hst : c.job.state = .writeSize)
    (hd : c.job.datasz = 0) (hfd : Opened dirs c.job) (has : ∀ a ∈ c.conn.answers, a.Moves) :
    (Stuck c.srv c.job c.conn.answers → answer (get_data fuel) c = .error .fuel) ∧
    (c.conn.answers.length + 2 ≤ fuel → answer (get_data fuel) c = .error .fuel →
      Stuck c.srv c.job c.conn.answers) := by
  obtain ⟨c', hnext⟩ := size_next hst (get_data fuel)
  have hanswer : answer (get_data fuel) c = (whenState .writeSize
      (fun c => checked (write_size c)) c).next (get_data fuel) := by
    unfold answer
    rw [whenState_neg (by simp [hst]), Phase.next_none]
  rw [hanswer, hnext]
  have hsuffix := writer_suffix has ((leBytes 8 c.job.filesize).drop c.job.writesz)
  have hunsent : unsent c.srv c.job = (leBytes 8 c.job.filesize).drop c.job.writesz ::
      chunks 1023 (fileRest c.srv c.job) := by
    unfold unsent
    rw [hst]
  have hsupply : supply c.srv c.job = (fileRest c.srv c.job).length := by
    unfold supply
    rw [hd, if_neg (by simp [hst])]
    omega
  -- the head of the loop, if there is a loop
  obtain ⟨c₁, hc₁⟩ : ∃ c₁ : Ctx, c₁ = { c with
      job := { c.job with
        writesz := 0, state := if c.job.filesize = 0 then .done else .writeData },
      conn := (c.conn.writer ((leBytes 8 c.job.filesize).drop c.job.writesz)).2.2 } := ⟨_, rfl⟩
  have hans : c₁.conn.answers
      = (writer c.conn.answers ((leBytes 8 c.job.filesize).drop c.job.writesz)).2.2 := by
    rw [hc₁]
    rfl
  have has₁ : ∀ a ∈ c₁.conn.answers, a.Moves := by
    rw [hans]
    exact fun a ha => has a (hsuffix.subset ha)
  rw [← hc₁]
  by_cases hret : (writer c.conn.answers ((leBytes 8 c.job.filesize).drop c.job.writesz)).1 = .ok
  · rw [if_pos hret]
    by_cases hzero : c.job.filesize = 0
    · -- nothing is asked for
      have hst₁ : c₁.job.state = .done := by
        rw [hc₁]
        exact if_pos hzero
      refine ⟨fun h => absurd h.short (by omega), fun hfuel hr => ?_⟩
      obtain ⟨fuel, rfl⟩ := Nat.exists_eq_add_one_of_ne_zero (show fuel ≠ 0 by omega)
      rw [get_data, if_pos (by simp [hst₁])] at hr
      exact absurd hr (by simp)
    · have hst₁ : c₁.job.state = .writeData := by
        rw [hc₁]
        exact if_neg hzero
      have hreq₁ : c₁.job.request = .get := by rw [hc₁]; exact hreq
      have hfd₁ : c₁.job.filefd = c.job.filefd := by rw [hc₁]
      have hrest₁ : fileRest c₁.srv c₁.job = fileRest c.srv c.job := by rw [hc₁]; rfl
      have hw₁ : c₁.job.writesz = 0 := by rw [hc₁]
      have hunsent₁ : unsent c₁.srv c₁.job = chunks 1023 (fileRest c.srv c.job) := by
        unfold unsent dataUnsent
        rw [hst₁]
        dsimp only
        rw [if_pos hw₁, hrest₁]
      have hsupply₁ : supply c₁.srv c₁.job = (fileRest c.srv c.job).length := by
        unfold supply
        rw [if_neg (by simp [hw₁]), hrest₁, hc₁]
        show c.job.datasz + 0 + _ = _
        omega
      have hsz₁ : c₁.job.filesize = c.job.filesize := by rw [hc₁]
      have hcases : (∃ i pos, c₁.job.filefd = some (.file i pos)) ∨ c₁.job.filefd = some .dir := by
        rw [hfd₁]
        exact hfd.imp_right And.left
      obtain ⟨hstuck, hback⟩ := get_data_fuel fuel hst₁ hcases (.inl hw₁) has₁
      constructor
      · intro h
        refine hstuck ⟨hreq₁, .inr (.inr hst₁), by rw [hfd₁]; exact h.file, ?_, ?_⟩ hreq₁
        · rw [hsupply₁, hsz₁, ← hsupply]
          exact h.short
        · have htakes := h.takes
          rw [hunsent] at htakes
          rw [hunsent₁, hans]
          exact htakes.2
      · intro hfuel hr
        have hlen : c₁.conn.answers.length + 2 ≤ fuel := by
          rw [hans]
          exact (Nat.add_le_add_right hsuffix.length_le 2).trans hfuel
        have h := hback hlen hreq₁ hr
        refine ⟨hreq, .inr (.inl hst), hfd₁ ▸ h.file, ?_, ?_⟩
        · rw [hsupply, ← hsupply₁, ← hsz₁]
          exact h.short
        · have htakes := h.takes
          rw [hunsent₁, hans] at htakes
          rw [hunsent]
          exact ⟨hret, htakes⟩
  · rw [if_neg hret]
    refine ⟨fun h => ?_, fun _ hr => absurd hr (by simp)⟩
    have htakes := h.takes
    rw [hunsent] at htakes
    exact absurd htakes.1 hret

/-- The same from the response on. -/
theorem answer_response_fuel (fuel : ℕ) (hreq : c.job.request = .get) (hst : c.job.state = .writeResponse)
    (hd : c.job.datasz = 0) (hfd : Opened dirs c.job) (has : ∀ a ∈ c.conn.answers, a.Moves) :
    (Stuck c.srv c.job c.conn.answers → answer (get_data fuel) c = .error .fuel) ∧
    (c.conn.answers.length + 2 ≤ fuel → answer (get_data fuel) c = .error .fuel →
      Stuck c.srv c.job c.conn.answers) := by
  obtain ⟨c₁, hc₁⟩ : ∃ c₁ : Ctx, c₁ = { c with
      job := { c.job with writesz := 0, state := .writeSize },
      conn := (c.conn.writer ((ascii "OK\n").drop c.job.writesz)).2.2 } := ⟨_, rfl⟩
  have hst₁ : c₁.job.state = .writeSize := by rw [hc₁]
  obtain ⟨c', hnext⟩ := response_next hreq hst (fun c =>
    (whenState .writeSize (fun c => checked (write_size c)) c).next (get_data fuel))
  -- the response is written, and what follows is a run from `c₁`
  have hanswer : answer (get_data fuel) c =
      if (writer c.conn.answers ((ascii "OK\n").drop c.job.writesz)).1 = .ok then
        answer (get_data fuel) c₁
      else .ok (some (writer c.conn.answers ((ascii "OK\n").drop c.job.writesz)).1, c') := by
    have hanswer₁ : answer (get_data fuel) c₁ = (whenState .writeSize
        (fun c => checked (write_size c)) c₁).next (get_data fuel) := by
      unfold answer
      rw [whenState_neg (by simp [hst₁]), Phase.next_none]
    rw [hanswer₁, hc₁]
    exact hnext
  have hsuffix := writer_suffix has ((ascii "OK\n").drop c.job.writesz)
  have hans : c₁.conn.answers = (writer c.conn.answers ((ascii "OK\n").drop c.job.writesz)).2.2 := by
    rw [hc₁]
    rfl
  have has₁ : ∀ a ∈ c₁.conn.answers, a.Moves := by
    rw [hans]
    exact fun a ha => has a (hsuffix.subset ha)
  have hreq₁ : c₁.job.request = .get := by rw [hc₁]; exact hreq
  have hfd₁ : c₁.job.filefd = c.job.filefd := by rw [hc₁]
  have hunsent : unsent c.srv c.job = (ascii "OK\n").drop c.job.writesz :: unsent c₁.srv c₁.job := by
    unfold unsent
    rw [hst, hst₁, hc₁]
    rfl
  have hsupply : supply c₁.srv c₁.job = supply c.srv c.job := by
    unfold supply
    rw [if_neg (by simp [hst₁]), if_neg (by simp [hst]), hc₁]
    rfl
  have hsz₁ : c₁.job.filesize = c.job.filesize := by rw [hc₁]
  rw [hanswer]
  by_cases hret : (writer c.conn.answers ((ascii "OK\n").drop c.job.writesz)).1 = .ok
  · rw [if_pos hret]
    have hopened : Opened dirs c₁.job := by
      unfold Opened at hfd ⊢
      rw [hfd₁, hsz₁]
      exact hfd
    obtain ⟨hstuck, hback⟩ := answer_size_fuel fuel hreq₁ hst₁ (by rw [hc₁]; exact hd) hopened has₁
    constructor
    · intro h
      have htakes := h.takes
      rw [hunsent] at htakes
      refine hstuck ⟨hreq₁, .inr (.inl hst₁), by rw [hfd₁]; exact h.file, ?_, ?_⟩
      · rw [hsupply, hsz₁]
        exact h.short
      · rw [hans]
        exact htakes.2
    · -- the step leaves no more answers than there were
      intro hfuel hr
      have hlen : c₁.conn.answers.length + 2 ≤ fuel := by
        rw [hans]
        exact (Nat.add_le_add_right hsuffix.length_le 2).trans hfuel
      have h := hback hlen hr
      refine ⟨hreq, .inl hst, hfd₁ ▸ h.file, ?_, ?_⟩
      · rw [← hsupply, ← hsz₁]
        exact h.short
      · rw [hunsent]
        exact ⟨hret, hans ▸ h.takes⟩
  · rw [if_neg hret]
    refine ⟨fun h => ?_, fun _ hr => absurd hr (by simp)⟩
    have htakes := h.takes
    rw [hunsent] at htakes
    exact absurd htakes.1 hret

/-- What the event loop makes of a handler that does not return. -/
theorem served_fuel_iff {q : Phase} : served (q.next (fun c => .ok (some .ok, c.close))).result
    = .error .fuel ↔ q = .error .fuel := by
  rcases q with e | ⟨_ | ret, c⟩
  · simp [Phase.result, served]
  · simp only [Phase.next_none, Phase.result, Option.getD_some, served]
    split <;> simp
  · simp only [Phase.next_some, Phase.result, Option.getD_some]
    cases ret with
    | again => simp [served]
    | _ =>
      simp only [served]
      split <;> simp

/-- **A call of `handle_get`** does not return exactly if its job is stuck. -/
theorem serve_get_fuel (h : Live mixed dirs stream c.job c.conn) (hreq : c.job.request = .get)
    (hhead : c.job.state ≠ .readHeader) (hopen : c.conn.closed = false)
    (has : ∀ a ∈ c.conn.answers, a.Moves) :
    (Stuck c.srv c.job c.conn.answers → serve msgs fuel t c = .error .fuel) ∧
    (c.conn.answers.length + 2 ≤ fuel → serve msgs fuel t c = .error .fuel →
      Stuck c.srv c.job c.conn.answers) := by
  by_cases herr : c.job.state = .error
  · rw [serve_error herr]
    refine ⟨fun h => ?_, fun _ hr => absurd hr (by simp)⟩
    rcases h.state with h | h | h <;> exact absurd (herr.symm.trans h) (by decide)
  have hserve : serve msgs fuel t c = served (((whenState .serving (get_serving msgs) c).next
      (answer (get_data fuel))).next (fun c => .ok (some .ok, c.close))).result := by
    rw [serve_eq]
    unfold handle
    rw [hreq]
    dsimp only
    unfold handle_get
    rw [if_neg herr, ← next_answer]
  rw [hserve, served_fuel_iff]
  cases h with
  | heading h => exact absurd h.state hhead
  | receiving name hput => exact absurd (hreq.symm.trans hput) (by decide)
  | serving _ hst hw hd hout _ =>
    rw [whenState_pos hst]
    refine ⟨fun h => ?_, fun hfuel hr => ?_⟩
    · rcases h.state with h | h | h <;> exact absurd (hst.symm.trans h) (by decide)
    · unfold get_serving openfile at hr
      rcases hfd : c.srv.disk.openRead (c.job.filename.getD []) with _ | fd
      · rw [hfd] at hr
        exact absurd hr (by simp)
      · -- the size is that of the file as it is now
        rw [hfd] at hr
        dsimp only at hr
        rw [Phase.next_none] at hr
        obtain ⟨c₁, hc₁⟩ : ∃ c₁ : Ctx, c₁ = { c with job := { c.job with
            filefd := some fd, filesize := c.srv.disk.size fd, state := .writeResponse } } :=
          ⟨_, rfl⟩
        rw [← hc₁] at hr
        have hlen : c₁.conn.answers.length + 2 ≤ fuel := by rw [hc₁]; exact hfuel
        have hopened : Opened True c₁.job := by
          rw [hc₁]
          cases fd with
          | file i pos => exact .inl ⟨i, pos, rfl⟩
          | dir => exact .inr ⟨rfl, .inr trivial⟩
        have hstuck := (answer_response_fuel fuel (by rw [hc₁]; exact hreq) (by rw [hc₁])
          (by rw [hc₁]; exact hd) hopened (by rw [hc₁]; exact has)).2 hlen hr
        obtain ⟨i, pos, hfile⟩ := hstuck.file
        have hshort := hstuck.short
        have hfd' : fd = .file i pos := by
          rw [hc₁] at hfile
          exact Option.some.inj hfile
        have hpos : pos = 0 := by
          unfold Disk.openRead at hfd
          split at hfd
          · rw [hfd'] at hfd
            exact (Handle.file.inj (Option.some.inj hfd)).2.symm
          · rw [hfd'] at hfd
            exact absurd hfd (by simp)
          · exact absurd hfd (by simp)
        subst hfd' hpos
        rw [hc₁] at hshort
        simp [supply, fileRest, Disk.size] at hshort
  | response _ hst hw hd hfd hout _ =>
    rw [whenState_neg (by simp [hst]), Phase.next_none]
    exact answer_response_fuel fuel hreq hst (hd (.inr hreq)) (hfd hreq) has
  | size _ hst hw hd hfd hout _ =>
    rw [whenState_neg (by simp [hst]), Phase.next_none]
    exact answer_size_fuel fuel hreq hst hd (hfd hreq) has
  | list hlist => exact absurd (hreq.symm.trans hlist) (by decide)
  | get _ hst hsz hfd hmid hout _ =>
    rw [whenState_neg (by simp [hst]), Phase.next_none, answer_of_data hst]
    obtain ⟨h1, h2⟩ := get_data_fuel fuel hst (hfd.imp_right And.left) hmid has
    exact ⟨fun h => h1 h hreq, fun hf hr => h2 hf hreq hr⟩
  | failed hst => exact absurd hst herr
  | done _ hclosed => exact absurd (hopen.symm.trans hclosed) (by decide)

/-- **A call of a handler** does not return exactly if its job is stuck. -/
theorem serve_fuel_iff (h : Live True True stream c.job c.conn) (hhead : c.job.state ≠ .readHeader)
    (hopen : c.conn.closed = false) (has : ∀ a ∈ c.conn.answers, a.Moves)
    (hfuel : c.conn.answers.length + 2 ≤ fuel) :
    serve msgs fuel t c = .error .fuel ↔ Stuck c.srv c.job c.conn.answers := by
  by_cases hreq : c.job.request = .get
  · obtain ⟨h1, h2⟩ := serve_get_fuel h hreq hhead hopen has
    exact ⟨h2 hfuel, h1⟩
  · refine ⟨fun hr => ?_, fun h => absurd h.request hreq⟩
    have hends : Ends True True stream c (serve msgs fuel t c) :=
      serve_live h hhead hopen has hfuel (fun _ _ => trivial) (fun _ _ _ => .inr trivial)
    rw [hr] at hends
    cases hends with
    | fuel hget => exact absurd hget hreq

/-! ### Turns -/

/-- A header leaves nothing that has begun its reply. -/
theorem read_header_state (h : Heading stream c.job c.conn.inp)
    (has : ∀ a ∈ c.conn.answers, a.Moves) (as : List Answer) :
    ¬ Stuck c.srv (read_header msgs t c).2.job as := by
  obtain ⟨r, hr⟩ : ∃ r, read_header msgs t c = r := ⟨_, rfl⟩
  have hspec : HeaderTurn msgs stream c r := hr ▸ read_header_spec msgs t h has
  intro hstuck
  have hst := hstuck.state
  rw [hr] at hst
  cases hspec with
  | again c' hro hhead' => simp [hhead'.state] at hst
  | bad ret c' hret hro hst' => simp [hst'] at hst
  | ok c' p hro hjob =>
    rw [hjob] at hst
    dsimp only at hst
    split at hst <;> simp at hst

/-- **A turn** does not return exactly if its job is stuck when it begins. -/
theorem event_fuel_iff (h : Live True True stream c.job c.conn) (hopen : c.conn.closed = false)
    (has : ∀ a ∈ t.answers, a.Moves) (hfuel : t.answers.length + 2 ≤ fuel) :
    event msgs fuel t c = .error .fuel ↔ Stuck c.srv c.job t.answers := by
  have hheaded := headed_live msgs h hopen has
  have hcalled : (headed msgs t c).1 ≠ .again → (serve msgs fuel t (headed msgs t c).2 = .error .fuel ↔
      Stuck (headed msgs t c).2.srv (headed msgs t c).2.job (headed msgs t c).2.conn.answers) := by
    intro hne
    exact serve_fuel_iff hheaded.live (hheaded.called hne) hheaded.opened
      (fun a ha => has a (hheaded.answers.subset ha))
      ((Nat.add_le_add_right hheaded.answers.length_le 2).trans hfuel)
  rw [event_eq]
  by_cases hst : c.job.state = .readHeader
  · -- a job is not stuck before its header, nor right behind it
    have hnot : ¬ Stuck c.srv c.job t.answers := by
      intro hstuck
      have h := hstuck.state
      simp [hst] at h
    refine iff_of_false ?_ hnot
    split
    · simp
    · rename_i hne
      rw [hcalled hne]
      cases h with
      | heading hhead _ _ =>
        have heq : (headed msgs t c).2 = (read_header msgs t (c.begin t)).2 := by
          unfold headed
          rw [if_pos hst]
        rw [hheaded.srv, heq]
        exact read_header_state (c := c.begin t) hhead has _
      | receiving _ _ _ _ hrec => rcases hrec.state_cases with (h | h) | h <;> simp [h] at hst
      | serving _ h => simp [h] at hst
      | response _ h => simp [h] at hst
      | size _ h => simp [h] at hst
      | list _ h => simp [h] at hst
      | get _ h => simp [h] at hst
      | failed h => simp [h] at hst
      | done h => simp [h] at hst
  · have heq : headed msgs t c = (.ok, c.begin t) := if_neg hst
    rw [heq] at hcalled ⊢
    rw [if_neg (by simp)]
    exact hcalled (by simp)

/-- A job that is stuck does not return, however long it goes on. -/
theorem event_of_stuck (h : Live True True stream c.job c.conn) (hopen : c.conn.closed = false)
    (has : ∀ a ∈ t.answers, a.Moves) (hstuck : Stuck c.srv c.job t.answers) :
    event msgs fuel t c = .error .fuel := by
  have hst : c.job.state ≠ .readHeader := by
    rcases hstuck.state with h | h | h <;> simp [h]
  have hheaded := headed_live msgs h hopen has
  have heq : headed msgs t c = (.ok, c.begin t) := if_neg hst
  rw [heq] at hheaded
  rw [event_of_read hst]
  exact (serve_get_fuel hheaded.live hstuck.request hst hopen has).1 hstuck

/-! ### Runs -/

/-- The turns of one job: what it meets is any server, with any files, and any answers that a
    kernel may give. -/
def jobs (msgs : Messages) : Lts (Job × Conn) (Server × Turn × ℕ) where
  init s := ∃ stream, s = (init_job, .fresh stream)
  step s e :=
    if s.2.closed = true then none
    else
      match event msgs e.2.2 e.2.1 ⟨e.1, s.1, s.2⟩ with
      | .ok c => some (c.job, c.conn)
      | .error _ => none

/-- The answers of a kernel, and enough fuel for them. -/
def Fair (_ : Job × Conn) (e : Server × Turn × ℕ) : Prop :=
  (∀ a ∈ e.2.1.answers, a.Moves) ∧ e.2.1.answers.length + 2 ≤ e.2.2

/-- One turn keeps a job where a job can be. -/
theorem event_live {c' : Ctx} (h : Live True True stream c.job c.conn) (hopen : c.conn.closed = false)
    (has : ∀ a ∈ t.answers, a.Moves) (hfuel : t.answers.length + 2 ≤ fuel)
    (he : event msgs fuel t c = .ok c') : Live True True stream c'.job c'.conn := by
  have hheaded := headed_live msgs h hopen has
  rw [event_eq] at he
  split at he
  · obtain rfl := Except.ok.inj he
    exact hheaded.live
  · rename_i hne
    have hends : Ends True True stream (headed msgs t c).2 (serve msgs fuel t (headed msgs t c).2) :=
      serve_live hheaded.live (hheaded.called hne) hheaded.opened
        (fun a ha => has a (hheaded.answers.subset ha))
        ((Nat.add_le_add_right hheaded.answers.length_le 2).trans hfuel) (fun _ _ => trivial)
        (fun _ _ _ => .inr trivial)
    rw [he] at hends
    cases hends with
    | ok _ hlive => exact hlive

theorem live_of_reach {s : Job × Conn} (hr : (jobs msgs).Reach Fair s) :
    ∃ stream, Live True True stream s.1 s.2 := by
  refine hr.invariant (I := fun s => ∃ stream, Live True True stream s.1 s.2) ?_ ?_
  · rintro s ⟨stream, rfl⟩
    exact ⟨stream, .init stream⟩
  · rintro s ⟨srv, t, fuel⟩ s' ⟨stream, h⟩ ⟨has, hfuel⟩ hs
    unfold jobs at hs
    dsimp only at hs
    split at hs
    · exact absurd hs (by simp)
    · rename_i hopen
      split at hs
      · rename_i c' he
        obtain rfl := Option.some.inj hs
        exact ⟨stream, event_live (c := ⟨srv, s.1, s.2⟩) h (by simpa using hopen) has hfuel he⟩
      · exact absurd hs (by simp)

/-- A socket that takes or gives one byte at a time. -/
theorem moves_bytewise (k : ℕ) : ∀ a ∈ (bytewise k).answers, a.Moves := by
  intro a ha
  obtain rfl := List.eq_of_mem_replicate ha
  simp [Answer.Moves]

/-- A GET of a file of two bytes that was interrupted behind one byte of its response. -/
def suspended : Job × Conn :=
  ({ Job.serve .get (ascii "a") with
      filefd := some (.file 0 0), filesize := 2, state := .writeResponse, writesz := 1 },
    { inp := [], out := ascii "O", answers := [], closed := false })

theorem reach_suspended : (jobs ⟨[], [], []⟩).Reach Fair suspended := by
  refine .step (e := (oneFile (ascii "a") [7, 8], bytewise 7, 9))
    (.init ⟨ascii "GET a\n", rfl⟩) ⟨moves_bytewise 7, by decide⟩ ?_
  rfl

end SystemProgramming.Networking
