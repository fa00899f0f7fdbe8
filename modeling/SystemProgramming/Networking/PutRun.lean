import SystemProgramming.Networking.Put

namespace SystemProgramming.Networking

open SystemProgramming.Lib

/-!
# `nonstop_networking/server.c` — a PUT from its header to its reply

The turns of a PUT whose stream is complete, on a socket without errors and with nobody else
at its file.  Every turn that does not finish it lowers what it still needs: the bytes to be
read, the end of the stream, and the bytes to be written.

* `Putting` — where a PUT stands, and what it still needs.
* `event_putting` — a turn.
* `run_putting` — with enough answers the PUT is answered.
-/

variable {msgs : Messages} {stream out : List UInt8} {name : Name} {c : Ctx} {fuel need : ℕ}
  {t : Turn}

instance (filesize : ℕ) (body : List UInt8) : Decidable (Accepts filesize body) :=
  inferInstanceAs (Decidable (_ ∨ _))

/-- What a PUT is answered. -/
def putReply (msgs : Messages) (stream : List UInt8) : List UInt8 :=
  if Accepts (announced stream) (body stream) then ascii "OK\n"
  else ascii "ERROR\n" ++ msgs.err_bad_file_size

/-- The file is stored and listed once, or it is gone. -/
def Settled (stream : List UInt8) (name : Name) (srv : Server) : Prop :=
  if Accepts (announced stream) (body stream) then
    srv.disk.content name = some ((body stream).take (announced stream)) ∧
      srv.file_list.count name = 1
  else srv.disk.content name = none

/-- Between two turns nobody lists the name or takes it off the list. -/
def Turn.KeepsListed (t : Turn) (name : Name) : Prop :=
  ∀ srv : Server, (t.others srv).file_list.count name = srv.file_list.count name

/-- The turns of a PUT with nobody else at its file. -/
structure Alone (name : Name) (turns : List Turn) : Prop where
  quiet : Quiet name turns
  listed : ∀ t ∈ turns, t.KeepsListed name

/-- Where a PUT stands, and what it still needs; `out` was written before. -/
inductive Putting (msgs : Messages) (stream : List UInt8) (name : Name) (out : List UInt8)
    (c : Ctx) : ℕ → Prop
  | heading (hhead : Heading stream c.job c.conn.inp) (h10 : 10 ∈ c.conn.inp)
      (hw : c.srv.disk.Writable name) (hl : c.srv.file_list.count name ≤ 1)
      (hout : c.conn.out = out) (hopen : c.conn.closed = false) :
      Putting msgs stream name out c (c.conn.inp.length + 1 + (putReply msgs stream).length)
  | receiving (hreq : c.job.request = .put) (hfile : c.job.filename = some name)
      (hz : c.job.writesz = 0) (hrec : Receiving stream c.job c.conn.inp)
      (hstored : Stored stream name c)
      (hw : c.job.state ≠ .readData → c.srv.disk.Writable name)
      (hl : c.srv.file_list.count name ≤ 1) (hout : c.conn.out = out)
      (hopen : c.conn.closed = false) :
      Putting msgs stream name out c (c.conn.inp.length + 1 + (putReply msgs stream).length)
  | accepted (hyes : Accepts (announced stream) (body stream)) (hreq : c.job.request = .put)
      (hfile : c.job.filename = some name) (hst : c.job.state = .writeResponse)
      (hset : Settled stream name c.srv) (hz : c.job.writesz < 3)
      (hout : c.conn.out ++ (ascii "OK\n").drop c.job.writesz = out ++ ascii "OK\n")
      (hopen : c.conn.closed = false) : Putting msgs stream name out c (3 - c.job.writesz)
  | refused (hnot : ¬ Accepts (announced stream) (body stream)) (hst : c.job.state = .error)
      (herr : c.job.errmsg = msgs.err_bad_file_size) (hset : Settled stream name c.srv)
      (hz : c.job.writesz < (putReply msgs stream).length)
      (hout : c.conn.out ++ (putReply msgs stream).drop c.job.writesz
        = out ++ putReply msgs stream)
      (hopen : c.conn.closed = false) :
      Putting msgs stream name out c ((putReply msgs stream).length - c.job.writesz)

/-- The PUT was answered. -/
structure Answered (msgs : Messages) (stream : List UInt8) (name : Name) (out : List UInt8)
    (c : Ctx) : Prop where
  closed : c.conn.closed = true
  state : c.job.state = .done
  out : c.conn.out = out ++ putReply msgs stream
  settled : Settled stream name c.srv
  errmsg : ¬ Accepts (announced stream) (body stream) → c.job.errmsg = msgs.err_bad_file_size

/-- The result of a turn: the PUT is answered, or it needs less. -/
def Proceeds (msgs : Messages) (stream : List UInt8) (name : Name) (out : List UInt8)
    (need cap : ℕ) (c' : Ctx) : Prop :=
  Answered msgs stream name out c' ∨
    ∃ need', Putting msgs stream name out c' need' ∧ need' + cap ≤ need

theorem Putting.need_pos (h : Putting msgs stream name out c need) : 0 < need := by
  cases h <;> omega

theorem Putting.opened (h : Putting msgs stream name out c need) : c.conn.closed = false := by
  cases h <;> assumption

/-! ### The reply -/

theorem steady_moves {as : List Answer} (has : ∀ a ∈ as, a.Steady) : ∀ a ∈ as, a.Moves :=
  fun a ha => (has a ha).moves

theorem steady_noFail {as : List Answer} (has : ∀ a ∈ as, a.Steady) : .fail ∉ as :=
  fun h => has .fail h

/-- The end of a refused PUT. -/
theorem serve_refused (hnot : ¬ Accepts (announced stream) (body stream))
    (hst : c.job.state = .error) (herr : c.job.errmsg = msgs.err_bad_file_size)
    (hset : Settled stream name c.srv) (hz : c.job.writesz < (putReply msgs stream).length)
    (hout : c.conn.out ++ (putReply msgs stream).drop c.job.writesz = out ++ putReply msgs stream)
    (hopen : c.conn.closed = false) (has : ∀ a ∈ c.conn.answers, a.Steady) :
    Proceeds msgs stream name out ((putReply msgs stream).length - c.job.writesz)
      (capacity c.conn.answers) (write_err c).2 := by
  have hreply : putReply msgs stream = ascii "ERROR\n" ++ c.job.errmsg := by
    rw [putReply, if_neg hnot, herr]
  have hspec := write_err_spec (steady_moves has) (hreply ▸ hz)
  rw [← hreply] at hspec
  obtain ⟨r, hr⟩ : ∃ r, write_err c = r := ⟨_, rfl⟩
  rw [hr] at hspec ⊢
  cases hspec with
  | done as hsub => exact .inl ⟨rfl, rfl, hout, hset, fun _ => herr⟩
  | waits ret w out' as hret hsub hle hlt hout' hcap =>
    obtain ⟨rfl, -⟩ := hret.resolve_right (fun h => steady_noFail has h.2)
    have hpaid := hcap rfl
    refine .inr ⟨_, .refused hnot hst herr hset hlt (hout'.trans hout) hopen, ?_⟩
    dsimp only
    omega

/-- The end of an accepted PUT. -/
theorem write_response_accepted (hyes : Accepts (announced stream) (body stream))
    (hreq : c.job.request = .put) (hfile : c.job.filename = some name)
    (hst : c.job.state = .writeResponse) (hset : Settled stream name c.srv)
    (hz : c.job.writesz < 3)
    (hout : c.conn.out ++ (ascii "OK\n").drop c.job.writesz = out ++ ascii "OK\n")
    (hopen : c.conn.closed = false) (has : ∀ a ∈ c.conn.answers, a.Steady) :
    Proceeds msgs stream name out (3 - c.job.writesz) (capacity c.conn.answers)
      (write_response c).2 := by
  have hreply : putReply msgs stream = ascii "OK\n" := if_pos hyes
  have hspec := write_response_spec (by simp [hreq]) (steady_moves has) hz
  obtain ⟨r, hr⟩ : ∃ r, write_response c = r := ⟨_, rfl⟩
  rw [hr] at hspec ⊢
  cases hspec with
  | done as hsub => exact .inl ⟨rfl, rfl, hreply ▸ hout, hset, fun h => absurd hyes h⟩
  | waits ret w out' as hret hsub hle hlt hout' hcap =>
    obtain ⟨rfl, -⟩ := hret.resolve_right (fun h => steady_noFail has h.2)
    have hpaid := hcap rfl
    have hlt' : w < 3 := hlt
    refine .inr ⟨_, .accepted hyes hreq hfile hst hset hlt' (hout'.trans hout) hopen, ?_⟩
    dsimp only
    omega

/-! ### The handler -/

theorem handle_put (h : c.job.request = .put) : handle msgs fuel t c = put msgs fuel c := by
  unfold handle
  rw [h]

/-- The list once the file is complete. -/
theorem count_listed {l : List Name} (h : l.count name ≤ 1) :
    (if name ∈ l then l else l ++ [name]).count name = 1 := by
  split
  · rename_i hmem
    exact Nat.le_antisymm h (List.count_pos_iff.mpr hmem)
  · rename_i hmem
    rw [List.count_append, List.count_eq_zero_of_not_mem hmem, List.count_singleton_self]

/-- A response does not fail the request. -/
theorem write_response_ne_error (hreq : c.job.request = .put) (hst : c.job.state = .writeResponse)
    (hz : c.job.writesz < 3) (has : ∀ a ∈ c.conn.answers, a.Moves) :
    (write_response c).2.job.state ≠ .error := by
  have hspec := write_response_spec (by simp [hreq]) has hz
  obtain ⟨r, hr⟩ : ∃ r, write_response c = r := ⟨_, rfl⟩
  rw [hr] at hspec ⊢
  cases hspec with
  | done => simp
  | waits => simp [hst]

/-- **The handler, on a PUT that is being answered.** -/
theorem serve_accepted (hyes : Accepts (announced stream) (body stream))
    (hreq : c.job.request = .put) (hfile : c.job.filename = some name)
    (hst : c.job.state = .writeResponse) (hset : Settled stream name c.srv)
    (hz : c.job.writesz < 3)
    (hout : c.conn.out ++ (ascii "OK\n").drop c.job.writesz = out ++ ascii "OK\n")
    (hopen : c.conn.closed = false) (has : ∀ a ∈ c.conn.answers, a.Steady) (hfuel : 0 < fuel) :
    ∃ c', serve msgs fuel t c = .ok c' ∧ Proceeds msgs stream name out (3 - c.job.writesz)
      (capacity c.conn.answers) c' := by
  obtain ⟨fuel, rfl⟩ := Nat.exists_eq_add_one_of_ne_zero hfuel.ne'
  have hup : upload msgs (fuel + 1) c = .ok (none, c) := by
    unfold upload
    rw [whenState_neg (by simp [hst]), Phase.next_none, whenState_neg (by simp [hst]),
      Phase.next_none, put_data, if_pos (by simp [hst])]
  have hset' := hset
  rw [Settled, if_pos hyes] at hset'
  have hmem : name ∈ c.srv.file_list := List.count_pos_iff.mp (by omega)
  -- the list and the state stay as they are
  have hdone : put_done c = .ok (some .ok, (write_response c).2) := by
    have hc : { c with srv := { c.srv with file_list := c.srv.file_list },
                       job := { c.job with state := .writeResponse } } = c := by
      rw [← hst]
    unfold put_done
    rw [hfile, Option.getD_some]
    dsimp only
    rw [if_pos hmem, hc]
  have hserve : serve msgs (fuel + 1) t c = .ok (write_response c).2 := by
    unfold serve
    rw [handle_put hreq, put_eq (by simp [hst]), hup, Phase.next_none, hdone]
    exact if_neg (write_response_ne_error hreq hst hz (steady_moves has))
  exact ⟨_, hserve, write_response_accepted hyes hreq hfile hst hset hz hout hopen has⟩

/-- **The handler, on a PUT that is still reading.** -/
theorem serve_receiving (h8 : 8 ≤ (afterHeader stream).length) (hreq : c.job.request = .put)
    (hfile : c.job.filename = some name) (hz : c.job.writesz = 0)
    (hrec : Receiving stream c.job c.conn.inp) (hstored : Stored stream name c)
    (hw : c.job.state ≠ .readData → c.srv.disk.Writable name)
    (hl : c.srv.file_list.count name ≤ 1) (hout : c.conn.out = out)
    (hopen : c.conn.closed = false) (has : ∀ a ∈ c.conn.answers, a.Steady)
    (hfuel : c.conn.answers.length < fuel) :
    ∃ c', serve msgs fuel t c = .ok c' ∧ Proceeds msgs stream name out
      (c.conn.inp.length + 1 + (putReply msgs stream).length) (capacity c.conn.answers) c' := by
  have hne : c.job.state ≠ .error := by
    cases hrec with
    | size _ hst => simp [hst]
    | first hst => simp [hst]
    | data hst => simp [hst]
  have hspec : Uploaded msgs stream name c (upload msgs fuel c) :=
    upload_spec hrec hfile (steady_moves has) hfuel
  obtain ⟨p, hp⟩ : ∃ p, upload msgs fuel c = p := ⟨_, rfl⟩
  unfold serve
  rw [handle_put hreq, put_eq hne, hp]
  rw [hp] at hspec
  -- what is left after the reply has begun
  have hproceeds : ∀ {c₁ c' : Ctx}, Paid c c₁ 1 →
      Proceeds msgs stream name out (putReply msgs stream).length (capacity c₁.conn.answers) c' →
      Proceeds msgs stream name out (c.conn.inp.length + 1 + (putReply msgs stream).length)
        (capacity c.conn.answers) c' := by
    intro c₁ c' hpaid h
    unfold Paid at hpaid
    refine h.imp_right (fun ⟨need', hput, hle⟩ => ⟨need', hput, ?_⟩)
    omega
  cases hspec with
  | exits hst hno => exact absurd (hw hst) hno
  | waits ret c' hstops hup hrec' hst' hsrv hpaid =>
    obtain ⟨rfl, hdry⟩ := hstops.resolve_right (fun h => steady_noFail has h.2)
    refine ⟨c', rfl, .inr ⟨_, .receiving (hup.request.trans hreq) (hup.filename.trans hfile)
      (hup.writesz.trans hz) hrec' (hst' hstored) ?_ (hup.list ▸ hl) (hup.out.trans hout)
      (hup.closed.trans hopen), ?_⟩⟩
    · intro hst
      obtain ⟨h1, h2⟩ := hsrv hst
      exact h1 ▸ hw h2
    · have hleft := hpaid rfl h8
      unfold Paid at hleft
      rw [hdry, capacity_nil] at hleft
      omega
  | bad c' hup hst herr hnot hgone hpaid =>
    -- the error is written in the same turn
    have has' : ∀ a ∈ c'.conn.answers, a.Steady := fun a ha => has a (hup.answers.subset ha)
    have hset : Settled stream name c'.srv := by rw [Settled, if_neg hnot]; exact hgone
    have hz' : c'.job.writesz = 0 := hup.writesz.trans hz
    have hpos : 0 < (putReply msgs stream).length := by
      rw [putReply, if_neg hnot, List.length_append]
      exact Nat.lt_of_lt_of_le (by decide : 0 < (ascii "ERROR\n").length) (Nat.le_add_right _ _)
    have hout' : c'.conn.out ++ (putReply msgs stream).drop c'.job.writesz
        = out ++ putReply msgs stream := by rw [hz', List.drop_zero, hup.out, hout]
    have h := serve_refused hnot hst herr hset (hz' ▸ hpos) hout' (hup.closed.trans hopen) has'
    rw [hz', Nat.sub_zero] at h
    refine ⟨(write_err c').2, ?_, hproceeds (hpaid h8) h⟩
    rw [Phase.next_some]
    exact if_pos hst
  | good c' hup hst hyes hsz hcontent hpaid =>
    -- the file is listed, and the reply is begun
    have has' : ∀ a ∈ c'.conn.answers, a.Steady := fun a ha => has a (hup.answers.subset ha)
    have hz' : c'.job.writesz = 0 := hup.writesz.trans hz
    have hreply : (putReply msgs stream).length = 3 := by
      rw [putReply, if_pos hyes]
      decide
    obtain ⟨c₁, hc₁⟩ : ∃ c₁ : Ctx, c₁ = { c' with
        srv := { c'.srv with file_list :=
          if name ∈ c'.srv.file_list then c'.srv.file_list else c'.srv.file_list ++ [name] },
        job := { c'.job with state := .writeResponse } } := ⟨_, rfl⟩
    have hdone : put_done c' = .ok (some .ok, (write_response c₁).2) := by
      unfold put_done
      rw [hup.filename.trans hfile, Option.getD_some, hc₁]
    have hset : Settled stream name c₁.srv := by
      rw [Settled, if_pos hyes, hc₁]
      exact ⟨hcontent hstored, count_listed (hup.list ▸ hl)⟩
    have hz₁ : c₁.job.writesz = 0 := hc₁ ▸ hz'
    have has₁ : ∀ a ∈ c₁.conn.answers, a.Steady := hc₁ ▸ has'
    have hreq₁ : c₁.job.request = .put := hc₁ ▸ hup.request.trans hreq
    have hst₁ : c₁.job.state = .writeResponse := by rw [hc₁]
    have hout₁ : c₁.conn.out ++ (ascii "OK\n").drop c₁.job.writesz = out ++ ascii "OK\n" := by
      rw [hz₁, List.drop_zero, hc₁, ← hout, ← hup.out]
    have h : Proceeds msgs stream name out (3 - c₁.job.writesz) (capacity c₁.conn.answers)
        (write_response c₁).2 :=
      write_response_accepted hyes hreq₁ (hc₁ ▸ hup.filename.trans hfile) hst₁ hset (by omega)
        hout₁ (hc₁ ▸ hup.closed.trans hopen) has₁
    have hans : c₁.conn.answers = c'.conn.answers := by rw [hc₁]
    rw [hz₁, Nat.sub_zero, ← hreply, hans] at h
    refine ⟨(write_response c₁).2, ?_, hproceeds (hpaid h8) h⟩
    rw [Phase.next_none, hdone]
    exact if_neg (write_response_ne_error hreq₁ hst₁ (by omega) (steady_moves has₁))

/-! ### Turns and runs -/

/-- A stream that holds a whole PUT, up to the length of its body. -/
structure IsPut (stream : List UInt8) (name : Name) : Prop where
  newline : 10 ∈ stream
  short : (headline stream).length ≤ 261
  parse : parse_header (cstr (headline stream)) .unknown = (.put, some name)
  name : name.length ≤ 255
  size : 8 ≤ (afterHeader stream).length

/-- **One turn of a PUT.** -/
theorem event_putting (hput : IsPut stream name) (h : Putting msgs stream name out c need)
    (has : ∀ a ∈ t.answers, a.Steady) (hfuel : t.answers.length < fuel) :
    ∃ c', event msgs fuel t c = .ok c' ∧
      Proceeds msgs stream name out need (capacity t.answers) c' := by
  cases h with
  | heading hhead h10 hw hl hout hopen =>
    rw [event_of_header hhead.state]
    have hspec : HeaderTurn msgs stream (c.begin t) (read_header msgs t (c.begin t)) :=
      read_header_spec msgs t hhead (steady_moves has)
    obtain ⟨r, hr⟩ : ∃ r, read_header msgs t (c.begin t) = r := ⟨_, rfl⟩
    rw [hr] at hspec ⊢
    cases hspec with
    | again c' hro hhead' hdry hcap =>
      obtain ⟨h10', hle⟩ := hcap h10
      refine ⟨c', rfl, .inr ⟨_, .heading hhead' h10' (hro.srv ▸ hw) (hro.srv ▸ hl)
        (hro.out.trans hout) (hro.closed.trans hopen), ?_⟩⟩
      have hle' : capacity t.answers + c'.conn.inp.length ≤ c.conn.inp.length := hle
      omega
    | bad ret c' hret hro hst hreq herr hz hcause =>
      -- the header of a PUT is well formed
      refine absurd ?_ (hcause h10 (steady_noFail has) hput.short)
      rw [hput.parse]
      exact ⟨by simp, fun _ => hput.name⟩
    | ok c' p hro hjob hafter hwf hname hparse hcap =>
      obtain rfl : p = (.put, some name) := (hparse hput.newline).trans hput.parse
      have has' : ∀ a ∈ c'.conn.answers, a.Steady := fun a ha => has a (hro.answers.subset ha)
      have hlen : c'.conn.answers.length < fuel := hro.answers.length_le.trans_lt hfuel
      -- the turn goes on with the size and the data
      have hrec : Receiving stream c'.job c'.conn.inp := by
        rw [hjob]
        exact .size [] rfl hafter rfl (Nat.zero_lt_succ _) hhead.filesize hhead.datasz
      have hst : c'.job.state = .readSize := by rw [hjob]; rfl
      have hz : c'.job.writesz = 0 := by
        rw [hjob]
        exact hhead.writesz
      obtain ⟨c₂, hserve, hpro⟩ : ∃ c₂, serve msgs fuel t c' = .ok c₂ ∧
          Proceeds msgs stream name out (c'.conn.inp.length + 1 + (putReply msgs stream).length)
            (capacity c'.conn.answers) c₂ :=
        serve_receiving hput.size (by rw [hjob]) (by rw [hjob]) hz hrec
          (fun h => absurd (hst.symm.trans h) (by decide)) (fun _ => hro.srv ▸ hw) (hro.srv ▸ hl)
          (hro.out.trans hout) (hro.closed.trans hopen) has' hlen
      refine ⟨c₂, hserve, hpro.imp_right (fun ⟨need', hp, hle⟩ => ⟨need', hp, ?_⟩)⟩
      have hcap' : capacity t.answers + c'.conn.inp.length
          ≤ capacity c'.conn.answers + c.conn.inp.length := hcap h10
      omega
  | receiving hreq hfile hz hrec hstored hw hl hout hopen =>
    have hst : c.job.state ≠ .readHeader := by
      cases hrec with
      | size _ hst => simp [hst]
      | first hst => simp [hst]
      | data hst => simp [hst]
    rw [event_of_read hst]
    exact serve_receiving hput.size hreq hfile hz hrec hstored hw hl hout hopen has hfuel
  | accepted hyes hreq hfile hst hset hz hout hopen =>
    rw [event_of_read (by simp [hst])]
    exact serve_accepted hyes hreq hfile hst hset hz hout hopen has (Nat.zero_lt_of_lt hfuel)
  | refused hnot hst herr hset hz hout hopen =>
    rw [event_of_read (by simp [hst]), serve_error (by exact hst)]
    exact ⟨_, rfl, serve_refused hnot hst herr hset hz hout hopen has⟩

/-- What nobody else changes, nobody else needs. -/
theorem Putting.keep (h : Putting msgs stream name out c need) (ht : t.Keeps name)
    (hl : t.KeepsListed name) :
    Putting msgs stream name out { c with srv := t.others c.srv } need := by
  obtain ⟨hlookup, hdata⟩ := ht c.srv
  have hcount := hl c.srv
  have hcontent : (t.others c.srv).disk.content name = c.srv.disk.content name := by
    unfold Disk.content
    rw [hlookup]
    cases hlk : c.srv.disk.lookup name with
    | file i => simp only [hdata i hlk]
    | _ => rfl
  have hwritable : c.srv.disk.Writable name → (t.others c.srv).disk.Writable name := by
    unfold Disk.Writable
    rw [hlookup]
    exact id
  have hsettled : Settled stream name c.srv → Settled stream name (t.others c.srv) := by
    unfold Settled
    rw [hcontent, hcount]
    exact id
  cases h with
  | heading hhead h10 hw hl hout hopen =>
    exact .heading hhead h10 (hwritable hw) (hcount ▸ hl) hout hopen
  | receiving hreq hfile hz hrec hstored hw hl hout hopen =>
    exact .receiving hreq hfile hz hrec (fun hst => hcontent ▸ hstored hst)
      (fun hst => hwritable (hw hst)) (hcount ▸ hl) hout hopen
  | accepted hyes hreq hfile hst hset hz hout hopen =>
    exact .accepted hyes hreq hfile hst (hsettled hset) hz hout hopen
  | refused hnot hst herr hset hz hout hopen =>
    exact .refused hnot hst herr (hsettled hset) hz hout hopen

/-- **A PUT with enough answers is answered.** -/
theorem run_putting {turns : List Turn} (hput : IsPut stream name) (ha : Alone name turns)
    (h : Putting msgs stream name out c need)
    (hcap : need ≤ ((turns.map Turn.answers).map capacity).sum)
    (hfuel : ∀ t ∈ turns, t.answers.length < fuel) :
    ∃ c', run msgs fuel turns c = .ok c' ∧ Answered msgs stream name out c' := by
  induction turns generalizing c need with
  | nil =>
    have hpos := h.need_pos
    rw [List.map_nil, List.map_nil, List.sum_nil] at hcap
    omega
  | cons t turns ih =>
    rw [List.map_cons, List.map_cons, List.sum_cons] at hcap
    rw [run, if_neg (by simp [h.opened])]
    obtain ⟨c', he, hpro⟩ := event_putting hput
      (h.keep (ha.quiet.keeps t (by simp)) (ha.listed t (by simp)))
      (ha.quiet.steady t (by simp)) (hfuel t (by simp))
    rw [he]
    rcases hpro with hans | ⟨need', hput', hle⟩
    · exact ⟨c', run_closed hans.closed turns, hans⟩
    · exact ih ⟨ha.quiet.tail, fun t ht => ha.listed t (List.mem_cons_of_mem _ ht)⟩ hput'
        (by omega) (fun t ht => hfuel t (List.mem_cons_of_mem _ ht))

theorem alone_bytewise (name : Name) (ks : List ℕ) : Alone name (ks.map bytewise) := by
  refine ⟨quiet_bytewise name ks, fun t ht srv => ?_⟩
  obtain ⟨k, -, rfl⟩ := List.mem_map.mp ht
  rfl

end SystemProgramming.Networking
