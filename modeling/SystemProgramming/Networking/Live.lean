import SystemProgramming.Networking.Get
import SystemProgramming.Networking.PutRun
import SystemProgramming.Networking.List

namespace SystemProgramming.Networking

open SystemProgramming.Lib

/-!
# `nonstop_networking/server.c` — what every job keeps

Where a job can be between two turns, whatever the answers of the kernel are and whatever the
other jobs do to the server, and how one call of a handler may end.

* `Live` — the places of a job.  `mixed` is what a DELETE that was interrupted brings about,
  and `dirs` what the GET of a directory does.
* `Ends` — how the handler and the answer to a failed request may end.
* `serve_live` — they do.
-/

variable {mixed dirs : Prop} {stream : List UInt8} {msgs : Messages} {c c' : Ctx} {fuel : ℕ}
  {t : Turn}

/-! ### The places -/

/-- The descriptor of a GET: a file, or a directory whose bytes are not asked for. -/
def Opened (dirs : Prop) (j : Job) : Prop :=
  (∃ i pos, j.filefd = some (.file i pos)) ∨ j.filefd = some .dir ∧ (j.filesize = 0 ∨ dirs)

/-- Nothing of the chunk is written, or some of it. -/
def Midway (j : Job) : Prop := j.writesz = 0 ∨ j.writesz < j.readsz ∧ j.readsz ≤ j.buf.length

/-- The reply of a request that has failed. -/
def Job.errText (j : Job) : List UInt8 := ascii "ERROR\n" ++ j.errmsg

/-- Where a job with the stream `stream` can be between two turns. -/
inductive Live (mixed dirs : Prop) (stream : List UInt8) (j : Job) (conn : Conn) : Prop
  | heading (h : Heading stream j conn.inp) (hout : conn.out = []) (hopen : conn.closed = false)
  | receiving (name : Name) (hreq : j.request = .put) (hname : j.filename = some name)
      (hw : j.writesz = 0) (hrec : Receiving stream j conn.inp) (hout : conn.out = [])
      (hopen : conn.closed = false)
  | serving (hreq : j.request = .get ∨ j.request = .list ∨ j.request = .delete)
      (hst : j.state = .serving) (hw : j.writesz = 0) (hd : j.datasz = 0) (hout : conn.out = [])
      (hopen : conn.closed = false)
  | response (hreq : j.request ≠ .unknown) (hst : j.state = .writeResponse) (hw : j.writesz < 3)
      (hd : j.request = .list ∨ j.request = .get → j.datasz = 0)
      (hfd : j.request = .get → Opened dirs j) (hout : conn.out = (ascii "OK\n").take j.writesz)
      (hopen : conn.closed = false)
  | size (hreq : j.request = .list ∨ j.request = .get) (hst : j.state = .writeSize)
      (hw : j.writesz < 8) (hd : j.datasz = 0) (hfd : j.request = .get → Opened dirs j)
      (hout : ascii "OK\n" <+: conn.out) (hopen : conn.closed = false)
  | list (hreq : j.request = .list) (hst : j.state = .writeData) (hw : j.writesz < j.filesize)
      (hd : j.datasz = 0) (hout : ascii "OK\n" <+: conn.out) (hopen : conn.closed = false)
  | get (hreq : j.request = .get) (hst : j.state = .writeData) (hsz : j.filesize ≠ 0)
      (hfd : Opened dirs j) (hmid : Midway j) (hout : ascii "OK\n" <+: conn.out)
      (hopen : conn.closed = false)
  | failed (hst : j.state = .error) (hw : j.writesz < j.errText.length)
      (hout : mixed ∨ conn.out = j.errText.take j.writesz) (hopen : conn.closed = false)
  | done (hst : j.state = .done) (hclosed : conn.closed = true)
      (hout : mixed ∨ ascii "OK\n" <+: conn.out ∨ ascii "ERROR\n" <+: conn.out)

theorem Live.init (stream : List UInt8) : Live mixed dirs stream init_job (.fresh stream) :=
  .heading (.init stream) rfl rfl

/-- A directory that is not asked for may be asked for. -/
theorem Opened.weaken {j : Job} (h : Opened dirs j) : Opened True j :=
  h.imp_right (fun h => ⟨h.1, .inr trivial⟩)

/-- What holds of every job. -/
theorem Live.weaken {j : Job} {conn : Conn} (h : Live mixed dirs stream j conn) :
    Live True True stream j conn := by
  cases h with
  | heading h hout hopen => exact .heading h hout hopen
  | receiving name hreq hname hw hrec hout hopen => exact .receiving name hreq hname hw hrec hout hopen
  | serving hreq hst hw hd hout hopen => exact .serving hreq hst hw hd hout hopen
  | response hreq hst hw hd hfd hout hopen =>
    exact .response hreq hst hw hd (fun h => (hfd h).weaken) hout hopen
  | size hreq hst hw hd hfd hout hopen =>
    exact .size hreq hst hw hd (fun h => (hfd h).weaken) hout hopen
  | list hreq hst hw hd hout hopen => exact .list hreq hst hw hd hout hopen
  | get hreq hst hsz hfd hmid hout hopen => exact .get hreq hst hsz hfd.weaken hmid hout hopen
  | failed hst hw _ hopen => exact .failed hst hw (.inl trivial) hopen
  | done hst hclosed _ => exact .done hst hclosed (.inl trivial)

/-- A descriptor that is closed was answered. -/
theorem Live.answered {j : Job} {conn : Conn} (h : Live mixed dirs stream j conn)
    (hclosed : conn.closed = true) :
    mixed ∨ ascii "OK\n" <+: conn.out ∨ ascii "ERROR\n" <+: conn.out := by
  cases h with
  | done _ _ hout => exact hout
  | heading _ _ hopen => simp [hopen] at hclosed
  | receiving _ _ _ _ _ _ hopen => simp [hopen] at hclosed
  | serving _ _ _ _ _ hopen => simp [hopen] at hclosed
  | response _ _ _ _ _ _ hopen => simp [hopen] at hclosed
  | size _ _ _ _ _ _ hopen => simp [hopen] at hclosed
  | list _ _ _ _ _ hopen => simp [hopen] at hclosed
  | get _ _ _ _ _ _ hopen => simp [hopen] at hclosed
  | failed _ _ _ hopen => simp [hopen] at hclosed

/-- The reply is complete, or the turn went on as long as it could. -/
def Rests (c c' : Ctx) : Prop :=
  c'.conn.closed = true ∨ c'.conn.answers = [] ∨ .fail ∈ c.conn.answers

/-- A chunk of a PUT becomes complete in this call. -/
def GetsChunk (c : Ctx) : Prop :=
  match whenState .readSize put_size c with
  | .ok (none, c) => (c.job.state = .serving ∨ c.job.state = .readData) ∧ (put_read c).1 = .ok
  | _ => False

/-- A call that changes the file system: a DELETE, or a PUT that gets a chunk. -/
def Alters (c : Ctx) : Prop :=
  c.job.state ≠ .error ∧ (c.job.request = .delete ∨ c.job.request = .put ∧ GetsChunk c)

/-- The file system is changed by such a call only, and under its name only. -/
def Touches (c c' : Ctx) : Prop :=
  c'.srv.disk = c.srv.disk ∨ Alters c ∧ c.srv.disk.Only (c.job.filename.getD []) c'.srv.disk

/-- How the handler and the answer to a failed request may end. -/
inductive Ends (mixed dirs : Prop) (stream : List UInt8) (c : Ctx) : Except Stop Ctx → Prop
  | ok (c' : Ctx) (hlive : Live mixed dirs stream c'.job c'.conn) (hrests : Rests c c')
      (htouches : Touches c c') (hname : c'.job.request = c.job.request) :
      Ends mixed dirs stream c (.ok c')
  | put (hreq : c.job.request = .put) (hst : c.job.state = .readSize ∨ c.job.state = .serving)
      (hgets : GetsChunk c) (hno : ¬ c.srv.disk.Writable (c.job.filename.getD [])) :
      Ends mixed dirs stream c (.error .exited)
  | get (hreq : c.job.request = .get) (hdirs : dirs) : Ends mixed dirs stream c (.error .exited)
  | list (hreq : c.job.request = .list) (hst : c.job.state = .serving)
      (hlong : 2 ^ 31 ≤ total c.srv.file_list) : Ends mixed dirs stream c (.error .crashed)
  | fuel (hreq : c.job.request = .get) : Ends mixed dirs stream c (.error .fuel)

theorem length_ok : (ascii "OK\n").length = 3 := by decide

theorem three_le_errText (j : Job) : 3 ≤ j.errText.length := by
  rw [Job.errText, List.length_append]
  exact (by decide : 3 ≤ (ascii "ERROR\n").length).trans (Nat.le_add_right _ _)

/-! ### One piece -/

/-- More of a text is sent behind what was. -/
theorem sent_take {text out : List UInt8} {w : ℕ} (h : out = text.take w) (k : ℕ) :
    out ++ (text.drop w).take k = text.take (w + k) := by
  rw [h, ← List.take_add]

theorem sent_all {text out : List UInt8} {w : ℕ} (h : out = text.take w) :
    out ++ text.drop w = text := by
  rw [h, List.take_append_drop]

/-- What was sent, from what is left. -/
theorem sent_of_left {text out out' : List UInt8} {w w' : ℕ} (h : out = text.take w)
    (hout : out' ++ text.drop w' = out ++ text.drop w) : out' = text.take w' := by
  rw [sent_all h] at hout
  exact List.append_cancel_right (hout.trans (List.take_append_drop w' text).symm)

/-- What the last piece of a reply comes to. -/
structure Finishes (mixed dirs : Prop) (stream : List UInt8) (c c' : Ctx) : Prop where
  live : Live mixed dirs stream c'.job c'.conn
  rests : Rests c c'
  srv : c'.srv = c.srv
  request : c'.job.request = c.job.request

/-- **The error text** is sent. -/
theorem write_err_live (hst : c.job.state = .error) (hw : c.job.writesz < c.job.errText.length)
    (hout : mixed ∨ c.conn.out = c.job.errText.take c.job.writesz)
    (hopen : c.conn.closed = false) (has : ∀ a ∈ c.conn.answers, a.Moves) :
    Finishes mixed dirs stream c (write_err c).2 := by
  obtain ⟨r, hr⟩ : ∃ r, write_err c = r := ⟨_, rfl⟩
  have hspec : Replied c.job.errText c r := hr ▸ write_err_spec has hw
  rw [hr]
  cases hspec with
  | done as hsub =>
    refine ⟨.done rfl rfl ?_, .inl rfl, rfl, rfl⟩
    refine hout.imp_right (fun h => .inr ?_)
    show ascii "ERROR\n" <+: c.conn.out ++ c.job.errText.drop c.job.writesz
    rw [sent_all h]
    exact List.prefix_append _ _
  | waits ret w out as hret hsub hle hlt hout' hcap =>
    exact ⟨.failed hst hlt (hout.imp_right (fun h => sent_of_left h hout')) hopen,
      .inr (hret.imp And.right And.right), rfl, rfl⟩

/-- **The response** of a PUT or a DELETE is sent. -/
theorem write_response_live (hreq : c.job.request = .put ∨ c.job.request = .delete)
    (hst : c.job.state = .writeResponse) (hw : c.job.writesz < 3)
    (hout : c.conn.out = (ascii "OK\n").take c.job.writesz) (hopen : c.conn.closed = false)
    (has : ∀ a ∈ c.conn.answers, a.Moves) :
    Finishes mixed dirs stream c (write_response c).2 ∧
      (write_response c).2.job.state ≠ .error := by
  have hreq' : ¬ (c.job.request = .list ∨ c.job.request = .get) := by
    rcases hreq with h | h <;> simp [h]
  obtain ⟨r, hr⟩ : ∃ r, write_response c = r := ⟨_, rfl⟩
  have hspec : Replied (ascii "OK\n") c r := hr ▸ write_response_spec hreq' has hw
  rw [hr]
  cases hspec with
  | done as hsub =>
    refine ⟨⟨.done rfl rfl (.inr (.inl ?_)), .inl rfl, rfl, rfl⟩, by simp⟩
    show ascii "OK\n" <+: c.conn.out ++ (ascii "OK\n").drop c.job.writesz
    exact (sent_all hout).symm ▸ List.prefix_rfl
  | waits ret w out as hret hsub hle hlt hout' hcap =>
    refine ⟨⟨.response ?_ hst hlt (fun h => absurd h hreq') (fun h => absurd (.inr h) hreq')
      (sent_of_left hout hout') hopen, .inr (hret.imp And.right And.right), rfl, rfl⟩,
      by simp [hst]⟩
    rcases hreq with h | h <;> simp [h]

/-- One `writer` of the rest of a piece. -/
inductive Piece (c : Ctx) (p : List UInt8) : Ret × ℕ × Conn → Prop
  | full (rest : List Answer) (hsub : rest <:+ c.conn.answers)
      (hlt : p ≠ [] → rest.length < c.conn.answers.length) :
      Piece c p (.ok, p.length, c.conn.sent p rest)
  | stops (ret : Ret) (offset : ℕ) (rest : List Answer) (hlt : offset < p.length)
      (hret : ret = .again ∧ rest = [] ∨ ret = .err ∧ .fail ∈ c.conn.answers) :
      Piece c p (ret, offset, c.conn.sent (p.take offset) rest)

theorem writer_piece (has : ∀ a ∈ c.conn.answers, a.Moves) (p : List UInt8) :
    Piece c p (c.conn.writer p) := by
  obtain ⟨r, hr⟩ : ∃ r, writer c.conn.answers p = r := ⟨_, rfl⟩
  have h : Written c.conn.answers p r := hr ▸ writer_written has
  unfold Conn.writer
  rw [hr]
  cases h with
  | full rest hsub hlt hcap =>
    dsimp only
    rw [List.take_length]
    exact .full rest hsub hlt
  | part offset hlt hcap => exact .stops .again offset [] hlt (.inl ⟨rfl, rfl⟩)
  | fail offset rest hlt hsub hfail => exact .stops .err offset rest hlt (.inr ⟨rfl, hfail⟩)

/-! ### The reply of a LIST or a GET -/

/-- How the phases behind the first of a LIST or a GET may end: the reply is complete, or the
    socket is full or has failed, or, for the bytes of a directory, the server exits. -/
inductive Sends (mixed dirs : Prop) (stream : List UInt8) (c : Ctx) : Phase → Prop
  | all (c' : Ctx) (hsrv : c'.srv = c.srv) (hreq : c'.job.request = c.job.request)
      (hst : c'.job.state = .done) (hout : ascii "OK\n" <+: c'.conn.out) :
      Sends mixed dirs stream c (.ok (none, c'))
  | part (ret : Ret) (c' : Ctx) (hret : ret = .again ∧ c'.conn.answers = [] ∨
      ret = .err ∧ .fail ∈ c.conn.answers) (hsrv : c'.srv = c.srv)
      (hreq : c'.job.request = c.job.request) (hst : c'.job.state ≠ .error)
      (hlive : Live mixed dirs stream c'.job c'.conn) :
      Sends mixed dirs stream c (.ok (some ret, c'))
  | exits (hreq : c.job.request = .get) (hdirs : dirs) : Sends mixed dirs stream c (.error .exited)
  | fuel (hreq : c.job.request = .get) : Sends mixed dirs stream c (.error .fuel)

variable {p : Phase} {loop : Ctx → Phase} {c₁ : Ctx}

/-- The phase began later in the turn. -/
theorem Sends.of_later (h : Sends mixed dirs stream c₁ p) (hsrv : c₁.srv = c.srv)
    (hreq : c₁.job.request = c.job.request) (hsub : c₁.conn.answers <:+ c.conn.answers) :
    Sends mixed dirs stream c p := by
  cases h with
  | all c' hsrv' hreq' hst hout => exact .all c' (hsrv'.trans hsrv) (hreq'.trans hreq) hst hout
  | part ret c' hret hsrv' hreq' hst hlive =>
    exact .part ret c' (hret.imp_right (fun h => ⟨h.1, hsub.subset h.2⟩)) (hsrv'.trans hsrv)
      (hreq'.trans hreq) hst hlive
  | exits hreq' hdirs => exact .exits (hreq ▸ hreq') hdirs
  | fuel hreq' => exact .fuel (hreq ▸ hreq')

/-- The size, and what a handler does behind it. -/
theorem sends_size (hreq : c.job.request = .list ∨ c.job.request = .get)
    (hst : c.job.state = .writeSize) (hw : c.job.writesz < 8) (hd : c.job.datasz = 0)
    (hfd : c.job.request = .get → Opened dirs c.job) (hout : ascii "OK\n" <+: c.conn.out)
    (hopen : c.conn.closed = false) (has : ∀ a ∈ c.conn.answers, a.Moves)
    (hloop : ∀ rest, rest <:+ c.conn.answers → rest.length < c.conn.answers.length →
      ∀ c₁ : Ctx, c₁ = { c with
        job := { c.job with
          writesz := 0, state := if c.job.filesize = 0 then .done else .writeData },
        conn := c.conn.sent ((leBytes 8 c.job.filesize).drop c.job.writesz) rest } →
      Sends mixed dirs stream c₁ (loop c₁)) :
    Sends mixed dirs stream c
      ((whenState .writeSize (fun c => checked (write_size c)) c).next loop) := by
  have hlen : ((leBytes 8 c.job.filesize).drop c.job.writesz).length = 8 - c.job.writesz := by
    rw [List.length_drop, length_leBytes]
  obtain ⟨r, hr⟩ : ∃ r, c.conn.writer ((leBytes 8 c.job.filesize).drop c.job.writesz) = r :=
    ⟨_, rfl⟩
  have h : Piece c ((leBytes 8 c.job.filesize).drop c.job.writesz) r := hr ▸ writer_piece has _
  rw [whenState_pos hst]
  unfold write_size
  rw [hr]
  cases h with
  | full rest hsub hlt =>
    have hne : (leBytes 8 c.job.filesize).drop c.job.writesz ≠ [] :=
      List.ne_nil_of_length_pos (by omega)
    exact (hloop rest hsub (hlt hne) _ rfl).of_later rfl rfl hsub
  | stops ret offset rest hlt hret =>
    have hlive : Live mixed dirs stream { c.job with writesz := c.job.writesz + offset }
        (c.conn.sent (((leBytes 8 c.job.filesize).drop c.job.writesz).take offset) rest) :=
      .size hreq hst (show c.job.writesz + offset < 8 by omega) hd hfd
        (hout.trans (List.prefix_append _ _)) hopen
    rcases hret with ⟨rfl, hret⟩ | ⟨rfl, hret⟩
    · exact .part _ _ (.inl ⟨rfl, hret⟩) rfl rfl (by simp [hst]) hlive
    · exact .part _ _ (.inr ⟨rfl, hret⟩) rfl rfl (by simp [hst]) hlive

/-- The response, and what a handler does behind it. -/
theorem sends_response (hreq : c.job.request = .list ∨ c.job.request = .get)
    (hst : c.job.state = .writeResponse) (hw : c.job.writesz < 3) (hd : c.job.datasz = 0)
    (hfd : c.job.request = .get → Opened dirs c.job)
    (hout : c.conn.out = (ascii "OK\n").take c.job.writesz)
    (hopen : c.conn.closed = false) (has : ∀ a ∈ c.conn.answers, a.Moves)
    (hloop : ∀ rest, rest <:+ c.conn.answers → rest.length < c.conn.answers.length →
      ∀ c₁ : Ctx, c₁ = { c with
        job := { c.job with writesz := 0, state := .writeSize },
        conn := c.conn.sent ((ascii "OK\n").drop c.job.writesz) rest } →
      Sends mixed dirs stream c₁ (loop c₁)) :
    Sends mixed dirs stream c
      ((whenState .writeResponse (fun c => checked (write_response c)) c).next loop) := by
  have hlen : ((ascii "OK\n").drop c.job.writesz).length = 3 - c.job.writesz := by
    rw [List.length_drop, length_ok]
  obtain ⟨r, hr⟩ : ∃ r, c.conn.writer ((ascii "OK\n").drop c.job.writesz) = r := ⟨_, rfl⟩
  have h : Piece c ((ascii "OK\n").drop c.job.writesz) r := hr ▸ writer_piece has _
  rw [whenState_pos hst]
  unfold write_response
  rw [hr]
  cases h with
  | full rest hsub hlt =>
    have hne : (ascii "OK\n").drop c.job.writesz ≠ [] := List.ne_nil_of_length_pos (by omega)
    dsimp only
    rw [if_pos hreq]
    exact (hloop rest hsub (hlt hne) _ rfl).of_later rfl rfl hsub
  | stops ret offset rest hlt hret =>
    have hlive : Live mixed dirs stream { c.job with writesz := c.job.writesz + offset }
        (c.conn.sent (((ascii "OK\n").drop c.job.writesz).take offset) rest) :=
      .response (by rcases hreq with h | h <;> simp [h]) hst
        (show c.job.writesz + offset < 3 by omega) (fun _ => hd) hfd (sent_take hout offset) hopen
    rcases hret with ⟨rfl, hret⟩ | ⟨rfl, hret⟩
    · exact .part _ _ (.inl ⟨rfl, hret⟩) rfl rfl (by simp [hst]) hlive
    · exact .part _ _ (.inr ⟨rfl, hret⟩) rfl rfl (by simp [hst]) hlive

/-- The phases behind the first one of a LIST or a GET. -/
def answer (loop : Ctx → Phase) (c : Ctx) : Phase :=
  (whenState .writeResponse (fun c => checked (write_response c)) c).next (fun c =>
    (whenState .writeSize (fun c => checked (write_size c)) c).next loop)

theorem next_answer (p : Phase) (loop : Ctx → Phase) :
    ((p.next (whenState .writeResponse (fun c => checked (write_response c)))).next
      (whenState .writeSize (fun c => checked (write_size c)))).next loop =
      p.next (answer loop) := by
  rw [Phase.next_assoc, Phase.next_assoc]
  rfl

/-- The head of the loop when the size was sent. -/
structure AtData (dirs : Prop) (verb : Verb) (c : Ctx) : Prop where
  request : c.job.request = verb
  state : c.job.state = if c.job.filesize = 0 then .done else .writeData
  writesz : c.job.writesz = 0
  datasz : c.job.datasz = 0
  fd : verb = .get → Opened dirs c.job
  out : ascii "OK\n" <+: c.conn.out
  opened : c.conn.closed = false
  moves : ∀ a ∈ c.conn.answers, a.Moves

/-- The response, the size, and what a handler does behind them. -/
theorem sends_answer (hreq : c.job.request = .list ∨ c.job.request = .get)
    (hw : c.job.state = .writeResponse ∧ c.job.writesz < 3 ∧
        c.conn.out = (ascii "OK\n").take c.job.writesz ∨
      c.job.state = .writeSize ∧ c.job.writesz < 8 ∧ ascii "OK\n" <+: c.conn.out)
    (hd : c.job.datasz = 0) (hfd : c.job.request = .get → Opened dirs c.job)
    (hopen : c.conn.closed = false) (has : ∀ a ∈ c.conn.answers, a.Moves)
    (hloop : ∀ c₁, AtData dirs c.job.request c₁ → Sends mixed dirs stream c₁ (loop c₁)) :
    Sends mixed dirs stream c (answer loop c) := by
  unfold answer
  rcases hw with ⟨hst, hw, hout⟩ | ⟨hst, hw, hout⟩
  · apply sends_response hreq hst hw hd hfd hout hopen has
    rintro rest hsub - c₁ rfl
    have hout₁ : ascii "OK\n" <+: c.conn.out ++ (ascii "OK\n").drop c.job.writesz := by
      exact (sent_all hout).symm ▸ List.prefix_rfl
    have has₁ : ∀ a ∈ rest, a.Moves := fun a ha => has a (hsub.subset ha)
    refine sends_size (by exact hreq) rfl (by exact Nat.zero_lt_succ 7) (by exact hd)
      (by exact hfd) hout₁ (by exact hopen) (by exact has₁) ?_
    rintro rest₂ hsub₂ - c₂ rfl
    exact hloop _ ⟨rfl, rfl, rfl, hd, hfd, hout₁.trans (List.prefix_append _ _), hopen,
      fun a ha => has₁ a (hsub₂.subset ha)⟩
  · rw [whenState_neg (by simp [hst]), Phase.next_none]
    apply sends_size hreq hst hw hd hfd hout hopen has
    rintro rest hsub - c₁ rfl
    exact hloop _ ⟨rfl, rfl, rfl, hd, hfd, hout.trans (List.prefix_append _ _), hopen,
      fun a ha => has a (hsub.subset ha)⟩

/-- The loop of `list`. -/
theorem sends_list_data {flist : Mem} (hreq : c.job.request = .list)
    (hst : c.job.state = .writeData) (hw : c.job.writesz < c.job.filesize) (hd : c.job.datasz = 0)
    (hout : ascii "OK\n" <+: c.conn.out) (hopen : c.conn.closed = false)
    (has : ∀ a ∈ c.conn.answers, a.Moves) (hfuel : 2 ≤ fuel) :
    Sends mixed dirs stream c (list_data flist fuel c) := by
  obtain ⟨fuel, rfl⟩ := Nat.exists_eq_add_of_le' hfuel
  have hlen : (memBytes flist c.job.writesz (c.job.filesize - c.job.writesz)).length
      = c.job.filesize - c.job.writesz := length_memBytes _ _ _
  obtain ⟨p, hp⟩ : ∃ p, memBytes flist c.job.writesz (c.job.filesize - c.job.writesz) = p :=
    ⟨_, rfl⟩
  obtain ⟨r, hr⟩ : ∃ r, c.conn.writer p = r := ⟨_, rfl⟩
  have h : Piece c p r := hr ▸ writer_piece has _
  rw [list_data, if_neg (by simp [hst]), hp, hr]
  rw [hp] at hlen
  cases h with
  | full rest hsub hlt =>
    dsimp only
    rw [hd, hlen, if_pos (by omega), list_data, if_pos (by simp)]
    exact .all _ rfl rfl rfl (hout.trans (List.prefix_append _ _))
  | stops ret offset rest hlt hret =>
    have hlive : Live mixed dirs stream { c.job with writesz := c.job.writesz + offset }
        (c.conn.sent (p.take offset) rest) :=
      .list hreq hst (show c.job.writesz + offset < c.job.filesize by omega) hd
        (hout.trans (List.prefix_append _ _)) hopen
    rcases hret with ⟨rfl, hret⟩ | ⟨rfl, hret⟩
    · exact .part _ _ (.inl ⟨rfl, hret⟩) rfl rfl (by simp [hst]) hlive
    · exact .part _ _ (.inr ⟨rfl, hret⟩) rfl rfl (by simp [hst]) hlive

/-- The loop of `handle_get`. -/
theorem sends_get_data (hreq : c.job.request = .get) (hst : c.job.state = .writeData)
    (hsz : c.job.filesize ≠ 0) (hfd : Opened dirs c.job) (hmid : Midway c.job)
    (hout : ascii "OK\n" <+: c.conn.out) (hopen : c.conn.closed = false)
    (has : ∀ a ∈ c.conn.answers, a.Moves) : Sends mixed dirs stream c (get_data fuel c) := by
  induction fuel generalizing c with
  | zero => exact .fuel hreq
  | succ fuel ih =>
    rw [get_data, if_neg (by simp [hst])]
    -- the bytes of a directory cannot be read, and those of a file are now in the buffer
    have hload : (if c.job.writesz = 0 then get_read c else some c) = none ∧ dirs ∨
        ∃ c₁, (if c.job.writesz = 0 then get_read c else some c) = some c₁ ∧ c₁.srv = c.srv ∧
          c₁.conn = c.conn ∧ c₁.job.request = .get ∧ c₁.job.state = .writeData ∧
          c₁.job.filesize = c.job.filesize ∧ Opened dirs c₁.job ∧
          c₁.job.writesz ≤ c₁.job.readsz ∧ c₁.job.readsz ≤ c₁.job.buf.length := by
      split
      · rename_i hzero
        rcases hfd with ⟨i, pos, hfile⟩ | ⟨hdir, hsize⟩
        · refine .inr ⟨_, get_read_spec hfile rfl, rfl, rfl, hreq, hst, rfl, .inl ⟨i, _, rfl⟩, ?_,
            length_splice_zero _ _⟩
          show c.job.writesz ≤ _
          omega
        · refine .inl ⟨?_, hsize.resolve_left hsz⟩
          rw [get_read, hdir]
      · rename_i hpos
        obtain ⟨h1, h2⟩ := hmid.resolve_left hpos
        exact .inr ⟨c, rfl, rfl, rfl, hreq, hst, rfl, hfd, h1.le, h2⟩
    rcases hload with ⟨hnone, hdirs⟩ | ⟨c₁, hsome, hsrv, hconn, hreq₁, hst₁, hsz₁, hfd₁, hle, hbuf⟩
    · rw [hnone]
      exact .exits hreq hdirs
    · rw [hsome]
      dsimp only
      obtain ⟨p, hp⟩ : ∃ p, (c₁.job.buf.drop c₁.job.writesz).take
          (c₁.job.readsz - c₁.job.writesz) = p := ⟨_, rfl⟩
      have hlen : p.length = c₁.job.readsz - c₁.job.writesz := by
        rw [← hp, List.length_take, List.length_drop]
        omega
      obtain ⟨r, hr⟩ : ∃ r, c₁.conn.writer p = r := ⟨_, rfl⟩
      have h : Piece c₁ p r := hr ▸ writer_piece (hconn ▸ has) _
      have hout₁ : ascii "OK\n" <+: c₁.conn.out := hconn ▸ hout
      have hopen₁ : c₁.conn.closed = false := hconn ▸ hopen
      rw [hp, hr]
      cases h with
      | full rest hsub hlt =>
        dsimp only
        by_cases hend : c₁.job.filesize ≤ c₁.job.datasz + (c₁.job.writesz + p.length)
        · rw [if_pos hend]
          cases fuel with
          | zero => exact .fuel hreq
          | succ fuel =>
            rw [get_data, if_pos (by simp)]
            exact .all _ hsrv (hreq₁.trans hreq.symm) rfl (hout₁.trans (List.prefix_append _ _))
        · rw [if_neg hend]
          -- the loop goes round
          refine Sends.of_later (ih hreq₁ rfl (hsz₁ ▸ hsz) hfd₁ (.inl rfl)
            (hout₁.trans (List.prefix_append _ _)) hopen₁ ?_) hsrv (hreq₁.trans hreq.symm)
            (hconn ▸ hsub)
          exact fun a ha => has a (hconn ▸ hsub.subset ha)
      | stops ret offset rest hlt hret =>
        have hlive : Live mixed dirs stream { c₁.job with writesz := c₁.job.writesz + offset }
            (c₁.conn.sent (p.take offset) rest) :=
          .get hreq₁ hst₁ (hsz₁ ▸ hsz) hfd₁
            (.inr ⟨show c₁.job.writesz + offset < c₁.job.readsz by omega, hbuf⟩)
            (hout₁.trans (List.prefix_append _ _)) hopen₁
        rcases hret with ⟨rfl, hret⟩ | ⟨rfl, hret⟩
        · exact .part _ _ (.inl ⟨rfl, hret⟩) hsrv (hreq₁.trans hreq.symm) (by simp [hst₁]) hlive
        · exact .part _ _ (.inr ⟨rfl, hconn ▸ hret⟩) hsrv (hreq₁.trans hreq.symm) (by simp [hst₁])
            hlive

/-! ### The handlers -/

/-- The end of a reply closes the descriptor. -/
theorem Sends.ends (h : Sends mixed dirs stream c p) :
    Ends mixed dirs stream c (served (p.next (fun c => .ok (some .ok, c.close))).result) := by
  cases h with
  | all c' hsrv hreq hst hout =>
    rw [Phase.next_none]
    dsimp only [Phase.result, Option.getD_some]
    rw [served_ok (by simp [Ctx.close, hst])]
    exact .ok _ (.done hst rfl (.inr (.inl hout))) (.inl rfl) (.inl (hsrv ▸ rfl)) hreq
  | part ret c' hret hsrv hreq hst hlive =>
    rw [Phase.next_some]
    dsimp only [Phase.result, Option.getD_some]
    rw [served_of_ne hst]
    exact .ok _ hlive (.inr (hret.imp And.right And.right)) (.inl (hsrv ▸ rfl)) hreq
  | exits hreq hdirs => exact .get hreq hdirs
  | fuel hreq => exact .fuel hreq

/-- A LIST or a GET that begins its reply in this turn. -/
theorem ends_begun (hreq : c.job.request = .list ∨ c.job.request = .get)
    (hreq₁ : c₁.job.request = c.job.request) (hsrv : c₁.srv = c.srv) (hconn : c₁.conn = c.conn)
    (hst : c₁.job.state = .writeResponse) (hw : c₁.job.writesz = 0) (hd : c₁.job.datasz = 0)
    (hfd : c₁.job.request = .get → Opened dirs c₁.job) (hout : c.conn.out = [])
    (hopen : c.conn.closed = false) (has : ∀ a ∈ c.conn.answers, a.Moves)
    (hloop : ∀ c₂, AtData dirs c.job.request c₂ → Sends mixed dirs stream c₂ (loop c₂)) :
    Ends mixed dirs stream c
      (served ((answer loop c₁).next (fun c => .ok (some .ok, c.close))).result) := by
  have hout₁ : c₁.conn.out = (ascii "OK\n").take c₁.job.writesz := by
    rw [hw, List.take_zero, hconn]
    exact hout
  have hsends : Sends mixed dirs stream c₁ (answer loop c₁) :=
    sends_answer (hreq₁ ▸ hreq) (.inl ⟨hst, by omega, hout₁⟩) hd hfd (hconn ▸ hopen) (hconn ▸ has)
      (hreq₁ ▸ hloop)
  exact (hsends.of_later hsrv hreq₁ (hconn ▸ List.suffix_rfl)).ends

/-- The states in which a LIST or a GET has begun its reply. -/
theorem answer_of_data {loop : Ctx → Phase} (hst : c.job.state = .writeData) :
    answer loop c = loop c := by
  unfold answer
  rw [whenState_neg (by simp [hst]), Phase.next_none, whenState_neg (by simp [hst]),
    Phase.next_none]

/-- The size may overflow. -/
theorem list_serving_cases (c : Ctx) :
    list_serving c = .error .crashed ∧ 2 ^ 31 ≤ total c.srv.file_list ∨
      ∃ n, list_serving c = .ok (none, { c with job := { c.job with
        filesize := n, state := .writeResponse } }) := by
  rcases Nat.lt_or_ge (total c.srv.file_list) (2 ^ 31) with hlt | hge
  · exact .inr ⟨_, list_serving_spec hlt⟩
  · rcases list_serving_overflow hge with h | ⟨n, -, h⟩
    · exact .inl ⟨h, hge⟩
    · exact .inr ⟨n, h⟩

/-- **A call of `list`.** -/
theorem serve_list (h : Live mixed dirs stream c.job c.conn) (hreq : c.job.request = .list)
    (hhead : c.job.state ≠ .readHeader) (herr : c.job.state ≠ .error)
    (hopen : c.conn.closed = false) (has : ∀ a ∈ c.conn.answers, a.Moves)
    (hfuel : c.conn.answers.length + 2 ≤ fuel) :
    Ends mixed dirs stream c (serve msgs fuel t c) := by
  obtain ⟨loop, hloop⟩ : ∃ loop : Ctx → Phase, loop = list_data (listMem t
      (if c.job.state = .serving then joined c.srv.file_list else [])) fuel := ⟨_, rfl⟩
  have hserve : serve msgs fuel t c = served (((whenState .serving list_serving c).next
      (answer loop)).next (fun c => .ok (some .ok, c.close))).result := by
    rw [serve_eq, hloop]
    unfold handle
    rw [hreq]
    dsimp only
    unfold list
    rw [if_neg herr, ← next_answer]
  have hdata : ∀ c₁, AtData dirs .list c₁ → Sends mixed dirs stream c₁ (loop c₁) := by
    intro c₁ h₁
    have hst₁ := h₁.state
    rw [hloop]
    split at hst₁
    · obtain ⟨fuel, rfl⟩ := Nat.exists_eq_add_one_of_ne_zero (show fuel ≠ 0 by omega)
      rw [list_data, if_pos (by simp [hst₁])]
      exact .all _ rfl rfl hst₁ h₁.out
    · have hw := h₁.writesz
      exact sends_list_data h₁.request hst₁ (by omega) h₁.datasz h₁.out h₁.opened h₁.moves
        (by omega)
  have hfd : ∀ {j : Job}, j.request = .list → j.request = .get → Opened dirs j :=
    fun h1 h2 => absurd (h1.symm.trans h2) (by decide)
  rw [hserve]
  cases h with
  | heading h => exact absurd h.state hhead
  | receiving name hput => exact absurd (hreq.symm.trans hput) (by decide)
  | serving _ hst hw hd hout _ =>
    rw [whenState_pos hst]
    rcases list_serving_cases c with ⟨h, hge⟩ | ⟨n, h⟩
    · rw [h]
      exact .list hreq hst hge
    · rw [h, Phase.next_none]
      exact ends_begun (.inl hreq) rfl rfl rfl rfl hw hd (hfd hreq) hout hopen has (hreq ▸ hdata)
  | response _ hst hw hd _ hout _ =>
    rw [whenState_neg (by simp [hst]), Phase.next_none]
    exact (sends_answer (.inl hreq) (.inl ⟨hst, hw, hout⟩) (hd (.inl hreq)) (hfd hreq) hopen has
      (hreq ▸ hdata)).ends
  | size _ hst hw hd _ hout _ =>
    rw [whenState_neg (by simp [hst]), Phase.next_none]
    exact (sends_answer (.inl hreq) (.inr ⟨hst, hw, hout⟩) hd (hfd hreq) hopen has
      (hreq ▸ hdata)).ends
  | list _ hst hw hd hout _ =>
    rw [whenState_neg (by simp [hst]), Phase.next_none, answer_of_data hst, hloop]
    exact (sends_list_data hreq hst hw hd hout hopen has (by omega)).ends
  | get hget => exact absurd (hreq.symm.trans hget) (by decide)
  | failed hst => exact absurd hst herr
  | done _ hclosed => exact absurd (hopen.symm.trans hclosed) (by decide)

/-- The turn ends with the last piece of a reply. -/
theorem Finishes.ends (h : Finishes mixed dirs stream c₁ c') (htouches : Touches c c₁)
    (hreq : c₁.job.request = c.job.request) (hsub : c₁.conn.answers <:+ c.conn.answers) :
    Ends mixed dirs stream c (.ok c') := by
  refine .ok c' h.live ?_ ?_ (h.request.trans hreq)
  · exact h.rests.imp_right (Or.imp_right (fun hf => hsub.subset hf))
  · unfold Touches
    rw [h.srv]
    exact htouches

/-- A request that cannot be served is answered in the same turn. -/
theorem ends_failed (hst : c₁.job.state = .error) (hw : c₁.job.writesz < c₁.job.errText.length)
    (hout : mixed ∨ c₁.conn.out = c₁.job.errText.take c₁.job.writesz)
    (hopen : c₁.conn.closed = false) (has : ∀ a ∈ c₁.conn.answers, a.Moves)
    (htouches : Touches c c₁) (hreq : c₁.job.request = c.job.request)
    (hsub : c₁.conn.answers <:+ c.conn.answers) :
    Ends mixed dirs stream c (served (.ok (.ok, c₁))) := by
  rw [served_failed hst]
  exact (write_err_live hst hw hout hopen has).ends htouches hreq hsub

/-- There is no such file, or not any more. -/
theorem ends_no_such_file (hw : c.job.writesz < 3) (hzero : c.job.writesz = 0 ∨ mixed)
    (hout : c.conn.out = (ascii "OK\n").take c.job.writesz) (hopen : c.conn.closed = false)
    (has : ∀ a ∈ c.conn.answers, a.Moves) :
    Ends mixed dirs stream c (served (.ok (.ok, { c with job := { c.job with
      state := .error, errmsg := msgs.err_no_such_file } }))) := by
  obtain ⟨c₁, hc₁⟩ : ∃ c₁ : Ctx, c₁ = { c with job := { c.job with
      state := .error, errmsg := msgs.err_no_such_file } } := ⟨_, rfl⟩
  have hw₁ : c₁.job.writesz = c.job.writesz := by rw [hc₁]
  have hlen := three_le_errText c₁.job
  rw [← hc₁]
  refine ends_failed (by rw [hc₁]) (by omega) ?_ (hc₁ ▸ hopen) (hc₁ ▸ has) (.inl (by rw [hc₁]))
    (by rw [hc₁]) (by subst hc₁; exact List.suffix_rfl)
  rcases hzero with hzero | hmix
  · refine .inr ?_
    rw [hw₁, hzero, List.take_zero, hc₁]
    rw [hzero, List.take_zero] at hout
    exact hout
  · -- a part of another answer may be out already
    exact .inl hmix

/-- **A call of `handle_get`.** -/
theorem serve_get (h : Live mixed dirs stream c.job c.conn) (hreq : c.job.request = .get)
    (hhead : c.job.state ≠ .readHeader) (herr : c.job.state ≠ .error)
    (hopen : c.conn.closed = false) (has : ∀ a ∈ c.conn.answers, a.Moves) (hfuel : 1 ≤ fuel)
    (hdirs : c.job.state = .serving → c.srv.disk.lookup (c.job.filename.getD []) = .dir →
      c.srv.disk.dirSize = 0 ∨ dirs) :
    Ends mixed dirs stream c (serve msgs fuel t c) := by
  have hserve : serve msgs fuel t c = served (((whenState .serving (get_serving msgs) c).next
      (answer (get_data fuel))).next (fun c => .ok (some .ok, c.close))).result := by
    rw [serve_eq]
    unfold handle
    rw [hreq]
    dsimp only
    unfold handle_get
    rw [if_neg herr, ← next_answer]
  have hdata : ∀ c₁, AtData dirs .get c₁ → Sends mixed dirs stream c₁ (get_data fuel c₁) := by
    intro c₁ h₁
    have hst₁ := h₁.state
    split at hst₁
    · obtain ⟨fuel, rfl⟩ := Nat.exists_eq_add_one_of_ne_zero (show fuel ≠ 0 by omega)
      rw [get_data, if_pos (by simp [hst₁])]
      exact .all _ rfl rfl hst₁ h₁.out
    · exact sends_get_data h₁.request hst₁ (by assumption) (h₁.fd rfl) (.inl h₁.writesz) h₁.out
        h₁.opened h₁.moves
  rw [hserve]
  cases h with
  | heading h => exact absurd h.state hhead
  | receiving name hput => exact absurd (hreq.symm.trans hput) (by decide)
  | serving _ hst hw hd hout _ =>
    rw [whenState_pos hst]
    unfold get_serving openfile
    rcases hfd : c.srv.disk.openRead (c.job.filename.getD []) with _ | fd
    · dsimp only
      rw [Phase.next_some]
      exact ends_no_such_file (by omega) (.inl hw) (by rw [hw, List.take_zero, hout]) hopen has
    · -- it was opened, and so it is a file or, where the caller allows one, a directory
      have hopened : Opened dirs { c.job with
          filefd := some fd, filesize := c.srv.disk.size fd, state := .writeResponse } := by
        unfold Disk.openRead at hfd
        split at hfd
        · rename_i i hi
          obtain rfl := Option.some.inj hfd
          exact .inl ⟨i, 0, rfl⟩
        · rename_i hdir
          obtain rfl := Option.some.inj hfd
          exact .inr ⟨rfl, hdirs hst hdir⟩
        · exact absurd hfd (by simp)
      dsimp only
      rw [Phase.next_none]
      exact ends_begun (.inr hreq) rfl rfl rfl rfl hw hd (fun _ => hopened) hout hopen has
        (hreq ▸ hdata)
  | response _ hst hw hd hfd hout _ =>
    rw [whenState_neg (by simp [hst]), Phase.next_none]
    exact (sends_answer (.inr hreq) (.inl ⟨hst, hw, hout⟩) (hd (.inr hreq)) hfd hopen has
      (hreq ▸ hdata)).ends
  | size _ hst hw hd hfd hout _ =>
    rw [whenState_neg (by simp [hst]), Phase.next_none]
    exact (sends_answer (.inr hreq) (.inr ⟨hst, hw, hout⟩) hd hfd hopen has (hreq ▸ hdata)).ends
  | list hlist => exact absurd (hreq.symm.trans hlist) (by decide)
  | get _ hst hsz hfd hmid hout _ =>
    rw [whenState_neg (by simp [hst]), Phase.next_none, answer_of_data hst]
    exact (sends_get_data hreq hst hsz hfd hmid hout hopen has).ends
  | failed hst => exact absurd hst herr
  | done _ hclosed => exact absurd (hopen.symm.trans hclosed) (by decide)

/-- **A call of `handle_delete`**; one that was interrupted begins again. -/
theorem serve_delete (h : Live mixed dirs stream c.job c.conn) (hreq : c.job.request = .delete)
    (hhead : c.job.state ≠ .readHeader) (herr : c.job.state ≠ .error)
    (hopen : c.conn.closed = false) (has : ∀ a ∈ c.conn.answers, a.Moves)
    (hmixed : c.job.state = .writeResponse → mixed) :
    Ends mixed dirs stream c (serve msgs fuel t c) := by
  have hserve : serve msgs fuel t c = served (.ok (handle_delete msgs t c)) := by
    rw [serve_eq]
    unfold handle
    rw [hreq]
  -- where it begins
  have hbegin : c.job.writesz < 3 ∧ c.conn.out = (ascii "OK\n").take c.job.writesz ∧
      (c.job.writesz = 0 ∨ mixed) := by
    cases h with
    | heading h => exact absurd h.state hhead
    | receiving name hput => exact absurd (hreq.symm.trans hput) (by decide)
    | serving _ hst hw hd hout _ => exact ⟨by omega, by rw [hw, hout, List.take_zero], .inl hw⟩
    | response _ hst hw hd hfd hout _ => exact ⟨hw, hout, .inr (hmixed hst)⟩
    | size h => rcases h with h | h <;> exact absurd (hreq.symm.trans h) (by decide)
    | list h => exact absurd (hreq.symm.trans h) (by decide)
    | get h => exact absurd (hreq.symm.trans h) (by decide)
    | failed hst => exact absurd hst herr
    | done _ hclosed => exact absurd (hopen.symm.trans hclosed) (by decide)
  obtain ⟨hw, hout, hzero⟩ := hbegin
  rw [hserve]
  unfold handle_delete openfile
  rw [if_neg herr]
  rcases c.srv.disk.openRead (c.job.filename.getD []) with _ | fd
  · exact ends_no_such_file hw hzero hout hopen has
  · dsimp only
    rcases hremove : c.srv.disk.remove (c.job.filename.getD []) with _ | disk
    · exact ends_no_such_file hw hzero hout hopen has
    · dsimp only
      obtain ⟨c₁, hc₁⟩ : ∃ c₁ : Ctx, c₁ = { c with
          srv := ⟨disk, (eraseEntries t.freed (c.job.filename.getD []) c.srv.file_list).2⟩,
          job := { c.job with
            filename := some (eraseEntries t.freed (c.job.filename.getD []) c.srv.file_list).1,
            state := .writeResponse } } := ⟨_, rfl⟩
      rw [← hc₁]
      have hw₁ : c₁.job.writesz < 3 := hc₁ ▸ hw
      have hout₁ : c₁.conn.out = (ascii "OK\n").take c₁.job.writesz := hc₁ ▸ hout
      obtain ⟨hfin, hne⟩ : Finishes mixed dirs stream c₁ (write_response c₁).2 ∧
          (write_response c₁).2.job.state ≠ .error :=
        write_response_live (.inr (by rw [hc₁]; exact hreq)) (by rw [hc₁]) hw₁ hout₁ (hc₁ ▸ hopen)
          (hc₁ ▸ has)
      rw [served_of_ne hne]
      refine hfin.ends (.inr ⟨⟨herr, .inl hreq⟩, ?_⟩) (by rw [hc₁])
        (by subst hc₁; exact List.suffix_rfl)
      rw [hc₁]
      exact (Disk.remove_spec hremove).1

/-- The states of a PUT that is still reading. -/
theorem Receiving.state_cases {j : Job} {inp : List UInt8} (h : Receiving stream j inp) :
    (j.state = .readSize ∨ j.state = .serving) ∨ j.state = .readData := by
  cases h with
  | size _ hst => exact .inl (.inl hst)
  | first hst => exact .inl (.inr hst)
  | data hst => exact .inr hst

/-- **Without a complete chunk** nothing is written, and the file is not opened. -/
theorem upload_quiet (h : Receiving stream c.job c.conn.inp) (has : ∀ a ∈ c.conn.answers, a.Moves)
    (hno : ¬ GetsChunk c) (hfuel : 0 < fuel) :
    ∃ ret c', upload msgs fuel c = .ok (some ret, c') ∧ c'.srv = c.srv := by
  -- a read that is not complete ends the call
  have hread : ∀ c : Ctx, (put_read c).2.srv = c.srv := fun _ => rfl
  have hserving : ∀ {c₁ : Ctx}, c₁.job.state = .serving → (put_read c₁).1 ≠ .ok →
      ∃ ret c', (whenState .serving (put_serving msgs) c₁).next (put_data msgs fuel)
        = .ok (some ret, c') ∧ c'.srv = c₁.srv := by
    intro c₁ hst hret
    have hsrv := hread c₁
    rw [whenState_pos hst]
    unfold put_serving
    obtain ⟨r, hr⟩ : ∃ r, put_read c₁ = r := ⟨_, rfl⟩
    rw [hr] at hret hsrv ⊢
    obtain ⟨ret, c'⟩ := r
    cases ret with
    | ok => exact absurd rfl hret
    | _ => exact ⟨_, c', rfl, hsrv⟩
  unfold GetsChunk at hno
  unfold upload
  rw [Phase.next_assoc]
  cases h with
  | size sz hst hrest hlen hlt hval hd =>
    rw [whenState_pos hst] at hno ⊢
    rcases @put_size_spec stream (c.job.filename.getD []) c sz hst hrest hlen hlt hval hd has with
      ⟨c', hc', hup, hst', hrec, hshort, hpaid, hsrv⟩ |
      ⟨ret, c', hc', hstops, hup, hst', hrec, hpaid, hsrv⟩
    · rw [hc'] at hno ⊢
      rw [Phase.next_none]
      obtain ⟨ret, c₂, hc₂, hsrv₂⟩ := hserving hst' (fun hok => hno ⟨.inl hst', hok⟩)
      exact ⟨ret, c₂, hc₂, hsrv₂.trans hsrv⟩
    · rw [hc']
      exact ⟨ret, c', rfl, hsrv⟩
  | first hst hchunk hsz hd =>
    rw [whenState_neg (by simp [hst])] at hno ⊢
    rw [Phase.next_none]
    exact hserving hst (fun hok => hno ⟨.inl hst, hok⟩)
  | data hst hchunk hsz hdvd hle hlt =>
    rw [whenState_neg (by simp [hst])] at hno ⊢
    have hret : (put_read c).1 ≠ .ok := fun hok => hno ⟨.inr hst, hok⟩
    have hsrv := hread c
    obtain ⟨fuel, rfl⟩ := Nat.exists_eq_add_one_of_ne_zero hfuel.ne'
    rw [Phase.next_none, whenState_neg (by simp [hst]), Phase.next_none, put_data,
      if_neg (by simp [hst])]
    obtain ⟨r, hr⟩ : ∃ r, put_read c = r := ⟨_, rfl⟩
    rw [hr] at hret hsrv ⊢
    obtain ⟨ret, c'⟩ := r
    cases ret with
    | ok => exact absurd rfl hret
    | _ => exact ⟨_, c', rfl, hsrv⟩

/-- The response to a PUT, once its file is complete or when its response was interrupted. -/
theorem put_done_live (hreq : c.job.request = .put) (hw : c.job.writesz < 3)
    (hout : c.conn.out = (ascii "OK\n").take c.job.writesz) (hopen : c.conn.closed = false)
    (has : ∀ a ∈ c.conn.answers, a.Moves) : ∃ c', put_done c = .ok (some .ok, c') ∧
      Live mixed dirs stream c'.job c'.conn ∧ Rests c c' ∧ c'.srv.disk = c.srv.disk ∧
      c'.job.request = .put ∧ c'.job.state ≠ .error := by
  obtain ⟨c₁, hc₁⟩ : ∃ c₁ : Ctx, c₁ = { c with
      srv := { c.srv with file_list :=
        if c.job.filename.getD [] ∈ c.srv.file_list then c.srv.file_list
        else c.srv.file_list ++ [c.job.filename.getD []] },
      job := { c.job with state := .writeResponse } } := ⟨_, rfl⟩
  have hdone : put_done c = .ok (some .ok, (write_response c₁).2) := by rw [hc₁]; rfl
  have hw₁ : c₁.job.writesz < 3 := hc₁ ▸ hw
  have hout₁ : c₁.conn.out = (ascii "OK\n").take c₁.job.writesz := hc₁ ▸ hout
  obtain ⟨hfin, hne⟩ : Finishes mixed dirs stream c₁ (write_response c₁).2 ∧
      (write_response c₁).2.job.state ≠ .error :=
    write_response_live (.inl (by rw [hc₁]; exact hreq)) (by rw [hc₁]) hw₁ hout₁ (hc₁ ▸ hopen)
      (hc₁ ▸ has)
  have hrests : Rests c (write_response c₁).2 := by
    have h := hfin.rests
    unfold Rests at h ⊢
    rw [hc₁] at h ⊢
    exact h
  refine ⟨_, hdone, hfin.live, hrests, ?_, ?_, hne⟩
  · rw [hfin.srv, hc₁]
  · rw [hfin.request, hc₁]
    exact hreq

/-- **A call of `put`.** -/
theorem serve_put (h : Live mixed dirs stream c.job c.conn) (hreq : c.job.request = .put)
    (hhead : c.job.state ≠ .readHeader) (herr : c.job.state ≠ .error)
    (hopen : c.conn.closed = false) (has : ∀ a ∈ c.conn.answers, a.Moves)
    (hfuel : c.conn.answers.length < fuel) : Ends mixed dirs stream c (serve msgs fuel t c) := by
  have hserve : serve msgs fuel t c = served ((upload msgs fuel c).next put_done).result := by
    rw [serve_eq, handle_put hreq, put_eq herr]
  rw [hserve]
  cases h with
  | heading h => exact absurd h.state hhead
  | receiving name _ hname hw hrec hout _ =>
    obtain ⟨p, hp⟩ : ∃ p, upload msgs fuel c = p := ⟨_, rfl⟩
    have hspec : Uploaded msgs stream name c p := hp ▸ upload_spec hrec hname has hfuel
    have hname' : c.job.filename.getD [] = name := by rw [hname, Option.getD_some]
    -- without a complete chunk the call leaves the server as it was
    have hquiet : ¬ GetsChunk c → ∃ ret c', p = .ok (some ret, c') ∧ c'.srv = c.srv := by
      intro hno
      obtain ⟨ret, c', hup, hsrv⟩ : ∃ ret c', upload msgs fuel c = .ok (some ret, c') ∧
          c'.srv = c.srv := upload_quiet hrec has hno (by omega)
      exact ⟨ret, c', hp.symm.trans hup, hsrv⟩
    have htouches : ∀ {ret : Ret} {c' : Ctx}, p = .ok (some ret, c') →
        c.srv.disk.Only name c'.srv.disk → Touches c c' := by
      intro ret c' hp' honly
      by_cases hgets : GetsChunk c
      · exact .inr ⟨⟨herr, .inr ⟨hreq, hgets⟩⟩, hname'.symm ▸ honly⟩
      · obtain ⟨_, c₂, hp₂, hsrv⟩ := hquiet hgets
        rw [hp'] at hp₂
        obtain ⟨-, rfl⟩ := Prod.mk.inj (Except.ok.inj hp₂)
        exact .inl (hsrv ▸ rfl)
    rw [hp]
    cases hspec with
    | exits hst hno =>
      refine .put hreq (hrec.state_cases.resolve_right hst) ?_ (hname'.symm ▸ hno)
      by_contra hgets
      obtain ⟨_, _, hp₂, -⟩ := hquiet hgets
      exact absurd hp₂ (by simp)
    | waits ret c' hstops hup hrec' hstored hsrv hpaid =>
      have hne : c'.job.state ≠ .error := by
        rcases hrec'.state_cases with (h | h) | h <;> simp [h]
      rw [Phase.next_some]
      dsimp only [Phase.result, Option.getD_some]
      rw [served_of_ne hne]
      exact .ok c' (.receiving name (hup.request.trans hreq) (hup.filename.trans hname)
        (hup.writesz.trans hw) hrec' (hup.out.trans hout) (hup.closed.trans hopen))
        (.inr (hstops.imp And.right And.right)) (htouches rfl hup.disk) hup.request
    | bad c' hup hst hmsg hnot hgone hpaid =>
      have hw' : c'.job.writesz = 0 := hup.writesz.trans hw
      have hlen := three_le_errText c'.job
      rw [Phase.next_some]
      refine ends_failed hst (by omega) (.inr ?_) (hup.closed.trans hopen)
        (fun a ha => has a (hup.answers.subset ha)) (htouches rfl hup.disk) hup.request hup.answers
      rw [hw', List.take_zero, hup.out, hout]
    | good c' hup hst hyes hsz hcontent hpaid =>
      have hw' : c'.job.writesz = 0 := hup.writesz.trans hw
      have hout' : c'.conn.out = (ascii "OK\n").take c'.job.writesz := by
        rw [hw', List.take_zero, hup.out, hout]
      obtain ⟨c₂, hdone, hlive, hrests, hdisk, hreq₂, hne⟩ : ∃ c₂,
          put_done c' = .ok (some .ok, c₂) ∧ Live mixed dirs stream c₂.job c₂.conn ∧
          Rests c' c₂ ∧ c₂.srv.disk = c'.srv.disk ∧ c₂.job.request = .put ∧
          c₂.job.state ≠ .error :=
        put_done_live (hup.request.trans hreq) (by omega) hout' (hup.closed.trans hopen)
          (fun a ha => has a (hup.answers.subset ha))
      rw [Phase.next_none, hdone]
      dsimp only [Phase.result, Option.getD_some]
      rw [served_of_ne hne]
      have hgets : GetsChunk c := by
        by_contra hno
        obtain ⟨_, _, hp₂, -⟩ := hquiet hno
        exact absurd hp₂ (by simp)
      refine .ok c₂ hlive ?_ (.inr ⟨⟨herr, .inr ⟨hreq, hgets⟩⟩, ?_⟩) (hreq₂.trans hreq.symm)
      · exact hrests.imp_right (Or.imp_right (fun hf => hup.answers.subset hf))
      · rw [hname', hdisk]
        exact hup.disk
  | serving h =>
    rcases h with h | h | h <;> exact absurd (hreq.symm.trans h) (by decide)
  | response _ hst hw hd hfd hout _ =>
    -- nothing is left to be read
    have hup : upload msgs fuel c = .ok (none, c) := by
      obtain ⟨fuel, rfl⟩ := Nat.exists_eq_add_one_of_ne_zero (show fuel ≠ 0 by omega)
      unfold upload
      rw [whenState_neg (by simp [hst]), Phase.next_none, whenState_neg (by simp [hst]),
        Phase.next_none, put_data, if_pos (by simp [hst])]
    obtain ⟨c₂, hdone, hlive, hrests, hdisk, hreq₂, hne⟩ : ∃ c₂,
        put_done c = .ok (some .ok, c₂) ∧ Live mixed dirs stream c₂.job c₂.conn ∧ Rests c c₂ ∧
        c₂.srv.disk = c.srv.disk ∧ c₂.job.request = .put ∧ c₂.job.state ≠ .error :=
      put_done_live hreq hw hout hopen has
    rw [hup, Phase.next_none, hdone]
    dsimp only [Phase.result, Option.getD_some]
    rw [served_of_ne hne]
    exact .ok c₂ hlive hrests (.inl hdisk) (hreq₂.trans hreq.symm)
  | size h => rcases h with h | h <;> exact absurd (hreq.symm.trans h) (by decide)
  | list h => exact absurd (hreq.symm.trans h) (by decide)
  | get h => exact absurd (hreq.symm.trans h) (by decide)
  | failed hst => exact absurd hst herr
  | done _ hclosed => exact absurd (hopen.symm.trans hclosed) (by decide)

/-- **A call of a handler**, and the answer to a request that has failed. -/
theorem serve_live (h : Live mixed dirs stream c.job c.conn) (hhead : c.job.state ≠ .readHeader)
    (hopen : c.conn.closed = false) (has : ∀ a ∈ c.conn.answers, a.Moves)
    (hfuel : c.conn.answers.length + 2 ≤ fuel)
    (hmixed : c.job.request = .delete → c.job.state = .writeResponse → mixed)
    (hdirs : c.job.request = .get → c.job.state = .serving →
      c.srv.disk.lookup (c.job.filename.getD []) = .dir → c.srv.disk.dirSize = 0 ∨ dirs) :
    Ends mixed dirs stream c (serve msgs fuel t c) := by
  by_cases herr : c.job.state = .error
  · cases h with
    | failed _ hw hout _ =>
      rw [serve_error herr]
      exact (write_err_live herr hw hout hopen has).ends (.inl rfl) rfl List.suffix_rfl
    | heading h => exact absurd h.state hhead
    | receiving _ _ _ _ hrec => rcases hrec.state_cases with (h | h) | h <;> simp [h] at herr
    | serving _ hst => simp [hst] at herr
    | response _ hst => simp [hst] at herr
    | size _ hst => simp [hst] at herr
    | list _ hst => simp [hst] at herr
    | get _ hst => simp [hst] at herr
    | done hst => simp [hst] at herr
  · cases hreq : c.job.request with
    | put => exact serve_put h hreq hhead herr hopen has (by omega)
    | list => exact serve_list h hreq hhead herr hopen has hfuel
    | get => exact serve_get h hreq hhead herr hopen has (by omega) (hdirs hreq)
    | delete => exact serve_delete h hreq hhead herr hopen has (hmixed hreq)
    | unknown =>
      -- only a header that was refused leaves this
      cases h with
      | heading h => exact absurd h.state hhead
      | receiving _ h => exact absurd (hreq.symm.trans h) (by decide)
      | serving h => rcases h with h | h | h <;> exact absurd (hreq.symm.trans h) (by decide)
      | response h => exact absurd hreq h
      | size h => rcases h with h | h <;> exact absurd (hreq.symm.trans h) (by decide)
      | list h => exact absurd (hreq.symm.trans h) (by decide)
      | get h => exact absurd (hreq.symm.trans h) (by decide)
      | failed hst => exact absurd hst herr
      | done _ hclosed => exact absurd (hopen.symm.trans hclosed) (by decide)

/-! ### Events -/

/-- The context in which the handler is called: the header is read first. -/
def headed (msgs : Messages) (t : Turn) (c : Ctx) : Ret × Ctx :=
  if c.job.state = .readHeader then read_header msgs t (c.begin t) else (.ok, c.begin t)

theorem event_eq (c : Ctx) : event msgs fuel t c = if (headed msgs t c).1 = .again then
    .ok (headed msgs t c).2 else serve msgs fuel t (headed msgs t c).2 := by
  obtain ⟨r, hr⟩ : ∃ r, headed msgs t c = r := ⟨_, rfl⟩
  rw [hr, event]
  rw [headed, Ctx.begin] at hr
  dsimp only
  rw [hr]
  obtain ⟨ret, c'⟩ := r
  cases ret <;> rfl

/-- What holds when the handler is called. -/
structure Headed (mixed dirs : Prop) (stream : List UInt8) (t : Turn) (c : Ctx) (r : Ret × Ctx) :
    Prop where
  srv : r.2.srv = c.srv
  answers : r.2.conn.answers <:+ t.answers
  opened : r.2.conn.closed = false
  live : Live mixed dirs stream r.2.job r.2.conn
  again : r.1 = .again → r.2.conn.answers = [] ∧ r.2.job.state = .readHeader
  called : r.1 ≠ .again → r.2.job.state ≠ .readHeader

/-- **The header.** -/
theorem headed_live (msgs : Messages) (h : Live mixed dirs stream c.job c.conn)
    (hopen : c.conn.closed = false) (has : ∀ a ∈ t.answers, a.Moves) :
    Headed mixed dirs stream t c (headed msgs t c) := by
  unfold headed
  by_cases hst : c.job.state = .readHeader
  · rw [if_pos hst]
    cases h with
    | heading hhead hout _ =>
      obtain ⟨r, hr⟩ : ∃ r, read_header msgs t (c.begin t) = r := ⟨_, rfl⟩
      have hspec : HeaderTurn msgs stream (c.begin t) r := hr ▸ read_header_spec msgs t hhead has
      rw [hr]
      cases hspec with
      | again c' hro hhead' hdry hcap =>
        exact ⟨hro.srv, hro.answers, hro.closed.trans hopen,
          .heading hhead' (hro.out.trans hout) (hro.closed.trans hopen),
          fun _ => ⟨hdry, hhead'.state⟩, fun h => absurd rfl h⟩
      | bad ret c' hret hro hst' hreq hmsg hw hcause =>
        have hlt : c'.job.writesz < c'.job.errText.length := by
          have hthree := three_le_errText c'.job
          omega
        refine ⟨hro.srv, hro.answers, hro.closed.trans hopen, .failed hst' hlt (.inr ?_)
          (hro.closed.trans hopen), fun h => absurd h hret, fun _ => by simp [hst']⟩
        rw [hw, List.take_zero]
        exact hro.out.trans hout
      | ok c' p hro hjob hafter hwf hname hparse hcap =>
        have hout' : c'.conn.out = [] := hro.out.trans hout
        have hopen' : c'.conn.closed = false := hro.closed.trans hopen
        have hw' : c'.job.writesz = 0 := by
          rw [hjob]
          exact hhead.writesz
        have hd' : c'.job.datasz = 0 := by
          rw [hjob]
          exact hhead.datasz
        have hlive : Live mixed dirs stream c'.job c'.conn := by
          by_cases hput : p.1 = .put
          · obtain ⟨name, hn⟩ := Option.isSome_iff_exists.mp (hname (by rw [hput]; decide))
            refine .receiving name (by rw [hjob]; exact hput) (by rw [hjob]; exact hn) hw' ?_ hout'
              hopen'
            refine .size [] ?_ hafter (by rw [hjob]; rfl)
              (by rw [hjob]; exact Nat.zero_lt_succ 7) ?_
              hd'
            · rw [hjob]
              exact if_pos hput
            · rw [hjob]
              exact hhead.filesize
          · refine .serving ?_ (by rw [hjob]; exact if_neg hput) hw' hd' hout' hopen'
            have hknown := hwf.1
            rw [hjob]
            show p.1 = .get ∨ p.1 = .list ∨ p.1 = .delete
            cases hp : p.1 with
            | put => exact absurd hp hput
            | unknown => exact absurd hp hknown
            | _ => simp
        refine ⟨hro.srv, hro.answers, hopen', hlive, nofun, fun _ => ?_⟩
        rw [hjob]
        dsimp only
        split <;> simp
    | receiving _ _ _ _ hrec =>
      rcases hrec.state_cases with (h | h) | h <;> simp [h] at hst
    | serving _ h => simp [h] at hst
    | response _ h => simp [h] at hst
    | size _ h => simp [h] at hst
    | list _ h => simp [h] at hst
    | get _ h => simp [h] at hst
    | failed h => simp [h] at hst
    | done h => simp [h] at hst
  · rw [if_neg hst]
    refine ⟨rfl, List.suffix_rfl, hopen, ?_, nofun, fun _ => hst⟩
    -- the answers play no part in where a job is
    cases h with
    | heading h => exact absurd h.state hst
    | receiving name hreq hname hw hrec hout _ => exact .receiving name hreq hname hw hrec hout hopen
    | serving hreq hst hw hd hout _ => exact .serving hreq hst hw hd hout hopen
    | response hreq hst hw hd hfd hout _ => exact .response hreq hst hw hd hfd hout hopen
    | size hreq hst hw hd hfd hout _ => exact .size hreq hst hw hd hfd hout hopen
    | list hreq hst hw hd hout _ => exact .list hreq hst hw hd hout hopen
    | get hreq hst hsz hfd hmid hout _ => exact .get hreq hst hsz hfd hmid hout hopen
    | failed hst hw hout _ => exact .failed hst hw hout hopen
    | done _ hclosed => exact absurd (hopen.symm.trans hclosed) (by decide)

end SystemProgramming.Networking
