import SystemProgramming.Networking.Handlers

namespace SystemProgramming.Networking

open SystemProgramming.Lib

/-!
# `nonstop_networking/server.c` — what the response helpers write

On steady answers each of `write_response`, `write_size` and `write_err` writes the rest of
one piece: all of it, and the job goes to its next state, or a part of it, and `writesz`
remembers how much.  `ps` are the pieces that follow.
-/

variable {c : Ctx} {rem : List (List UInt8)}

/-- The piece `p` was written; `rest` are the answers left. -/
structure Wrote (c : Ctx) (p : List UInt8) (ps : List (List UInt8)) (rest : List Answer) : Prop where
  accept : accept c.conn.answers (p :: ps) = accept rest ps
  shorter : rest.length < c.conn.answers.length
  steady : ∀ a ∈ rest, a.Steady

/-- The socket was full after `offset` bytes of the piece `p`. -/
structure Full (c : Ctx) (p : List UInt8) (ps : List (List UInt8)) (offset : ℕ) : Prop where
  accept : accept c.conn.answers (p :: ps) = p.drop offset :: ps
  lt : offset < p.length

/-- The connection after `p` was written. -/
def Conn.sent (conn : Conn) (p : List UInt8) (rest : List Answer) : Conn :=
  { conn with out := conn.out ++ p, answers := rest }

@[simp] theorem Conn.out_sent (conn : Conn) (p : List UInt8) (rest : List Answer) :
    (conn.sent p rest).out = conn.out ++ p := rfl

@[simp] theorem Conn.answers_sent (conn : Conn) (p : List UInt8) (rest : List Answer) :
    (conn.sent p rest).answers = rest := rfl

@[simp] theorem Conn.closed_sent (conn : Conn) (p : List UInt8) (rest : List Answer) :
    (conn.sent p rest).closed = conn.closed := rfl

@[simp] theorem Conn.inp_sent (conn : Conn) (p : List UInt8) (rest : List Answer) :
    (conn.sent p rest).inp = conn.inp := rfl

/-- Nothing is lost or repeated when the socket is full. -/
theorem Full.out {p : List UInt8} {ps : List (List UInt8)} {offset : ℕ} (h : Full c p ps offset) :
    c.conn.out ++ p.take offset ++ (Lib.accept c.conn.answers (p :: ps)).flatten
      = c.conn.out ++ (p :: ps).flatten := by
  rw [h.accept, List.flatten_cons, List.flatten_cons, List.append_assoc,
    ← List.append_assoc (p.take offset), List.take_append_drop]

/-- **`writer`**, as the helpers use it. -/
theorem Conn.writer_cases {p : List UInt8} (has : ∀ a ∈ c.conn.answers, a.Steady) (hp : p ≠ [])
    (ps : List (List UInt8)) :
    (∃ rest, c.conn.writer p = (.ok, p.length, c.conn.sent p rest) ∧ Wrote c p ps rest) ∨
    ∃ offset, c.conn.writer p = (.again, offset, c.conn.sent (p.take offset) []) ∧
      Full c p ps offset := by
  rcases Conn.writer_spec has hp ps with ⟨rest, h1, h2, h3, h4⟩ | ⟨offset, h1, h2, h3⟩
  · exact .inl ⟨rest, h1, h2, h3, h4⟩
  · exact .inr ⟨offset, h1, h3, h2⟩

/-- **`write_size`** -/
theorem write_size_cases (has : ∀ a ∈ c.conn.answers, a.Steady) (hw : c.job.writesz < 8)
    (ps : List (List UInt8)) :
    (∃ rest, Wrote c ((leBytes 8 c.job.filesize).drop c.job.writesz) ps rest ∧
      write_size c = (.ok, { c with
        job := { c.job with
          writesz := 0, state := if c.job.filesize = 0 then .done else .writeData },
        conn := c.conn.sent ((leBytes 8 c.job.filesize).drop c.job.writesz) rest })) ∨
    ∃ offset, Full c ((leBytes 8 c.job.filesize).drop c.job.writesz) ps offset ∧
      write_size c = (.again, { c with
        job := { c.job with writesz := c.job.writesz + offset },
        conn := c.conn.sent (((leBytes 8 c.job.filesize).drop c.job.writesz).take offset) [] }) := by
  have hne : (leBytes 8 c.job.filesize).drop c.job.writesz ≠ [] :=
    List.ne_nil_of_length_pos (by rw [List.length_drop, length_leBytes]; omega)
  unfold write_size
  rcases Conn.writer_cases has hne ps with ⟨rest, h, hwrote⟩ | ⟨offset, h, hfull⟩
  · exact .inl ⟨rest, hwrote, by rw [h]⟩
  · exact .inr ⟨offset, hfull, by rw [h]⟩

/-- **`write_response`** -/
theorem write_response_cases (has : ∀ a ∈ c.conn.answers, a.Steady) (hw : c.job.writesz < 3)
    (ps : List (List UInt8)) :
    (∃ rest, Wrote c ((ascii "OK\n").drop c.job.writesz) ps rest ∧
      write_response c = (.ok,
        if c.job.request = .list ∨ c.job.request = .get then
          { c with job := { c.job with writesz := 0, state := .writeSize },
                   conn := c.conn.sent ((ascii "OK\n").drop c.job.writesz) rest }
        else
          { c with job := { c.job with writesz := 0, state := .done },
                   conn := { c.conn.sent ((ascii "OK\n").drop c.job.writesz) rest with
                     closed := true } })) ∨
    ∃ offset, Full c ((ascii "OK\n").drop c.job.writesz) ps offset ∧
      write_response c = (.again, { c with
        job := { c.job with writesz := c.job.writesz + offset },
        conn := c.conn.sent (((ascii "OK\n").drop c.job.writesz).take offset) [] }) := by
  have hne : (ascii "OK\n").drop c.job.writesz ≠ [] :=
    List.ne_nil_of_length_pos (by
      have hlen : (ascii "OK\n").length = 3 := by decide
      rw [List.length_drop, hlen]
      omega)
  unfold write_response
  rcases Conn.writer_cases has hne ps with ⟨rest, h, hwrote⟩ | ⟨offset, h, hfull⟩
  · refine .inl ⟨rest, hwrote, ?_⟩
    rw [h]
    dsimp only
    split <;> rfl
  · exact .inr ⟨offset, hfull, by rw [h]⟩

/-! ### The last piece of a reply -/

/-- How the last piece of a reply may be written: the job is done and its descriptor closed,
    or a part of the piece is left. -/
inductive Replied (text : List UInt8) (c : Ctx) : Ret × Ctx → Prop
  | done (as : List Answer) (hsub : as <:+ c.conn.answers) : Replied text c (.ok, { c with
      job := { c.job with writesz := 0, state := .done },
      conn := { c.conn with out := c.conn.out ++ text.drop c.job.writesz, answers := as,
                            closed := true } })
  | waits (ret : Ret) (w : ℕ) (out : List UInt8) (as : List Answer)
      (hret : ret = .again ∧ as = [] ∨ ret = .err ∧ .fail ∈ c.conn.answers)
      (hsub : as <:+ c.conn.answers) (hle : c.job.writesz ≤ w) (hlt : w < text.length)
      (hout : out ++ text.drop w = c.conn.out ++ text.drop c.job.writesz)
      (hcap : ret = .again → capacity c.conn.answers + c.job.writesz ≤ w) :
      Replied text c (ret, { c with
        job := { c.job with writesz := w }, conn := { c.conn with out := out, answers := as } })

/-- One `writer` of the rest of a text. -/
theorem replied_of_written {text : List UInt8} {r : Ret × ℕ × List Answer}
    (h : Written c.conn.answers (text.drop c.job.writesz) r) (hw : c.job.writesz < text.length) :
    Replied text c (r.1,
      match r.1 with
      | .ok => { c with
          job := { c.job with writesz := 0, state := .done },
          conn := { c.conn with
            out := c.conn.out ++ (text.drop c.job.writesz).take r.2.1, answers := r.2.2,
            closed := true } }
      | _ => { c with
          job := { c.job with writesz := c.job.writesz + r.2.1 },
          conn := { c.conn with
            out := c.conn.out ++ (text.drop c.job.writesz).take r.2.1, answers := r.2.2 } }) := by
  have hlen : (text.drop c.job.writesz).length = text.length - c.job.writesz := List.length_drop
  have hout : ∀ k, c.conn.out ++ (text.drop c.job.writesz).take k ++ text.drop (c.job.writesz + k)
      = c.conn.out ++ text.drop c.job.writesz := by
    intro k
    rw [List.append_assoc, ← List.drop_drop, List.take_append_drop]
  cases h with
  | full as hsub hlt hcap =>
    dsimp only
    rw [List.take_length]
    exact .done as hsub
  | part k hlt hcap =>
    exact .waits .again _ _ [] (.inl ⟨rfl, rfl⟩) (by simp) (Nat.le_add_right _ _)
      (show c.job.writesz + k < text.length by omega) (hout k)
      (fun _ => show capacity c.conn.answers + c.job.writesz ≤ c.job.writesz + k by omega)
  | fail k as hlt hsub hfail =>
    exact .waits .err _ _ as (.inr ⟨rfl, hfail⟩) hsub (Nat.le_add_right _ _)
      (show c.job.writesz + k < text.length by omega) (hout k) (by simp)

/-- **`write_err`**, whatever the answers are. -/
theorem write_err_spec (has : ∀ a ∈ c.conn.answers, a.Moves)
    (hw : c.job.writesz < (ascii "ERROR\n" ++ c.job.errmsg).length) :
    Replied (ascii "ERROR\n" ++ c.job.errmsg) c (write_err c) := by
  obtain ⟨r, hr⟩ : ∃ r, writer c.conn.answers
      ((ascii "ERROR\n" ++ c.job.errmsg).drop c.job.writesz) = r := ⟨_, rfl⟩
  have h := replied_of_written (hr ▸ writer_written has) hw
  unfold write_err Conn.writer
  rw [hr]
  obtain ⟨ret, offset, as⟩ := r
  cases ret <;> exact h

/-- **`write_response`** for a request whose reply is `"OK\n"`, whatever the answers are. -/
theorem write_response_spec (hreq : ¬ (c.job.request = .list ∨ c.job.request = .get))
    (has : ∀ a ∈ c.conn.answers, a.Moves) (hw : c.job.writesz < 3) :
    Replied (ascii "OK\n") c (write_response c) := by
  obtain ⟨r, hr⟩ : ∃ r, writer c.conn.answers ((ascii "OK\n").drop c.job.writesz) = r := ⟨_, rfl⟩
  have h := replied_of_written (hr ▸ writer_written has)
    (show c.job.writesz < (ascii "OK\n").length from hw)
  unfold write_response Conn.writer
  rw [hr]
  obtain ⟨ret, offset, as⟩ := r
  cases ret with
  | ok =>
    dsimp only
    rw [if_neg hreq]
    exact h
  | _ => exact h

/-! ### Phases -/

@[simp] theorem Phase.next_none (c : Ctx) (f : Ctx → Phase) : Phase.next (.ok (none, c)) f = f c :=
  rfl

@[simp] theorem Phase.next_some (ret : Ret) (c : Ctx) (f : Ctx → Phase) :
    Phase.next (.ok (some ret, c)) f = .ok (some ret, c) := rfl

@[simp] theorem Phase.next_error (e : Stop) (f : Ctx → Phase) :
    Phase.next (.error e) f = .error e := rfl

/-- Phases can be taken from the right. -/
theorem Phase.next_assoc (p : Phase) (f g : Ctx → Phase) :
    (p.next f).next g = p.next (fun c => (f c).next g) := by
  unfold Phase.next
  cases p with
  | error e => rfl
  | ok r =>
    obtain ⟨ret, c⟩ := r
    cases ret <;> rfl

theorem whenState_pos {st : State} {f : Ctx → Phase} (h : c.job.state = st) :
    whenState st f c = f c := if_pos h

theorem whenState_neg {st : State} {f : Ctx → Phase} (h : c.job.state ≠ st) :
    whenState st f c = .ok (none, c) := if_neg h

/-! ### A reply in pieces -/

/-- What a handler leaves alone while it sends. -/
structure Same (c c' : Ctx) : Prop where
  srv : c'.srv = c.srv
  request : c'.job.request = c.job.request
  filename : c'.job.filename = c.job.filename
  closed : c'.conn.closed = c.conn.closed

theorem Same.refl (c : Ctx) : Same c c := ⟨rfl, rfl, rfl, rfl⟩

theorem Same.trans {c₁ c₂ c₃ : Ctx} (h : Same c₁ c₂) (h' : Same c₂ c₃) : Same c₁ c₃ :=
  ⟨h'.srv.trans h.srv, h'.request.trans h.request, h'.filename.trans h.filename,
    h'.closed.trans h.closed⟩

/-- How a turn of a handler may end that had the pieces `rem` left to send: they are sent, or
    the job remembers what is left of them, which `Left` says how. -/
inductive Took (Left : Job → List (List UInt8) → Prop) (c : Ctx) (rem : List (List UInt8)) :
    Option Ret × Ctx → Prop
  | all (c' : Ctx) (hsame : Same c c') (hacc : accept c.conn.answers rem = [])
      (hst : c'.job.state = .done) (hout : c'.conn.out = c.conn.out ++ rem.flatten) :
      Took Left c rem (none, c')
  | part (c' : Ctx) (hsame : Same c c') (hne : accept c.conn.answers rem ≠ [])
      (hleft : Left c'.job (accept c.conn.answers rem))
      (hout : c'.conn.out ++ (accept c.conn.answers rem).flatten = c.conn.out ++ rem.flatten) :
      Took Left c rem (some .again, c')

variable {Left : Job → List (List UInt8) → Prop} {c₁ : Ctx} {r : Option Ret × Ctx}

/-- A piece is sent, and then the others. -/
theorem Took.cons {p : List UInt8} (h : Took Left c₁ rem r) (hsame : Same c c₁)
    (hout : c₁.conn.out = c.conn.out ++ p)
    (hacc : accept c.conn.answers (p :: rem) = accept c₁.conn.answers rem) :
    Took Left c (p :: rem) r := by
  cases h with
  | all c' hs ha hst ho =>
    refine .all c' (hsame.trans hs) (hacc.trans ha) hst ?_
    rw [ho, hout, List.flatten_cons, List.append_assoc]
  | part c' hs hne hleft ho =>
    refine .part c' (hsame.trans hs) (hacc ▸ hne) (hacc ▸ hleft) ?_
    rw [hacc, ho, hout, List.flatten_cons, List.append_assoc]

/-- The connection has not changed since the turn began. -/
theorem Took.of_same (h : Took Left c₁ rem r) (hsame : Same c c₁) (hconn : c₁.conn = c.conn) :
    Took Left c rem r := by
  cases h with
  | all c' hs ha hst ho => exact .all c' (hsame.trans hs) (hconn ▸ ha) hst (hconn ▸ ho)
  | part c' hs hne hleft ho =>
    exact .part c' (hsame.trans hs) (hconn ▸ hne) (hconn ▸ hleft) (hconn ▸ ho)

/-- The socket was full within a piece. -/
theorem Took.full {p : List UInt8} {ps : List (List UInt8)} {offset : ℕ} {c' : Ctx}
    (h : Full c p ps offset) (hsame : Same c c') (hconn : c'.conn = c.conn.sent (p.take offset) [])
    (hleft : Left c'.job (p.drop offset :: ps)) : Took Left c (p :: ps) (some .again, c') := by
  refine .part c' hsame (by simp [h.accept]) (h.accept ▸ hleft) ?_
  rw [hconn]
  exact h.out

/-- **The size**, and what a handler does behind it. -/
theorem took_size {loop : Ctx → Phase} {ps : List (List UInt8)}
    (has : ∀ a ∈ c.conn.answers, a.Steady) (hst : c.job.state = .writeSize) (hw : c.job.writesz < 8)
    (hleft : ∀ w, c.job.writesz ≤ w → w < 8 →
      Left { c.job with writesz := w } ((leBytes 8 c.job.filesize).drop w :: ps))
    (hloop : ∀ rest, rest.length < c.conn.answers.length → (∀ a ∈ rest, a.Steady) →
      ∀ c₁ : Ctx, c₁ = { c with
        job := { c.job with
          writesz := 0, state := if c.job.filesize = 0 then .done else .writeData },
        conn := c.conn.sent ((leBytes 8 c.job.filesize).drop c.job.writesz) rest } →
      ∃ r, loop c₁ = .ok r ∧ Took Left c₁ ps r) :
    ∃ r, (whenState .writeSize (fun c => checked (write_size c)) c).next loop = .ok r ∧
      Took Left c ((leBytes 8 c.job.filesize).drop c.job.writesz :: ps) r := by
  rw [whenState_pos hst]
  rcases write_size_cases has hw ps with ⟨rest, hwrote, hres⟩ | ⟨offset, hfull, hres⟩
  · rw [hres]
    obtain ⟨r, hr, htook⟩ := hloop rest hwrote.shorter hwrote.steady _ rfl
    exact ⟨r, hr, htook.cons ⟨rfl, rfl, rfl, rfl⟩ rfl hwrote.accept⟩
  · have hlt := hfull.lt
    rw [List.length_drop, length_leBytes] at hlt
    have h := hleft (c.job.writesz + offset) (Nat.le_add_right _ _) (by omega)
    rw [← List.drop_drop] at h
    rw [hres]
    exact ⟨_, rfl, .full hfull ⟨rfl, rfl, rfl, rfl⟩ rfl h⟩

/-- **The response** of a LIST or a GET, and what a handler does behind it. -/
theorem took_response {loop : Ctx → Phase} {ps : List (List UInt8)}
    (has : ∀ a ∈ c.conn.answers, a.Steady) (hreq : c.job.request = .list ∨ c.job.request = .get)
    (hst : c.job.state = .writeResponse) (hw : c.job.writesz < 3)
    (hleft : ∀ w, c.job.writesz ≤ w → w < 3 →
      Left { c.job with writesz := w } ((ascii "OK\n").drop w :: ps))
    (hloop : ∀ rest, rest.length < c.conn.answers.length → (∀ a ∈ rest, a.Steady) →
      ∀ c₁ : Ctx, c₁ = { c with
        job := { c.job with writesz := 0, state := .writeSize },
        conn := c.conn.sent ((ascii "OK\n").drop c.job.writesz) rest } →
      ∃ r, loop c₁ = .ok r ∧ Took Left c₁ ps r) :
    ∃ r, (whenState .writeResponse (fun c => checked (write_response c)) c).next loop = .ok r ∧
      Took Left c ((ascii "OK\n").drop c.job.writesz :: ps) r := by
  have hlen : (ascii "OK\n").length = 3 := by decide
  rw [whenState_pos hst]
  rcases write_response_cases has hw ps with ⟨rest, hwrote, hres⟩ | ⟨offset, hfull, hres⟩
  · rw [hres, if_pos hreq]
    obtain ⟨r, hr, htook⟩ := hloop rest hwrote.shorter hwrote.steady _ rfl
    exact ⟨r, hr, htook.cons ⟨rfl, rfl, rfl, rfl⟩ rfl hwrote.accept⟩
  · have hlt := hfull.lt
    rw [List.length_drop, hlen] at hlt
    have h := hleft (c.job.writesz + offset) (Nat.le_add_right _ _) (by omega)
    rw [← List.drop_drop] at h
    rw [hres]
    exact ⟨_, rfl, .full hfull ⟨rfl, rfl, rfl, rfl⟩ rfl h⟩

end SystemProgramming.Networking
