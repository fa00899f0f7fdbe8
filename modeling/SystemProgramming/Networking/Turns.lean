import SystemProgramming.Networking.Responses

namespace SystemProgramming.Networking

open SystemProgramming.Lib

/-!
# Turns of a job

What results about runs of one job share: the job as it begins to be served, the turns in
which nobody else touches its file and its socket has no error, and the small servers and
sockets on which those results are tried.
-/

variable {name : Name} {t : Turn} {msgs : Messages} {fuel : ℕ} {c : Ctx}

/-- A job for a file, as `read_header` leaves it. -/
def Job.serve (request : Verb) (name : Name) : Job :=
  { init_job with request := request, filename := some name, state := .serving }

/-- Between two turns nobody changes the file. -/
def Turn.Keeps (t : Turn) (name : Name) : Prop :=
  ∀ srv : Server, (t.others srv).disk.lookup name = srv.disk.lookup name ∧
    ∀ i, srv.disk.lookup name = .file i → (t.others srv).disk.data i = srv.disk.data i

/-- The turns of a job for which nobody else changes the file, on a socket without errors. -/
structure Quiet (name : Name) (turns : List Turn) : Prop where
  steady : ∀ t ∈ turns, ∀ a ∈ t.answers, a.Steady
  keeps : ∀ t ∈ turns, t.Keeps name

theorem Quiet.tail {turns : List Turn} (h : Quiet name (t :: turns)) : Quiet name turns :=
  ⟨fun t ht => h.steady t (List.mem_cons_of_mem _ ht),
    fun t ht => h.keeps t (List.mem_cons_of_mem _ ht)⟩

/-- Enough fuel for every turn. -/
theorem exists_fuel (turns : List Turn) : ∃ n, ∀ t ∈ turns, t.answers.length < n := by
  induction turns with
  | nil => exact ⟨0, by simp⟩
  | cons t turns ih =>
    obtain ⟨n, hn⟩ := ih
    refine ⟨max (t.answers.length + 1) n, fun u hu => ?_⟩
    rcases List.mem_cons.mp hu with rfl | hu
    · omega
    · have hturn := hn u hu
      omega

/-! ### The event of a job -/

/-- A context as a turn finds it. -/
def Ctx.begin (c : Ctx) (t : Turn) : Ctx := { c with conn := { c.conn with answers := t.answers } }

/-- The header was read in an earlier turn. -/
theorem event_of_read (h : c.job.state ≠ .readHeader) :
    event msgs fuel t c = serve msgs fuel t (c.begin t) := by
  unfold event
  dsimp only
  rw [if_neg h]
  rfl

/-- The header is read in this turn. -/
theorem event_of_header (h : c.job.state = .readHeader) : event msgs fuel t c =
    match read_header msgs t (c.begin t) with
    | (.again, c) => .ok c
    | (_, c) => serve msgs fuel t c := by
  unfold event
  dsimp only
  rw [if_pos h]
  rfl

/-- What the event loop makes of what a handler returns. -/
def served : Except Stop (Ret × Ctx) → Except Stop Ctx
  | .error e => .error e
  | .ok (.again, c) => .ok c
  | .ok (_, c) => if c.job.state = .error then .ok (write_err c).2 else .ok c

theorem serve_eq : serve msgs fuel t c = served (handle msgs fuel t c) := rfl

theorem served_ok (h : c.job.state ≠ .error) : served (.ok (.ok, c)) = .ok c := if_neg h

/-- What has not failed is left as it is. -/
theorem served_of_ne {r : Ret × Ctx} (h : r.2.job.state ≠ .error) : served (.ok r) = .ok r.2 := by
  obtain ⟨ret, c⟩ := r
  cases ret with
  | again => rfl
  | _ => exact if_neg h

theorem served_failed (h : c.job.state = .error) :
    served (.ok (.ok, c)) = .ok (write_err c).2 := if_pos h

/-- A request that has failed is answered, whatever it was. -/
theorem serve_error (h : c.job.state = .error) :
    serve msgs fuel t c = .ok (write_err c).2 := by
  have hhandle : handle msgs fuel t c = .ok (.ok, c) := by
    unfold handle put list handle_delete handle_get
    cases c.job.request <;> simp [h]
  unfold serve
  rw [hhandle]
  exact if_pos h

/-- A closed descriptor has no more turns. -/
theorem run_closed (h : c.conn.closed = true) (turns : List Turn) :
    run msgs fuel turns c = .ok c := by
  cases turns with
  | nil => rfl
  | cons => exact if_pos h

/-- A turn before which nobody was there. -/
theorem run_first (hopen : c.conn.closed = false) (hid : t.others = id) (turns : List Turn) :
    run msgs fuel (t :: turns) c = match event msgs fuel t c with
      | .error e => .error e
      | .ok c => run msgs fuel turns c := by
  rw [run, if_neg (by simp [hopen]), hid]
  rfl

/-! ### Small servers and sockets -/

/-- A server with one file. -/
def oneFile (name : Name) (content : List UInt8) : Server where
  disk := { place := id, entry := fun n => if n = name then .file 0 else .absent,
            data := fun _ => content, next := 1, dirSize := 4096 }
  file_list := [name]

/-- A connection on which nothing has been sent yet. -/
def Conn.fresh (stream : List UInt8) : Conn where
  inp := stream
  out := []
  answers := []
  closed := false

/-- A turn in which the socket takes `k` times one byte. -/
def bytewise (k : ℕ) : Turn := { answers := List.replicate k (.bytes 1) }

theorem quiet_bytewise (name : Name) (ks : List ℕ) : Quiet name (ks.map bytewise) := by
  constructor
  · intro t ht a ha
    obtain ⟨k, -, rfl⟩ := List.mem_map.mp ht
    obtain rfl := List.eq_of_mem_replicate ha
    exact Nat.one_pos
  · intro t ht srv
    obtain ⟨k, -, rfl⟩ := List.mem_map.mp ht
    exact ⟨rfl, fun _ _ => rfl⟩

theorem capacity_bytewise (k : ℕ) : capacity (bytewise k).answers = k := by
  unfold bytewise
  induction k with
  | zero => rfl
  | succ k ih => rw [List.replicate_succ, capacity_bytes, ih]

end SystemProgramming.Networking
