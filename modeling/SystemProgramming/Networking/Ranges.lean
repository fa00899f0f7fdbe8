import SystemProgramming.Networking.Turns

namespace SystemProgramming.Networking

open SystemProgramming.Lib

/-!
# `nonstop_networking/server.c` — the lengths and the indices

The functions of the server take `readsz` and `writesz` off the length of what they read and
write, and use them as indices into `buf`.  Both counters are shared by all the states of a job.
Here every such difference and index is written down where the code evaluates it, and no
difference wraps, whatever the client sends and whatever the kernel answers, errors and empty
answers included.

* `event_checks` — the differences and indices that one event evaluates.
* `InRange` — what `readsz` and `writesz` are in each state.
* `Sound` — what a phase of a handler keeps and evaluates, and how phases are put together.
* `event_ok` — an event keeps the ranges, and evaluates nothing out of range.
* `run_checks_ok` — so do all events of a job.
-/

/-- What is evaluated: a remaining length, or an index into `buf`. -/
inductive Check
  | length (minuend subtrahend : ℕ)
  | index (i : ℕ)
  deriving DecidableEq

/-- The difference does not wrap; the index is one of `buf`. -/
def Check.Ok : Check → Prop
  | length minuend subtrahend => subtrahend ≤ minuend
  | index i => i < 1024

/-- The bytes of `buf` that are written when `n` of them are read from offset `off` on. -/
def indices (off n : ℕ) : List Check := (List.range n).map (fun i => .index (off + i))

/-! ### What the functions evaluate -/

def write_err_checks (c : Ctx) : List Check :=
  [.length (ascii "ERROR\n" ++ c.job.errmsg).length c.job.writesz]

def write_response_checks (c : Ctx) : List Check := [.length 3 c.job.writesz]

def write_size_checks (c : Ctx) : List Check := [.length 8 c.job.writesz]

/-- The loop of `get_header`. -/
def get_header_checks : ℕ → UInt8 → Conn → ℕ → List Check
  | 0, _, _, _ => []
  | fuel + 1, a, conn, size =>
    match conn.reader 1 with
    | (.ok, data, conn) =>
      let a := data.headD a
      .index size ::
        if 262 < size + 1 then []
        -- the terminator goes over the newline
        else if a = 10 then [.index size]
        else get_header_checks fuel a conn (size + 1)
    | _ => []

def read_header_checks (t : Turn) (c : Ctx) : List Check :=
  if c.job.state = .error then []
  else get_header_checks (263 - c.job.readsz) t.stack c.conn c.job.readsz

def put_size_checks (c : Ctx) : List Check := [.length 8 c.job.readsz]

def put_read_checks (c : Ctx) : List Check :=
  .length 1024 c.job.readsz :: indices c.job.readsz (c.conn.reader (1024 - c.job.readsz)).2.1.length

/-- The loop in `READ_DATA`. -/
def put_data_checks (msgs : Messages) : ℕ → Ctx → List Check
  | 0, _ => []
  | fuel + 1, c =>
    if c.job.state ≠ .readData then []
    else
      put_read_checks c ++
        match put_read c with
        | (.ok, c) =>
          let disk := c.srv.disk.extend (c.job.filename.getD []) (c.job.buf.take c.job.readsz)
          let datasz := c.job.datasz + c.job.readsz
          let c := { c with
            srv := { c.srv with disk := disk }, job := { c.job with datasz := datasz } }
          if c.job.filesize < datasz then []
          else if datasz < c.job.filesize ∧ c.job.readsz < 1024 then []
          else
            let state := if datasz = c.job.filesize then .done else .readData
            put_data_checks msgs fuel
              { c with job := { c.job with state := state, buf := zeros, readsz := 0 } }
        | _ => []

/-- What is evaluated behind a phase, if the handler goes on. -/
def Phase.checks (p : Phase) (f : Ctx → List Check) : List Check :=
  match p with
  | .ok (none, c) => f c
  | _ => []

/-- What a phase evaluates that runs in one state only. -/
def whenChecks (st : State) (f : Ctx → List Check) (c : Ctx) : List Check :=
  if c.job.state = st then f c else []

def put_checks (msgs : Messages) (fuel : ℕ) (c : Ctx) : List Check :=
  if c.job.state = .error then []
  else
    let size := whenState .readSize put_size c
    let serving := size.next (whenState .serving (put_serving msgs))
    let data := serving.next (put_data msgs fuel)
    whenChecks .readSize put_size_checks c ++
      size.checks (whenChecks .serving put_read_checks) ++
      serving.checks (put_data_checks msgs fuel) ++ data.checks write_response_checks

/-- The loop of `list` in `WRITE_DATA`. -/
def list_data_checks (flist : Mem) : ℕ → Ctx → List Check
  | 0, _ => []
  | fuel + 1, c =>
    if c.job.state ≠ .writeData then []
    else
      .length c.job.filesize c.job.writesz ::
        match c.conn.writer (memBytes flist c.job.writesz (c.job.filesize - c.job.writesz)) with
        | (.ok, offset, conn) =>
          let datasz := c.job.datasz + (c.job.writesz + offset)
          let state := if c.job.filesize ≤ datasz then .done else .writeData
          list_data_checks flist fuel { c with
            job := { c.job with writesz := 0, datasz := datasz, buf := zeros, state := state },
            conn := conn }
        | _ => []

def list_checks (fuel : ℕ) (t : Turn) (c : Ctx) : List Check :=
  if c.job.state = .error then []
  else
    let text := if c.job.state = .serving then joined c.srv.file_list else []
    let serving := whenState .serving list_serving c
    let response := serving.next (whenState .writeResponse (fun c => checked (write_response c)))
    let size := response.next (whenState .writeSize (fun c => checked (write_size c)))
    serving.checks (whenChecks .writeResponse write_response_checks) ++
      response.checks (whenChecks .writeSize write_size_checks) ++
      size.checks (list_data_checks (listMem t text) fuel)

def handle_delete_checks (msgs : Messages) (c : Ctx) : List Check :=
  if c.job.state = .error then []
  else
    match openfile msgs c with
    | (none, _) => []
    | (some _, c) =>
      match c.srv.disk.remove (c.job.filename.getD []) with
      | none => []
      | some _ => write_response_checks c

/-- The loop of `handle_get` in `WRITE_DATA`. -/
def get_data_checks : ℕ → Ctx → List Check
  | 0, _ => []
  | fuel + 1, c =>
    if c.job.state ≠ .writeData then []
    else
      match if c.job.writesz = 0 then get_read c else some c with
      | none => []
      | some c' =>
        (if c.job.writesz = 0 then indices 0 c'.job.readsz else []) ++
          .length c'.job.readsz c'.job.writesz ::
          match c'.conn.writer
              ((c'.job.buf.drop c'.job.writesz).take (c'.job.readsz - c'.job.writesz)) with
          | (.ok, offset, conn) =>
            let datasz := c'.job.datasz + (c'.job.writesz + offset)
            let state := if c'.job.filesize ≤ datasz then .done else .writeData
            get_data_checks fuel { c' with
              job := { c'.job with writesz := 0, datasz := datasz, buf := zeros, state := state },
              conn := conn }
          | _ => []

def handle_get_checks (msgs : Messages) (fuel : ℕ) (c : Ctx) : List Check :=
  if c.job.state = .error then []
  else
    let serving := whenState .serving (get_serving msgs) c
    let response := serving.next (whenState .writeResponse (fun c => checked (write_response c)))
    let size := response.next (whenState .writeSize (fun c => checked (write_size c)))
    serving.checks (whenChecks .writeResponse write_response_checks) ++
      response.checks (whenChecks .writeSize write_size_checks) ++
      size.checks (get_data_checks fuel)

def handle_checks (msgs : Messages) (fuel : ℕ) (t : Turn) (c : Ctx) : List Check :=
  match c.job.request with
  | .put => put_checks msgs fuel c
  | .list => list_checks fuel t c
  | .delete => handle_delete_checks msgs c
  | .get => handle_get_checks msgs fuel c
  | .unknown => []

def serve_checks (msgs : Messages) (fuel : ℕ) (t : Turn) (c : Ctx) : List Check :=
  handle_checks msgs fuel t c ++
    match handle msgs fuel t c with
    | .error _ => []
    | .ok (.again, _) => []
    | .ok (_, c) => if c.job.state = .error then write_err_checks c else []

/-- **What an event evaluates.** -/
def event_checks (msgs : Messages) (fuel : ℕ) (t : Turn) (c : Ctx) : List Check :=
  let c := { c with conn := { c.conn with answers := t.answers } }
  (if c.job.state = .readHeader then read_header_checks t c else []) ++
    match if c.job.state = .readHeader then read_header msgs t c else (.ok, c) with
    | (.again, _) => []
    | (_, c) => serve_checks msgs fuel t c

/-! ### The ranges -/

/-- What `readsz` and `writesz` are in a state. -/
def RangeIn (j : Job) : State → Prop
  | .readHeader => j.readsz ≤ 262 ∧ j.writesz = 0
  | .readSize => j.readsz ≤ 8 ∧ j.writesz = 0
  | .serving => j.readsz ≤ 1024 ∧ j.writesz = 0
  | .readData => j.readsz ≤ 1024 ∧ j.writesz = 0
  | .writeResponse => j.writesz ≤ 3
  | .writeSize => j.writesz ≤ 8 ∧ (j.request = .list ∨ j.request = .get)
  | .writeData => (j.request = .list ∧ j.writesz ≤ j.filesize) ∨
      (j.request = .get ∧ j.writesz ≤ j.readsz)
  | .done => j.writesz = 0
  | .error => j.writesz ≤ (ascii "ERROR\n" ++ j.errmsg).length

/-- The counters of a job are in the range of its state. -/
def InRange (j : Job) : Prop := RangeIn j j.state

theorem InRange.of {j : Job} {st : State} (h : j.state = st) (hj : RangeIn j st) : InRange j := by
  rwa [InRange, h]

theorem InRange.out {j : Job} {st : State} (hj : InRange j) (h : j.state = st) : RangeIn j st := by
  rwa [InRange, h] at hj

/-- A request that fails when no more than a response was written. -/
theorem InRange.failed {j : Job} (hst : j.state = .error) (hw : j.writesz ≤ 3) : InRange j := by
  have h6 : (ascii "ERROR\n").length = 6 := by decide
  refine InRange.of hst (show j.writesz ≤ _ from ?_)
  rw [List.length_append, h6]
  omega

variable {msgs : Messages} {fuel size off n : ℕ} {t : Turn} {c c' : Ctx} {p : Phase} {a : UInt8}
  {conn : Conn} {buf : List UInt8}

/-- A handler at work. -/
structure Working (request : Verb) (c : Ctx) : Prop where
  request : c.job.request = request
  range : InRange c.job
  state : c.job.state ≠ .error

/-- What a phase leaves, whether the handler returns or goes on, and what it evaluates. -/
structure Sound (request : Verb) (p : Phase) (ks : List Check) : Prop where
  kept : ∀ ret c, p = .ok (ret, c) → InRange c.job ∧ (ret = none → Working request c)
  checks : ∀ k ∈ ks, k.Ok

variable {request : Verb} {ks : List Check}

namespace Sound

/-- The handler returns. -/
theorem returns (ret : Ret) (hc : InRange c.job) : Sound request (.ok (some ret, c)) [] := by
  refine ⟨?_, by simp⟩
  rintro ret' c' h
  obtain ⟨rfl, rfl⟩ := Prod.mk.inj (Except.ok.inj h)
  exact ⟨hc, by simp⟩

/-- The handler goes on. -/
theorem continues (hc : Working request c) : Sound request (.ok (none, c)) [] := by
  refine ⟨?_, by simp⟩
  rintro ret' c' h
  obtain ⟨rfl, rfl⟩ := Prod.mk.inj (Except.ok.inj h)
  exact ⟨hc.range, fun _ => hc⟩

theorem stops (e : Stop) : Sound request (.error e) [] :=
  ⟨fun _ _ h => absurd h (by simp), by simp⟩

theorem append {ks' : List Check} (hks : ∀ k ∈ ks, k.Ok) (hp : Sound request p ks') :
    Sound request p (ks ++ ks') :=
  ⟨hp.kept, List.forall_mem_append.mpr ⟨hks, hp.checks⟩⟩

theorem cons {k : Check} (hk : k.Ok) (hp : Sound request p ks) : Sound request p (k :: ks) :=
  append (List.forall_mem_singleton.mpr hk) hp

theorem next {f : Ctx → Phase} {g : Ctx → List Check} (hp : Sound request p ks)
    (hf : ∀ c, Working request c → Sound request (f c) (g c)) :
    Sound request (p.next f) (ks ++ p.checks g) := by
  refine append hp.checks ?_
  unfold Phase.next Phase.checks
  split
  · rename_i c'
    exact hf c' ((hp.kept none c' rfl).2 rfl)
  · exact ⟨hp.kept, by simp⟩

theorem when {st : State} {f : Ctx → Phase} {g : Ctx → List Check} (hc : Working request c)
    (hf : c.job.state = st → Sound request (f c) (g c)) :
    Sound request (whenState st f c) (whenChecks st g c) := by
  unfold whenState whenChecks
  split
  · exact hf (by assumption)
  · exact continues hc

theorem result (hp : Sound request p ks) {ret : Ret} (h : p.result = .ok (ret, c)) :
    InRange c.job := by
  unfold Phase.result at h
  split at h
  · rename_i ret' c'
    obtain ⟨-, rfl⟩ := Prod.mk.inj (Except.ok.inj h)
    exact (hp.kept ret' c' rfl).1
  · cases h

theorem checked {r : Ret × Ctx} (hr : InRange r.2.job) (hst : r.2.job.state ≠ .error)
    (hreq : r.2.job.request = request) (hks : ∀ k ∈ ks, k.Ok) :
    Sound request (checked r) ks := by
  obtain ⟨ret, c⟩ := r
  cases ret with
  | ok => exact ⟨(continues ⟨hreq, hr, hst⟩).kept, hks⟩
  | _ => exact ⟨(returns _ hr).kept, hks⟩

end Sound

/-! ### What is read and written -/

theorem writer_le (as : List Answer) (buf : List UInt8) : (writer as buf).2.1 ≤ buf.length := by
  induction as generalizing buf with
  | nil => cases buf <;> exact Nat.zero_le _
  | cons a as ih =>
    cases buf with
    | nil => cases a <;> exact Nat.zero_le _
    | cons b buf =>
      cases a with
      | intr => exact ih (b :: buf)
      | fail => exact Nat.zero_le _
      | bytes k =>
        rw [writer]
        split
        · exact Nat.zero_le _
        · have hrest := ih ((b :: buf).drop k)
          rw [List.length_drop] at hrest
          show min k (b :: buf).length + (writer as ((b :: buf).drop k)).2.1 ≤ _
          omega

theorem reader_le (as : List Answer) (inp : List UInt8) (count : ℕ) :
    (reader as inp count).2.1.length ≤ count := by
  induction as generalizing inp count with
  | nil => cases count <;> exact Nat.zero_le _
  | cons a as ih =>
    cases count with
    | zero => cases a <;> exact Nat.zero_le _
    | succ count =>
      cases a with
      | intr => exact ih inp (count + 1)
      | fail => exact Nat.zero_le _
      | bytes k =>
        rw [reader]
        dsimp only
        split
        · exact Nat.zero_le _
        · have hrest := ih (inp.drop (inp.take (min k (count + 1))).length)
            (count + 1 - (inp.take (min k (count + 1))).length)
          have hgot := List.length_take_le (min k (count + 1)) inp
          rw [List.length_append]
          show _ + (reader as (inp.drop (inp.take (min k (count + 1))).length)
            (count + 1 - (inp.take (min k (count + 1))).length)).2.1.length ≤ _
          omega

theorem Conn.writer_le (conn : Conn) (buf : List UInt8) : (conn.writer buf).2.1 ≤ buf.length :=
  Networking.writer_le conn.answers buf

theorem Conn.reader_le (conn : Conn) (count : ℕ) : (conn.reader count).2.1.length ≤ count :=
  Networking.reader_le conn.answers conn.inp count

/-- What is written behind the first `k` of `n` bytes stays in the `n`. -/
theorem Conn.writer_room (conn : Conn) (buf : List UInt8) {k n : ℕ} (hk : k ≤ n)
    (hlen : buf.length ≤ n - k) : k + (conn.writer buf).2.1 ≤ n := by
  have hle := conn.writer_le buf
  omega

theorem indices_ok (h : off + n ≤ 1024) : ∀ k ∈ indices off n, k.Ok := by
  intro k hk
  obtain ⟨i, hi, rfl⟩ := List.mem_map.mp hk
  rw [List.mem_range] at hi
  show off + i < 1024
  omega

/-! ### Responses -/

theorem write_response_kept (hst : c.job.state = .writeResponse) (hw : c.job.writesz ≤ 3) :
    InRange (write_response c).2.job ∧ (write_response c).2.job.state ≠ .error ∧
      (write_response c).2.job.request = c.job.request := by
  have h3 : (ascii "OK\n").length = 3 := by decide
  have hroom := c.conn.writer_room ((ascii "OK\n").drop c.job.writesz) hw
    (by rw [List.length_drop, h3])
  unfold write_response
  obtain ⟨⟨ret, offset, conn⟩, hr⟩ : ∃ r, c.conn.writer ((ascii "OK\n").drop c.job.writesz) = r :=
    ⟨_, rfl⟩
  rw [hr] at hroom ⊢
  cases ret with
  | ok =>
    dsimp only
    split
    · rename_i hreq
      refine ⟨⟨Nat.zero_le _, ?_⟩, by simp, rfl⟩
      exact hreq
    · exact ⟨rfl, by simp [Ctx.close], rfl⟩
  | _ =>
    exact ⟨InRange.of hst hroom, by simp [hst], rfl⟩

theorem write_size_kept (hst : c.job.state = .writeSize) (hw : c.job.writesz ≤ 8)
    (hreq : c.job.request = .list ∨ c.job.request = .get) :
    InRange (write_size c).2.job ∧ (write_size c).2.job.state ≠ .error ∧
      (write_size c).2.job.request = c.job.request := by
  have hroom := c.conn.writer_room ((leBytes 8 c.job.filesize).drop c.job.writesz) hw
    (by rw [List.length_drop, length_leBytes])
  unfold write_size
  obtain ⟨⟨ret, offset, conn⟩, hr⟩ :
    ∃ r, c.conn.writer ((leBytes 8 c.job.filesize).drop c.job.writesz) = r := ⟨_, rfl⟩
  rw [hr] at hroom ⊢
  cases ret with
  | ok =>
    dsimp only
    split_ifs
    · exact ⟨rfl, by simp, rfl⟩
    · exact ⟨hreq.imp (fun h => ⟨h, Nat.zero_le _⟩) (fun h => ⟨h, Nat.zero_le _⟩), by simp, rfl⟩
  | _ => exact ⟨InRange.of hst ⟨hroom, hreq⟩, by simp [hst], rfl⟩

theorem write_err_kept (hst : c.job.state = .error) (hc : InRange c.job) :
    InRange (write_err c).2.job := by
  have hw : c.job.writesz ≤ (ascii "ERROR\n" ++ c.job.errmsg).length := hc.out hst
  have hroom := c.conn.writer_room ((ascii "ERROR\n" ++ c.job.errmsg).drop c.job.writesz) hw
    (by rw [List.length_drop])
  unfold write_err
  obtain ⟨⟨ret, offset, conn⟩, hr⟩ :
    ∃ r, c.conn.writer ((ascii "ERROR\n" ++ c.job.errmsg).drop c.job.writesz) = r := ⟨_, rfl⟩
  rw [hr] at hroom ⊢
  cases ret with
  | ok => rfl
  | _ => exact InRange.of hst hroom

/-- The response of a handler. -/
theorem response_sound (hc : Working request c) :
    Sound request (whenState .writeResponse (fun c => checked (write_response c)) c)
      (whenChecks .writeResponse write_response_checks c) := by
  refine Sound.when hc (fun hst => ?_)
  have hw : c.job.writesz ≤ 3 := hc.range.out hst
  obtain ⟨h1, h2, h3⟩ := write_response_kept hst hw
  exact Sound.checked h1 h2 (h3.trans hc.request) (List.forall_mem_singleton.mpr hw)

/-- The size that a LIST and a GET announce. -/
theorem size_sound (hc : Working request c) :
    Sound request (whenState .writeSize (fun c => checked (write_size c)) c)
      (whenChecks .writeSize write_size_checks c) := by
  refine Sound.when hc (fun hst => ?_)
  have hw : c.job.writesz ≤ 8 ∧ (c.job.request = .list ∨ c.job.request = .get) := hc.range.out hst
  obtain ⟨h1, h2, h3⟩ := write_size_kept hst hw.1 hw.2
  exact Sound.checked h1 h2 (h3.trans hc.request) (List.forall_mem_singleton.mpr hw.1)

/-! ### The header -/

theorem get_header_ok (a : UInt8) (conn : Conn) (buf : List UInt8) (hfuel : fuel + size = 263)
    (hsize : size ≤ 262) :
    (∀ k ∈ get_header_checks fuel a conn size, k.Ok) ∧
      ((get_header fuel a conn buf size).1 = .again →
        (get_header fuel a conn buf size).2.2.2 ≤ 262) := by
  induction fuel generalizing a conn buf size with
  | zero => omega
  | succ fuel ih =>
    rw [get_header_checks, get_header]
    obtain ⟨⟨ret, data, conn'⟩, hr⟩ : ∃ r, conn.reader 1 = r := ⟨_, rfl⟩
    rw [hr]
    have hindex : Check.Ok (.index size) := show size < 1024 by omega
    cases ret with
    | ok =>
      dsimp only
      by_cases hlong : 262 < size + 1
      · rw [if_pos hlong, if_pos hlong]
        exact ⟨by simpa using hindex, by simp⟩
      · rw [if_neg hlong, if_neg hlong]
        by_cases hnl : data.headD a = 10
        · rw [if_pos hnl, if_pos hnl]
          exact ⟨by simpa using hindex, by simp⟩
        · rw [if_neg hnl, if_neg hnl]
          obtain ⟨h1, h2⟩ := ih (data.headD a) conn' (splice buf size [data.headD a])
            (show fuel + (size + 1) = 263 by omega) (by omega)
          exact ⟨List.forall_mem_cons.mpr ⟨hindex, h1⟩, h2⟩
    | again => exact ⟨by simp, fun _ => hsize⟩
    | err => exact ⟨by simp, by simp⟩
    | tooLong => exact ⟨by simp, by simp⟩

theorem read_header_kept (msgs : Messages) (t : Turn) (hc : InRange c.job)
    (hst : c.job.state = .readHeader) :
    (∀ k ∈ read_header_checks t c, k.Ok) ∧ InRange (read_header msgs t c).2.job := by
  have hr : c.job.readsz ≤ 262 ∧ c.job.writesz = 0 := hc.out hst
  obtain ⟨hchecks, hagain⟩ := get_header_ok t.stack c.conn c.job.buf
    (show 263 - c.job.readsz + c.job.readsz = 263 by omega) hr.1
  unfold read_header_checks read_header
  rw [if_neg (by simp [hst]), if_neg (by simp [hst])]
  obtain ⟨⟨ret, conn, buf, readsz⟩, hget⟩ :
    ∃ r, get_header (263 - c.job.readsz) t.stack c.conn c.job.buf c.job.readsz = r := ⟨_, rfl⟩
  rw [hget] at hagain ⊢
  refine ⟨hchecks, ?_⟩
  -- nothing of an answer was written yet
  have hbad : ∀ n, c.job.writesz ≤ n := fun n => by omega
  cases ret with
  | err => exact hbad _
  | tooLong => exact hbad _
  | again => exact InRange.of hst ⟨hagain rfl, hr.2⟩
  | ok =>
    dsimp only
    split
    · exact hbad _
    · split
      · exact hbad _
      · dsimp only
        split_ifs <;> exact ⟨Nat.zero_le _, hr.2⟩

/-! ### PUT -/

theorem put_size_sound (hc : Working .put c) :
    Sound .put (whenState .readSize put_size c) (whenChecks .readSize put_size_checks c) := by
  refine Sound.when hc (fun hst => ?_)
  have hr : c.job.readsz ≤ 8 ∧ c.job.writesz = 0 := hc.range.out hst
  have hle := c.conn.reader_le (8 - c.job.readsz)
  refine Sound.cons hr.1 ?_
  unfold put_size
  obtain ⟨⟨ret, data, conn⟩, hread⟩ : ∃ r, c.conn.reader (8 - c.job.readsz) = r := ⟨_, rfl⟩
  rw [hread] at hle ⊢
  have hroom : c.job.readsz + data.length ≤ 8 := by
    dsimp only at hle
    omega
  cases ret with
  | ok => exact Sound.continues ⟨hc.request, ⟨Nat.zero_le _, hr.2⟩, by simp⟩
  | _ => exact Sound.returns _ (InRange.of hst ⟨hroom, hr.2⟩)

/-- What stays as it is when the body is read. -/
structure PutRead (c c' : Ctx) : Prop where
  request : c'.job.request = c.job.request
  state : c'.job.state = c.job.state
  writesz : c'.job.writesz = c.job.writesz
  readsz : c'.job.readsz ≤ 1024

theorem put_read_inRange (hr : c.job.readsz ≤ 1024) :
    PutRead c (put_read c).2 ∧ ∀ k ∈ put_read_checks c, k.Ok := by
  have hle := c.conn.reader_le (1024 - c.job.readsz)
  refine ⟨⟨rfl, rfl, rfl, ?_⟩, List.forall_mem_cons.mpr ⟨hr, indices_ok (by omega)⟩⟩
  show c.job.readsz + (c.conn.reader (1024 - c.job.readsz)).2.1.length ≤ 1024
  omega

/-- A chunk was stored, and it was the last one or not. -/
theorem working_chunk {last : Prop} [Decidable last] (hreq : c.job.request = request)
    (hst : c.job.state = if last then .done else .readData) (hw : c.job.writesz = 0)
    (hr : c.job.readsz = 0) : Working request c := by
  by_cases h : last
  · rw [if_pos h] at hst
    exact ⟨hreq, InRange.of hst hw, by simp [hst]⟩
  · rw [if_neg h] at hst
    exact ⟨hreq, InRange.of hst ⟨by omega, hw⟩, by simp [hst]⟩

theorem put_serving_sound (msgs : Messages) (hc : Working .put c) :
    Sound .put (whenState .serving (put_serving msgs) c) (whenChecks .serving put_read_checks c) := by
  refine Sound.when hc (fun hst => ?_)
  have hr : c.job.readsz ≤ 1024 ∧ c.job.writesz = 0 := hc.range.out hst
  obtain ⟨hread, hchecks⟩ := put_read_inRange hr.1
  refine ⟨(show Sound .put (put_serving msgs c) [] from ?_).kept, hchecks⟩
  unfold put_serving
  obtain ⟨⟨ret, c₁⟩, hr₁⟩ : ∃ r, put_read c = r := ⟨_, rfl⟩
  rw [hr₁] at hread ⊢
  have hw : c₁.job.writesz = 0 := hread.writesz.trans hr.2
  cases ret with
  | ok =>
    dsimp only
    split
    · exact Sound.stops _
    · split
      · exact Sound.returns _ (InRange.failed rfl (by show c₁.job.writesz ≤ 3; omega))
      · split
        · exact Sound.returns _ (InRange.failed rfl (by show c₁.job.writesz ≤ 3; omega))
        · exact Sound.continues (working_chunk (hread.request.trans hc.request) rfl hw rfl)
  | _ => exact Sound.returns _ (InRange.of (hread.state.trans hst) ⟨hread.readsz, hw⟩)

/-- The loop over the chunks. -/
theorem put_data_sound (msgs : Messages) (fuel : ℕ) (hc : Working .put c) :
    Sound .put (put_data msgs fuel c) (put_data_checks msgs fuel c) := by
  induction fuel generalizing c with
  | zero => exact Sound.stops _
  | succ fuel ih =>
    rw [put_data, put_data_checks]
    by_cases hst : c.job.state = .readData
    · have hr : c.job.readsz ≤ 1024 ∧ c.job.writesz = 0 := hc.range.out hst
      obtain ⟨hread, hchecks⟩ := put_read_inRange hr.1
      rw [if_neg (not_not.mpr hst), if_neg (not_not.mpr hst)]
      refine Sound.append hchecks ?_
      obtain ⟨⟨ret, c₁⟩, hr₁⟩ : ∃ r, put_read c = r := ⟨_, rfl⟩
      rw [hr₁] at hread ⊢
      have hw : c₁.job.writesz = 0 := hread.writesz.trans hr.2
      cases ret with
      | ok =>
        dsimp only
        by_cases h1 : c₁.job.filesize < c₁.job.datasz + c₁.job.readsz
        · rw [if_pos h1, if_pos h1]
          exact Sound.returns _ (InRange.failed rfl (by show c₁.job.writesz ≤ 3; omega))
        · rw [if_neg h1, if_neg h1]
          by_cases h2 : c₁.job.datasz + c₁.job.readsz < c₁.job.filesize ∧ c₁.job.readsz < 1024
          · rw [if_pos h2, if_pos h2]
            exact Sound.returns _ (InRange.failed rfl (by show c₁.job.writesz ≤ 3; omega))
          · rw [if_neg h2, if_neg h2]
            exact ih (working_chunk (hread.request.trans hc.request) rfl hw rfl)
      | _ => exact Sound.returns _ (InRange.of (hread.state.trans hst) ⟨hread.readsz, hw⟩)
    · rw [if_pos hst, if_pos hst]
      exact Sound.continues hc

/-- What a PUT or a DELETE has written of its response. -/
theorem Working.response (hc : Working request c) (hreq : request = .put ∨ request = .delete) :
    c.job.writesz ≤ 3 := by
  have hr := hc.range
  cases hst : c.job.state with
  | error => exact absurd hst hc.state
  | readHeader => exact (hr.out hst).2.le.trans (by omega)
  | readSize => exact (hr.out hst).2.le.trans (by omega)
  | serving => exact (hr.out hst).2.le.trans (by omega)
  | readData => exact (hr.out hst).2.le.trans (by omega)
  | writeResponse => exact hr.out hst
  | done => exact (hr.out hst).le.trans (by omega)
  | writeSize =>
    have hno := (hr.out hst).2
    rw [hc.request] at hno
    rcases hreq with rfl | rfl <;> simp at hno
  | writeData =>
    have hno := hr.out hst
    unfold RangeIn at hno
    rw [hc.request] at hno
    rcases hreq with rfl | rfl <;> simp at hno

theorem put_done_sound (hc : Working .put c) :
    Sound .put (put_done c) (write_response_checks c) := by
  have hw := hc.response (.inl rfl)
  refine Sound.cons hw (Sound.returns _ (write_response_kept ?_ ?_).1)
  · rfl
  · exact hw

/-- **PUT** -/
theorem put_ok (msgs : Messages) (fuel : ℕ) (hc : Working .put c) :
    (∀ k ∈ put_checks msgs fuel c, k.Ok) ∧
      ∀ ret c', put msgs fuel c = .ok (ret, c') → InRange c'.job := by
  have hsound := (((put_size_sound hc).next (fun c hc => put_serving_sound msgs hc)).next
    (fun c hc => put_data_sound msgs fuel hc)).next (fun c hc => put_done_sound hc)
  unfold put put_checks
  rw [if_neg hc.state, if_neg hc.state]
  exact ⟨hsound.checks, fun ret c' h => hsound.result h⟩

/-! ### LIST -/

theorem list_serving_sound (hc : Working .list c) :
    Sound .list (whenState .serving list_serving c) [] := by
  have hsound : Sound .list (whenState .serving list_serving c)
      (whenChecks .serving (fun _ => []) c) := by
    refine Sound.when hc (fun hst => ?_)
    have hr : c.job.readsz ≤ 1024 ∧ c.job.writesz = 0 := hc.range.out hst
    have hw : c.job.writesz ≤ 3 := by omega
    unfold list_serving
    dsimp only
    split
    · exact Sound.stops _
    · exact Sound.continues ⟨hc.request, hw, by simp⟩
  exact ⟨hsound.kept, by simp⟩

/-- The loop over the list. -/
theorem list_data_sound (flist : Mem) (fuel : ℕ) (hc : Working .list c) :
    Sound .list (list_data flist fuel c) (list_data_checks flist fuel c) := by
  induction fuel generalizing c with
  | zero => exact Sound.stops _
  | succ fuel ih =>
    rw [list_data, list_data_checks]
    by_cases hst : c.job.state = .writeData
    · have hw : c.job.writesz ≤ c.job.filesize := by
        have hr := hc.range.out hst
        unfold RangeIn at hr
        simpa [hc.request] using hr
      have hroom := c.conn.writer_room
        (memBytes flist c.job.writesz (c.job.filesize - c.job.writesz)) hw
        (by rw [memBytes, List.length_map, List.length_range])
      rw [if_neg (not_not.mpr hst), if_neg (not_not.mpr hst)]
      refine Sound.cons hw ?_
      obtain ⟨⟨ret, offset, conn⟩, hr⟩ : ∃ r, c.conn.writer
        (memBytes flist c.job.writesz (c.job.filesize - c.job.writesz)) = r := ⟨_, rfl⟩
      rw [hr] at hroom ⊢
      cases ret with
      | ok =>
        dsimp only
        refine ih ?_
        by_cases hlast : c.job.filesize ≤ c.job.datasz + (c.job.writesz + offset)
        · simp only [if_pos hlast]
          exact ⟨hc.request, rfl, by simp⟩
        · simp only [if_neg hlast]
          exact ⟨hc.request, .inl ⟨hc.request, Nat.zero_le _⟩, by simp⟩
      | _ => exact Sound.returns _ (InRange.of hst (.inl ⟨hc.request, hroom⟩))
    · rw [if_pos hst, if_pos hst]
      exact Sound.continues hc

/-- The descriptor is closed at the end of a LIST and a GET. -/
theorem close_sound (hc : Working request c) : Sound request (.ok (some .ok, c.close)) [] :=
  Sound.returns _ hc.range

/-- **LIST** -/
theorem list_ok (fuel : ℕ) (t : Turn) (hc : Working .list c) :
    (∀ k ∈ list_checks fuel t c, k.Ok) ∧
      ∀ ret c', list fuel t c = .ok (ret, c') → InRange c'.job := by
  obtain ⟨flist, hflist⟩ : ∃ flist, listMem t
    (if c.job.state = .serving then joined c.srv.file_list else []) = flist := ⟨_, rfl⟩
  have hsound := ((((list_serving_sound hc).next (fun c hc => response_sound hc)).next
    (fun c hc => size_sound hc)).next (fun c hc => list_data_sound flist fuel hc))
  have hclosed := hsound.next (fun c hc => close_sound hc)
  unfold list list_checks
  rw [if_neg hc.state, if_neg hc.state]
  dsimp only
  rw [hflist]
  exact ⟨hsound.checks, fun ret c' h => hclosed.result h⟩

/-! ### DELETE -/

/-- A file that cannot be opened, before more than the response was written. -/
theorem openfile_failed {msgs : Messages} (h : openfile msgs c = (none, c'))
    (hw : c.job.writesz ≤ 3) : InRange c'.job := by
  unfold openfile at h
  split at h
  · cases h
  · obtain ⟨-, rfl⟩ := Prod.mk.inj h
    have h6 : (ascii "ERROR\n").length = 6 := by decide
    refine InRange.of rfl (show c.job.writesz ≤ _ from ?_)
    rw [List.length_append, h6]
    omega

theorem openfile_opened {msgs : Messages} {fd : Handle} (h : openfile msgs c = (some fd, c')) :
    c' = c := by
  unfold openfile at h
  split at h
  · exact (Prod.mk.inj h).2.symm
  · cases h

/-- **DELETE** -/
theorem handle_delete_ok (msgs : Messages) (t : Turn) (hc : Working .delete c) :
    (∀ k ∈ handle_delete_checks msgs c, k.Ok) ∧ InRange (handle_delete msgs t c).2.job := by
  have hw := hc.response (.inr rfl)
  unfold handle_delete handle_delete_checks
  rw [if_neg hc.state, if_neg hc.state]
  obtain ⟨⟨fd, c'⟩, hopen⟩ : ∃ r, openfile msgs c = r := ⟨_, rfl⟩
  rw [hopen]
  cases fd with
  | none => exact ⟨by simp, openfile_failed hopen hw⟩
  | some fd =>
    obtain rfl := openfile_opened hopen
    dsimp only
    cases c'.srv.disk.remove (c'.job.filename.getD []) with
    | none => exact ⟨by simp, InRange.failed rfl hw⟩
    | some disk =>
      refine ⟨List.forall_mem_singleton.mpr hw, (write_response_kept ?_ ?_).1⟩
      · rfl
      · exact hw

/-! ### GET -/

theorem get_serving_sound (msgs : Messages) (hc : Working .get c) :
    Sound .get (whenState .serving (get_serving msgs) c) [] := by
  have hsound : Sound .get (whenState .serving (get_serving msgs) c)
      (whenChecks .serving (fun _ => []) c) := by
    refine Sound.when hc (fun hst => ?_)
    have hr : c.job.readsz ≤ 1024 ∧ c.job.writesz = 0 := hc.range.out hst
    have hw : c.job.writesz ≤ 3 := by omega
    unfold get_serving
    obtain ⟨⟨fd, c₁⟩, hopen⟩ : ∃ r, openfile msgs c = r := ⟨_, rfl⟩
    rw [hopen]
    cases fd with
    | none => exact Sound.returns _ (openfile_failed hopen hw)
    | some fd =>
      obtain rfl := openfile_opened hopen
      exact Sound.continues ⟨hc.request, hw, by simp⟩
  exact ⟨hsound.kept, by simp⟩

/-- What is read from the file fits the buffer. -/
theorem get_read_inRange (h : get_read c = some c') : c'.job.readsz ≤ 1024 ∧
    c'.job.writesz = c.job.writesz ∧ c'.job.state = c.job.state ∧
    c'.job.request = c.job.request := by
  unfold get_read at h
  split at h
  · obtain rfl := Option.some.inj h
    exact ⟨List.length_take_le _ _, rfl, rfl, rfl⟩
  · cases h

/-- The loop over the file. -/
theorem get_data_sound (fuel : ℕ) (hc : Working .get c) :
    Sound .get (get_data fuel c) (get_data_checks fuel c) := by
  induction fuel generalizing c with
  | zero => exact Sound.stops _
  | succ fuel ih =>
    rw [get_data, get_data_checks]
    by_cases hst : c.job.state = .writeData
    · have hw : c.job.writesz ≤ c.job.readsz := by
        have hr := hc.range.out hst
        unfold RangeIn at hr
        simpa [hc.request] using hr
      rw [if_neg (not_not.mpr hst), if_neg (not_not.mpr hst)]
      -- what is in the buffer, read now or before
      have hbuf : ∀ c₁, (if c.job.writesz = 0 then get_read c else some c) = some c₁ →
          c₁.job.writesz ≤ c₁.job.readsz ∧ c₁.job.state = .writeData ∧ c₁.job.request = .get ∧
            ∀ k ∈ if c.job.writesz = 0 then indices 0 c₁.job.readsz else [], k.Ok := by
        intro c₁ h
        split at h
        · rename_i hzero
          obtain ⟨h1, h2, h3, h4⟩ := get_read_inRange h
          rw [if_pos hzero]
          exact ⟨by omega, h3.trans hst, h4.trans hc.request, indices_ok (by omega)⟩
        · rename_i hzero
          obtain rfl := Option.some.inj h
          rw [if_neg hzero]
          exact ⟨hw, hst, hc.request, by simp⟩
      obtain ⟨r, hr⟩ : ∃ r, (if c.job.writesz = 0 then get_read c else some c) = r := ⟨_, rfl⟩
      rw [hr] at hbuf ⊢
      cases r with
      | none => exact Sound.stops _
      | some c₁ =>
        obtain ⟨hw₁, hst₁, hreq₁, hindices⟩ := hbuf c₁ rfl
        refine Sound.append hindices (Sound.cons hw₁ ?_)
        have hroom := c₁.conn.writer_room
          ((c₁.job.buf.drop c₁.job.writesz).take (c₁.job.readsz - c₁.job.writesz)) hw₁
          (List.length_take_le _ _)
        dsimp only
        obtain ⟨⟨ret, offset, conn⟩, hr₁⟩ : ∃ r, c₁.conn.writer
          ((c₁.job.buf.drop c₁.job.writesz).take (c₁.job.readsz - c₁.job.writesz)) = r := ⟨_, rfl⟩
        rw [hr₁] at hroom ⊢
        cases ret with
        | ok =>
          dsimp only
          refine ih ?_
          by_cases hlast : c₁.job.filesize ≤ c₁.job.datasz + (c₁.job.writesz + offset)
          · simp only [if_pos hlast]
            exact ⟨hreq₁, rfl, by simp⟩
          · simp only [if_neg hlast]
            exact ⟨hreq₁, .inr ⟨hreq₁, Nat.zero_le _⟩, by simp⟩
        | _ => exact Sound.returns _ (InRange.of hst₁ (.inr ⟨hreq₁, hroom⟩))
    · rw [if_pos hst, if_pos hst]
      exact Sound.continues hc

/-- **GET** -/
theorem handle_get_ok (msgs : Messages) (fuel : ℕ) (hc : Working .get c) :
    (∀ k ∈ handle_get_checks msgs fuel c, k.Ok) ∧
      ∀ ret c', handle_get msgs fuel c = .ok (ret, c') → InRange c'.job := by
  have hsound := ((((get_serving_sound msgs hc).next (fun c hc => response_sound hc)).next
    (fun c hc => size_sound hc)).next (fun c hc => get_data_sound fuel hc))
  have hclosed := hsound.next (fun c hc => close_sound hc)
  unfold handle_get handle_get_checks
  rw [if_neg hc.state, if_neg hc.state]
  exact ⟨hsound.checks, fun ret c' h => hclosed.result h⟩

/-! ### Events and runs -/

/-- **A handler.** -/
theorem handle_ok (msgs : Messages) (fuel : ℕ) (t : Turn) (hc : InRange c.job) :
    (∀ k ∈ handle_checks msgs fuel t c, k.Ok) ∧
      ∀ ret c', handle msgs fuel t c = .ok (ret, c') → InRange c'.job := by
  by_cases hst : c.job.state = .error
  · -- nothing is done for a request that has failed
    have hhandle : handle msgs fuel t c = .ok (.ok, c) := by
      unfold handle put list handle_delete handle_get
      cases c.job.request <;> simp [hst]
    have hchecks : handle_checks msgs fuel t c = [] := by
      unfold handle_checks put_checks list_checks handle_delete_checks handle_get_checks
      cases c.job.request <;> simp [hst]
    rw [hhandle, hchecks]
    refine ⟨by simp, fun ret c' h => ?_⟩
    obtain ⟨-, rfl⟩ := Prod.mk.inj (Except.ok.inj h)
    exact hc
  · unfold handle handle_checks
    cases hreq : c.job.request with
    | put => exact put_ok msgs fuel ⟨hreq, hc, hst⟩
    | list => exact list_ok fuel t ⟨hreq, hc, hst⟩
    | delete =>
      obtain ⟨h1, h2⟩ := handle_delete_ok msgs t ⟨hreq, hc, hst⟩
      refine ⟨h1, fun ret c' h => ?_⟩
      rw [Except.ok.inj h] at h2
      exact h2
    | get => exact handle_get_ok msgs fuel ⟨hreq, hc, hst⟩
    | unknown =>
      refine ⟨by simp, fun ret c' h => ?_⟩
      obtain ⟨-, rfl⟩ := Prod.mk.inj (Except.ok.inj h)
      exact hc

theorem serve_ok (msgs : Messages) (fuel : ℕ) (t : Turn) (hc : InRange c.job) :
    (∀ k ∈ serve_checks msgs fuel t c, k.Ok) ∧
      ∀ c', serve msgs fuel t c = .ok c' → InRange c'.job := by
  obtain ⟨hchecks, hkept⟩ := handle_ok msgs fuel t hc
  unfold serve serve_checks
  rw [List.forall_mem_append]
  cases hh : handle msgs fuel t c with
  | error e => exact ⟨⟨hchecks, by simp⟩, fun c' h => by cases h⟩
  | ok r =>
    obtain ⟨ret, c₁⟩ := r
    have hc₁ := hkept ret c₁ hh
    -- the answer to a request that has failed
    have hend : (∀ k ∈ if c₁.job.state = .error then write_err_checks c₁ else [], k.Ok) ∧
        ∀ c', (if c₁.job.state = .error then Except.ok (write_err c₁).2 else .ok c₁ : Except Stop Ctx)
          = .ok c' → InRange c'.job := by
      split
      · rename_i hst
        refine ⟨List.forall_mem_singleton.mpr (hc₁.out hst), fun c' h => ?_⟩
        obtain rfl := Except.ok.inj h
        exact write_err_kept hst hc₁
      · refine ⟨by simp, fun c' h => ?_⟩
        obtain rfl := Except.ok.inj h
        exact hc₁
    cases ret with
    | again =>
      refine ⟨⟨hchecks, by simp⟩, fun c' h => ?_⟩
      obtain rfl := Except.ok.inj h
      exact hc₁
    | _ => exact ⟨⟨hchecks, hend.1⟩, hend.2⟩

/-- **An event** evaluates nothing out of range, and keeps the ranges. -/
theorem event_ok (msgs : Messages) (fuel : ℕ) (t : Turn) (hc : InRange c.job) :
    (∀ k ∈ event_checks msgs fuel t c, k.Ok) ∧
      ∀ c', event msgs fuel t c = .ok c' → InRange c'.job := by
  unfold event event_checks
  dsimp only
  rw [List.forall_mem_append]
  by_cases hst : c.job.state = .readHeader
  · obtain ⟨hchecks, hkept⟩ := read_header_kept msgs t
      (c := { c with conn := { c.conn with answers := t.answers } }) hc hst
    rw [if_pos hst, if_pos hst]
    obtain ⟨⟨ret, c₁⟩, hr⟩ :
      ∃ r, read_header msgs t { c with conn := { c.conn with answers := t.answers } } = r := ⟨_, rfl⟩
    rw [hr] at hkept ⊢
    obtain ⟨h1, h2⟩ := serve_ok msgs fuel t hkept
    cases ret with
    | again =>
      refine ⟨⟨hchecks, by simp⟩, fun c' h => ?_⟩
      obtain rfl := Except.ok.inj h
      exact hkept
    | _ => exact ⟨⟨hchecks, h1⟩, h2⟩
  · obtain ⟨h1, h2⟩ := serve_ok msgs fuel t
      (c := { c with conn := { c.conn with answers := t.answers } }) hc
    rw [if_neg hst, if_neg hst]
    exact ⟨⟨by simp, h1⟩, h2⟩

/-- A job stays in its ranges. -/
theorem run_inRange {turns : List Turn} (hc : InRange c.job) (h : run msgs fuel turns c = .ok c') :
    InRange c'.job := by
  induction turns generalizing c with
  | nil =>
    obtain rfl := Except.ok.inj h
    exact hc
  | cons t turns ih =>
    rw [run] at h
    split at h
    · obtain rfl := Except.ok.inj h
      exact hc
    · cases he : event msgs fuel t { c with srv := t.others c.srv } with
      | error e =>
        rw [he] at h
        cases h
      | ok c₁ =>
        rw [he] at h
        exact ih ((event_ok msgs fuel t (c := { c with srv := t.others c.srv }) hc).2 c₁ he) h

theorem init_inRange : InRange init_job := ⟨Nat.zero_le _, rfl⟩

/-- **No length wraps and no index is out of `buf`**: whatever the client sends, whatever the
    turns are answered and whatever the other jobs do, no event of a job evaluates a remaining
    length that is below zero or an index of 1024 or more. -/
theorem run_checks_ok (msgs : Messages) (srv : Server) (conn : Conn) {turns : List Turn}
    (h : run msgs fuel turns ⟨srv, init_job, conn⟩ = .ok c) (fuel' : ℕ) (t : Turn) :
    ∀ k ∈ event_checks msgs fuel' t { c with srv := t.others c.srv }, k.Ok := by
  have hc : InRange c.job := run_inRange init_inRange h
  exact (event_ok msgs fuel' t (c := { c with srv := t.others c.srv }) hc).1

/-- A LIST before whose header nothing has come. -/
theorem run_checks_ok_list :
    run ⟨[], [], []⟩ 1 [bytewise 0]
      ⟨oneFile (ascii "b") [], init_job, Conn.fresh (ascii "LIST\n")⟩ =
        .ok ⟨oneFile (ascii "b") [], init_job, Conn.fresh (ascii "LIST\n")⟩ ∧
    ∀ k ∈ event_checks ⟨[], [], []⟩ 9 (bytewise 20)
      ⟨oneFile (ascii "b") [], init_job, Conn.fresh (ascii "LIST\n")⟩, k.Ok := by
  have hrun : run ⟨[], [], []⟩ 1 [bytewise 0]
      ⟨oneFile (ascii "b") [], init_job, Conn.fresh (ascii "LIST\n")⟩ =
        .ok ⟨oneFile (ascii "b") [], init_job, Conn.fresh (ascii "LIST\n")⟩ := rfl
  exact ⟨hrun, run_checks_ok ⟨[], [], []⟩ (oneFile (ascii "b") []) (Conn.fresh (ascii "LIST\n"))
    hrun 9 (bytewise 20)⟩

end SystemProgramming.Networking
