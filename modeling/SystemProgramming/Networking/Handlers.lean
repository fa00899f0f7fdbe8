import SystemProgramming.Networking.Job

namespace SystemProgramming.Networking

open SystemProgramming.Lib

/-!
# `nonstop_networking/server.c` — the handlers and the event loop

The four request handlers, each a sequence of phases guarded by the state of the job, and
one turn of the event loop for one job.  `run` is all turns of a job until its descriptor is
closed; between two turns other jobs may change the server.

A loop carries fuel; every iteration but one that goes round for ever uses up an answer.
-/

/-- What a phase of a handler does: the handler returns, or goes on with the next phase. -/
abbrev Phase := Except Stop (Option Ret × Ctx)

/-- The next phase, unless the handler has returned. -/
def Phase.next (p : Phase) (f : Ctx → Phase) : Phase :=
  match p with
  | .ok (none, c) => f c
  | p => p

/-- A phase that runs in one state only. -/
def whenState (st : State) (f : Ctx → Phase) (c : Ctx) : Phase :=
  if c.job.state = st then f c else .ok (none, c)

/-- `if (ret == 1) {return 1;}` and `if (ret == -1) {return -1;}` -/
def checked : Ret × Ctx → Phase
  | (.ok, c) => .ok (none, c)
  | (ret, c) => .ok (some ret, c)

/-- What a handler returns when it has come to its end. -/
def Phase.result : Phase → Except Stop (Ret × Ctx)
  | .ok (ret, c) => .ok (ret.getD .ok, c)
  | .error e => .error e

/-! ### PUT -/

/-- The announced size with `data` read into it from byte `off` on. -/
def sizeWith (filesize off : ℕ) (data : List UInt8) : ℕ :=
  leValue (splice (leBytes 8 filesize) off data)

/-- `put`, in `READ_SIZE` -/
def put_size (c : Ctx) : Phase :=
  let (ret, data, conn) := c.conn.reader (8 - c.job.readsz)
  let c := { c with
    job := { c.job with filesize := sizeWith c.job.filesize c.job.readsz data,
                        readsz := c.job.readsz + data.length },
    conn := conn }
  match ret with
  | .ok => .ok (none, { c with job := { c.job with state := .serving, buf := zeros, readsz := 0 } })
  | ret => .ok (some ret, c)

/-- One `reader` into `buf`, in `SERVING` and in `READ_DATA`. -/
def put_read (c : Ctx) : Ret × Ctx :=
  let (ret, data, conn) := c.conn.reader (1024 - c.job.readsz)
  (ret, { c with
    job := { c.job with buf := splice c.job.buf c.job.readsz data,
                        readsz := c.job.readsz + data.length },
    conn := conn })

/-- The file does not have the size that was announced: it is removed. -/
def put_badSize (msgs : Messages) (c : Ctx) : Ctx :=
  { c with
    srv := { c.srv with disk := (c.srv.disk.remove (c.job.filename.getD [])).getD c.srv.disk },
    job := { c.job with state := .error, errmsg := msgs.err_bad_file_size } }

/-- `put`, in `SERVING` -/
def put_serving (msgs : Messages) (c : Ctx) : Phase :=
  match put_read c with
  | (.ok, c) =>
    match c.srv.disk.store (c.job.filename.getD []) (c.job.buf.take c.job.readsz) with
    | none => .error .exited
    | some disk =>
      let datasz := c.job.datasz + c.job.readsz
      let c := { c with srv := { c.srv with disk := disk }, job := { c.job with datasz := datasz } }
      if c.job.filesize < datasz then .ok (some .ok, put_badSize msgs c)
      else if datasz < c.job.filesize ∧ c.job.readsz < 1024 then .ok (some .ok, put_badSize msgs c)
      else
        let state := if datasz = c.job.filesize then .done else .readData
        .ok (none, { c with job := { c.job with state := state, buf := zeros, readsz := 0 } })
  | (ret, c) => .ok (some ret, c)

/-- `put`, the loop in `READ_DATA` -/
def put_data (msgs : Messages) : ℕ → Ctx → Phase
  | 0, _ => .error .fuel
  | fuel + 1, c =>
    if c.job.state ≠ .readData then .ok (none, c)
    else
      match put_read c with
      | (.ok, c) =>
        -- a failing `open` is not noticed, and nothing is written
        let disk := c.srv.disk.extend (c.job.filename.getD []) (c.job.buf.take c.job.readsz)
        let datasz := c.job.datasz + c.job.readsz
        let c := { c with srv := { c.srv with disk := disk }, job := { c.job with datasz := datasz } }
        if c.job.filesize < datasz then .ok (some .ok, put_badSize msgs c)
        else if datasz < c.job.filesize ∧ c.job.readsz < 1024 then
          .ok (some .ok, put_badSize msgs c)
        else
          let state := if datasz = c.job.filesize then .done else .readData
          put_data msgs fuel { c with job := { c.job with state := state, buf := zeros, readsz := 0 } }
      | (ret, c) => .ok (some ret, c)

instance decidableMemNames (name : Name) (names : List Name) : Decidable (name ∈ names) :=
  List.instDecidableMemOfLawfulBEq name names

/-- `put`, once the file is complete -/
def put_done (c : Ctx) : Phase :=
  let name := c.job.filename.getD []
  let file_list := if name ∈ c.srv.file_list then c.srv.file_list else c.srv.file_list ++ [name]
  let c := { c with srv := { c.srv with file_list := file_list },
                    job := { c.job with state := .writeResponse } }
  .ok (some .ok, (write_response c).2)

/-- `put(myjob)` -/
def put (msgs : Messages) (fuel : ℕ) (c : Ctx) : Except Stop (Ret × Ctx) :=
  if c.job.state = .error then .ok (.ok, c)
  else
    ((((whenState .readSize put_size c).next (whenState .serving (put_serving msgs))).next
      (put_data msgs fuel)).next put_done).result

/-! ### LIST -/

/-- A 32-bit `int`. -/
def int (z : ℤ) : ℤ := z.bmod (2 ^ 32)

/-- An `int` as a `size_t`. -/
def size_t (z : ℤ) : ℕ := (z % 2 ^ 64).toNat

/-- The names, each but the first behind a newline. -/
def joined (names : List Name) : List UInt8 := List.intercalate [10] names

/-- `list`, in `SERVING`; the list itself is the text `joined file_list`. -/
def list_serving (c : Ctx) : Phase :=
  let len : ℤ := int ((c.srv.file_list.map (fun name => name.length + 1)).sum : ℕ)
  -- `realloc` returns a null pointer, and `strcpy` writes through it
  if c.srv.file_list ≠ [] ∧ len ≤ 0 then .error .crashed
  else
    let filesize := if c.srv.file_list = [] then 0 else size_t (len - 1)
    .ok (none, { c with job := { c.job with filesize := filesize, state := .writeResponse } })

/-- The memory at `flist`: `text`, and what the memory from `malloc(1)` on reads as. -/
def listMem (t : Turn) (text : List UInt8) : Mem := fun i => text.getD i (t.heap i)

/-- The `n` bytes of a memory from offset `off` on. -/
def memBytes (m : Mem) (off n : ℕ) : List UInt8 := (List.range n).map (fun i => m (off + i))

/-- `list`, the loop in `WRITE_DATA` -/
def list_data (flist : Mem) : ℕ → Ctx → Phase
  | 0, _ => .error .fuel
  | fuel + 1, c =>
    if c.job.state ≠ .writeData then .ok (none, c)
    else
      match c.conn.writer (memBytes flist c.job.writesz (c.job.filesize - c.job.writesz)) with
      | (.ok, offset, conn) =>
        let datasz := c.job.datasz + (c.job.writesz + offset)
        let state := if c.job.filesize ≤ datasz then .done else .writeData
        list_data flist fuel { c with
          job := { c.job with writesz := 0, datasz := datasz, buf := zeros, state := state },
          conn := conn }
      | (ret, offset, conn) =>
        .ok (some ret, { c with job := { c.job with writesz := c.job.writesz + offset }, conn := conn })

/-- `list(j)` -/
def list (fuel : ℕ) (t : Turn) (c : Ctx) : Except Stop (Ret × Ctx) :=
  if c.job.state = .error then .ok (.ok, c)
  else
    -- `flist` is built in `SERVING` only
    let text := if c.job.state = .serving then joined c.srv.file_list else []
    (((((whenState .serving list_serving c).next
      (whenState .writeResponse (fun c => checked (write_response c)))).next
      (whenState .writeSize (fun c => checked (write_size c)))).next
      (list_data (listMem t text) fuel)).next
      (fun c => .ok (some .ok, c.close))).result

/-! ### DELETE -/

/-- The loop of `handle_delete` over the list: `name` is what the name of the job reads as,
    which is `freed` once an entry was found.  The entry behind one that is erased moves to
    its place and is not looked at. -/
def eraseEntries (freed : Name) : Name → List Name → Name × List Name
  | name, [] => (name, [])
  | name, filename :: rest =>
    if filename = name then
      match rest with
      | [] => (freed, [])
      | skipped :: rest =>
        let (name, rest) := eraseEntries freed freed rest
        (name, skipped :: rest)
    else
      let (name, rest) := eraseEntries freed name rest
      (name, filename :: rest)

/-- `handle_delete(j)` -/
def handle_delete (msgs : Messages) (t : Turn) (c : Ctx) : Ret × Ctx :=
  if c.job.state = .error then (.ok, c)
  else
    match openfile msgs c with
    | (none, c) => (.ok, c)
    | (some _, c) =>
      match c.srv.disk.remove (c.job.filename.getD []) with
      | none =>
        (.ok, { c with job := { c.job with state := .error, errmsg := msgs.err_no_such_file } })
      | some disk =>
        let (name, file_list) := eraseEntries t.freed (c.job.filename.getD []) c.srv.file_list
        write_response { c with
          srv := { disk := disk, file_list := file_list },
          job := { c.job with filename := some name, state := .writeResponse } }

/-! ### GET -/

/-- `handle_get`, in `SERVING` -/
def get_serving (msgs : Messages) (c : Ctx) : Phase :=
  match openfile msgs c with
  | (none, c) => .ok (some .ok, c)
  | (some fd, c) =>
    .ok (none, { c with job := { c.job with
      filefd := some fd, filesize := c.srv.disk.size fd, state := .writeResponse } })

/-- `read_all(j->filefd, j->buf, 1024)`; `none` when it fails. -/
def get_read (c : Ctx) : Option Ctx :=
  match c.job.filefd with
  | some (.file i pos) =>
    let data := ((c.srv.disk.data i).drop pos).take 1024
    some { c with job := { c.job with
      filefd := some (.file i (pos + data.length)), buf := splice c.job.buf 0 data,
      readsz := data.length } }
  | _ => none

/-- `handle_get`, the loop in `WRITE_DATA` -/
def get_data : ℕ → Ctx → Phase
  | 0, _ => .error .fuel
  | fuel + 1, c =>
    if c.job.state ≠ .writeData then .ok (none, c)
    else
      match if c.job.writesz = 0 then get_read c else some c with
      | none => .error .exited
      | some c =>
        match c.conn.writer ((c.job.buf.drop c.job.writesz).take (c.job.readsz - c.job.writesz)) with
        | (.ok, offset, conn) =>
          let datasz := c.job.datasz + (c.job.writesz + offset)
          let state := if c.job.filesize ≤ datasz then .done else .writeData
          get_data fuel { c with
            job := { c.job with writesz := 0, datasz := datasz, buf := zeros, state := state },
            conn := conn }
        | (ret, offset, conn) =>
          .ok (some ret,
            { c with job := { c.job with writesz := c.job.writesz + offset }, conn := conn })

/-- `handle_get(j)` -/
def handle_get (msgs : Messages) (fuel : ℕ) (c : Ctx) : Except Stop (Ret × Ctx) :=
  if c.job.state = .error then .ok (.ok, c)
  else
    (((((whenState .serving (get_serving msgs) c).next
      (whenState .writeResponse (fun c => checked (write_response c)))).next
      (whenState .writeSize (fun c => checked (write_size c)))).next
      (get_data fuel)).next
      (fun c => .ok (some .ok, c.close))).result

/-! ### The event loop -/

/-- The handler of the request. -/
def handle (msgs : Messages) (fuel : ℕ) (t : Turn) (c : Ctx) : Except Stop (Ret × Ctx) :=
  match c.job.request with
  | .put => put msgs fuel c
  | .list => list fuel t c
  | .delete => .ok (handle_delete msgs t c)
  | .get => handle_get msgs fuel c
  | .unknown => .ok (.ok, c)

/-- The handler, and the answer to a request that has failed. -/
def serve (msgs : Messages) (fuel : ℕ) (t : Turn) (c : Ctx) : Except Stop Ctx :=
  match handle msgs fuel t c with
  | .error e => .error e
  | .ok (.again, c) => .ok c
  | .ok (_, c) => if c.job.state = .error then .ok (write_err c).2 else .ok c

/-- What the event loop does for the event of a job. -/
def event (msgs : Messages) (fuel : ℕ) (t : Turn) (c : Ctx) : Except Stop Ctx :=
  let c := { c with conn := { c.conn with answers := t.answers } }
  match if c.job.state = .readHeader then read_header msgs t c else (.ok, c) with
  | (.again, c) => .ok c
  | (_, c) => serve msgs fuel t c

/-- The turns of a job; a closed descriptor has no more events. -/
def run (msgs : Messages) (fuel : ℕ) : List Turn → Ctx → Except Stop Ctx
  | [], c => .ok c
  | t :: ts, c =>
    if c.conn.closed then .ok c
    else
      match event msgs fuel t { c with srv := t.others c.srv } with
      | .error e => .error e
      | .ok c => run msgs fuel ts c

end SystemProgramming.Networking
