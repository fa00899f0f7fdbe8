import SystemProgramming.Lib.Bytes
import SystemProgramming.Networking.Common
import SystemProgramming.Networking.Disk

namespace SystemProgramming.Networking

open SystemProgramming.Lib

/-!
# `nonstop_networking/server.c` — jobs, responses and headers

The state of the server and of one job, the helpers that write a response, and the parsing
of a header.  A function takes and returns the context: the server, the job and its
connection.  The texts of the error messages are not in the sources, so they are a
parameter.

The sizes never get near the range of `size_t`, and a subtraction never goes below zero
(what was written or read of a piece is at most the piece), so both are plain numbers.
-/

/-- The bytes of a string. -/
def ascii (s : String) : List UInt8 := s.toList.map (fun c => UInt8.ofNat c.toNat)

/-- `verb` -/
inductive Verb
  | get
  | put
  | delete
  | list
  /-- `V_UNKNOWN` -/
  | unknown
  deriving DecidableEq

/-- `state_t` -/
inductive State
  | readHeader
  | readSize
  | readData
  | writeResponse
  | writeSize
  | writeData
  | serving
  | done
  | error
  deriving DecidableEq

/-- The messages of `format.h`. -/
structure Messages where
  err_bad_request : List UInt8
  err_no_such_file : List UInt8
  err_bad_file_size : List UInt8

/-- `job`, without its descriptor. -/
structure Job where
  request : Verb
  filename : Option Name
  filefd : Option Handle
  state : State
  /-- 1024 bytes -/
  buf : List UInt8
  writesz : ℕ
  readsz : ℕ
  datasz : ℕ
  filesize : ℕ
  errmsg : List UInt8

/-- What all jobs share. -/
structure Server where
  disk : Disk
  file_list : List Name

/-- What a function of the server works on. -/
structure Ctx where
  srv : Server
  job : Job
  conn : Conn

/-- What a turn of the event loop meets. -/
structure Turn where
  /-- the answers of the kernel up to the next `EAGAIN` -/
  answers : List Answer
  /-- what the other jobs have done to the server since the last turn -/
  others : Server → Server := id
  /-- what a byte of the stack that nobody has set reads as -/
  stack : UInt8 := 0
  /-- what the memory from `malloc(1)` on reads as -/
  heap : Mem := fun _ => 0
  /-- what a name that was freed reads as -/
  freed : Name := []

/-- Why a turn does not return. -/
inductive Stop
  /-- `exit(1)` -/
  | exited
  /-- a write through a null pointer -/
  | crashed
  /-- the fuel ran out -/
  | fuel
  deriving DecidableEq

/-- A buffer of zeros, as `memset(buf, 0, 1024)` leaves it. -/
def zeros : List UInt8 := List.replicate 1024 0

/-- `buf` with `data` written from offset `off` on. -/
def splice (buf : List UInt8) (off : ℕ) (data : List UInt8) : List UInt8 :=
  buf.take off ++ data ++ buf.drop (off + data.length)

/-- `init_job` -/
def init_job : Job where
  request := .unknown
  filename := none
  filefd := none
  state := .readHeader
  buf := zeros
  writesz := 0
  readsz := 0
  datasz := 0
  filesize := 0
  errmsg := []

/-- `shutdown(fd, SHUT_RDWR)` and `close(fd)`. -/
def Ctx.close (c : Ctx) : Ctx := { c with conn := { c.conn with closed := true } }

/-! ### Responses -/

/-- `write_err(j)` -/
def write_err (c : Ctx) : Ret × Ctx :=
  let (ret, offset, conn) := c.conn.writer ((ascii "ERROR\n" ++ c.job.errmsg).drop c.job.writesz)
  let c := { c with job := { c.job with writesz := c.job.writesz + offset }, conn := conn }
  match ret with
  | .ok => (.ok, { c with job := { c.job with writesz := 0, state := .done } }.close)
  | ret => (ret, c)

/-- `write_response(j)` -/
def write_response (c : Ctx) : Ret × Ctx :=
  let (ret, offset, conn) := c.conn.writer ((ascii "OK\n").drop c.job.writesz)
  let c := { c with job := { c.job with writesz := c.job.writesz + offset }, conn := conn }
  match ret with
  | .ok =>
    if c.job.request = .list ∨ c.job.request = .get then
      (.ok, { c with job := { c.job with writesz := 0, state := .writeSize } })
    else (.ok, { c with job := { c.job with writesz := 0, state := .done } }.close)
  | ret => (ret, c)

/-- `write_size(j)` -/
def write_size (c : Ctx) : Ret × Ctx :=
  let (ret, offset, conn) := c.conn.writer ((leBytes 8 c.job.filesize).drop c.job.writesz)
  let c := { c with job := { c.job with writesz := c.job.writesz + offset }, conn := conn }
  match ret with
  | .ok =>
    (.ok, { c with job := { c.job with
      writesz := 0, state := if c.job.filesize = 0 then .done else .writeData } })
  | ret => (ret, c)

/-- `openfile(j)` -/
def openfile (msgs : Messages) (c : Ctx) : Option Handle × Ctx :=
  match c.srv.disk.openRead (c.job.filename.getD []) with
  | some fd => (some fd, c)
  | none =>
    (none, { c with job := { c.job with state := .error, errmsg := msgs.err_no_such_file } })

/-! ### Headers -/

/-- The string in a buffer. -/
def cstr (buf : List UInt8) : List UInt8 := buf.takeWhile (· ≠ 0)

/-- `parse_header(header, &req)`: what it leaves in `req`, and the file name. -/
def parse_header (header : List UInt8) (req : Verb) : Verb × Option Name :=
  match header.dropWhile (· ≠ 32) with
  -- `strchr(header, ' ')` is `NULL`
  | [] => (if header = ascii "LIST" then .list else .unknown, none)
  | _ :: file =>
    let vb := header.takeWhile (· ≠ 32)
    if vb = ascii "PUT" then (.put, some file)
    else if vb = ascii "GET" then (.get, some file)
    else if vb = ascii "DELETE" then (.delete, some file)
    else (req, some file)

/-- The loop of `get_header(socket, header, &size)`, where `buf` holds the header from its
    start and `a` is `a[0]`.  It is left at the latest when `size` is 263. -/
def get_header : ℕ → UInt8 → Conn → List UInt8 → ℕ → Ret × Conn × List UInt8 × ℕ
  | 0, _, conn, buf, size => (.tooLong, conn, buf, size)
  | fuel + 1, a, conn, buf, size =>
    match conn.reader 1 with
    | (.ok, data, conn) =>
      -- at the end of the stream `a[0]` keeps its value
      let a := data.headD a
      let buf := splice buf size [a]
      let size := size + 1
      if 262 < size then (.tooLong, conn, buf, size)
      else if a = 10 then (.ok, conn, splice buf (size - 1) [0], size)
      else get_header fuel a conn buf size
    | (ret, _, conn) => (ret, conn, buf, size)

/-- `read_header(myjob)` -/
def read_header (msgs : Messages) (t : Turn) (c : Ctx) : Ret × Ctx :=
  let bad (c : Ctx) : Ctx :=
    { c with job := { c.job with state := .error, errmsg := msgs.err_bad_request } }
  if c.job.state = .error then (.ok, c)
  else
    let (result, conn, buf, readsz) :=
      get_header (263 - c.job.readsz) t.stack c.conn c.job.buf c.job.readsz
    let c := { c with job := { c.job with buf := buf, readsz := readsz }, conn := conn }
    match result with
    | .err | .tooLong => (.ok, bad c)
    | .again => (.again, c)
    | .ok =>
      let (request, ret) := parse_header (cstr c.job.buf) c.job.request
      let c := { c with job := { c.job with request := request } }
      if request = .unknown then (.err, bad c)
      else if request ≠ .list ∧ 255 < (ret.getD []).length then
        (.ok, bad { c with job := { c.job with request := .unknown } })
      else
        let filename := if request = .list then c.job.filename else ret
        let state := if request = .put then .readSize else .serving
        (.ok, { c with job := { c.job with
          filename := filename, state := state, buf := zeros, readsz := 0 } })

end SystemProgramming.Networking
