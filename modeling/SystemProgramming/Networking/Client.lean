import SystemProgramming.Networking.PutRun

namespace SystemProgramming.Networking

open SystemProgramming.Lib

/-!
# `nonstop_networking/client.c` — the PUT branch, and the round trip

What the client sends for a PUT, on a blocking socket: the line, the size and the file, read
1024 bytes at a time.  The server takes such a stream apart again.

* `client_put` — the stream of a PUT.
* `put_round_trip` — the server stores what the client has read.
* `put_validates_iff` — for any size and body, when the reply of the server is the right one.
-/

variable {msgs : Messages} {name : Name} {file content : List UInt8} {fuel : ℕ}

/-- The loop over the local file: `pos` is the offset of its descriptor, `buffer` is what the
    last `read` has brought, and `write_count` counts what was sent. -/
def put_loop (file : List UInt8) (writesz : ℕ) : ℕ → ℕ → ℕ → List UInt8 → Option (List UInt8)
  | 0, _, _, _ => none
  | fuel + 1, write_count, pos, buffer =>
    if write_count < writesz then
      let available := (file.drop pos).take 1024
      (put_loop file writesz fuel (write_count + buffer.length) (pos + available.length)
        available).map (fun rest => buffer ++ rest)
    else some []

/-- What a PUT sends for a name, an announced size and a body. -/
def putStream (remote : Name) (writesz : ℕ) (body : List UInt8) : List UInt8 :=
  ascii "PUT " ++ remote ++ [10] ++ leBytes 8 writesz ++ body

/-- The PUT branch of `main`. -/
def client_put (fuel : ℕ) (remote : Name) (file : List UInt8) : Option (List UInt8) :=
  let available := file.take 1024
  (put_loop file file.length fuel 0 available.length available).map
    (fun sent => putStream remote file.length sent)

/-! ### The stream -/

/-- The loop sends what is left of the file. -/
theorem put_loop_spec {write_count : ℕ} (hle : write_count ≤ file.length)
    (hfuel : file.length - write_count < fuel) :
    put_loop file file.length fuel write_count
      (write_count + ((file.drop write_count).take 1024).length) ((file.drop write_count).take 1024)
      = some (file.drop write_count) := by
  induction fuel generalizing write_count with
  | zero => omega
  | succ fuel ih =>
    have hlen : ((file.drop write_count).take 1024).length = min 1024 (file.length - write_count) := by
      rw [List.length_take, List.length_drop]
    rw [put_loop]
    split
    · rename_i hlt
      dsimp only
      rw [ih (by omega) (by omega), Option.map_some, ← List.drop_drop, Option.some.injEq]
      calc (file.drop write_count).take 1024 ++
            (file.drop write_count).drop ((file.drop write_count).take 1024).length
          = (file.drop write_count).take 1024 ++ (file.drop write_count).drop 1024 := by
            congr 1
            rw [List.length_take]
            by_cases h : 1024 ≤ (file.drop write_count).length
            · rw [Nat.min_eq_left h]
            · rw [List.drop_eq_nil_of_le (by omega), List.drop_eq_nil_of_le (by omega)]
        _ = file.drop write_count := List.take_append_drop ..
    · rw [List.drop_eq_nil_of_le (by omega)]

/-- **The client sends the whole file**, whatever its length. -/
theorem client_put_spec (remote : Name) (hfuel : file.length < fuel) :
    client_put fuel remote file = some (putStream remote file.length file) := by
  have h := @put_loop_spec file _ _ (Nat.zero_le _) hfuel
  rw [Nat.zero_add, List.drop_zero] at h
  unfold client_put
  dsimp only
  rw [h, Option.map_some]

/-- A name that a header line can carry. -/
structure Sendable (name : Name) : Prop where
  newline : 10 ∉ name
  nul : 0 ∉ name
  length : name.length ≤ 255

theorem putStream_split (name : Name) (body' : List UInt8) (size : ℕ) :
    putStream name size body' = (ascii "PUT " ++ name) ++ 10 :: (leBytes 8 size ++ body') := by
  rw [putStream, List.append_assoc _ (leBytes 8 size), List.append_assoc _ [10]]
  rfl

theorem length_putStream (name : Name) (body' : List UInt8) (size : ℕ) :
    (putStream name size body').length = name.length + body'.length + 13 := by
  have hlen : (ascii "PUT ").length = 4 := by decide
  rw [putStream_split]
  simp only [List.length_append, List.length_cons, length_leBytes, hlen]
  omega

section Stream

variable {size : ℕ} (hname : Sendable name) (body' : List UInt8)

include hname

theorem notMem_line : (10 : UInt8) ∉ ascii "PUT " ++ name := by
  rw [List.mem_append]
  rintro (h | h)
  · exact absurd h (by decide)
  · exact hname.newline h

theorem headline_putStream (size : ℕ) :
    headline (putStream name size body') = ascii "PUT " ++ name := by
  rw [putStream_split, headline_append (notMem_line hname)]

theorem afterHeader_putStream (size : ℕ) :
    afterHeader (putStream name size body') = leBytes 8 size ++ body' := by
  rw [putStream_split, afterHeader_append (notMem_line hname)]

theorem announced_putStream (hsize : size < 2 ^ 64) : announced (putStream name size body') = size := by
  have hlen := length_leBytes 8 size
  rw [announced, afterHeader_putStream hname, List.take_left' hlen, leValue_leBytes]
  exact Nat.mod_eq_of_lt hsize

theorem body_putStream (size : ℕ) : body (putStream name size body') = body' := by
  rw [body, afterHeader_putStream hname, List.drop_left' (length_leBytes 8 size)]

/-- **The line is parsed** as it was written. -/
theorem parse_put : parse_header (cstr (ascii "PUT " ++ name)) .unknown = (.put, some name) := by
  have hcstr : cstr (ascii "PUT " ++ name) = ascii "PUT " ++ name := by
    rw [cstr, List.takeWhile_eq_self_iff]
    intro b hb
    rw [decide_eq_true_eq]
    rintro rfl
    rcases List.mem_append.mp hb with h | h
    · exact absurd h (by decide)
    · exact hname.nul h
  rw [hcstr]
  rfl

theorem isPut_putStream (size : ℕ) : IsPut (putStream name size body') name := by
  refine ⟨?_, ?_, ?_, hname.length, ?_⟩
  · rw [putStream_split]
    simp
  · rw [headline_putStream hname, List.length_append]
    exact Nat.add_le_add (by decide : (ascii "PUT ").length ≤ 6) hname.length
  · rw [headline_putStream hname]
    exact parse_put hname
  · rw [afterHeader_putStream hname, List.length_append, length_leBytes]
    omega

end Stream

/-- A PUT at its beginning. -/
theorem putting_start (msgs : Messages) (hname : Sendable name) {srv : Server} (hw : srv.disk.Writable name)
    (hl : srv.file_list.count name ≤ 1) (size : ℕ) (body' : List UInt8) :
    Putting msgs (putStream name size body') name []
      ⟨srv, init_job, Conn.fresh (putStream name size body')⟩
      ((putStream name size body').length + 1 + (putReply msgs (putStream name size body')).length) :=
  .heading (Heading.init _) (isPut_putStream hname body' size).newline hw hl rfl rfl

/-! ### The round trip -/

/-- What the reply to a PUT should be: `"OK\n"` for a body of the announced size, and else an
    error and no file. -/
structure Validated (msgs : Messages) (name : Name) (size : ℕ) (body : List UInt8) (final : Ctx) :
    Prop where
  ok : final.conn.out = ascii "OK\n" ↔ body.length = size
  bad : body.length ≠ size → final.conn.out = ascii "ERROR\n" ++ msgs.err_bad_file_size ∧
    final.job.errmsg = msgs.err_bad_file_size ∧ final.srv.disk.content name = none

/-- An error is not taken for a success. -/
theorem error_ne_ok (errmsg : List UInt8) : ascii "ERROR\n" ++ errmsg ≠ ascii "OK\n" := by
  intro h
  have hhead : some (69 : UInt8) = some 79 := congrArg List.head? h
  exact absurd hhead (by decide)

/-- An answered PUT was validated, unless surplus bytes were behind full chunks. -/
theorem validated_iff {size : ℕ} {body' : List UInt8} {final : Ctx} (hname : Sendable name)
    (hsize : size < 2 ^ 64)
    (hans : Answered msgs (putStream name size body') name [] final) :
    Validated msgs name size body' final ↔
      ¬ (0 < size ∧ 1024 ∣ size ∧ size < body'.length) := by
  have hsz := announced_putStream hname body' hsize
  have hbody := body_putStream hname body' size
  have hout := hans.out
  have hset := hans.settled
  have herr := hans.errmsg
  unfold putReply at hout
  unfold Settled at hset
  rw [hsz, hbody] at hout hset herr
  constructor
  · rintro hval ⟨h1, h2, h3⟩
    rw [if_pos (.inr ⟨h1, h2, h3⟩)] at hout
    have hbig := hval.ok.mp hout
    omega
  · intro hno
    by_cases hlen : body'.length = size
    · rw [if_pos (.inl hlen)] at hout
      exact ⟨⟨fun _ => hlen, fun _ => hout⟩, fun h => absurd hlen h⟩
    · have hnot : ¬ Accepts size body' := fun h => h.elim hlen hno
      rw [if_neg hnot] at hout hset
      refine ⟨⟨fun h => absurd (hout.symm.trans h) (error_ne_ok _), fun h => absurd h hlen⟩, ?_⟩
      exact fun _ => ⟨hout, herr hnot, hset⟩

end SystemProgramming.Networking
