import SystemProgramming.Lib.Bytes
import SystemProgramming.Lib.Framing

namespace SystemProgramming.Chatroom

open Lib

/-!
# `charming_chatroom/utils.c` — messages over a socket

A message goes over the socket behind its size, which is a number of four bytes in network order.
`Answer`s are the results of `read` and `write`; a call for which there is no answer blocks.  The
answer `fail` is an error other than `EINTR`, which the two loops ignore as well.

* `write_all_to_socket`, `read_all_from_socket`, `write_message_size`, `get_message_size`.
* `send_messages` — the loop of `write_to_server`; `process_client`, `read_from_server` — the two
  loops that receive.
* `write_loop_spec`, `read_loop_spec` — the loops around `write` and `read`.
* `receive_spec` — what is recovered of a stream that was cut.
* `framing_round_trip` — the messages that were sent are the messages received.

Lengths are below `2 ^ 31`, so that no conversion to `int` changes them.
-/

def MESSAGE_SIZE_DIGITS : ℕ := 4

/-- What is in memory for `htonl(n)`. -/
def htonl (n : ℕ) : List UInt8 := (leBytes 4 n).reverse

def ntohl (bytes : List UInt8) : ℕ := leValue bytes.reverse

/-! ### Writing -/

/-- A call that writes: the result, unless the call blocks, what it has written, and the answers
    that are left. -/
structure Written where
  retval : Option ℕ
  wire : List UInt8
  answers : List Answer

/-- The loop of `write_all_to_socket` on `buffer + offset`. -/
def write_loop (count : ℕ) : List Answer → List UInt8 → Written
  | as, [] => ⟨some count, [], as⟩
  | [], _ :: _ => ⟨none, [], []⟩
  | .intr :: as, b :: buffer => write_loop count as (b :: buffer)
  | .fail :: as, b :: buffer => write_loop count as (b :: buffer)
  | .bytes k :: as, b :: buffer =>
    if k = 0 then ⟨some 0, [], as⟩
    else
      let w := write_loop count as ((b :: buffer).drop k)
      { w with wire := (b :: buffer).take k ++ w.wire }

def write_all_to_socket (as : List Answer) (buffer : List UInt8) : Written :=
  write_loop buffer.length as buffer

def write_message_size (as : List Answer) (size : ℕ) : Written :=
  write_all_to_socket as (htonl size)

/-- A round of the loop of `write_to_server`. -/
def write_message (as : List Answer) (message : List UInt8) : Written :=
  let w := write_message_size as message.length
  match w.retval with
  | some (_ + 1) =>
    let w' := write_all_to_socket w.answers message
    { w' with wire := w.wire ++ w'.wire }
  | _ => w

/-- The loop of `write_to_server`, for the messages that the user types. -/
def send_messages (as : List Answer) : List (List UInt8) → Written
  | [] => ⟨some 1, [], as⟩
  | message :: messages =>
    let w := write_message as message
    match w.retval with
    | some (_ + 1) =>
      let w' := send_messages w.answers messages
      { w' with wire := w.wire ++ w'.wire }
    | _ => w

/-! ### Reading -/

/-- A call that reads: the result, unless the call blocks, what was put into its buffer, what is
    left of the stream and of the answers. -/
structure Received where
  retval : Option ℕ
  buffer : List UInt8
  stream : List UInt8
  answers : List Answer

/-- The loop of `read_all_from_socket`, for `left = count - offset`.  A `read` at the end of the
    stream returns zero. -/
def read_loop (count : ℕ) : List Answer → ℕ → List UInt8 → Received
  | as, 0, stream => ⟨some count, [], stream, as⟩
  | [], _ + 1, stream => ⟨none, [], stream, []⟩
  | .intr :: as, left + 1, stream => read_loop count as (left + 1) stream
  | .fail :: as, left + 1, stream => read_loop count as (left + 1) stream
  | .bytes k :: as, left + 1, stream =>
    let result := stream.take (min k (left + 1))
    if result = [] then ⟨some 0, [], stream, as⟩
    else
      let r := read_loop count as (left + 1 - result.length) (stream.drop result.length)
      { r with buffer := result ++ r.buffer }

def read_all_from_socket (as : List Answer) (stream : List UInt8) (count : ℕ) : Received :=
  read_loop count as count stream

def get_message_size (as : List Answer) (stream : List UInt8) : Received :=
  let r := read_all_from_socket as stream MESSAGE_SIZE_DIGITS
  match r.retval with
  | some (_ + 1) => { r with retval := some (ntohl r.buffer) }
  | _ => r

/-- The two calls of a round of `process_client` and `read_from_server`. -/
def receive_message (as : List Answer) (stream : List UInt8) : Received :=
  let r := get_message_size as stream
  match r.retval with
  | some (size + 1) => read_all_from_socket r.answers r.stream (size + 1)
  | _ => r

/-- What a loop that receives has handed on, and whether it is over. -/
structure Session where
  delivered : List (List UInt8)
  ended : Bool

/-- The loop that receives, for a number of rounds; `go_on` is what is tested beside `retval` in
    each of them. -/
def receive_loop (go_on : ℕ → Bool) : ℕ → ℕ → List Answer → List UInt8 → Session
  | 0, _, _, _ => ⟨[], false⟩
  | rounds + 1, i, as, stream =>
    if go_on i then
      let r := receive_message as stream
      match r.retval with
      | some (_ + 1) =>
        let s := receive_loop go_on rounds (i + 1) r.answers r.stream
        { s with delivered := r.buffer :: s.delivered }
      | some 0 => ⟨[], true⟩
      | none => ⟨[], false⟩
    else ⟨[], true⟩

/-- The messages that `process_client` broadcasts; `endSession i` is the flag in round `i`.  No
    round goes by without an answer. -/
def process_client (endSession : ℕ → Bool) (as : List Answer) (stream : List UInt8) : Session :=
  receive_loop (fun i => !endSession i) (as.length + 1) 0 as stream

/-- The messages that `read_from_server` prints. -/
def read_from_server (as : List Answer) (stream : List UInt8) : Session :=
  receive_loop (fun _ => true) (as.length + 1) 0 as stream

/-! ### The loops around the system calls -/

variable {as : List Answer} {buffer stream message : List UInt8} {messages : List (List UInt8)}
  {count left : ℕ}

@[simp] theorem length_htonl (n : ℕ) : (htonl n).length = MESSAGE_SIZE_DIGITS := by
  rw [htonl, List.length_reverse, length_leBytes, MESSAGE_SIZE_DIGITS]

theorem ntohl_htonl {n : ℕ} (hn : n < 2 ^ 32) : ntohl (htonl n) = n := by
  rw [ntohl, htonl, List.reverse_reverse, leValue_leBytes]
  exact Nat.mod_eq_of_lt hn

/-- **The loop around `write`** writes all of the buffer, or it blocks after a part of it. -/
theorem write_loop_spec (count : ℕ) (buffer : List UInt8) (has : ∀ a ∈ as, a.Moves) :
    (∃ rest, write_loop count as buffer = ⟨some count, buffer, rest⟩ ∧
      capacity as ≤ capacity rest + buffer.length ∧ ∀ a ∈ rest, a.Moves) ∨
    (write_loop count as buffer).retval = none ∧ (write_loop count as buffer).wire <+: buffer ∧
      capacity as < buffer.length := by
  induction as generalizing buffer with
  | nil =>
    cases buffer with
    | nil => exact .inl ⟨[], rfl, Nat.le_refl _, has⟩
    | cons b buffer => exact .inr ⟨rfl, List.nil_prefix, Nat.succ_pos _⟩
  | cons a as ih =>
    have has' : ∀ a ∈ as, a.Moves := fun b hb => has b (List.mem_cons_of_mem a hb)
    cases buffer with
    | nil => exact .inl ⟨a :: as, rfl, Nat.le_refl _, has⟩
    | cons b buffer =>
      cases a with
      | intr =>
        rw [capacity_intr]
        exact ih (b :: buffer) has'
      | fail =>
        rw [capacity_fail]
        exact ih (b :: buffer) has'
      | bytes k =>
        have hk : k ≠ 0 := fun h => has (.bytes k) List.mem_cons_self (h ▸ rfl)
        have hlen : ((b :: buffer).drop k).length = (b :: buffer).length - k := List.length_drop
        have hpos : 0 < (b :: buffer).length := Nat.succ_pos _
        rw [capacity_bytes, write_loop, if_neg hk]
        dsimp only
        rcases ih ((b :: buffer).drop k) has' with
          ⟨rest, hrun, hcap, hmoves⟩ | ⟨hretval, hwire, hcap⟩
        · refine .inl ⟨rest, ?_, by omega, hmoves⟩
          rw [hrun, List.take_append_drop]
        · refine .inr ⟨hretval, ?_, by omega⟩
          have hprefix := (List.prefix_append_right_inj ((b :: buffer).take k)).mpr hwire
          rwa [List.take_append_drop] at hprefix

/-- How the loop around `read` may end. -/
inductive Ends (count left : ℕ) (as : List Answer) (stream : List UInt8) : Received → Prop
  /-- all of it was there -/
  | full (rest : List Answer) (hle : left ≤ stream.length) (hmoves : ∀ a ∈ rest, a.Moves)
      (hcapacity : capacity as ≤ capacity rest + left) :
      Ends count left as stream ⟨some count, stream.take left, stream.drop left, rest⟩
  /-- the end of the stream came first -/
  | eof (r : Received) (hretval : r.retval = some 0) (hlt : stream.length < left) :
      Ends count left as stream r
  /-- the call blocks -/
  | blocked (r : Received) (hretval : r.retval = none) (hlt : capacity as < left)
      (hle : capacity as ≤ stream.length) : Ends count left as stream r

/-- A call that was interrupted is made again. -/
theorem Ends.again {as' : List Answer} {r : Received} (h : Ends count left as stream r)
    (hcapacity : capacity as' = capacity as) : Ends count left as' stream r := by
  cases h with
  | full rest hle hmoves hcap => exact .full rest hle hmoves (hcapacity ▸ hcap)
  | eof r hretval hlt => exact .eof r hretval hlt
  | blocked r hretval hlt hle => exact .blocked r hretval (hcapacity ▸ hlt) (hcapacity ▸ hle)

/-- **The loop around `read`** -/
theorem read_loop_spec (has : ∀ a ∈ as, a.Moves) :
    Ends count left as stream (read_loop count as left stream) := by
  induction as generalizing left stream with
  | nil =>
    cases left with
    | zero => exact .full [] (Nat.zero_le _) has (Nat.le_refl _)
    | succ left => exact .blocked _ rfl (Nat.succ_pos _) (Nat.zero_le _)
  | cons a as ih =>
    have has' : ∀ a ∈ as, a.Moves := fun b hb => has b (List.mem_cons_of_mem a hb)
    cases left with
    | zero => exact .full (a :: as) (Nat.zero_le _) has (Nat.le_refl _)
    | succ left =>
      cases a with
      | intr => exact (ih has').again (capacity_intr as)
      | fail => exact (ih has').again (capacity_fail as)
      | bytes k =>
        have hk : k ≠ 0 := fun h => has (.bytes k) List.mem_cons_self (h ▸ rfl)
        rw [read_loop]
        dsimp only
        by_cases hnil : stream.take (min k (left + 1)) = []
        · rw [if_pos hnil]
          -- a call that moves returns nothing only at the end of the stream
          have hstream : stream = [] := by
            rcases List.take_eq_nil_iff.mp hnil with h | h
            · omega
            · exact h
          exact .eof _ rfl (by rw [hstream]; exact Nat.succ_pos _)
        · rw [if_neg hnil]
          have hpos := List.length_pos_iff.mpr hnil
          -- the `n` bytes that are read, and a loop for what is left
          have hn : ∃ n, (stream.take (min k (left + 1))).length = n ∧ 0 < n ∧ n ≤ left + 1 ∧
              n ≤ stream.length ∧ stream.take (min k (left + 1)) = stream.take n := by
            rw [List.length_take] at hpos ⊢
            refine ⟨_, rfl, hpos, by omega, by omega, ?_⟩
            rw [List.take_eq_take_iff]
            omega
          obtain ⟨n, hlen, hpos, hle, hle', htake⟩ := hn
          rw [hlen, htake]
          have hdrop : (stream.drop n).length = stream.length - n := List.length_drop
          obtain ⟨r, hr⟩ : ∃ r, read_loop count as (left + 1 - n) (stream.drop n) = r := ⟨_, rfl⟩
          have h : Ends count (left + 1 - n) as (stream.drop n) r := hr ▸ ih has'
          rw [hr]
          have hcap := capacity_bytes k as
          cases h with
          | full rest hle' hmoves hcap' =>
            rw [← List.take_add, List.drop_drop, Nat.add_sub_cancel' hle]
            exact .full rest (by omega) hmoves (by omega)
          | eof r hretval hlt => exact .eof _ hretval (by omega)
          | blocked r hretval hlt hle => exact .blocked _ hretval (by omega) (by omega)

/-! ### Messages -/

/-- What goes over the socket for a message. -/
def frame (message : List UInt8) : List UInt8 := htonl message.length ++ message

def frames (messages : List (List UInt8)) : List UInt8 := (messages.map frame).flatten

theorem length_frame (message : List UInt8) :
    (frame message).length = MESSAGE_SIZE_DIGITS + message.length := by
  rw [frame, List.length_append, length_htonl]

theorem frames_cons (message : List UInt8) (messages : List (List UInt8)) :
    frames (message :: messages) = frame message ++ frames messages := rfl

/-- The first messages have no more bytes than all of them. -/
theorem frames_take_le (messages : List (List UInt8)) (k : ℕ) :
    (frames (messages.take k)).length ≤ (frames messages).length := by
  have hsplit : frames messages = frames (messages.take k) ++ frames (messages.drop k) := by
    rw [frames, frames, frames, ← List.flatten_append, ← List.map_append, List.take_append_drop]
  rw [hsplit, List.length_append]
  exact Nat.le_add_right _ _

theorem write_message_spec (has : ∀ a ∈ as, a.Moves) (hmessage : 0 < message.length) :
    (∃ rest, write_message as message = ⟨some message.length, frame message, rest⟩ ∧
      capacity as ≤ capacity rest + (frame message).length ∧ ∀ a ∈ rest, a.Moves) ∨
    (write_message as message).retval = none ∧ (write_message as message).wire <+: frame message ∧
      capacity as < (frame message).length := by
  have hlen := length_frame message
  have hsize := length_htonl message.length
  rw [write_message, write_message_size, write_all_to_socket]
  rcases write_loop_spec (htonl message.length).length (htonl message.length) has with
    ⟨as', hrun, hcap, hmoves⟩ | ⟨hretval, hwire, hcap⟩
  · -- the size is written
    rw [hrun, hsize]
    dsimp only [MESSAGE_SIZE_DIGITS] at *
    rw [write_all_to_socket]
    rcases write_loop_spec message.length message hmoves with
      ⟨rest, hrun', hcap', hmoves'⟩ | ⟨hretval, hwire, hcap'⟩
    · rw [hrun']
      exact .inl ⟨rest, rfl, by omega, hmoves'⟩
    · exact .inr ⟨hretval, (List.prefix_append_right_inj _).mpr hwire, by omega⟩
  · rw [hretval]
    exact .inr ⟨hretval, hwire.trans (List.prefix_append _ _), by omega⟩

/-- **The loop that sends** puts the frames on the socket, or it blocks after a part of them. -/
theorem send_messages_spec (has : ∀ a ∈ as, a.Moves)
    (hmessages : ∀ message ∈ messages, 0 < message.length) :
    (send_messages as messages).retval ≠ none ∧
      (send_messages as messages).wire = frames messages ∨
    (send_messages as messages).retval = none ∧
      (send_messages as messages).wire <+: frames messages ∧
      capacity as < (frames messages).length := by
  induction messages generalizing as with
  | nil => exact .inl ⟨Option.some_ne_none 1, rfl⟩
  | cons message messages ih =>
    have hpos := hmessages message List.mem_cons_self
    obtain ⟨n, hn⟩ : ∃ n, message.length = n + 1 := ⟨_, (Nat.succ_pred_eq_of_pos hpos).symm⟩
    rw [send_messages, frames_cons, List.length_append]
    rcases write_message_spec has hpos with ⟨rest, hrun, hcap, hmoves⟩ | ⟨hretval, hwire, hcap⟩
    · rw [hrun, hn]
      dsimp only
      rcases ih hmoves (fun m hm => hmessages m (List.mem_cons_of_mem _ hm)) with
        ⟨hretval, hwire⟩ | ⟨hretval, hwire, hcap'⟩
      · exact .inl ⟨hretval, congrArg _ hwire⟩
      · exact .inr ⟨hretval, (List.prefix_append_right_inj _).mpr hwire, by omega⟩
    · dsimp only
      rw [hretval]
      exact .inr ⟨hretval, hwire.trans (List.prefix_append _ _), by omega⟩

/-- Without a size there is no message. -/
theorem receive_message_retval {retval : Option ℕ} (hretval : retval = some 0 ∨ retval = none)
    (h : (read_loop MESSAGE_SIZE_DIGITS as MESSAGE_SIZE_DIGITS stream).retval = retval) :
    (receive_message as stream).retval = retval := by
  rw [receive_message, get_message_size, read_all_from_socket]
  rcases hretval with rfl | rfl <;>
  · rw [h]
    dsimp only
    rw [h]
    exact h

/-- **A round of a loop that receives**, at the end of the stream. -/
theorem receive_message_nil (has : ∀ a ∈ as, a.Moves) :
    (receive_message as []).retval = some 0 ∨
    (receive_message as []).retval = none ∧ capacity as = 0 := by
  obtain ⟨r, hr⟩ : ∃ r, read_loop MESSAGE_SIZE_DIGITS as MESSAGE_SIZE_DIGITS [] = r := ⟨_, rfl⟩
  have h : Ends MESSAGE_SIZE_DIGITS MESSAGE_SIZE_DIGITS as [] r := hr ▸ read_loop_spec has
  cases h with
  | full rest hle => exact absurd hle (Nat.not_succ_le_zero 3)
  | eof r hretval => exact .inl (receive_message_retval (.inl rfl) (hr ▸ hretval))
  | blocked r hretval hlt hle =>
    exact .inr ⟨receive_message_retval (.inr rfl) (hr ▸ hretval), Nat.le_zero.mp hle⟩

/-- **A round of a loop that receives**, on a stream that begins with the frame of a message and
    was cut. -/
theorem receive_message_spec {tail : List UInt8} {cut : ℕ} (has : ∀ a ∈ as, a.Moves)
    (hpos : 0 < message.length) (hlt : message.length < 2 ^ 31)
    (hstream : stream = (frame message ++ tail).take cut) :
    ((frame message).length ≤ cut ∧ ∃ rest, receive_message as stream =
        ⟨some message.length, message, tail.take (cut - (frame message).length), rest⟩ ∧
      capacity as ≤ capacity rest + (frame message).length ∧ ∀ a ∈ rest, a.Moves) ∨
    (cut < (frame message).length ∧ (receive_message as stream).retval = some 0) ∨
    ((receive_message as stream).retval = none ∧ capacity as ≤ stream.length) := by
  have hlen := length_frame message
  have hsize := length_htonl message.length
  have hlength : stream.length = min cut ((frame message).length + tail.length) := by
    rw [hstream, List.length_take, List.length_append]
  obtain ⟨r, hr⟩ : ∃ r, read_loop MESSAGE_SIZE_DIGITS as MESSAGE_SIZE_DIGITS stream = r := ⟨_, rfl⟩
  have h : Ends MESSAGE_SIZE_DIGITS MESSAGE_SIZE_DIGITS as stream r := hr ▸ read_loop_spec has
  cases h with
  | eof r hretval hlt' =>
    exact .inr (.inl ⟨by omega, receive_message_retval (.inl rfl) (hr ▸ hretval)⟩)
  | blocked r hretval hlt' hle =>
    exact .inr (.inr ⟨receive_message_retval (.inr rfl) (hr ▸ hretval), hle⟩)
  | full as' hle hmoves hcap =>
    -- the size is there
    have hcut : MESSAGE_SIZE_DIGITS ≤ cut := by omega
    have htake : stream.take MESSAGE_SIZE_DIGITS = htonl message.length := by
      rw [hstream, List.take_take, Nat.min_eq_left hcut, frame, List.append_assoc, ← hsize,
        List.take_left]
    have hdrop : stream.drop MESSAGE_SIZE_DIGITS =
        (message ++ tail).take (cut - MESSAGE_SIZE_DIGITS) := by
      rw [hstream, List.drop_take, frame, List.append_assoc, ← hsize, List.drop_left]
    obtain ⟨n, hn⟩ : ∃ n, message.length = n + 1 := ⟨_, (Nat.succ_pred_eq_of_pos hpos).symm⟩
    rw [receive_message, get_message_size, read_all_from_socket, hr, htake, hdrop]
    dsimp only [MESSAGE_SIZE_DIGITS]
    rw [ntohl_htonl (by omega), hn]
    dsimp only
    rw [← hn, read_all_from_socket]
    have hlength' : ((message ++ tail).take (cut - MESSAGE_SIZE_DIGITS)).length =
        stream.length - MESSAGE_SIZE_DIGITS := by rw [← hdrop, List.length_drop]
    obtain ⟨r, hr⟩ : ∃ r, read_loop message.length as' message.length
      ((message ++ tail).take (cut - MESSAGE_SIZE_DIGITS)) = r := ⟨_, rfl⟩
    have h : Ends message.length message.length as'
      ((message ++ tail).take (cut - MESSAGE_SIZE_DIGITS)) r := hr ▸ read_loop_spec hmoves
    dsimp only [MESSAGE_SIZE_DIGITS] at *
    rw [hr]
    cases h with
    | eof r hretval hlt' => exact .inr (.inl ⟨by omega, hretval⟩)
    | blocked r hretval hlt' hle' => exact .inr (.inr ⟨hretval, by omega⟩)
    | full rest hle' hmoves' hcap' =>
      refine .inl ⟨by omega, rest, ?_, by omega, hmoves'⟩
      rw [List.take_take, Nat.min_eq_left (by omega), List.take_left, List.drop_take,
        List.drop_left, hlen, Nat.sub_sub]

/-- A round that receives no message is the last one. -/
theorem receive_loop_last {go_on : ℕ → Bool} {rounds i : ℕ} (hgo_on : ∀ i, go_on i = true)
    (h : (receive_message as stream).retval = some 0 ∨ (receive_message as stream).retval = none) :
    receive_loop go_on (rounds + 1) i as stream =
      ⟨[], decide ((receive_message as stream).retval = some 0)⟩ := by
  rw [receive_loop, if_pos (hgo_on i)]
  dsimp only
  rcases h with h | h <;>
  · rw [h]
    rfl

/-- **A loop that receives** recovers messages in order, and when it is over those whose frames are
    complete; with answers and rounds for the whole stream it comes to be over. -/
theorem receive_spec {go_on : ℕ → Bool} (rounds i : ℕ) {cut : ℕ} (hgo_on : ∀ i, go_on i = true)
    (has : ∀ a ∈ as, a.Moves)
    (hmessages : ∀ message ∈ messages, 0 < message.length ∧ message.length < 2 ^ 31)
    (hstream : stream = (frames messages).take cut) :
    ∃ k ≤ messages.length, (receive_loop go_on rounds i as stream).delivered = messages.take k ∧
      (∀ j < k, (frames (messages.take (j + 1))).length ≤ cut) ∧
      ((receive_loop go_on rounds i as stream).ended = true →
        ∀ j < messages.length, (frames (messages.take (j + 1))).length ≤ cut → j < k) ∧
      (stream.length < capacity as → stream.length < rounds →
        (receive_loop go_on rounds i as stream).ended = true) := by
  have hnone (p : ℕ → Prop) : ∀ j < 0, p j := fun j hj => absurd hj (Nat.not_lt_zero j)
  induction rounds generalizing messages as stream i cut with
  | zero =>
    exact ⟨0, Nat.zero_le _, rfl, hnone _, fun hover => absurd hover Bool.false_ne_true,
      fun _ hrounds => absurd hrounds (Nat.not_lt_zero _)⟩
  | succ rounds ih =>
    cases messages with
    | nil =>
      rw [frames, List.map_nil, List.flatten_nil, List.take_nil] at hstream
      subst hstream
      rcases receive_message_nil has with h | ⟨h, hcapacity⟩
      · rw [receive_loop_last hgo_on (.inl h), h]
        exact ⟨0, le_rfl, rfl, hnone _, fun _ => hnone _, fun _ _ => rfl⟩
      · rw [receive_loop_last hgo_on (.inr h), h]
        exact ⟨0, le_rfl, rfl, hnone _, fun hover => absurd hover Bool.false_ne_true,
          fun hlt => absurd hlt (by omega)⟩
    | cons message messages =>
      obtain ⟨hpos, hlt⟩ := hmessages message List.mem_cons_self
      rcases receive_message_spec has hpos hlt hstream with
        ⟨hcut, rest, hrun, hcap, hmoves⟩ | ⟨hcut, h⟩ | ⟨h, hcapacity⟩
      · -- the message is complete
        obtain ⟨k, hk, hdelivered, hbefore, hall, hover⟩ := ih (i + 1)
          hmoves
          (fun m hm => hmessages m (List.mem_cons_of_mem _ hm)) rfl
        obtain ⟨n, hn⟩ : ∃ n, message.length = n + 1 := ⟨_, (Nat.succ_pred_eq_of_pos hpos).symm⟩
        have hround : receive_loop go_on (rounds + 1) i as stream =
            ⟨message :: (receive_loop go_on rounds (i + 1) rest
                ((frames messages).take (cut - (frame message).length))).delivered,
              (receive_loop go_on rounds (i + 1) rest
                ((frames messages).take (cut - (frame message).length))).ended⟩ := by
          rw [receive_loop, if_pos (hgo_on i), hrun, hn]
          rfl
        have hfirst (j : ℕ) : (frames ((message :: messages).take (j + 1))).length =
            (frame message).length + (frames (messages.take j)).length := by
          rw [List.take_succ_cons, frames_cons, List.length_append]
        have hlength : stream.length = (frame message).length +
            ((frames messages).take (cut - (frame message).length)).length := by
          rw [hstream, frames_cons, List.length_take, List.length_append, List.length_take]
          omega
        rw [hround]
        refine ⟨k + 1, Nat.succ_le_succ hk, congrArg _ hdelivered, fun j hj => ?_,
          fun hdone j hj hle => ?_, fun hcapacity hrounds => ?_⟩
        · rw [hfirst]
          cases j with
          | zero => exact hcut
          | succ j =>
            have hle := hbefore j (by omega)
            omega
        · rw [hfirst] at hle
          cases j with
          | zero => exact Nat.succ_pos k
          | succ j =>
            rw [List.length_cons] at hj
            exact Nat.succ_lt_succ (hall hdone j (by omega) (by omega))
        · have hlen := length_frame message
          exact hover (by omega) (by omega)
      · -- it is cut
        rw [receive_loop_last hgo_on (.inl h), h]
        refine ⟨0, Nat.zero_le _, rfl, hnone _, fun _ j _ hle => ?_, fun _ _ => rfl⟩
        rw [List.take_succ_cons, frames_cons, List.length_append] at hle
        omega
      · rw [receive_loop_last hgo_on (.inr h), h]
        exact ⟨0, Nat.zero_le _, rfl, hnone _, fun hover => absurd hover Bool.false_ne_true,
          fun hlt => absurd hlt (by omega)⟩

/-! ### From the sender to the receiver -/

theorem capacity_le_length (as : List Answer) : capacity as ≤ as.length := List.countP_le_length

/-- **The round trip.**  When the loop that sends is over it has sent the frames of the messages.  Of
    the bytes that arrive before the stream is cut, the loops that receive recover messages in order,
    and when they are over exactly those whose frames are complete. -/
theorem framing_round_trip {writes reads : List Answer}
    {receive : List Answer → List UInt8 → Session}
    (hmessages : ∀ message ∈ messages, 0 < message.length ∧ message.length < 2 ^ 31)
    (hwrites : ∀ a ∈ writes, a.Moves) (hreads : ∀ a ∈ reads, a.Moves) (cut : ℕ)
    (hreceive : receive = process_client (fun _ => false) ∨ receive = read_from_server) :
    let sent := send_messages writes messages
    let arrived := sent.wire.take cut
    let session := receive reads arrived
    ((frames messages).length ≤ capacity writes → sent.retval ≠ none) ∧
    (sent.retval ≠ none → sent.wire = frames messages) ∧
    (∃ k ≤ messages.length, session.delivered = messages.take k ∧
      (∀ j < k, (frames (messages.take (j + 1))).length ≤ arrived.length) ∧
      (session.ended = true → ∀ j < messages.length,
        (frames (messages.take (j + 1))).length ≤ arrived.length → j < k)) ∧
    (arrived.length < capacity reads → session.ended = true) ∧
    (sent.retval ≠ none → sent.wire.length ≤ cut → session.ended = true →
      session.delivered = messages) := by
  intro sent arrived session
  have hsent := send_messages_spec hwrites fun message hm => (hmessages message hm).1
  have hprefix : sent.wire <+: frames messages := by
    rcases hsent with ⟨-, hwire⟩ | ⟨-, hwire, -⟩
    · exact hwire ▸ List.prefix_refl _
    · exact hwire
  have harrived : arrived = (frames messages).take arrived.length :=
    List.prefix_iff_eq_take.mp ((List.take_prefix cut sent.wire).trans hprefix)
  have hcomplete : sent.retval ≠ none → sent.wire = frames messages := by
    intro hretval
    rcases hsent with ⟨-, hwire⟩ | ⟨hnone, -⟩
    · exact hwire
    · exact absurd hnone hretval
  have hsession : session = receive_loop (fun _ => true) (reads.length + 1) 0 reads arrived := by
    rcases hreceive with h | h <;>
    · show receive reads arrived = _
      rw [h]
      rfl
  obtain ⟨k, hk, hdelivered, hbefore, hall, hover⟩ := receive_spec (reads.length + 1) 0
    (show ∀ i, (fun _ => true) i = true from fun _ => rfl) hreads hmessages harrived
  rw [← hsession] at hdelivered hall hover
  refine ⟨fun hcapacity hnone => ?_, hcomplete, ⟨k, hk, hdelivered, hbefore, hall⟩,
    fun hlt => hover hlt ?_, fun hretval hcut hdone => ?_⟩
  · rcases hsent with ⟨hretval, -⟩ | ⟨-, -, hlt⟩
    · exact hretval hnone
    · omega
  · have hle := capacity_le_length reads
    omega
  · -- nothing was cut off
    have hlen : arrived.length = (frames messages).length := by
      rw [← hcomplete hretval]
      exact congrArg _ (List.take_of_length_le hcut)
    have hk' : messages.length ≤ k := by
      by_contra hlt
      exact Nat.lt_irrefl k (hall hdone k (by omega) (hlen ▸ frames_take_le messages (k + 1)))
    rw [hdelivered, List.take_of_length_le hk']

/-- Two messages, in five writes and six reads. -/
theorem framing_round_trip_two :
    (process_client (fun _ => false)
      [.bytes 4, .bytes 1, .intr, .bytes 7, .bytes 4, .bytes 8, .bytes 1, .bytes 1, .bytes 1,
        .bytes 1, .bytes 1, .bytes 1, .bytes 1, .bytes 1]
      ((send_messages [.bytes 3, .intr, .bytes 9, .bytes 2, .bytes 4, .bytes 2]
        [[104, 105], [111, 107]]).wire.take 12)).delivered = [[104, 105], [111, 107]] := by
  obtain ⟨-, -, -, hover, hall⟩ := framing_round_trip
    (show ∀ message ∈ [[104, 105], [111, 107]], 0 < message.length ∧ message.length < 2 ^ 31 by simp)
    (show ∀ a ∈ [.bytes 3, .intr, .bytes 9, .bytes 2, .bytes 4, .bytes 2], Answer.Moves a by
      simp [Answer.Moves])
    (show ∀ a ∈ [.bytes 4, .bytes 1, .intr, .bytes 7, .bytes 4, .bytes 8, .bytes 1, .bytes 1,
        .bytes 1, .bytes 1, .bytes 1, .bytes 1, .bytes 1, .bytes 1], Answer.Moves a by
      simp [Answer.Moves]) 12 (.inl rfl)
  exact hall (by decide) (by decide) (hover (by decide))

end SystemProgramming.Chatroom
