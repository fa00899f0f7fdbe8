import Mathlib.Data.Fin.VecNotation
import Mathlib.Logic.Function.Basic
import SystemProgramming.Chatroom.Utils
import SystemProgramming.Lib.Lts

namespace SystemProgramming.Chatroom

open Lib

/-!
# `charming_chatroom/server.c` — the threads

The server from the first `accept` on: the thread of `run_server`, and a thread in `process_client`
for each connection that was let in.  A step is one access to shared data or one system call.
Connections are numbered in the order of `accept`; the one at hand in `run_server` has the number
`next`.

What a client sends is not tied to anything: a round of `process_client` receives any message, or
none.  A `write` takes any number of bytes, and writes them to the connection that has the
descriptor at that time; while nothing has it the loop in `write_all_to_socket` goes round, which is
no step here.  The calls of the server that fail otherwise end it, and `cleanup` is not part of it.
-/

def MAX_CLIENTS : ℕ := 8

/-- Where the thread of `run_server` is. -/
inductive Acceptor
  /-- at the test of `endSession` -/
  | test
  /-- at `accept` -/
  | accepting
  /-- at the tests behind it -/
  | accepted (client_fd : ℕ)
  /-- at `close(client_fd)` -/
  | rejecting (client_fd : ℕ)
  /-- at `pthread_mutex_lock` -/
  | locking (client_fd : ℕ)
  /-- at the loop over the slots -/
  | storing (client_fd : ℕ)
  /-- at `clientsCount++`; `none` is -1 -/
  | counting (p : Option (Fin MAX_CLIENTS))
  /-- at `pthread_mutex_unlock` -/
  | unlocking (p : Option (Fin MAX_CLIENTS))
  /-- at `pthread_create` -/
  | creating (p : Option (Fin MAX_CLIENTS))
  | finished
  deriving DecidableEq

/-- A call of `write_to_clients`, from where it has the mutex. -/
structure Broadcast where
  message : List UInt8
  /-- ghost: what had been written to each connection -/
  start : ℕ → List UInt8
  /-- ghost: the connection that had the descriptor in each slot -/
  registered : Fin MAX_CLIENTS → Option ℕ

/-- Where a thread of `process_client` is. -/
inductive Pc
  /-- at the test of `endSession` -/
  | test
  /-- in `get_message_size` and `read_all_from_socket` -/
  | reading
  /-- at `pthread_mutex_lock` in `write_to_clients` -/
  | waiting (message : List UInt8)
  /-- in its loop at slot `i`, with `offset` bytes of the frame written -/
  | sending (b : Broadcast) (i offset : ℕ)
  /-- at `close(clients[clientId])` -/
  | leaving
  /-- at `pthread_mutex_lock` -/
  | closed
  /-- at `clients[clientId] = -1` -/
  | clearing
  /-- at `clientsCount--` -/
  | decrementing
  /-- at `pthread_mutex_unlock` -/
  | unlocking
  | done

structure Thread where
  clientId : Option (Fin MAX_CLIENTS)
  pc : Pc

/-- Who has the mutex. -/
inductive Owner
  | acceptor
  | client (c : ℕ)
  deriving DecidableEq

structure State where
  /-- `none` is -1 -/
  clients : Fin MAX_CLIENTS → Option ℕ
  clientsCount : ℤ
  mutex : Option Owner
  endSession : Bool
  acceptor : Acceptor
  /-- the threads of `process_client`, by their connections -/
  threads : ℕ → Option Thread
  /-- the descriptors that are open, and their connections -/
  fds : ℕ → Option ℕ
  /-- what was written to each connection -/
  out : ℕ → List UInt8
  /-- how many connections `run_server` has dealt with -/
  next : ℕ
  /-- ghost: the connection for which each slot was taken -/
  owner : Fin MAX_CLIENTS → Option ℕ

/-- What may happen next. -/
inductive Event
  /-- `SIGINT` -/
  | interrupt
  /-- `accept` returns the descriptor -/
  | accept (client_fd : ℕ)
  | acceptor
  /-- the thread of a connection has received a message, or it has not -/
  | receive (c : ℕ) (message : Option (List UInt8))
  /-- its `write` takes `n` bytes -/
  | write (c n : ℕ)
  | client (c : ℕ)
  deriving DecidableEq

def initial : State where
  clients _ := none
  clientsCount := 0
  mutex := none
  endSession := false
  acceptor := .test
  threads _ := none
  fds _ := none
  out _ := []
  next := 0
  owner _ := none

/-- The first slot that is free. -/
def State.free (s : State) : Option (Fin MAX_CLIENTS) :=
  (List.finRange MAX_CLIENTS).find? fun i => (s.clients i).isNone

/-- `clients[i]` in the loop of `write_to_clients` -/
def State.slot (s : State) (i : ℕ) : Option ℕ :=
  if h : i < MAX_CLIENTS then s.clients ⟨i, h⟩ else none

/-- `clients[p] = client_fd` -/
def State.store (s : State) (p : Option (Fin MAX_CLIENTS)) (client_fd : ℕ) : State :=
  match p with
  | some i => { s with
      clients := Function.update s.clients i (some client_fd)
      owner := Function.update s.owner i (some s.next) }
  | none => s

/-- `clients[clientId] = -1` -/
def State.clear (s : State) (clientId : Fin MAX_CLIENTS) : State := { s with
  clients := Function.update s.clients clientId none
  owner := Function.update s.owner clientId none }

/-- A thread goes on. -/
def State.goto (s : State) (c : ℕ) (i : Fin MAX_CLIENTS) (pc : Pc) : State :=
  { s with threads := Function.update s.threads c (some ⟨some i, pc⟩) }

/-- `run_server`, apart from `accept` -/
def run_server (s : State) : Option State :=
  match s.acceptor with
  | .test => some { s with acceptor := if s.endSession then .finished else .accepting }
  | .accepting => none
  | .accepted client_fd =>
    if s.endSession then some { s with acceptor := .finished }
    else if s.clientsCount ≥ MAX_CLIENTS then some { s with acceptor := .rejecting client_fd }
    else some { s with acceptor := .locking client_fd }
  | .rejecting client_fd => some { s with
      fds := Function.update s.fds client_fd none, acceptor := .test, next := s.next + 1 }
  | .locking client_fd =>
    if s.mutex = none then some { s with mutex := some .acceptor, acceptor := .storing client_fd }
    else none
  | .storing client_fd => some { s.store s.free client_fd with acceptor := .counting s.free }
  | .counting p => some { s with clientsCount := s.clientsCount + 1, acceptor := .unlocking p }
  | .unlocking p => some { s with mutex := none, acceptor := .creating p }
  | .creating p => some { s with
      threads := Function.update s.threads s.next (some ⟨p, .test⟩)
      acceptor := .test, next := s.next + 1 }
  | .finished => none

/-- `process_client` and `write_to_clients` for slot `clientId`, apart from `read` and `write` -/
def process_client_step (s : State) (c : ℕ) (clientId : Fin MAX_CLIENTS) : Pc → Option State
  | .test => some (s.goto c clientId (if s.endSession then .leaving else .reading))
  | .reading => none
  | .waiting message =>
    if s.mutex = none then
      some ({ s with mutex := some (.client c) }.goto c clientId
        (.sending ⟨message, s.out, fun i => (s.clients i).bind s.fds⟩ 0 0))
    else none
  | .sending b i offset =>
    if i < MAX_CLIENTS then
      if (s.slot i).isNone ∨ offset = (frame b.message).length then
        some (s.goto c clientId (.sending b (i + 1) 0))
      else none
    else some ({ s with mutex := none }.goto c clientId .test)
  | .leaving =>
    match s.clients clientId with
    | some client_fd =>
      some ({ s with fds := Function.update s.fds client_fd none }.goto c clientId .closed)
    | none => some (s.goto c clientId .closed)
  | .closed =>
    if s.mutex = none then some ({ s with mutex := some (.client c) }.goto c clientId .clearing)
    else none
  | .clearing => some ((s.clear clientId).goto c clientId .decrementing)
  | .decrementing =>
    some ({ s with clientsCount := s.clientsCount - 1 }.goto c clientId .unlocking)
  | .unlocking => some ({ s with mutex := none }.goto c clientId .done)
  | .done => none

/-- The end of a round of reading. -/
def receive_step (s : State) (c : ℕ) (clientId : Fin MAX_CLIENTS) (message : Option (List UInt8)) :
    Pc → Option State
  | .reading =>
    match message with
    | some (byte :: rest) => some (s.goto c clientId (.waiting (byte :: rest)))
    | some [] => none
    | none => some (s.goto c clientId .leaving)
  | _ => none

/-- A `write` to the descriptor in the slot. -/
def write_step (s : State) (c : ℕ) (clientId : Fin MAX_CLIENTS) (n : ℕ) : Pc → Option State
  | .sending b i offset =>
    match (s.slot i).bind s.fds with
    | some d =>
      if 0 < n ∧ offset + n ≤ (frame b.message).length then
        some ({ s with
          out := Function.update s.out d
            (s.out d ++ ((frame b.message).drop offset).take n) }.goto c clientId
          (.sending b i (offset + n)))
      else none
    | none => none
  | _ => none

/-- A step of the thread of a connection.  With the index -1 it reads outside of `clients`. -/
def State.ofThread (s : State) (c : ℕ) (f : Fin MAX_CLIENTS → Pc → Option State) : Option State :=
  match s.threads c with
  | some ⟨some clientId, pc⟩ => f clientId pc
  | _ => none

def step (s : State) : Event → Option State
  | .interrupt => some { s with endSession := true }
  | .accept client_fd =>
    if s.acceptor = .accepting ∧ s.fds client_fd = none then
      some { s with
        fds := Function.update s.fds client_fd (some s.next), acceptor := .accepted client_fd }
    else none
  | .acceptor => run_server s
  | .receive c message => s.ofThread c fun clientId => receive_step s c clientId message
  | .write c n => s.ofThread c fun clientId => write_step s c clientId n
  | .client c => s.ofThread c (process_client_step s c)

def server : Lts State Event := ⟨(· = initial), step⟩

/-! ### What a step does -/

variable {s s' : State} {e : Event} {c : ℕ} {clientId : Fin MAX_CLIENTS} {pc : Pc}

theorem goto_self (s : State) (c : ℕ) (i : Fin MAX_CLIENTS) (pc : Pc) :
    (s.goto c i pc).threads c = some ⟨some i, pc⟩ := Function.update_self ..

theorem goto_of_ne {d : ℕ} (hd : d ≠ c) : (s.goto c clientId pc).threads d = s.threads d :=
  Function.update_of_ne hd ..

/-- The thread that goes on, or another one. -/
theorem goto_cases {d : ℕ} {t : Thread} (h : (s.goto c clientId pc).threads d = some t) :
    d = c ∧ t = ⟨some clientId, pc⟩ ∨ d ≠ c ∧ s.threads d = some t := by
  by_cases hd : d = c
  · rw [hd, goto_self] at h
    exact .inl ⟨hd, (Option.some.inj h).symm⟩
  · rw [goto_of_ne hd] at h
    exact .inr ⟨hd, h⟩

/-- The same for a thread with a slot. -/
theorem goto_slot_cases {d : ℕ} {j : Fin MAX_CLIENTS} {pc' : Pc}
    (h : (s.goto c clientId pc).threads d = some ⟨some j, pc'⟩) :
    d = c ∧ j = clientId ∧ pc' = pc ∨ d ≠ c ∧ s.threads d = some ⟨some j, pc'⟩ := by
  refine (goto_cases h).imp_left fun ⟨hd, ht⟩ => ?_
  obtain ⟨rfl, rfl⟩ : j = clientId ∧ pc' = pc := by simpa using ht
  exact ⟨hd, rfl, rfl⟩

/-- The steps of `run_server`. -/
inductive Accepts (s : State) : State → Prop
  | finish (h : s.acceptor = .test) (hend : s.endSession = true) :
      Accepts s { s with acceptor := .finished }
  | again (h : s.acceptor = .test) (hend : s.endSession = false) :
      Accepts s { s with acceptor := .accepting }
  | leave {fd : ℕ} (h : s.acceptor = .accepted fd) (hend : s.endSession = true) :
      Accepts s { s with acceptor := .finished }
  | full {fd : ℕ} (h : s.acceptor = .accepted fd) (hcount : s.clientsCount ≥ MAX_CLIENTS) :
      Accepts s { s with acceptor := .rejecting fd }
  | room {fd : ℕ} (h : s.acceptor = .accepted fd) (hcount : s.clientsCount < MAX_CLIENTS) :
      Accepts s { s with acceptor := .locking fd }
  | reject {fd : ℕ} (h : s.acceptor = .rejecting fd) : Accepts s { s with
      fds := Function.update s.fds fd none, acceptor := .test, next := s.next + 1 }
  | lock {fd : ℕ} (h : s.acceptor = .locking fd) (hm : s.mutex = none) :
      Accepts s { s with mutex := some .acceptor, acceptor := .storing fd }
  | store {fd : ℕ} (h : s.acceptor = .storing fd) :
      Accepts s { s.store s.free fd with acceptor := .counting s.free }
  | count {p : Option (Fin MAX_CLIENTS)} (h : s.acceptor = .counting p) :
      Accepts s { s with clientsCount := s.clientsCount + 1, acceptor := .unlocking p }
  | unlock {p : Option (Fin MAX_CLIENTS)} (h : s.acceptor = .unlocking p) :
      Accepts s { s with mutex := none, acceptor := .creating p }
  | create {p : Option (Fin MAX_CLIENTS)} (h : s.acceptor = .creating p) : Accepts s { s with
      threads := Function.update s.threads s.next (some ⟨p, .test⟩)
      acceptor := .test, next := s.next + 1 }

/-- The steps of a thread of `process_client`. -/
inductive Serves (s : State) (c : ℕ) (i : Fin MAX_CLIENTS) : Pc → State → Prop
  | ended (hend : s.endSession = true) : Serves s c i .test (s.goto c i .leaving)
  | round (hend : s.endSession = false) : Serves s c i .test (s.goto c i .reading)
  | message {m : List UInt8} (hm : m ≠ []) : Serves s c i .reading (s.goto c i (.waiting m))
  | eof : Serves s c i .reading (s.goto c i .leaving)
  | lock {m : List UInt8} (hm : s.mutex = none) : Serves s c i (.waiting m)
      ({ s with mutex := some (.client c) }.goto c i
        (.sending ⟨m, s.out, fun i => (s.clients i).bind s.fds⟩ 0 0))
  | skip {b : Broadcast} {k offset : ℕ} (hk : k < MAX_CLIENTS)
      (h : s.slot k = none ∨ offset = (frame b.message).length) :
      Serves s c i (.sending b k offset) (s.goto c i (.sending b (k + 1) 0))
  | write {b : Broadcast} {k offset d n : ℕ} (hd : (s.slot k).bind s.fds = some d) (hn : 0 < n)
      (hle : offset + n ≤ (frame b.message).length) : Serves s c i (.sending b k offset)
      ({ s with
          out := Function.update s.out d
            (s.out d ++ ((frame b.message).drop offset).take n) }.goto c i
        (.sending b k (offset + n)))
  | sent {b : Broadcast} {k offset : ℕ} (hk : MAX_CLIENTS ≤ k) :
      Serves s c i (.sending b k offset) ({ s with mutex := none }.goto c i .test)
  | close {fd : ℕ} (hfd : s.clients i = some fd) : Serves s c i .leaving
      ({ s with fds := Function.update s.fds fd none }.goto c i .closed)
  | closeNone (hfd : s.clients i = none) : Serves s c i .leaving (s.goto c i .closed)
  | lockAgain (hm : s.mutex = none) : Serves s c i .closed
      ({ s with mutex := some (.client c) }.goto c i .clearing)
  | clear : Serves s c i .clearing ((s.clear i).goto c i .decrementing)
  | decrement : Serves s c i .decrementing
      ({ s with clientsCount := s.clientsCount - 1 }.goto c i .unlocking)
  | unlock : Serves s c i .unlocking ({ s with mutex := none }.goto c i .done)

/-- The steps. -/
inductive Step (s : State) : State → Prop
  | interrupt : Step s { s with endSession := true }
  | accept {fd : ℕ} (h : s.acceptor = .accepting) (hfd : s.fds fd = none) : Step s { s with
      fds := Function.update s.fds fd (some s.next), acceptor := .accepted fd }
  | acceptor {s' : State} (h : Accepts s s') : Step s s'
  | client {s' : State} {c : ℕ} {i : Fin MAX_CLIENTS} {pc : Pc}
      (ht : s.threads c = some ⟨some i, pc⟩) (h : Serves s c i pc s') : Step s s'

theorem run_server_cases (h : run_server s = some s') : Accepts s s' := by
  unfold run_server at h
  split at h
  · rename_i ha
    by_cases hend : s.endSession = true
    · rw [if_pos hend] at h
      obtain rfl := Option.some.inj h
      exact .finish ha hend
    · rw [if_neg hend] at h
      obtain rfl := Option.some.inj h
      exact .again ha (Bool.eq_false_of_not_eq_true hend)
  · cases h
  · rename_i fd ha
    split at h
    · rename_i hend
      obtain rfl := Option.some.inj h
      exact .leave ha hend
    · split at h
      · rename_i hcount
        obtain rfl := Option.some.inj h
        exact .full ha hcount
      · rename_i hcount
        obtain rfl := Option.some.inj h
        exact .room ha (not_le.mp hcount)
  · rename_i fd ha
    obtain rfl := Option.some.inj h
    exact .reject ha
  · rename_i fd ha
    split at h
    · rename_i hm
      obtain rfl := Option.some.inj h
      exact .lock ha hm
    · cases h
  · rename_i fd ha
    obtain rfl := Option.some.inj h
    exact .store ha
  · rename_i p ha
    obtain rfl := Option.some.inj h
    exact .count ha
  · rename_i p ha
    obtain rfl := Option.some.inj h
    exact .unlock ha
  · rename_i p ha
    obtain rfl := Option.some.inj h
    exact .create ha
  · cases h

theorem process_client_cases (h : process_client_step s c clientId pc = some s') :
    Serves s c clientId pc s' := by
  cases pc with
  | test =>
    rw [process_client_step] at h
    by_cases hend : s.endSession = true
    · rw [if_pos hend] at h
      obtain rfl := Option.some.inj h
      exact .ended hend
    · rw [if_neg hend] at h
      obtain rfl := Option.some.inj h
      exact .round (Bool.eq_false_of_not_eq_true hend)
  | reading => cases h
  | waiting m =>
    rw [process_client_step] at h
    split at h
    · rename_i hm
      obtain rfl := Option.some.inj h
      exact .lock hm
    · cases h
  | sending b k offset =>
    rw [process_client_step] at h
    split at h
    · rename_i hk
      split at h
      · -- an empty slot, or one whose message is through
        rename_i hslot
        obtain rfl := Option.some.inj h
        exact .skip hk (hslot.imp_left Option.isNone_iff_eq_none.mp)
      · cases h
    · rename_i hk
      obtain rfl := Option.some.inj h
      exact .sent (not_lt.mp hk)
  | leaving =>
    rw [process_client_step] at h
    split at h
    · rename_i fd hfd
      obtain rfl := Option.some.inj h
      exact .close hfd
    · rename_i hfd
      obtain rfl := Option.some.inj h
      exact .closeNone hfd
  | closed =>
    rw [process_client_step] at h
    split at h
    · rename_i hm
      obtain rfl := Option.some.inj h
      exact .lockAgain hm
    · cases h
  | clearing =>
    obtain rfl := Option.some.inj h
    exact .clear
  | decrementing =>
    obtain rfl := Option.some.inj h
    exact .decrement
  | unlocking =>
    obtain rfl := Option.some.inj h
    exact .unlock
  | done => cases h

theorem receive_cases {message : Option (List UInt8)}
    (h : receive_step s c clientId message pc = some s') :
    pc = .reading ∧ Serves s c clientId pc s' := by
  unfold receive_step at h
  split at h
  · split at h
    · obtain rfl := Option.some.inj h
      exact ⟨rfl, .message (List.cons_ne_nil _ _)⟩
    · cases h
    · obtain rfl := Option.some.inj h
      exact ⟨rfl, .eof⟩
  · cases h

theorem write_cases {n : ℕ} (h : write_step s c clientId n pc = some s') :
    (∃ b i offset, pc = .sending b i offset) ∧ Serves s c clientId pc s' := by
  unfold write_step at h
  split at h
  · split at h
    · rename_i hd
      split at h
      · rename_i hn
        obtain rfl := Option.some.inj h
        exact ⟨⟨_, _, _, rfl⟩, .write hd hn.1 hn.2⟩
      · cases h
    · cases h
  · cases h

/-- What a thread does, it does with its slot. -/
theorem ofThread_cases {f : Fin MAX_CLIENTS → Pc → Option State} (h : s.ofThread c f = some s') :
    ∃ i pc, s.threads c = some ⟨some i, pc⟩ ∧ f i pc = some s' := by
  unfold State.ofThread at h
  split at h
  · rename_i i pc ht
    exact ⟨i, pc, ht, h⟩
  · cases h

/-- **The steps.** -/
theorem step_cases (h : step s e = some s') : Step s s' := by
  cases e with
  | interrupt =>
    obtain rfl := Option.some.inj h
    exact .interrupt
  | accept fd =>
    rw [step] at h
    split at h
    · rename_i ha
      obtain rfl := Option.some.inj h
      exact .accept ha.1 ha.2
    · cases h
  | acceptor => exact .acceptor (run_server_cases h)
  | receive c message =>
    obtain ⟨i, pc, ht, h⟩ := ofThread_cases h
    exact .client ht (receive_cases h).2
  | write c n =>
    obtain ⟨i, pc, ht, h⟩ := ofThread_cases h
    exact .client ht (write_cases h).2
  | client c =>
    obtain ⟨i, pc, ht, h⟩ := ofThread_cases h
    exact .client ht (process_client_cases h)

end SystemProgramming.Chatroom
