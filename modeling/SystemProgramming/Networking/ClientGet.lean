import SystemProgramming.Networking.Blocking
import SystemProgramming.Networking.Header
import SystemProgramming.Networking.List

namespace SystemProgramming.Networking

open SystemProgramming.Lib

/-!
# `nonstop_networking/client.c` — the GET branch

What the client makes of the response to a GET, for every stream that ends with an orderly
close and in every fragmentation.

* `get_response_header` — the first line of the response; `client_get` — the GET branch from
  there on, and the local file it leaves.
* `get_response_header_returns_iff` — it comes back exactly if the newline comes soon enough.
* `client_get_classifies_iff` — which streams are accepted and which are reported: a stream that
  is cut inside the line is waited for without end, and one that is cut behind it is taken for
  an empty file.

The memory for the header is always to be had, the local file takes what is written to it, and
a body has fewer than 2^64 bytes, so that the number of the bytes read is a plain number.
-/

/-- What variables that nobody has set read as. -/
structure Stack where
  /-- `a[0]` in the first call of `get_response_header` -/
  a : UInt8
  /-- `a[0]` in the second one -/
  a' : UInt8
  /-- the bytes of `size` in `read_message_size` -/
  size : List UInt8
  length_size : size.length = 8

/-- How the client ends, other than by reaching its end. -/
inductive ClientEnd
  /-- the `exit(1)` of `get_response_header` -/
  | readFailed
  /-- `print_error_message(err)` -/
  | errorMessage (err : List UInt8)
  /-- `print_invalid_response()` -/
  | invalidResponse
  /-- `print_too_little_data()` -/
  | tooLittle
  /-- `print_received_too_much_data()` -/
  | tooMuch
  /-- a store in front of `header`, or a write from behind the end of `buffer` -/
  | crashed
  /-- the fuel ran out -/
  | fuel
  deriving DecidableEq

/-- It ends with an error status. -/
def ClientEnd.Reported (e : ClientEnd) : Prop := e ≠ .crashed ∧ e ≠ .fuel

/-- The loop of `get_response_header`: `header` holds the bytes so far. -/
def header_loop : ℕ → UInt8 → List UInt8 → Stream → Except ClientEnd (List UInt8 × Stream)
  | 0, _, _, _ => .error .fuel
  | fuel + 1, a, header, s =>
    let (sz, data, s) := read_all 1 s
    if sz = -1 then .error .readFailed
    else
      -- at the end of the stream `a[0]` keeps its value
      let a := data.headD a
      -- the store goes to `header[i]`, and the `int` `i` counts what is in the header
      if int header.length < 0 then .error .crashed
      else if a = 10 then .ok (header ++ [a], s)
      else header_loop fuel a (header ++ [a]) s

/-- `get_response_header(socket)` -/
def get_response_header (fuel : ℕ) (a : UInt8) (s : Stream) : Except ClientEnd (List UInt8 × Stream) :=
  header_loop fuel a [] s

/-- `process_response(str, socket)` -/
def process_response (fuel : ℕ) (a : UInt8) (str : List UInt8) (s : Stream) :
    Except ClientEnd Unit :=
  if cstr str = ascii "ERROR\n" then do
    let (err, _) ← get_response_header fuel a s
    .error (.errorMessage err)
  else if cstr str ≠ ascii "OK\n" then .error .invalidResponse
  else .ok ()

/-- The loop of the GET branch over the body. -/
def get_loop (readsz : ℕ) : ℕ → ℕ → List UInt8 → Stream → Except ClientEnd (ℕ × List UInt8 × Stream)
  | 0, _, _, _ => .error .fuel
  | fuel + 1, read_count, file, s =>
    if read_count < readsz then
      let (read_bytes, data, s) := read_all 1024 s
      if read_bytes = 0 then .error .tooLittle
      -- as a `size_t` it is the greatest of all
      else if read_bytes = -1 then .error .crashed
      else get_loop readsz fuel (read_count + size_t read_bytes) (file ++ data) s
    else .ok (read_count, file, s)

/-- The GET branch of `main`, from the response on: what is in the local file at its end. -/
def client_get (fuel : ℕ) (stack : Stack) (s : Stream) : Except ClientEnd (List UInt8) := do
  let (header, s) ← get_response_header fuel stack.a s
  process_response fuel stack.a' header s
  let (size, s) := read_message_size stack.size s
  let readsz := size_t size
  let (read_count, file, s) ← get_loop readsz fuel 0 [] s
  if readsz < read_count ∨ 0 < (read_all 1024 s).1 then .error .tooMuch
  else .ok file

variable {fuel : ℕ} {a : UInt8} {header line rest : List UInt8} {s s' : Stream} {stack : Stack}

/-! ### The header -/

/-- The index of a byte of the header, as an `int`. -/
theorem int_length (hlen : header.length ≤ 2 ^ 31) :
    int header.length < 0 ↔ header.length = 2 ^ 31 := by
  rw [int_eq]
  split <;> omega

/-- One step of the loop. -/
theorem header_loop_succ (hs : s.Steady) : ∃ s' : Stream, s'.Steady ∧ s'.inp = s.inp.drop 1 ∧
    ∀ fuel a header, header_loop (fuel + 1) a header s =
      if int header.length < 0 then .error .crashed
      else if s.inp.headD a = 10 then .ok (header ++ [s.inp.headD a], s')
      else header_loop fuel (s.inp.headD a) (header ++ [s.inp.headD a]) s' := by
  obtain ⟨s', hs', hinp, hread⟩ := read_all_spec hs 1
  refine ⟨s', hs', hinp, fun fuel a header => ?_⟩
  have hhead : (s.inp.take 1).headD a = s.inp.headD a := by
    cases s.inp <;> rfl
  rw [header_loop, hread]
  dsimp only
  rw [hhead, if_neg (by omega)]

/-- **A line** that comes in whole is returned. -/
theorem header_loop_line (header : List UInt8) (hs : s.Steady) (hinp : s.inp = line ++ 10 :: rest)
    (hline : 10 ∉ line) (hlen : header.length + line.length < 2 ^ 31) :
    ∃ s' : Stream, s'.Steady ∧ s'.inp = rest ∧ ∀ fuel > line.length, ∀ a,
      header_loop fuel a header s = .ok (header ++ line ++ [10], s') := by
  induction line generalizing header s with
  | nil =>
    obtain ⟨s', hs', hinp', hstep⟩ := header_loop_succ hs
    rw [hinp] at hinp'
    refine ⟨s', hs', hinp', fun fuel hf a => ?_⟩
    obtain ⟨fuel, rfl⟩ := Nat.exists_eq_add_one_of_ne_zero (Nat.ne_of_gt hf)
    rw [List.length_nil] at hlen
    rw [hstep, hinp, if_neg (by rw [int_length (by omega)]; omega), List.append_nil]
    exact if_pos rfl
  | cons b line ih =>
    obtain ⟨s₁, hs₁, hinp₁, hstep⟩ := header_loop_succ hs
    have hb : b ≠ 10 := fun h => hline (by simp [h])
    have hline' : 10 ∉ line := fun h => hline (List.mem_cons_of_mem b h)
    rw [List.length_cons] at hlen
    rw [hinp] at hinp₁
    obtain ⟨s', hs', hinp', h⟩ := ih (header ++ [b]) hs₁ hinp₁ hline'
      (by rw [List.length_append, List.length_singleton]; omega)
    refine ⟨s', hs', hinp', fun fuel hf a => ?_⟩
    obtain ⟨fuel, rfl⟩ := Nat.exists_eq_add_one_of_ne_zero (Nat.ne_of_gt (Nat.zero_lt_of_lt hf))
    rw [List.length_cons] at hf
    rw [hstep, hinp, if_neg (by rw [int_length (by omega)]; omega)]
    show (if b = 10 then _ else header_loop fuel b (header ++ [b]) s₁) = _
    rw [if_neg hb, h fuel (by omega) b, List.append_assoc header [b] line]
    rfl

/-- **What is returned** is a line that came in whole, or nothing came and a newline stood on
    the stack. -/
theorem header_loop_returned {h : List UInt8} (hs : s.Steady) (hlen : header.length ≤ 2 ^ 31)
    (hret : header_loop fuel a header s = .ok (h, s')) :
    ∃ line, 10 ∉ line ∧ h = header ++ line ++ [10] ∧ header.length + line.length < 2 ^ 31 ∧
      (s.inp = line ++ 10 :: s'.inp ∨ s.inp = [] ∧ line = [] ∧ a = 10) := by
  induction fuel generalizing a header s with
  | zero => cases hret
  | succ fuel ih =>
    obtain ⟨s₁, hs₁, hinp, hstep⟩ := header_loop_succ hs
    rw [hstep] at hret
    by_cases hint : int header.length < 0
    · rw [if_pos hint] at hret
      cases hret
    rw [if_neg hint] at hret
    rw [int_length hlen] at hint
    by_cases hnl : s.inp.headD a = 10
    · rw [if_pos hnl] at hret
      obtain ⟨rfl, rfl⟩ := Prod.mk.inj (Except.ok.inj hret)
      refine ⟨[], by simp, by rw [hnl, List.append_nil], by rw [List.length_nil]; omega, ?_⟩
      -- without input the byte on the stack is looked at
      rcases hi : s.inp with _ | ⟨b, rest⟩
      · rw [hi] at hnl
        exact .inr ⟨rfl, rfl, hnl⟩
      · rw [hi] at hnl hinp
        left
        rw [hinp, ← (show b = 10 from hnl)]
        rfl
    · rw [if_neg hnl] at hret
      obtain ⟨line, hline, rfl, hlt, hcase⟩ := ih hs₁
        (by rw [List.length_append, List.length_singleton]; omega) hret
      rw [List.length_append, List.length_singleton] at hlt
      rcases hcase with hcase | ⟨-, -, h⟩
      · rcases hi : s.inp with _ | ⟨b, rest⟩
        · rw [hinp, hi] at hcase
          simp at hcase
        · rw [hi] at hinp hnl
          refine ⟨b :: line, ?_, ?_, by rw [List.length_cons]; omega, .inl ?_⟩
          · rw [List.mem_cons]
            rintro (h | h)
            · exact hnl h.symm
            · exact hline h
          · rw [List.append_assoc header _ line]
            rfl
          · show b :: rest = b :: (line ++ 10 :: s'.inp)
            rw [← hcase, hinp]
            rfl
      · exact absurd h hnl

/-- A stream with a newline begins with a line. -/
theorem eq_line {stream : List UInt8} (h : 10 ∈ stream) :
    stream = headline stream ++ 10 :: afterHeader stream ∧ 10 ∉ headline stream := by
  obtain ⟨pre, rest, rfl, hpre⟩ := List.eq_append_cons_of_mem h
  rw [headline_append hpre, afterHeader_append hpre]
  exact ⟨rfl, hpre⟩

/-- `get_response_header` comes back, and with the first line if one was sent. -/
def Returns (a : UInt8) (s : Stream) : Prop :=
  ∃ header s' n, (∀ fuel ≥ n, get_response_header fuel a s = .ok (header, s')) ∧
    (10 ∈ s.inp → header = headline s.inp ++ [10])

/-- **`get_response_header` returns** exactly if a newline is among the first 2^31 bytes, or
    nothing is sent at all and a newline stood on the stack. -/
theorem get_response_header_returns_iff (hs : s.Steady) (a : UInt8) :
    Returns a s ↔ 10 ∈ s.inp.take (2 ^ 31) ∨ s.inp = [] ∧ a = 10 := by
  constructor
  · rintro ⟨header, s', n, hret, -⟩
    obtain ⟨line, -, -, hlt, hcase⟩ :=
      header_loop_returned hs (by rw [List.length_nil]; omega) (hret n le_rfl)
    rw [List.length_nil, Nat.zero_add] at hlt
    refine hcase.imp (fun h => ?_) (fun h => ⟨h.1, h.2.2⟩)
    obtain ⟨k, hk⟩ : ∃ k, 2 ^ 31 - line.length = k + 1 := ⟨2 ^ 31 - line.length - 1, by omega⟩
    rw [h, List.take_append, hk, List.take_succ_cons]
    simp
  · rintro (h | ⟨hnil, rfl⟩)
    · obtain ⟨hsplit, hline⟩ := eq_line (List.mem_of_mem_take h)
      have hlt : (headline s.inp).length < 2 ^ 31 := by
        by_contra hge
        rw [hsplit, List.take_append_of_le_length (by omega)] at h
        exact hline (List.mem_of_mem_take h)
      obtain ⟨s', -, -, hret⟩ := header_loop_line [] hs hsplit hline
        (by rw [List.length_nil]; omega)
      exact ⟨_, s', _, fun fuel hf => hret fuel hf a, fun _ => rfl⟩
    · obtain ⟨s', -, -, hstep⟩ := header_loop_succ hs
      refine ⟨[10], s', 1, fun fuel hf => ?_, fun h => ?_⟩
      · obtain ⟨fuel, rfl⟩ := Nat.exists_eq_add_one_of_ne_zero (by omega : fuel ≠ 0)
        rw [get_response_header, hstep, hnil, if_neg (by decide)]
        rfl
      · rw [hnil] at h
        simp at h

theorem get_response_header_returns_some :
    Returns 0 ⟨ascii "OK\n", [.intr, .bytes 1]⟩ ↔
      10 ∈ (ascii "OK\n").take (2 ^ 31) ∨ ascii "OK\n" = [] ∧ (0 : UInt8) = 10 :=
  get_response_header_returns_iff (by simp [Stream.Steady, Answer.Steady]) 0

/-- The stream is closed in the middle of the line. -/
theorem not_get_response_header_returns : ¬ Returns 0 ⟨ascii "OK", []⟩ := by
  rintro ⟨header, s', n, hret, -⟩
  obtain ⟨line, -, -, -, hcase⟩ :=
    header_loop_returned (by simp [Stream.Steady, Answer.Steady]) (by decide) (hret n le_rfl)
  rcases hcase with h | ⟨h, -⟩
  · have hmem : (10 : UInt8) ∈ ascii "OK" := by
      rw [show ascii "OK" = line ++ 10 :: s'.inp from h]
      simp
    exact absurd hmem (by decide)
  · exact absurd h (by decide)

/-! ### The body -/

/-- **The loop over the body** ends with too little data, or it has read at least what was
    announced. -/
theorem get_loop_spec (readsz read_count : ℕ) (file : List UInt8) (hs : s.Steady)
    (hfuel : s.inp.length < fuel) :
    (read_count + s.inp.length < readsz ∧
      get_loop readsz fuel read_count file s = .error .tooLittle) ∨
    ∃ m s', m ≤ s.inp.length ∧ readsz ≤ read_count + m ∧ s'.Steady ∧ s'.inp = s.inp.drop m ∧
      get_loop readsz fuel read_count file s = .ok (read_count + m, file ++ s.inp.take m, s') := by
  induction fuel generalizing read_count file s with
  | zero => exact absurd hfuel (Nat.not_lt_zero _)
  | succ fuel ih =>
    rw [get_loop]
    by_cases hlt : read_count < readsz
    · obtain ⟨s', hs', hinp, hread⟩ := read_all_spec hs 1024
      rw [if_pos hlt, hread]
      dsimp only
      by_cases hnil : s.inp = []
      · left
        rw [hnil, List.length_nil]
        exact ⟨hlt, rfl⟩
      · -- `g` bytes are read now
        have hpos := List.length_pos_iff.mpr hnil
        obtain ⟨g, hg⟩ : ∃ g, (s.inp.take 1024).length = g := ⟨_, rfl⟩
        have htake : s.inp.take 1024 = s.inp.take g := by
          rw [← hg, List.length_take, List.take_eq_take_min]
        have hdrop : s'.inp = s.inp.drop g := by
          rw [hinp, ← hg, List.length_take]
          by_cases h : 1024 ≤ s.inp.length
          · rw [Nat.min_eq_left h]
          · rw [Nat.min_eq_right (by omega), List.drop_length, List.drop_eq_nil_of_le (by omega)]
        have hlen : s'.inp.length = s.inp.length - g := by rw [hdrop, List.length_drop]
        rw [hg, htake]
        rw [List.length_take] at hg
        rw [if_neg (by omega), if_neg (by omega), size_t_ofNat (by omega)]
        rcases ih (read_count + g) (file ++ s.inp.take g) hs' (by omega) with
          ⟨hless, h⟩ | ⟨m, s'', hm, hge, hs'', hinp'', h⟩
        · exact .inl ⟨by omega, h⟩
        · refine .inr ⟨g + m, s'', by omega, by omega, hs'', ?_, ?_⟩
          · rw [hinp'', hdrop, List.drop_drop]
          · rw [h, hdrop, List.append_assoc, ← List.take_add, Nat.add_assoc]
    · rw [if_neg hlt]
      refine .inr ⟨0, s, Nat.zero_le _, by omega, hs, rfl, ?_⟩
      rw [List.take_zero, List.append_nil, Nat.add_zero]

/-- The size that is read behind the line, where `rest` comes. -/
def sizeRead (stack : Stack) (rest : List UInt8) : ℕ :=
  if rest = [] then 0 else leValue (rest.take 8 ++ stack.size.drop rest.length)

/-- What the GET branch makes of a body, by its length. -/
def bodyEnd (readsz : ℕ) (body : List UInt8) : Except ClientEnd (List UInt8) :=
  if body.length < readsz then .error .tooLittle
  else if body.length = readsz then .ok body
  else .error .tooMuch

theorem size_t_ssize_t {n : ℕ} (h : n < 2 ^ 64) : size_t (ssize_t n) = n := by
  unfold size_t ssize_t Int.bmod
  dsimp only
  split <;> omega

theorem sizeRead_lt (stack : Stack) (rest : List UInt8) : sizeRead stack rest < 2 ^ 64 := by
  unfold sizeRead
  split
  · omega
  · have h8 := stack.length_size
    have hlen : (rest.take 8 ++ stack.size.drop rest.length).length ≤ 8 := by
      rw [List.length_append, List.length_take, List.length_drop]
      omega
    calc leValue (rest.take 8 ++ stack.size.drop rest.length)
        < 256 ^ (rest.take 8 ++ stack.size.drop rest.length).length := leValue_lt _
      _ ≤ 256 ^ 8 := Nat.pow_le_pow_right (by omega) hlen

/-- **Behind `"OK\n"`** the client reads the size and compares the body with it. -/
theorem client_get_ok (stack : Stack) (hs : s.Steady) (hinp : s.inp = ascii "OK\n" ++ rest) :
    ∃ n, ∀ fuel ≥ n, client_get fuel stack s = bodyEnd (sizeRead stack rest) (rest.drop 8) := by
  obtain ⟨s₁, hs₁, hinp₁, hheader⟩ := header_loop_line [] hs
    (show s.inp = ascii "OK" ++ 10 :: rest from hinp) (by decide) (by decide)
  obtain ⟨s₂, hs₂, hinp₂, hsize⟩ := read_message_size_spec hs₁ stack.length_size
  have hreadsz : size_t (if s₁.inp = [] then 0
      else ssize_t (leValue (s₁.inp.take 8 ++ stack.size.drop s₁.inp.length))) = sizeRead stack rest := by
    have hlt := sizeRead_lt stack rest
    rw [hinp₁]
    unfold sizeRead at hlt ⊢
    split
    · rfl
    · rename_i hne
      rw [if_neg hne] at hlt
      exact size_t_ssize_t hlt
  rw [hinp₁] at hinp₂
  refine ⟨rest.length + 3, fun fuel hf => ?_⟩
  have hfuel : s₂.inp.length < fuel := by
    rw [hinp₂, List.length_drop]
    omega
  unfold client_get get_response_header
  rw [hheader fuel (by simp [ascii]; omega) stack.a]
  show (do
    let (read_count, file, s) ← get_loop (size_t (read_message_size stack.size s₁).1) fuel 0 []
      (read_message_size stack.size s₁).2
    if size_t (read_message_size stack.size s₁).1 < read_count ∨ 0 < (read_all 1024 s).1 then
      Except.error ClientEnd.tooMuch
    else Except.ok file) = _
  rw [hsize]
  dsimp only
  rw [hreadsz, ← hinp₂]
  unfold bodyEnd
  rcases get_loop_spec (sizeRead stack rest) 0 [] hs₂ hfuel with
    ⟨hless, h⟩ | ⟨m, s₃, hm, hge, hs₃, hinp₃, h⟩
  · rw [h, if_pos (by omega)]
    rfl
  · obtain ⟨s₄, -, -, hread⟩ := read_all_spec hs₃ 1024
    rw [h]
    show (if _ < 0 + m ∨ 0 < (read_all 1024 s₃).1 then Except.error ClientEnd.tooMuch
      else Except.ok (s₂.inp.take m)) = _
    have hleft : s₃.inp.length = s₂.inp.length - m := by rw [hinp₃, List.length_drop]
    rw [hread, List.length_take]
    -- the body is read to the size and one `read` beyond
    by_cases heq : s₂.inp.length = sizeRead stack rest
    · rw [if_neg (by omega), if_neg (by omega), if_pos heq, List.take_of_length_le (by omega)]
    · rw [if_pos (by omega), if_neg (by omega), if_neg heq]

/-! ### Which responses are accepted -/

/-- What the server sends for a file. -/
def response (body : List UInt8) : List UInt8 :=
  ascii "OK\n" ++ (leBytes 8 body.length ++ body)

/-- The stream is a whole response, with a size that fits its field. -/
def WellFormed (stream body : List UInt8) : Prop :=
  body.length < 2 ^ 64 ∧ stream = response body

/-- A response that was cut somewhere. -/
def Cut (stream : List UInt8) : Prop :=
  ∃ body, body.length < 2 ^ 64 ∧ stream <+: response body ∧ stream ≠ response body

/-- A response with something behind it. -/
def Surplus (stream : List UInt8) : Prop :=
  ∃ body extra, body.length < 2 ^ 64 ∧ extra ≠ [] ∧ stream = response body ++ extra

/-- The client accepts a whole response, with its body in the local file, and reports one that is
    cut or too long. -/
structure Classifies (stack : Stack) (s : Stream) : Prop where
  accepts : ∀ file, (∃ n, ∀ fuel ≥ n, client_get fuel stack s = .ok file) ↔ WellFormed s.inp file
  reports : Cut s.inp ∨ Surplus s.inp →
    ∃ e : ClientEnd, e.Reported ∧ ∃ n, ∀ fuel ≥ n, client_get fuel stack s = .error e

/-- The stream is cut inside the line, directly behind it, or inside a size that reads as zero with
    the bytes that were on the stack. -/
def Missed (stack : Stack) (stream : List UInt8) : Prop :=
  stream <+: ascii "OK" ∧ (stream = [] → stack.a ≠ 10) ∨
  ∃ part, stream = ascii "OK\n" ++ part ∧ part.length < 8 ∧
    (part = [] ∨ ∀ b ∈ part ++ stack.size.drop part.length, b = 0)

theorem length_response (body : List UInt8) : (response body).length = body.length + 11 := by
  have h3 : (ascii "OK\n").length = 3 := by decide
  rw [response, List.length_append, List.length_append, length_leBytes, h3]
  omega

theorem leValue_size {n : ℕ} (h : n < 2 ^ 64) : leValue (leBytes 8 n) = n := by
  rw [leValue_leBytes]
  exact Nat.mod_eq_of_lt h

/-- The size tells the length of the body. -/
theorem response_length_inj {body body' x y : List UInt8} (hlen : body.length < 2 ^ 64)
    (hlen' : body'.length < 2 ^ 64) (h : response body ++ x = response body' ++ y) :
    body.length = body'.length := by
  simp only [response, List.append_assoc, List.append_cancel_left_eq] at h
  have hfield := congrArg (fun l => leValue (l.take 8)) h
  rwa [List.take_left' (length_leBytes _ _), List.take_left' (length_leBytes _ _),
    leValue_size hlen, leValue_size hlen'] at hfield

/-- What is cut or too long is no whole response. -/
theorem not_wellFormed {stream : List UInt8} (h : Cut stream ∨ Surplus stream) (file : List UInt8) :
    ¬ WellFormed stream file := by
  rintro ⟨hfile, hstream⟩
  rcases h with ⟨body, hbody, ⟨x, hx⟩, hne⟩ | ⟨body, extra, hbody, hextra, hx⟩
  · rw [hstream] at hx
    have hlen := response_length_inj hfile hbody (hx.trans (List.append_nil _).symm)
    have hx' := congrArg List.length hx
    rw [List.length_append, length_response, length_response] at hx'
    obtain rfl : x = [] := List.length_eq_zero_iff.mp (by omega)
    rw [List.append_nil] at hx
    exact hne (hstream.trans hx)
  · rw [hstream, ← List.append_nil (response file)] at hx
    have hlen := response_length_inj hfile hbody hx
    have hx' := congrArg List.length hx
    rw [List.append_nil, List.length_append, length_response, length_response] at hx'
    exact hextra (List.length_eq_zero_iff.mp (by omega))

/-- A response that is cut and has no whole line. -/
theorem cut_line {stream : List UInt8} (h : Cut stream ∨ Surplus stream)
    (hok : ¬ ∃ rest, stream = ascii "OK\n" ++ rest) : stream <+: ascii "OK" := by
  rcases h with ⟨body, -, hpre, -⟩ | ⟨body, extra, -, -, rfl⟩
  · rcases List.prefix_or_prefix_of_prefix hpre (List.prefix_append (ascii "OK\n") _) with h | ⟨t, h⟩
    · rcases List.prefix_concat_iff.mp (show stream <+: ascii "OK" ++ [10] from h) with h | h
      · exact absurd ⟨[], h.trans (List.append_nil _).symm⟩ hok
      · exact h
    · exact absurd ⟨t, h.symm⟩ hok
  · exact absurd ⟨_, List.append_assoc _ _ _⟩ hok

theorem leValue_eq_zero {bs : List UInt8} : leValue bs = 0 ↔ ∀ b ∈ bs, b = 0 := by
  induction bs with
  | nil => simp [leValue]
  | cons b bs ih =>
    rw [leValue, List.forall_mem_cons, ← ih, ← UInt8.toNat_inj]
    show _ ↔ b.toNat = 0 ∧ leValue bs = 0
    omega

/-- The loop goes on, or the header gets too long. -/
theorem header_loop_error {e : ClientEnd} (hs : s.Steady)
    (h : header_loop fuel a header s = .error e) : ¬ e.Reported := by
  induction fuel generalizing a header s with
  | zero =>
    obtain rfl := Except.error.inj h
    exact fun hrep => hrep.2 rfl
  | succ fuel ih =>
    obtain ⟨s', hs', -, hstep⟩ := header_loop_succ hs
    rw [hstep] at h
    split at h
    · obtain rfl := Except.error.inj h
      exact fun hrep => hrep.1 rfl
    · split at h
      · cases h
      · exact ih hs' h

/-- A response without a line is not reported. -/
theorem client_get_stuck {e : ClientEnd} (hs : s.Steady) (hline : 10 ∉ s.inp)
    (hstack : s.inp = [] → stack.a ≠ 10) (h : client_get fuel stack s = .error e) :
    ¬ e.Reported := by
  unfold client_get get_response_header at h
  cases hheader : header_loop fuel stack.a [] s with
  | error e' =>
    rw [hheader] at h
    obtain rfl := Except.error.inj h
    exact header_loop_error hs hheader
  | ok r =>
    obtain ⟨line, -, -, -, hcase⟩ := header_loop_returned hs (by rw [List.length_nil]; omega) hheader
    rcases hcase with hcase | ⟨hnil, -, ha⟩
    · refine absurd ?_ hline
      rw [hcase]
      simp
    · exact absurd ha (hstack hnil)

/-- A line that reads as `"OK\n"` is that line. -/
theorem eq_ok (hline : 10 ∉ line) (h : cstr (line ++ [10]) = ascii "OK\n") : line = ascii "OK" := by
  obtain ⟨t, ht⟩ : cstr (line ++ [10]) <+: line ++ [10] := List.takeWhile_prefix _
  rw [h] at ht
  have hhead : headline (ascii "OK\n" ++ t) = ascii "OK" :=
    headline_append (show (10 : UInt8) ∉ ascii "OK" by decide)
  rw [ht, headline_append hline] at hhead
  exact hhead

/-- Only a response with `"OK\n"` is accepted. -/
theorem client_get_accepted {file : List UInt8} (hs : s.Steady)
    (h : client_get fuel stack s = .ok file) : ∃ rest, s.inp = ascii "OK\n" ++ rest := by
  unfold client_get get_response_header at h
  cases hheader : header_loop fuel stack.a [] s with
  | error e =>
    rw [hheader] at h
    cases h
  | ok r =>
    obtain ⟨header, s₁⟩ := r
    obtain ⟨line, hline, rfl, -, hcase⟩ :=
      header_loop_returned hs (by rw [List.length_nil]; omega) hheader
    rw [hheader] at h
    have hresponse : cstr (line ++ [10]) = ascii "OK\n" := by
      by_contra hne
      have hend : ∃ e, process_response fuel stack.a' (line ++ [10]) s₁ = .error e := by
        unfold process_response
        split
        · cases get_response_header fuel stack.a' s₁ with
          | error e => exact ⟨e, rfl⟩
          | ok r => exact ⟨_, rfl⟩
        · exact ⟨_, rfl⟩
      obtain ⟨e, he⟩ := hend
      change (process_response fuel stack.a' (line ++ [10]) s₁ >>= _) = _ at h
      rw [he] at h
      cases h
    obtain rfl := eq_ok hline hresponse
    rcases hcase with hcase | ⟨-, hnil, -⟩
    · exact ⟨s₁.inp, hcase⟩
    · exact absurd hnil (by decide)

/-- A whole response, behind its line. -/
theorem wellFormed_iff {file : List UInt8} :
    WellFormed (ascii "OK\n" ++ rest) file ↔
      8 ≤ rest.length ∧ (rest.drop 8).length = leValue (rest.take 8) ∧ rest.drop 8 = file := by
  unfold WellFormed response
  rw [List.append_cancel_left_eq]
  constructor
  · rintro ⟨hlt, rfl⟩
    rw [List.length_append, List.drop_left' (length_leBytes _ _), List.take_left' (length_leBytes _ _),
      length_leBytes, leValue_size hlt]
    exact ⟨Nat.le_add_right _ _, rfl, rfl⟩
  · rintro ⟨hlen, hsize, rfl⟩
    have htake : (rest.take 8).length = 8 := by
      rw [List.length_take]
      omega
    have hlt := leValue_lt (rest.take 8)
    rw [htake] at hlt
    have hfield := leBytes_leValue 8 (rest.take 8) htake.le
    rw [htake, Nat.sub_self, List.replicate_zero, List.append_nil] at hfield
    rw [hsize, hfield, List.take_append_drop]
    exact ⟨hlt, rfl⟩

theorem bodyEnd_ok_iff {readsz : ℕ} {body file : List UInt8} :
    bodyEnd readsz body = .ok file ↔ body.length = readsz ∧ body = file := by
  unfold bodyEnd
  split
  · simp
    omega
  · split <;> simp_all

/-- A body that does not fit is reported. -/
theorem bodyEnd_reported {readsz : ℕ} {body : List UInt8} (h : body.length ≠ readsz) :
    ∃ e : ClientEnd, e.Reported ∧ bodyEnd readsz body = .error e := by
  unfold bodyEnd
  split
  · exact ⟨.tooLittle, ⟨by decide, by decide⟩, rfl⟩
  · exact ⟨.tooMuch, ⟨by decide, by decide⟩, rfl⟩

/-- **What is missed**: a stream that is cut inside the line is waited for, and one that is cut
    where the size reads as zero is accepted. -/
theorem not_classifies_of_missed (hs : s.Steady) (h : Missed stack s.inp) :
    ¬ Classifies stack s := by
  have h8 := stack.length_size
  rintro ⟨hacc, hrep⟩
  obtain ⟨hpre, ha⟩ | ⟨part, hpart, hlt, hzero⟩ := h
  · -- nothing but a part of the line
    have hlen := hpre.length_le
    have hline : 10 ∉ s.inp := fun h => absurd (hpre.subset h) (by decide)
    have hcut : Cut s.inp := by
      refine ⟨[], by simp, hpre.trans ⟨10 :: leBytes 8 0, rfl⟩, fun h => ?_⟩
      rw [h, length_response] at hlen
      exact absurd hlen (by decide)
    obtain ⟨e, he, n, hn⟩ := hrep (.inl hcut)
    exact client_get_stuck hs hline ha (hn n le_rfl) he
  · -- the size reads as zero
    have hsize : sizeRead stack part = 0 := by
      unfold sizeRead
      split
      · rfl
      · rename_i hne
        rw [List.take_of_length_le (by omega)]
        exact leValue_eq_zero.mpr (hzero.resolve_left hne)
    obtain ⟨n, hn⟩ := client_get_ok stack hs hpart
    rw [hsize, List.drop_eq_nil_of_le (by omega)] at hn
    obtain ⟨-, hwf⟩ := (hacc []).mp ⟨n, hn⟩
    have hlen := congrArg List.length hwf
    rw [hpart, length_response, List.length_append, show (ascii "OK\n").length = 3 by decide] at hlen
    omega

/-- Behind the line, a size that came whole is the one of a whole response, and one that did not
    is not the one of the empty body. -/
theorem bodyEnd_wellFormed (hno : ¬ Missed stack (ascii "OK\n" ++ rest)) (file : List UInt8) :
    bodyEnd (sizeRead stack rest) (rest.drop 8) = .ok file ↔
      WellFormed (ascii "OK\n" ++ rest) file := by
  have h8 := stack.length_size
  rw [wellFormed_iff, bodyEnd_ok_iff]
  by_cases hlt : rest.length < 8
  · refine iff_of_false (fun h => hno (.inr ⟨rest, rfl, hlt, ?_⟩)) (fun h => by omega)
    rw [List.drop_eq_nil_of_le hlt.le, sizeRead] at h
    by_cases hnil : rest = []
    · exact .inl hnil
    · rw [if_neg hnil, List.take_of_length_le hlt.le] at h
      exact .inr (leValue_eq_zero.mp h.1.symm)
  · have hne : rest ≠ [] := List.ne_nil_of_length_pos (by omega)
    have hstale : stack.size.drop rest.length = [] := List.drop_eq_nil_of_le (by omega)
    rw [sizeRead, if_neg hne, hstale, List.append_nil]
    exact ⟨fun h => ⟨by omega, h.1, h.2⟩, fun h => ⟨h.2.1, h.2.2⟩⟩

/-- A stream with the line. -/
theorem classifies_line (hs : s.Steady) (hno : ¬ Missed stack s.inp)
    (hrest : s.inp = ascii "OK\n" ++ rest) : Classifies stack s := by
  obtain ⟨n, hn⟩ := client_get_ok stack hs hrest
  have hbody : ∀ file, bodyEnd (sizeRead stack rest) (rest.drop 8) = .ok file ↔
      WellFormed s.inp file := by
    rw [hrest] at hno ⊢
    exact bodyEnd_wellFormed hno
  refine ⟨fun file => ⟨?_, fun h => ⟨n, fun fuel hf => ?_⟩⟩, fun h => ?_⟩
  · rintro ⟨m, hm⟩
    exact (hbody file).mp ((hn (max m n) (le_max_right m n)).symm.trans
      (hm (max m n) (le_max_left m n)))
  · rw [hn fuel hf]
    exact (hbody file).mpr h
  · have hne : (rest.drop 8).length ≠ sizeRead stack rest := fun hlen =>
      not_wellFormed h _ ((hbody _).mp (bodyEnd_ok_iff.mpr ⟨hlen, rfl⟩))
    obtain ⟨e, he, hend⟩ := bodyEnd_reported hne
    exact ⟨e, he, n, fun fuel hf => (hn fuel hf).trans hend⟩

/-- A stream without it. -/
theorem classifies_no_line (hs : s.Steady) (hno : ¬ Missed stack s.inp)
    (hok : ¬ ∃ rest, s.inp = ascii "OK\n" ++ rest) : Classifies stack s := by
  refine ⟨fun file => ⟨?_, ?_⟩, fun h => ?_⟩
  · rintro ⟨n, hn⟩
    exact absurd (client_get_accepted hs (hn n le_rfl)) hok
  · rintro ⟨-, h⟩
    exact absurd ⟨_, h⟩ hok
  · -- nothing came, and a newline stood on the stack
    have hnil : s.inp = [] ∧ stack.a = 10 := by
      by_contra hnot
      exact hno (.inl ⟨cut_line h hok, fun hnil ha => hnot ⟨hnil, ha⟩⟩)
    obtain ⟨s', hs', -, hstep⟩ := header_loop_succ hs
    refine ⟨.invalidResponse, ⟨by decide, by decide⟩, 1, fun fuel hf => ?_⟩
    obtain ⟨fuel, rfl⟩ := Nat.exists_eq_add_one_of_ne_zero (by omega : fuel ≠ 0)
    unfold client_get get_response_header
    rw [hstep, hnil.1, if_neg (by decide), List.headD_nil, if_pos hnil.2, hnil.2]
    rfl

/-- **The client accepts exactly the whole responses**, and reports the others that begin like
    one, unless the cut is one that is missed. -/
theorem client_get_classifies_iff (hs : s.Steady) (stack : Stack) :
    Classifies stack s ↔ ¬ Missed stack s.inp := by
  refine ⟨fun h hmissed => not_classifies_of_missed hs hmissed h, fun hno => ?_⟩
  by_cases hok : ∃ rest, s.inp = ascii "OK\n" ++ rest
  · obtain ⟨rest, hrest⟩ := hok
    exact classifies_line hs hno hrest
  · exact classifies_no_line hs hno hok

theorem client_get_classifies_some :
    Classifies ⟨0, 0, List.replicate 8 7, rfl⟩ ⟨response [1, 2], [.bytes 1, .intr]⟩ ↔
      ¬ Missed ⟨0, 0, List.replicate 8 7, rfl⟩ (response [1, 2]) :=
  client_get_classifies_iff (by simp [Stream.Steady, Answer.Steady]) _

/-- The stream is closed where the size should be. -/
theorem not_client_get_classifies :
    ¬ Classifies ⟨0, 0, List.replicate 8 7, rfl⟩ ⟨ascii "OK\n", []⟩ := by
  intro h
  obtain ⟨n, hn⟩ := client_get_ok ⟨0, 0, List.replicate 8 7, rfl⟩
    (show Stream.Steady ⟨ascii "OK\n", []⟩ by simp [Stream.Steady])
    (show ascii "OK\n" = ascii "OK\n" ++ [] from rfl)
  have hlen := congrArg List.length ((h.accepts []).mp ⟨n, hn⟩).2
  exact absurd hlen (by decide)

end SystemProgramming.Networking
