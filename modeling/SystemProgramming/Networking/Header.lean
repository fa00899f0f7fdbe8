import Mathlib.Data.List.TakeWhile
import SystemProgramming.Networking.Turns

namespace SystemProgramming.Networking

open SystemProgramming.Lib

/-!
# `nonstop_networking/server.c` — reading a header

A client's stream is a line, the announced size and the body.  `read_header` takes the line
off the stream, over as many turns as it needs.

* `afterHeader`, `announced`, `body` — the parts of a stream.
* `Heading` — a job that is still reading its header.
* `read_header_spec` — a turn of `read_header`.
-/

variable {stream pre rest inp buf : List UInt8} {size fuel : ℕ} {msgs : Messages} {t : Turn}
  {c : Ctx} {conn : Conn} {a : UInt8}

/-! ### Streams -/

/-- The line at the start of a stream. -/
def headline (stream : List UInt8) : List UInt8 := stream.takeWhile (· ≠ 10)

/-- What is behind that line. -/
def afterHeader (stream : List UInt8) : List UInt8 := (stream.dropWhile (· ≠ 10)).drop 1

/-- The size that a PUT announces. -/
def announced (stream : List UInt8) : ℕ := leValue ((afterHeader stream).take 8)

/-- The bytes that a PUT sends. -/
def body (stream : List UInt8) : List UInt8 := (afterHeader stream).drop 8

/-- Bytes without a newline. -/
theorem all_ne_of_notMem (h : (10 : UInt8) ∉ pre) : ∀ b ∈ pre, decide (b ≠ 10) = true := by
  intro b hb
  rw [decide_eq_true_eq]
  rintro rfl
  exact h hb

theorem headline_append (h : (10 : UInt8) ∉ pre) : headline (pre ++ 10 :: rest) = pre := by
  rw [headline, List.takeWhile_append_of_pos (all_ne_of_notMem h), List.takeWhile_cons_of_neg (by simp),
    List.append_nil]

theorem afterHeader_append (h : (10 : UInt8) ∉ pre) : afterHeader (pre ++ 10 :: rest) = rest := by
  rw [afterHeader, List.dropWhile_append_of_pos (all_ne_of_notMem h), List.dropWhile_cons_of_neg (by simp),
    List.drop_one, List.tail_cons]

theorem afterHeader_eq_nil (h : (10 : UInt8) ∉ stream) : afterHeader stream = [] := by
  rw [afterHeader, List.dropWhile_eq_nil_iff.mpr (all_ne_of_notMem h), List.drop_nil]

/-! ### The loop -/

/-- The part of the line that was read: without a newline, and, until the end of the stream
    is met, at the start of the buffer. -/
def LineRead (stream buf : List UInt8) (size : ℕ) (inp : List UInt8) : Prop :=
  ∃ pre, stream = pre ++ inp ∧ (10 : UInt8) ∉ pre ∧ (inp ≠ [] → buf.take size = pre ∧ pre.length = size)

/-- How `get_header` may end. -/
inductive GotHeader (stream : List UInt8) (conn : Conn) : Ret × Conn × List UInt8 × ℕ → Prop
  | ok (inp : List UInt8) (as : List Answer) (buf : List UInt8) (size : ℕ)
      (hsub : as <:+ conn.answers) (hafter : afterHeader stream = inp)
      (hline : 10 ∈ stream → cstr buf = cstr (headline stream))
      (hcap : 10 ∈ conn.inp → capacity conn.answers + inp.length ≤ capacity as + conn.inp.length) :
      GotHeader stream conn (.ok, { conn with inp := inp, answers := as }, buf, size)
  | again (inp buf : List UInt8) (size : ℕ) (hline : LineRead stream buf size inp)
      (hsize : size ≤ 262)
      (hcap : 10 ∈ conn.inp → 10 ∈ inp ∧ capacity conn.answers + inp.length ≤ conn.inp.length) :
      GotHeader stream conn (.again, { conn with inp := inp, answers := [] }, buf, size)
  | err (inp : List UInt8) (as : List Answer) (buf : List UInt8) (size : ℕ)
      (hsub : as <:+ conn.answers) (hfail : .fail ∈ conn.answers) :
      GotHeader stream conn (.err, { conn with inp := inp, answers := as }, buf, size)
  | tooLong (inp : List UInt8) (as : List Answer) (buf : List UInt8) (size : ℕ)
      (hsub : as <:+ conn.answers) (hlong : 10 ∈ conn.inp → 261 < (headline stream).length) :
      GotHeader stream conn (.tooLong, { conn with inp := inp, answers := as }, buf, size)

/-- A byte written behind the part of the line that was read. -/
theorem take_splice_succ (htake : buf.take size = pre) (hlen : pre.length = size) (b : UInt8) :
    (splice buf size [b]).take (size + 1) = pre ++ [b] := by
  rw [splice, htake, List.take_append_of_le_length (by simp [hlen]), List.take_of_length_le (by simp [hlen])]

/-- The terminator written over the newline ends the string. -/
theorem cstr_splice_newline (htake : buf.take (size + 1) = pre ++ [10]) (hlen : pre.length = size) :
    cstr (splice buf size [0]) = cstr pre := by
  have hpre : buf.take size = pre := by
    calc buf.take size = (buf.take (size + 1)).take size := by
          rw [List.take_take, Nat.min_eq_left (Nat.le_succ size)]
      _ = pre := by rw [htake, ← hlen, List.take_left]
  have hzero : ∀ l : List UInt8, (pre ++ 0 :: l).takeWhile (· ≠ 0) = pre.takeWhile (· ≠ 0) := by
    intro l
    rw [List.takeWhile_append]
    split
    · rename_i h
      rw [List.takeWhile_cons_of_neg (by simp), List.append_nil]
      exact ((List.takeWhile_prefix _).eq_of_length h).symm
    · rfl
  rw [cstr, cstr, splice, hpre, List.append_assoc]
  exact hzero _

/-- The loop goes on after one byte. -/
theorem GotHeader.of_step {as : List Answer} {r : Ret × Conn × List UInt8 × ℕ}
    (h : GotHeader stream { conn with inp := inp, answers := as } r) (hsub : as <:+ conn.answers)
    (hcap : 10 ∈ conn.inp → 10 ∈ inp ∧
      capacity conn.answers + inp.length ≤ capacity as + conn.inp.length) :
    GotHeader stream conn r := by
  cases h with
  | ok inp' as' buf size hsub' hafter hline hcap' =>
    refine .ok inp' as' buf size (hsub'.trans hsub) hafter hline (fun h10 => ?_)
    have h1 := hcap h10
    have h2 := hcap' h1.1
    dsimp only at h2
    omega
  | again inp' buf size hline hsize hcap' =>
    refine .again inp' buf size hline hsize (fun h10 => ?_)
    have h1 := hcap h10
    have h2 := hcap' h1.1
    dsimp only at h2
    exact ⟨h2.1, by omega⟩
  | err inp' as' buf size hsub' hfail =>
    exact .err inp' as' buf size (hsub'.trans hsub) (hsub.subset hfail)
  | tooLong inp' as' buf size hsub' hlong =>
    exact .tooLong inp' as' buf size (hsub'.trans hsub) (fun h10 => hlong (hcap h10).1)

theorem length_le_headline (h : (10 : UInt8) ∉ pre) :
    pre.length ≤ (headline (pre ++ rest)).length := by
  rw [headline, List.takeWhile_append_of_pos (all_ne_of_notMem h), List.length_append]
  omega

/-- **The loop of `get_header`.** -/
theorem get_header_spec (hline : LineRead stream buf size conn.inp)
    (hfuel : fuel + size = 263) (hsize : size ≤ 262) (has : ∀ a ∈ conn.answers, a.Moves) :
    GotHeader stream conn (get_header fuel a conn buf size) := by
  induction fuel generalizing a conn buf size with
  | zero => omega
  | succ fuel ih =>
    obtain ⟨pre, hstream, hno, htake⟩ := hline
    rw [get_header, Conn.reader]
    obtain ⟨r, hr⟩ : ∃ r, reader conn.answers conn.inp 1 = r := ⟨_, rfl⟩
    have hread : Read conn.answers conn.inp 1 r := hr ▸ reader_read has Nat.one_pos
    rw [hr]
    cases hread with
    | fail m as hlt hle hsub hfail => exact .err _ as buf size hsub hfail
    | part m hlt hle hcap =>
      obtain rfl : m = 0 := by omega
      exact .again conn.inp buf size ⟨pre, hstream, hno, htake⟩ hsize (fun h => ⟨h, by omega⟩)
    | full as hsub hlt hcap =>
      have has' : ∀ a ∈ as, a.Moves := fun b hb => has b (hsub.subset hb)
      dsimp only
      rcases hinp : conn.inp with _ | ⟨b, inp⟩
      · -- the end of the stream: `a[0]` is written once more
        have hnone : (10 : UInt8) ∉ conn.inp := by simp [hinp]
        rw [List.take_nil, List.drop_nil, List.headD_nil]
        split
        · exact .tooLong [] as _ _ hsub (fun h => absurd h hnone)
        · split
          · rw [hinp, List.append_nil] at hstream
            refine .ok [] as _ _ hsub (afterHeader_eq_nil (hstream ▸ hno)) ?_
              (fun h => absurd h hnone)
            exact fun h => absurd (hstream ▸ h) hno
          · refine GotHeader.of_step (ih ?_ (by omega) (by omega) has') hsub
              (fun h => absurd h hnone)
            exact ⟨pre, hinp ▸ hstream, hno, fun h => absurd rfl h⟩
      · -- the next byte of the line
        have htake' := htake (by simp [hinp])
        rw [hinp] at hstream hcap
        have hcap' : capacity conn.answers + inp.length ≤ capacity as + (b :: inp).length := by
          rw [if_neg (by simp)] at hcap
          rw [List.length_cons] at hcap ⊢
          omega
        rw [List.take_succ_cons, List.take_zero, List.headD_cons, List.drop_succ_cons, List.drop_zero]
        split
        · refine .tooLong inp as _ _ hsub (fun _ => ?_)
          have h : pre.length ≤ (headline (pre ++ b :: inp)).length := length_le_headline hno
          rw [← hstream] at h
          omega
        · split
          · rename_i hb
            subst hb
            refine .ok inp as _ _ hsub (hstream ▸ afterHeader_append hno) (fun _ => ?_)
              (fun _ => by rw [hinp]; exact hcap')
            rw [Nat.add_sub_cancel, hstream, headline_append hno]
            exact cstr_splice_newline (take_splice_succ htake'.1 htake'.2 10) htake'.2
          · rename_i hb
            refine GotHeader.of_step (ih ?_ (by omega) (by omega) has') hsub
              (fun h => ⟨?_, by rw [hinp]; exact hcap'⟩)
            · refine ⟨pre ++ [b], by rw [hstream, List.append_assoc]; rfl, ?_, fun _ => ?_⟩
              · simpa [hno] using fun h => hb h.symm
              · exact ⟨take_splice_succ htake'.1 htake'.2 b, by simp [htake'.2]⟩
            · rw [hinp] at h
              exact (List.mem_cons.mp h).resolve_left (fun h => hb h.symm)

/-! ### A turn -/

/-- A job that is still reading its header. -/
structure Heading (stream : List UInt8) (j : Job) (inp : List UInt8) : Prop where
  state : j.state = .readHeader
  request : j.request = .unknown
  filename : j.filename = none
  writesz : j.writesz = 0
  datasz : j.datasz = 0
  filesize : j.filesize = 0
  readsz : j.readsz ≤ 262
  line : LineRead stream j.buf j.readsz inp

theorem Heading.init (stream : List UInt8) : Heading stream init_job stream :=
  ⟨rfl, rfl, rfl, rfl, rfl, rfl, Nat.zero_le _, [], rfl, by simp, fun _ => ⟨rfl, rfl⟩⟩

/-- A request as `read_header` accepts it. -/
def Wellformed (p : Verb × Option Name) : Prop :=
  p.1 ≠ .unknown ∧ (p.1 ≠ .list → (p.2.getD []).length ≤ 255)

/-- What stays the same on a connection from which something is read. -/
structure ReadOnly (c c' : Ctx) : Prop where
  srv : c'.srv = c.srv
  out : c'.conn.out = c.conn.out
  closed : c'.conn.closed = c.conn.closed
  answers : c'.conn.answers <:+ c.conn.answers

/-- How a turn of `read_header` may end: the header is not complete, or it is refused, or it
    is accepted. -/
inductive HeaderTurn (msgs : Messages) (stream : List UInt8) (c : Ctx) : Ret × Ctx → Prop
  | again (c' : Ctx) (hro : ReadOnly c c') (hhead : Heading stream c'.job c'.conn.inp)
      (hdry : c'.conn.answers = [])
      (hcap : 10 ∈ c.conn.inp → 10 ∈ c'.conn.inp ∧
        capacity c.conn.answers + c'.conn.inp.length ≤ c.conn.inp.length) :
      HeaderTurn msgs stream c (.again, c')
  | bad (ret : Ret) (c' : Ctx) (hret : ret ≠ .again) (hro : ReadOnly c c')
      (hst : c'.job.state = .error) (hreq : c'.job.request = .unknown)
      (herr : c'.job.errmsg = msgs.err_bad_request) (hw : c'.job.writesz = 0)
      (hcause : 10 ∈ c.conn.inp → .fail ∉ c.conn.answers → (headline stream).length ≤ 261 →
        ¬ Wellformed (parse_header (cstr (headline stream)) .unknown)) :
      HeaderTurn msgs stream c (ret, c')
  | ok (c' : Ctx) (p : Verb × Option Name) (hro : ReadOnly c c')
      (hjob : c'.job = { c.job with
        request := p.1, filename := p.2, state := if p.1 = .put then .readSize else .serving,
        buf := zeros, readsz := 0 })
      (hafter : afterHeader stream = c'.conn.inp) (hwf : Wellformed p)
      (hname : p.1 ≠ .list → p.2.isSome)
      (hparse : 10 ∈ stream → p = parse_header (cstr (headline stream)) .unknown)
      (hcap : 10 ∈ c.conn.inp → capacity c.conn.answers + c'.conn.inp.length ≤
        capacity c'.conn.answers + c.conn.inp.length) : HeaderTurn msgs stream c (.ok, c')

/-- `LIST` has no name, and the other requests have one. -/
theorem parse_header_name (header : List UInt8) :
    ((parse_header header .unknown).1 = .list → (parse_header header .unknown).2 = none) ∧
    ((parse_header header .unknown).1 ≠ .list → (parse_header header .unknown).1 ≠ .unknown →
      (parse_header header .unknown).2.isSome) := by
  unfold parse_header
  split
  · split <;> simp
  · dsimp only
    split_ifs <;> simp

/-- **A turn of `read_header`.** -/
theorem read_header_spec (msgs : Messages) (t : Turn) (h : Heading stream c.job c.conn.inp)
    (has : ∀ a ∈ c.conn.answers, a.Moves) : HeaderTurn msgs stream c (read_header msgs t c) := by
  have hsize := h.readsz
  have hgot : GotHeader stream c.conn
      (get_header (263 - c.job.readsz) t.stack c.conn c.job.buf c.job.readsz) :=
    get_header_spec h.line (by omega) hsize has
  unfold read_header
  rw [if_neg (by simp [h.state])]
  obtain ⟨r, hr⟩ : ∃ r, get_header (263 - c.job.readsz) t.stack c.conn c.job.buf c.job.readsz = r :=
    ⟨_, rfl⟩
  rw [hr] at hgot ⊢
  cases hgot with
  | again inp buf size hline hsize hcap =>
    exact .again _ ⟨rfl, rfl, rfl, by simp⟩ ⟨h.state, h.request, h.filename, h.writesz, h.datasz,
      h.filesize, hsize, hline⟩ rfl hcap
  | err inp as buf size hsub hfail =>
    exact .bad _ _ (by simp) ⟨rfl, rfl, rfl, hsub⟩ rfl h.request rfl h.writesz
      (fun _ h1 => absurd hfail h1)
  | tooLong inp as buf size hsub hlong =>
    refine .bad _ _ (by simp) ⟨rfl, rfl, rfl, hsub⟩ rfl h.request rfl h.writesz (fun h1 _ h2 => ?_)
    have hlen := hlong h1
    omega
  | ok inp as buf size hsub hafter hline hcap =>
    dsimp only
    rw [h.request]
    obtain ⟨p, hp⟩ : ∃ p, parse_header (cstr buf) .unknown = p := ⟨_, rfl⟩
    have hname := parse_header_name (cstr buf)
    have hparse : 10 ∈ stream → p = parse_header (cstr (headline stream)) .unknown := by
      intro h10
      rw [← hp, hline h10]
    have hin : 10 ∈ c.conn.inp → 10 ∈ stream := by
      obtain ⟨pre, hstream, -⟩ := h.line
      exact fun h10 => hstream ▸ List.mem_append_right pre h10
    rw [hp] at hname ⊢
    by_cases hunk : p.1 = .unknown
    · rw [if_pos hunk]
      refine .bad _ _ (by simp) ⟨rfl, rfl, rfl, hsub⟩ rfl hunk rfl h.writesz (fun h1 _ _ hwf => ?_)
      exact hwf.1 (hparse (hin h1) ▸ hunk)
    rw [if_neg hunk]
    by_cases hlong : p.1 ≠ .list ∧ 255 < (p.2.getD []).length
    · rw [if_pos hlong]
      refine .bad _ _ (by simp) ⟨rfl, rfl, rfl, hsub⟩ rfl rfl rfl h.writesz (fun h1 _ _ hwf => ?_)
      rw [← hparse (hin h1)] at hwf
      have hroom := hwf.2 hlong.1
      omega
    · rw [if_neg hlong]
      refine .ok _ p ⟨rfl, rfl, rfl, hsub⟩ ?_ hafter ⟨hunk, fun hl => ?_⟩
        (fun hl => hname.2 hl hunk) hparse hcap
      · -- only `LIST` keeps the name that the job had, which is none
        have hfile : (if p.1 = .list then c.job.filename else p.2) = p.2 := by
          split
          · rename_i hl
            rw [h.filename, hname.1 hl]
          · rfl
        dsimp only
        rw [hfile]
      · exact Nat.le_of_not_lt (fun hlt => hlong ⟨hl, hlt⟩)

end SystemProgramming.Networking
