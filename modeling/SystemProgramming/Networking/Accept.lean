import SystemProgramming.Networking.Header

namespace SystemProgramming.Networking

open SystemProgramming.Lib

/-!
# `nonstop_networking/server.c` — which headers are accepted

`read_header`, turn after turn, on the line that the client sends for a GET, a PUT or a DELETE,
however the turns cut it.

* `read_headers` — the turns of a job up to the end of its header.
* `get_header_long` — a line of more than 261 bytes does not get through `get_header`.
* `read_header_accepts_iff` — the two limits agree, except for a DELETE with a name of 255 bytes.
-/

variable {msgs : Messages} {v : Verb} {name : Name} {rest stream inp buf line : List UInt8}
  {conn : Conn} {c : Ctx} {size fuel : ℕ} {a : UInt8}

/-- `read_header` in one turn after the other, until the header is dealt with. -/
def read_headers (msgs : Messages) : List Turn → Ctx → Ret × Ctx
  | [], c => (.again, c)
  | t :: turns, c =>
    match read_header msgs t (c.begin t) with
    | (.again, c) => read_headers msgs turns c
    | r => r

/-- What the client writes in front of a name. -/
def verbText : Verb → List UInt8
  | .get => ascii "GET "
  | .put => ascii "PUT "
  | .delete => ascii "DELETE "
  | .list => ascii "LIST"
  | .unknown => []

/-- The header is dealt with as it should be. -/
structure HeaderRead (msgs : Messages) (v : Verb) (name : Name) (rest : List UInt8) (c : Ctx) :
    Prop where
  /-- a name that is not too long is accepted, and nothing behind the line is consumed -/
  accepted : name.length ≤ 255 → c.job.request = v ∧ c.job.filename = some name ∧
    c.job.state ≠ .readHeader ∧ c.job.state ≠ .error ∧ c.conn.inp = rest
  /-- a longer one is refused -/
  refused : 255 < name.length → c.job.state = .error ∧ c.job.errmsg = msgs.err_bad_request

/-- **A line of more than 261 bytes** is refused. -/
theorem get_header_long (hline : LineRead stream buf size conn.inp) (hin : 10 ∈ conn.inp)
    (hlong : 261 < (headline stream).length) (hfuel : fuel + size = 263) (hsize : size ≤ 262)
    (has : ∀ a ∈ conn.answers, a.Moves) : (get_header fuel a conn buf size).1 ≠ .ok := by
  induction fuel generalizing a conn buf size with
  | zero => omega
  | succ fuel ih =>
    obtain ⟨pre, hstream, hno, htake⟩ := hline
    rw [get_header, Conn.reader]
    obtain ⟨r, hr⟩ : ∃ r, reader conn.answers conn.inp 1 = r := ⟨_, rfl⟩
    have hread : Read conn.answers conn.inp 1 r := hr ▸ reader_read has Nat.one_pos
    rw [hr]
    cases hread with
    | fail m as hlt hle hsub hfail => simp
    | part m hlt hle hcap => simp
    | full as hsub hlt hcap =>
      have has' : ∀ a ∈ as, a.Moves := fun b hb => has b (hsub.subset hb)
      dsimp only
      rcases hinp : conn.inp with _ | ⟨b, inp⟩
      · rw [hinp] at hin
        simp at hin
      · obtain ⟨htake', hlen⟩ := htake (by simp [hinp])
        rw [hinp] at hstream hin
        rw [List.take_succ_cons, List.take_zero, List.headD_cons, List.drop_succ_cons, List.drop_zero]
        split
        · simp
        · -- the newline would end a line that is short enough
          have hb : b ≠ 10 := by
            rintro rfl
            rw [hstream, headline_append hno] at hlong
            omega
          rw [if_neg hb]
          refine ih ?_ ((List.mem_cons.mp hin).resolve_left (fun h => hb h.symm)) (by omega)
            (by omega) has'
          refine ⟨pre ++ [b], by rw [hstream, List.append_assoc]; rfl, ?_, fun _ => ?_⟩
          · simpa [hno] using fun h => hb h.symm
          · exact ⟨take_splice_succ htake' hlen b, by simp [hlen]⟩

theorem read_header_long (msgs : Messages) (t : Turn) (h : Heading stream c.job c.conn.inp)
    (hin : 10 ∈ c.conn.inp) (hlong : 261 < (headline stream).length)
    (has : ∀ a ∈ c.conn.answers, a.Moves) (hret : (read_header msgs t c).1 ≠ .again) :
    (read_header msgs t c).2.job.state = .error := by
  have hsize := h.readsz
  have hgot := get_header_long (a := t.stack) h.line hin hlong
    (show 263 - c.job.readsz + c.job.readsz = 263 by omega) hsize has
  unfold read_header at hret ⊢
  rw [if_neg (by simp [h.state])] at hret ⊢
  obtain ⟨⟨ret, conn, buf, readsz⟩, hr⟩ :
    ∃ r, get_header (263 - c.job.readsz) t.stack c.conn c.job.buf c.job.readsz = r := ⟨_, rfl⟩
  rw [hr] at hgot hret ⊢
  cases ret with
  | ok => exact absurd rfl hgot
  | again => exact absurd rfl hret
  | err => rfl
  | tooLong => rfl

/-- The header line of a request. -/
structure RequestLine (v : Verb) (name : Name) : Prop where
  verb : v = .get ∨ v = .put ∨ v = .delete
  newline : 10 ∉ name
  nul : 0 ∉ name

namespace RequestLine

theorem notMem_line (h : RequestLine v name) : 10 ∉ verbText v ++ name := by
  rw [List.mem_append]
  rintro (hmem | hmem)
  · rcases h.verb with rfl | rfl | rfl <;> exact absurd hmem (by decide)
  · exact h.newline hmem

/-- **The line is parsed** as it was written, spaces in the name and all. -/
theorem parse (h : RequestLine v name) :
    parse_header (cstr (verbText v ++ name)) .unknown = (v, some name) := by
  have hcstr : cstr (verbText v ++ name) = verbText v ++ name := by
    rw [cstr, List.takeWhile_eq_self_iff]
    intro b hb
    rw [decide_eq_true_eq]
    rintro rfl
    rcases List.mem_append.mp hb with hmem | hmem
    · rcases h.verb with rfl | rfl | rfl <;> exact absurd hmem (by decide)
    · exact h.nul hmem
  rw [hcstr]
  rcases h.verb with rfl | rfl | rfl <;> rfl

theorem wellformed_iff (h : RequestLine v name) : Wellformed (v, some name) ↔ name.length ≤ 255 := by
  have hv : v ≠ .unknown ∧ v ≠ .list := by rcases h.verb with rfl | rfl | rfl <;> decide
  exact ⟨fun hwf => hwf.2 hv.2, fun hlen => ⟨hv.1, fun _ => hlen⟩⟩

/-- **The two limits**: of the lines that have at most 261 bytes, those with a name of at most
    255 bytes are missing only one. -/
theorem length_iff (h : RequestLine v name) (hlen : name.length ≤ 255) :
    (verbText v ++ name).length ≤ 261 ↔ ¬ (v = .delete ∧ name.length = 255) := by
  rw [List.length_append]
  have h4 : (ascii "GET ").length = 4 := by decide
  have h4' : (ascii "PUT ").length = 4 := by decide
  have h7 : (ascii "DELETE ").length = 7 := by decide
  rcases h.verb with rfl | rfl | rfl
  · simp [verbText]
    omega
  · simp [verbText]
    omega
  · simp [verbText]
    omega

end RequestLine

/-- What of the line is still to come. -/
theorem length_of_lineRead (hline : LineRead stream buf size inp)
    (hstream : stream = line ++ 10 :: rest) (hno : 10 ∉ line) : rest.length < inp.length := by
  obtain ⟨pre, hpre, hpre', -⟩ := hline
  have hle : pre.length ≤ (headline (pre ++ inp)).length := length_le_headline hpre'
  rw [← hpre, hstream, headline_append hno] at hle
  have hlen := congrArg List.length (hpre.symm.trans hstream)
  rw [List.length_append, List.length_append, List.length_cons] at hlen
  omega

/-- **The turns of a header**, from any point of the line on. -/
theorem read_headers_spec {turns : List Turn} (hreq : RequestLine v name)
    (hstream : stream = verbText v ++ name ++ 10 :: rest)
    (h : Heading stream c.job c.conn.inp) (hin : 10 ∈ c.conn.inp)
    (has : ∀ t ∈ turns, ∀ a ∈ t.answers, a.Steady)
    (hcap : c.conn.inp.length ≤ rest.length + ((turns.map Turn.answers).map capacity).sum) :
    HeaderRead msgs v name rest (read_headers msgs turns c).2 ↔
      ¬ (v = .delete ∧ name.length = 255) := by
  have hhead : headline stream = verbText v ++ name := by
    rw [hstream, headline_append hreq.notMem_line]
  have hafter : afterHeader stream = rest := by
    rw [hstream, afterHeader_append hreq.notMem_line]
  have h10 : 10 ∈ stream := by
    rw [hstream]
    simp
  induction turns generalizing c with
  | nil =>
    -- then the whole line would have been read
    have hlt := length_of_lineRead h.line hstream hreq.notMem_line
    simp at hcap
    omega
  | cons t turns ih =>
    have has' : ∀ a ∈ t.answers, a.Moves := fun a ha => (has t (by simp) a ha).moves
    have hspec : HeaderTurn msgs stream (c.begin t) (read_header msgs t (c.begin t)) :=
      read_header_spec msgs t h has'
    have hlong : 261 < (headline stream).length → (read_header msgs t (c.begin t)).1 ≠ .again →
        (read_header msgs t (c.begin t)).2.job.state = .error :=
      fun hlong => read_header_long msgs t (c := c.begin t) h hin hlong has'
    rw [read_headers]
    obtain ⟨r, hr⟩ : ∃ r, read_header msgs t (c.begin t) = r := ⟨_, rfl⟩
    rw [hr] at hspec hlong ⊢
    cases hspec with
    | again c' hro hhead' hdry hcap' =>
      -- this turn has used up its answers, and the others bring in what is left
      have hleft := hcap' hin
      refine ih hhead' hleft.1 (fun t ht => has t (List.mem_cons_of_mem _ ht)) ?_
      rw [List.map_cons, List.map_cons, List.sum_cons] at hcap
      have hcap'' : capacity t.answers + c'.conn.inp.length ≤ c.conn.inp.length := hleft.2
      omega
    | bad ret c' hret hro hst hreq' herr hw hcause =>
      have hres : (match (ret, c') with
          | (.again, c) => read_headers msgs turns c
          | r => r).2 = c' := by
        cases ret with
        | again => exact absurd rfl hret
        | _ => rfl
      have hfail : .fail ∉ t.answers := fun hmem => has t (by simp) _ hmem
      rw [hres]
      by_cases hlen : name.length ≤ 255
      · -- the line is too long
        rw [← hreq.length_iff hlen]
        refine iff_of_false (fun hread => (hread.accepted hlen).2.2.2.1 hst) (fun hle => ?_)
        rw [← hhead] at hle
        refine hcause hin hfail hle ?_
        rw [hhead, hreq.parse, hreq.wellformed_iff]
        exact hlen
      · exact iff_of_true ⟨fun hle => absurd hle hlen, fun _ => ⟨hst, herr⟩⟩
          (fun hmax => hlen (by omega))
    | ok c' p hro hjob hafter' hwf hname hparse hcap' =>
      obtain rfl : p = (v, some name) := by rw [hparse h10, hhead, hreq.parse]
      have hlen := hreq.wellformed_iff.mp hwf
      have hst : c'.job.state = if v = .put then .readSize else .serving := by rw [hjob]
      have hne : c'.job.state ≠ .error ∧ c'.job.state ≠ .readHeader := by
        rw [hst]
        split <;> decide
      refine iff_of_true ⟨fun _ => ?_, fun hgt => by omega⟩ ?_
      · exact ⟨by rw [hjob], by rw [hjob], hne.2, hne.1, hafter'.symm.trans hafter⟩
      · -- a line that is too long would have been refused
        rw [← hreq.length_iff hlen, ← hhead]
        by_contra hgt
        exact hne.1 (hlong (by omega) (by simp))

/-- **The acceptance of a header.**  Whatever the turns read of it at a time, `read_header` does
    with the line of a GET, a PUT or a DELETE what it should, except for a DELETE with a name of
    255 bytes. -/
theorem read_header_accepts_iff (msgs : Messages) (srv : Server) {turns : List Turn}
    (rest : List UInt8) (hreq : RequestLine v name) (has : ∀ t ∈ turns, ∀ a ∈ t.answers, a.Steady)
    (hcap : (verbText v ++ name).length < ((turns.map Turn.answers).map capacity).sum) :
    HeaderRead msgs v name rest
        (read_headers msgs turns
          ⟨srv, init_job, Conn.fresh (verbText v ++ name ++ 10 :: rest)⟩).2 ↔
      ¬ (v = .delete ∧ name.length = 255) := by
  refine read_headers_spec hreq rfl (Heading.init _) (by simp [Conn.fresh]) has ?_
  simp only [Conn.fresh, List.length_append, List.length_cons] at hcap ⊢
  omega

theorem read_header_accepts_some :
    HeaderRead ⟨[], [], []⟩ .get (ascii "a b") [1, 2]
        (read_headers ⟨[], [], []⟩ ([3, 20].map bytewise) ⟨oneFile (ascii "b") [], init_job,
          Conn.fresh (verbText .get ++ ascii "a b" ++ 10 :: [1, 2])⟩).2 ↔
      ¬ ((.get : Verb) = .delete ∧ (ascii "a b").length = 255) :=
  read_header_accepts_iff ⟨[], [], []⟩ (oneFile (ascii "b") []) [1, 2]
    ⟨.inl rfl, by decide, by decide⟩ (quiet_bytewise (ascii "b") [3, 20]).steady (by decide)

/-- A DELETE with a name of 255 bytes is refused. -/
theorem not_read_header_accepts :
    ¬ HeaderRead ⟨[], [], []⟩ .delete (List.replicate 255 97) []
        (read_headers ⟨[], [], []⟩ ([300].map bytewise) ⟨oneFile (ascii "b") [], init_job,
          Conn.fresh (verbText .delete ++ List.replicate 255 97 ++ 10 :: [])⟩).2 := by
  have hreq : RequestLine .delete (List.replicate 255 97) := by
    refine ⟨.inr (.inr rfl), ?_, ?_⟩ <;> rw [List.mem_replicate] <;> decide
  have hin : 10 ∈ verbText .delete ++ List.replicate 255 97 ++ 10 :: [] :=
    List.mem_append_right _ List.mem_cons_self
  refine (read_headers_spec hreq rfl (Heading.init _) hin (quiet_bytewise (ascii "b") [300]).steady
    ?_).not.mpr (not_not.mpr ⟨rfl, List.length_replicate⟩)
  have h7 : (verbText .delete).length = 7 := by decide
  rw [List.map_singleton, List.map_singleton, List.map_singleton, List.sum_singleton,
    capacity_bytewise]
  show (verbText .delete ++ List.replicate 255 97 ++ 10 :: []).length ≤ _
  rw [List.length_append, List.length_append, List.length_replicate, h7]
  decide

end SystemProgramming.Networking
