import SystemProgramming.Networking.Get

namespace SystemProgramming.Networking

open SystemProgramming.Lib

/-!
# `nonstop_networking/server.c` — what a GET sends

The turns of a GET from the moment it is served until it is done.

* `run_smooth`, `run_rough` — with no turn that ends on a chunk boundary, and with one.
* `get_stream_iff` — the reply is sent exactly if no turn ends there.
-/

variable {msgs : Messages} {content : List UInt8} {name : Name} {i fuel : ℕ} {c : Ctx} {t : Turn}
  {rem : List (List UInt8)}

/-! ### A turn -/

theorem Sending.ne_nil {j : Job} (h : Sending content i j rem) : rem ≠ [] := by
  cases h <;> exact List.cons_ne_nil _ _

/-- The states in which a job sends its reply. -/
theorem Sending.state_ne {j : Job} (h : Sending content i j rem) :
    j.state ≠ .readHeader ∧ j.state ≠ .error ∧ j.state ≠ .done := by
  cases h with
  | serving hst => simp [hst]
  | response hst => simp [hst]
  | size hst => simp [hst]
  | chunk hst => simp [hst]

/-- The event of a GET that is being served. -/
theorem event_get (hreq : c.job.request = .get) (hst : c.job.state ≠ .readHeader)
    (herr : c.job.state ≠ .error) : event msgs fuel t c =
    match ((get_phases msgs fuel { c with conn := { c.conn with answers := t.answers } }).next
        (fun c => .ok (some .ok, c.close))).result with
    | .error e => .error e
    | .ok (.again, c) => .ok c
    | .ok (_, c) => if c.job.state = .error then .ok (write_err c).2 else .ok c := by
  unfold event
  dsimp only
  rw [if_neg hst]
  dsimp only
  unfold serve handle
  dsimp only
  rw [hreq]
  dsimp only
  unfold handle_get
  rw [if_neg herr]
  rfl

/-- How the turns of the job may go on after a turn. -/
inductive Turned (content : List UInt8) (name : Name) (i : ℕ) (as : List Answer) (c : Ctx)
    (rem : List (List UInt8)) : Ctx → Prop
  | all (c' : Ctx) (hclosed : c'.conn.closed = true) (hacc : accept as rem = [])
      (hst : c'.job.state = .done) (hout : c'.conn.out = c.conn.out ++ rem.flatten) :
      Turned content name i as c rem c'
  | part (c' : Ctx) (hserv : Serving content name i c')
      (hleft : Pending content i c'.job (accept as rem))
      (hout : c'.conn.out ++ (accept as rem).flatten = c.conn.out ++ rem.flatten) :
      Turned content name i as c rem c'

theorem Serving.of_same {c c' : Ctx} (h : Serving content name i c) (hs : Same c c') :
    Serving content name i c' :=
  ⟨hs.request.trans h.request, hs.filename.trans h.filename, hs.srv ▸ h.entry, hs.srv ▸ h.data,
    hs.closed.trans h.opened⟩

/-- Nobody else changes the file. -/
theorem Serving.keep (h : Serving content name i c) (ht : t.Keeps name) :
    Serving content name i { c with srv := t.others c.srv } := by
  obtain ⟨hentry, hdata⟩ := ht c.srv
  exact ⟨h.request, h.filename, hentry.trans h.entry, (hdata i h.entry).trans h.data, h.opened⟩

/-- **One turn of a GET.** -/
theorem event_sending (msgs : Messages) (h : Serving content name i c) (hsend : Sending content i c.job rem)
    (has : ∀ a ∈ t.answers, a.Steady) (hfuel : t.answers.length < fuel) :
    ∃ c', event msgs fuel t c = .ok c' ∧ Turned content name i t.answers c rem c' := by
  have hst := hsend.state_ne
  rw [event_get h.request hst.1 hst.2.1]
  have h₁ : Serving content name i { c with conn := { c.conn with answers := t.answers } } :=
    ⟨h.request, h.filename, h.entry, h.data, h.opened⟩
  obtain ⟨r, hr, hsent⟩ : ∃ r, get_phases msgs fuel
      { c with conn := { c.conn with answers := t.answers } } = .ok r ∧
      Took (Pending content i) { c with conn := { c.conn with answers := t.answers } } rem r :=
    get_phases_spec h₁ hsend has hfuel
  rw [hr]
  cases hsent with
  | all c' hs ha hdone ho =>
    rw [Phase.next_none]
    dsimp only [Phase.result, Option.getD_some, Ctx.close]
    rw [if_neg (by rw [hdone]; decide)]
    exact ⟨_, rfl, .all _ rfl ha hdone ho⟩
  | part c' hs hne hleft ho => exact ⟨c', rfl, .part c' (h₁.of_same hs) hleft ho⟩

/-- A lost chunk stays lost in a turn. -/
theorem event_lost (h : Serving content name i c) (hlost : Lost content i c.job)
    (has : ∀ a ∈ t.answers, a.Steady) {c' : Ctx} (he : event msgs fuel t c = .ok c') :
    Serving content name i c' ∧ Lost content i c'.job := by
  have hst := hlost.state
  rw [event_get h.request (by simp [hst]) (by simp [hst])] at he
  obtain ⟨c₁, hc₁⟩ : ∃ c₁ : Ctx, c₁ = { c with conn := { c.conn with answers := t.answers } } :=
    ⟨_, rfl⟩
  have h₁ : Serving content name i c₁ := hc₁ ▸ ⟨h.request, h.filename, h.entry, h.data, h.opened⟩
  have hdata : get_phases msgs fuel c₁ = get_data fuel c₁ := by
    have hst₁ : c₁.job.state = .writeData := hc₁ ▸ hst
    unfold get_phases
    rw [whenState_neg (by simp [hst₁]), Phase.next_none, whenState_neg (by simp [hst₁]),
      Phase.next_none, whenState_neg (by simp [hst₁]), Phase.next_none]
  rw [← hc₁, hdata] at he
  have hlost₁ : Lost content i c₁.job := hc₁ ▸ hlost
  have has₁ : ∀ a ∈ c₁.conn.answers, a.Steady := hc₁ ▸ has
  have hstays : StaysLost content i c₁ (get_data fuel c₁) := get_data_lost hlost₁ h₁.data has₁
  rcases hstays with hf | ⟨c₂, hc₂, hs, hl⟩
  · rw [hf] at he
    exact absurd he (by simp [Phase.next, Phase.result])
  · rw [hc₂] at he
    obtain rfl : c₂ = c' := Except.ok.inj he
    exact ⟨h₁.of_same hs, hl⟩

/-! ### Runs -/

/-- No turn ends on a chunk boundary. -/
def SmoothFrom (content : List UInt8) : List (List UInt8) → List (List Answer) → Prop
  | _, [] => True
  | rem, as :: turns => ¬ Boundary content (accept as rem) ∧
      SmoothFrom content (accept as rem) turns

/-- Nothing is lost once everything is sent. -/
theorem SmoothFrom.of_nil (turns : List (List Answer)) : SmoothFrom content [] turns := by
  induction turns with
  | nil => trivial
  | cons as turns ih =>
    refine ⟨?_, by rw [accept_nil]; exact ih⟩
    rintro ⟨k, hk1, hk2⟩
    rw [accept_nil, List.flatten_nil, List.length_nil] at hk2
    omega

/-- What comes of a lost chunk: the job is never done. -/
theorem run_lost {turns : List Turn} (hq : Quiet name turns) (h : Serving content name i c)
    (hlost : Lost content i c.job) {c' : Ctx} (hr : run msgs fuel turns c = .ok c') :
    c'.job.state = .writeData := by
  induction turns generalizing c with
  | nil =>
    obtain rfl : c = c' := Except.ok.inj hr
    exact hlost.state
  | cons t turns ih =>
    rw [run, if_neg (by simp [h.opened])] at hr
    have hk := h.keep (hq.keeps t (by simp))
    split at hr
    · exact absurd hr (by simp)
    · rename_i c₁ he
      obtain ⟨hserv, hl⟩ := event_lost hk hlost (hq.steady t (by simp)) he
      exact ih hq.tail hserv hl hr

/-- **A run whose turns never end on a chunk boundary** sends what `acceptAll` takes. -/
theorem run_smooth (msgs : Messages) {turns : List Turn} (hq : Quiet name turns) (h : Serving content name i c)
    (hsend : Sending content i c.job rem) (hsm : SmoothFrom content rem (turns.map Turn.answers))
    (hfuel : ∀ t ∈ turns, t.answers.length < fuel)
    (hall : acceptAll (turns.map Turn.answers) rem = []) :
    ∃ c', run msgs fuel turns c = .ok c' ∧ c'.job.state = .done ∧ c'.conn.closed = true ∧
      c'.conn.out = c.conn.out ++ rem.flatten := by
  induction turns generalizing c rem with
  | nil => exact absurd hall hsend.ne_nil
  | cons t turns ih =>
    rw [run, if_neg (by simp [h.opened])]
    obtain ⟨hfree, hsm⟩ := hsm
    have hk := h.keep (hq.keeps t (by simp))
    obtain ⟨c', he, hturned⟩ := event_sending msgs hk hsend (hq.steady t (by simp))
      (hfuel t (by simp))
    rw [he]
    cases hturned with
    | all hclosed hacc hst hout =>
      exact ⟨c', run_closed hclosed turns, hst, hclosed, hout⟩
    | part hserv hleft hout =>
      obtain ⟨hsend', -⟩ := hleft.resolve_right (fun h => hfree h.2)
      obtain ⟨c₂, hr, hst, hcl, ho⟩ := ih hq.tail hserv hsend' hsm
        (fun t ht => hfuel t (List.mem_cons_of_mem _ ht)) hall
      exact ⟨c₂, hr, hst, hcl, ho.trans hout⟩

/-- **A run with a turn that ends on a chunk boundary** does not come to its end. -/
theorem run_rough {turns : List Turn} (hq : Quiet name turns) (h : Serving content name i c)
    (hsend : Sending content i c.job rem)
    (hsm : ¬ SmoothFrom content rem (turns.map Turn.answers))
    (hfuel : ∀ t ∈ turns, t.answers.length < fuel) {c' : Ctx}
    (hr : run msgs fuel turns c = .ok c') : c'.job.state ≠ .done := by
  induction turns generalizing c rem with
  | nil => exact absurd trivial hsm
  | cons t turns ih =>
    rw [run, if_neg (by simp [h.opened])] at hr
    have hk := h.keep (hq.keeps t (by simp))
    obtain ⟨c₁, he, hturned⟩ := event_sending msgs hk hsend (hq.steady t (by simp))
      (hfuel t (by simp))
    rw [he] at hr
    cases hturned with
    | all hclosed hacc hst hout =>
      refine absurd ⟨?_, ?_⟩ hsm
      · rintro ⟨k, hk1, hk2⟩
        rw [hacc, List.flatten_nil, List.length_nil] at hk2
        omega
      · rw [hacc]
        exact SmoothFrom.of_nil _
    | part hserv hleft hout =>
      rcases hleft with ⟨hsend', hb⟩ | ⟨hl, hb⟩
      · exact ih hq.tail hserv hsend' (fun hs => hsm ⟨hb, hs⟩)
          (fun t ht => hfuel t (List.mem_cons_of_mem _ ht)) hr
      · rw [run_lost hq.tail hserv hl hr]
        decide

/-! ### The reply -/

/-- No turn ends before the first byte of a chunk: `"OK\n"` and the size are 11 bytes. -/
def Smooth (content : List UInt8) (turns : List (List Answer)) : Prop :=
  ∀ pre, pre <+: turns → pre ≠ [] → ∀ k, 1024 * k < content.length →
    accepted pre (pieces content) ≠ 11 + 1024 * k

theorem length_reply (content : List UInt8) : (reply content).length = 11 + content.length := by
  have hlen : (ascii "OK\n").length = 3 := by decide
  rw [reply, List.length_append, List.length_append, length_leBytes, hlen]

/-- What is left never gets longer. -/
theorem length_accept_le {α : Type*} (as : List Answer) (ps : List (List α)) :
    (accept as ps).flatten.length ≤ ps.flatten.length := by
  obtain ⟨taken, h⟩ := accept_flatten as ps
  rw [h, List.length_append]
  omega

theorem length_acceptAll_le {α : Type*} (turns : List (List Answer)) (ps : List (List α)) :
    (acceptAll turns ps).flatten.length ≤ ps.flatten.length := by
  induction turns generalizing ps with
  | nil => exact le_rfl
  | cons as turns ih => exact (ih (accept as ps)).trans (length_accept_le as ps)

theorem smoothFrom_iff {turns : List (List Answer)} : SmoothFrom content rem turns ↔
    ∀ pre, pre <+: turns → pre ≠ [] → ¬ Boundary content (acceptAll pre rem) := by
  induction turns generalizing rem with
  | nil =>
    refine ⟨fun _ pre hpre hne => absurd (List.prefix_nil.mp hpre) hne, fun _ => trivial⟩
  | cons as turns ih =>
    constructor
    · rintro ⟨hb, hsm⟩ pre hpre hne
      rcases pre with _ | ⟨bs, pre⟩
      · exact absurd rfl hne
      · obtain ⟨rfl, hpre'⟩ := List.cons_prefix_cons.mp hpre
        by_cases hnil : pre = []
        · subst hnil
          exact hb
        · exact ih.mp hsm pre hpre' hnil
    · intro h
      refine ⟨h [as] (by simp) (by simp), ih.mpr (fun pre hpre hne => ?_)⟩
      exact h (as :: pre) (List.cons_prefix_cons.mpr ⟨rfl, hpre⟩) (by simp)

theorem smooth_iff {turns : List (List Answer)} :
    Smooth content turns ↔ SmoothFrom content (pieces content) turns := by
  rw [smoothFrom_iff]
  refine forall_congr' (fun pre => forall_congr' (fun _ => forall_congr' (fun _ => ?_)))
  have hle := length_acceptAll_le pre (pieces content)
  rw [flatten_pieces, length_reply] at hle
  simp only [Boundary, not_exists, not_and, accepted, flatten_pieces, length_reply]
  exact forall_congr' (fun k => forall_congr' (fun _ => not_congr (by omega)))

/-- **The reply to a GET.**  On a socket that takes enough, and with a file that nobody
    changes, the job is done after the reply was sent exactly if no turn ends before the
    first byte of a chunk. -/
theorem get_stream_iff (msgs : Messages) {srv : Server} {name : Name} {content : List UInt8}
    {conn : Conn} {turns : List Turn} (hfile : srv.disk.content name = some content)
    (hopen : conn.closed = false) (hq : Quiet name turns)
    (hcap : (reply content).length ≤ ((turns.map Turn.answers).map capacity).sum) :
    (∃ n, ∀ fuel ≥ n, ∃ final, run msgs fuel turns ⟨srv, Job.serve .get name, conn⟩ = .ok final ∧
      final.job.state = .done ∧ final.conn.closed = true ∧
      final.conn.out = conn.out ++ reply content) ↔ Smooth content (turns.map Turn.answers) := by
  obtain ⟨i, hentry, hdata⟩ : ∃ i, srv.disk.lookup name = .file i ∧ srv.disk.data i = content := by
    unfold Disk.content at hfile
    split at hfile
    · rename_i i hi
      exact ⟨i, hi, Option.some.inj hfile⟩
    · exact absurd hfile (by simp)
  have hserv : Serving content name i ⟨srv, Job.serve .get name, conn⟩ :=
    ⟨rfl, rfl, hentry, hdata, hopen⟩
  have hsend : Sending content i (Job.serve .get name) (pieces content) := .serving rfl rfl rfl
  -- enough fuel for every turn
  obtain ⟨n, hn⟩ := exists_fuel turns
  rw [smooth_iff]
  constructor
  · rintro ⟨m, hm⟩
    obtain ⟨final, hr, hst, -⟩ := hm (max m n) (le_max_left m n)
    by_contra hsm
    exact run_rough hq hserv hsend hsm (fun t ht => (hn t ht).trans_le (le_max_right m n)) hr hst
  · intro hsm
    refine ⟨n, fun fuel hfuel => ?_⟩
    have hall : acceptAll (turns.map Turn.answers) (pieces content) = [] := by
      apply acceptAll_eq_nil _ (pieces_ne_nil content) (by rwa [flatten_pieces])
      intro as has
      obtain ⟨t, ht, rfl⟩ := List.mem_map.mp has
      exact hq.steady t ht
    obtain ⟨final, hr, hst, hcl, hout⟩ := run_smooth msgs hq hserv hsend hsm
      (fun t ht => (hn t ht).trans_le hfuel) hall
    exact ⟨final, hr, hst, hcl, by rw [hout, flatten_pieces]⟩

theorem pieces_pair (a b : UInt8) :
    pieces [a, b] = [ascii "OK\n", leBytes 8 2, [a, b]] := by
  simp [pieces, chunks_of_ne_nil]

/-- A socket that is full after two bytes, and then takes the others. -/
theorem smooth_some : Smooth [7, 8] (([2, 13].map bytewise).map Turn.answers) := by
  intro pre hpre hne k hk
  have hk' : 1024 * k < 2 := hk
  rw [pieces_pair]
  rcases List.prefix_cons_iff.mp hpre with rfl | ⟨u, rfl, hu⟩
  · exact absurd rfl hne
  rcases List.prefix_cons_iff.mp hu with rfl | ⟨v, rfl, hv⟩
  · have hacc : accepted [(bytewise 2).answers] [ascii "OK\n", leBytes 8 2, [7, 8]] = 2 := by
      decide
    rw [hacc]
    omega
  · obtain rfl := List.prefix_nil.mp hv
    have hacc : accepted [(bytewise 2).answers, (bytewise 13).answers]
        [ascii "OK\n", leBytes 8 2, [7, 8]] = 13 := by decide
    rw [hacc]
    omega

theorem get_stream_some : ∃ n, ∀ fuel ≥ n, ∃ final, run ⟨[], [], []⟩ fuel ([2, 13].map bytewise)
      ⟨oneFile (ascii "a") [7, 8], Job.serve .get (ascii "a"), .fresh []⟩ = .ok final ∧
    final.job.state = .done ∧ final.conn.closed = true ∧
    final.conn.out = reply [7, 8] :=
  (get_stream_iff ⟨[], [], []⟩ rfl rfl (quiet_bytewise _ _) (by decide)).mpr smooth_some

/-- A socket that is full after the size: the only chunk of the file is lost. -/
theorem not_get_stream : (oneFile (ascii "a") [7, 8]).disk.content (ascii "a") = some [7, 8] ∧
    Quiet (ascii "a") ([11, 13].map bytewise) ∧
    (reply [7, 8]).length ≤ ((([11, 13].map bytewise).map Turn.answers).map capacity).sum ∧
    ¬ ∃ n, ∀ fuel ≥ n, ∃ final, run ⟨[], [], []⟩ fuel ([11, 13].map bytewise)
        ⟨oneFile (ascii "a") [7, 8], Job.serve .get (ascii "a"), .fresh []⟩ = .ok final ∧
      final.job.state = .done ∧ final.conn.closed = true ∧ final.conn.out = reply [7, 8] := by
  refine ⟨rfl, quiet_bytewise _ _, by decide, ?_⟩
  rintro ⟨n, hn⟩
  obtain ⟨final, hr, hst, -⟩ := hn (max n 14) (le_max_left n 14)
  have hserv : Serving [7, 8] (ascii "a") 0
      ⟨oneFile (ascii "a") [7, 8], Job.serve .get (ascii "a"), .fresh []⟩ := ⟨rfl, rfl, rfl, rfl, rfl⟩
  refine run_rough (quiet_bytewise _ _) hserv (.serving rfl rfl rfl) ?_ ?_ hr hst
  · -- 11 bytes are taken in the first turn
    rw [pieces_pair]
    rintro ⟨hb, -⟩
    exact hb ⟨0, by decide, by decide⟩
  · intro t ht
    have hlen : t.answers.length ≤ 13 := by
      obtain ⟨k, hk, rfl⟩ := List.mem_map.mp ht
      rw [bytewise, List.length_replicate]
      simp only [List.mem_cons, List.not_mem_nil, or_false] at hk
      omega
    omega

end SystemProgramming.Networking
