import SystemProgramming.Networking.Accept
import SystemProgramming.Networking.Client
import SystemProgramming.Networking.ClientGet
import SystemProgramming.Networking.GetStream

namespace SystemProgramming.Networking

open SystemProgramming.Lib

/-!
# `nonstop_networking` — a file there and back

A client puts a file, and later another client gets it, both on sockets that take and bring as
much as they like at a time.

* `Getting` — where a GET stands, from its header to its reply.
* `run_getting` — it is answered, or a turn has ended on a chunk boundary.
* `put_then_get` — when the second client has what the first one had.
-/

variable {msgs : Messages} {name : Name} {content stream : List UInt8} {i fuel need : ℕ}
  {c c' : Ctx} {t : Turn} {rem : List (List UInt8)}

/-- What the GET branch of the client sends. -/
def getStream (remote : Name) : List UInt8 := ascii "GET " ++ remote ++ [10]

/-! ### Where a GET stands -/

/-- All that was sent is the line, the size and a number of whole chunks. -/
def Stalled (content : List UInt8) (c : Ctx) : Prop :=
  ∃ k, 1024 * k < content.length ∧ c.conn.out.length = 11 + 1024 * k

/-- Where a GET stands, and what it still needs. -/
inductive Getting (stream content : List UInt8) (name : Name) (i : ℕ) (c : Ctx) : ℕ → Prop
  | heading (hhead : Heading stream c.job c.conn.inp) (h10 : 10 ∈ c.conn.inp)
      (hentry : c.srv.disk.lookup name = .file i) (hdata : c.srv.disk.data i = content)
      (hout : c.conn.out = []) (hopen : c.conn.closed = false) :
      Getting stream content name i c (c.conn.inp.length + (reply content).length)
  | sending (rem : List (List UInt8)) (hserv : Serving content name i c)
      (hsend : Sending content i c.job rem) (hout : c.conn.out ++ rem.flatten = reply content)
      (hne : ∀ p ∈ rem, p ≠ []) : Getting stream content name i c rem.flatten.length

/-- The GET was answered. -/
structure Received (content : List UInt8) (c : Ctx) : Prop where
  closed : c.conn.closed = true
  out : c.conn.out = reply content

/-- The result of a turn: the reply is sent, or less is needed, or a chunk is lost. -/
inductive Progress (stream content : List UInt8) (name : Name) (i need cap : ℕ) (c : Ctx) : Prop
  | received (h : Received content c)
  | getting (need' : ℕ) (h : Getting stream content name i c need') (hle : need' + cap ≤ need)
      (hfree : ¬ Stalled content c)
  | lost (hserv : Serving content name i c) (hlost : Lost content i c.job)
      (hstall : Stalled content c)

/-- A stream that holds a whole GET. -/
structure IsGet (stream : List UInt8) (name : Name) : Prop where
  newline : 10 ∈ stream
  short : (headline stream).length ≤ 261
  parse : parse_header (cstr (headline stream)) .unknown = (.get, some name)
  name : name.length ≤ 255

theorem isGet_getStream (hname : Sendable name) : IsGet (getStream name) name := by
  have hreq : RequestLine .get name := ⟨.inl rfl, hname.newline, hname.nul⟩
  have hhead : headline (getStream name) = verbText .get ++ name :=
    headline_append hreq.notMem_line
  refine ⟨by simp [getStream], ?_, hhead ▸ hreq.parse, hname.length⟩
  rw [hhead, hreq.length_iff hname.length]
  rintro ⟨h, -⟩
  cases h

theorem stalled_iff (hout : c.conn.out ++ rem.flatten = reply content) :
    Stalled content c ↔ Boundary content rem := by
  have hlen := congrArg List.length hout
  rw [List.length_append, length_reply] at hlen
  exact exists_congr fun k => and_congr_right fun hk => by omega

theorem Received.not_stalled (h : Received content c) : ¬ Stalled content c := by
  rintro ⟨k, hk, hlen⟩
  rw [h.out, length_reply] at hlen
  omega

/-! ### A turn -/

/-- **A turn that sends.** -/
theorem event_replying (stream : List UInt8) (msgs : Messages) (hserv : Serving content name i c)
    (hsend : Sending content i c.job rem) (hout : c.conn.out ++ rem.flatten = reply content)
    (hne : ∀ p ∈ rem, p ≠ []) (has : ∀ a ∈ t.answers, a.Steady) (hfuel : t.answers.length < fuel) :
    ∃ c', event msgs fuel t c = .ok c' ∧
      Progress stream content name i rem.flatten.length (capacity t.answers) c' := by
  obtain ⟨c', he, hturned⟩ := event_sending msgs hserv hsend has hfuel
  refine ⟨c', he, ?_⟩
  cases hturned with
  | all hclosed hacc hst hall => exact .received ⟨hclosed, hall.trans hout⟩
  | part hserv' hleft hpart =>
    have hout' := hpart.trans hout
    rcases hleft with ⟨hsend', hfree⟩ | ⟨hlost, hb⟩
    · have hle := (accept_length has hne).resolve_left hsend'.ne_nil
      exact .getting _ (.sending _ hserv' hsend' hout' (accept_ne_nil hne)) hle
        ((stalled_iff hout').not.mpr hfree)
    · exact .lost hserv' hlost ((stalled_iff hout').mpr hb)

/-- The handler of a GET, in the turn in which its header was read. -/
theorem serve_of_get (hreq : c.job.request = .get) (hst : c.job.state = .serving) :
    serve msgs fuel t c = event msgs fuel { t with answers := c.conn.answers } c := by
  have hbegin : c.begin { t with answers := c.conn.answers } = c := rfl
  rw [event_of_read (by rw [hst]; decide), hbegin]
  unfold serve handle
  rw [hreq]

/-- **One turn of a GET.** -/
theorem event_getting (msgs : Messages) (hget : IsGet stream name)
    (h : Getting stream content name i c need) (has : ∀ a ∈ t.answers, a.Steady)
    (hfuel : t.answers.length < fuel) :
    ∃ c', event msgs fuel t c = .ok c' ∧
      Progress stream content name i need (capacity t.answers) c' := by
  cases h with
  | heading hhead h10 hentry hdata hout hopen =>
    rw [event_of_header hhead.state]
    have hspec : HeaderTurn msgs stream (c.begin t) (read_header msgs t (c.begin t)) :=
      read_header_spec msgs t hhead (steady_moves has)
    obtain ⟨r, hr⟩ : ∃ r, read_header msgs t (c.begin t) = r := ⟨_, rfl⟩
    rw [hr] at hspec ⊢
    cases hspec with
    | again c' hro hhead' hdry hcap =>
      obtain ⟨h10', hle⟩ := hcap h10
      have hle' : capacity t.answers + c'.conn.inp.length ≤ c.conn.inp.length := hle
      have hout' : c'.conn.out = [] := hro.out.trans hout
      refine ⟨c', rfl, .getting _ (.heading hhead' h10' (hro.srv ▸ hentry) (hro.srv ▸ hdata) hout'
        (hro.closed.trans hopen)) (by omega) ?_⟩
      rintro ⟨k, -, hlen⟩
      rw [hout', List.length_nil] at hlen
      omega
    | bad ret c' hret hro hst hreq herr hz hcause =>
      -- the header of a GET is well formed
      refine absurd ?_ (hcause h10 (steady_noFail has) hget.short)
      rw [hget.parse]
      exact ⟨by simp, fun _ => hget.name⟩
    | ok c' p hro hjob hafter hwf hname hparse hcap =>
      obtain rfl : p = (.get, some name) := (hparse hget.newline).trans hget.parse
      have hlen : c'.conn.answers.length < fuel := hro.answers.length_le.trans_lt hfuel
      have hserv : Serving content name i c' := ⟨by rw [hjob], by rw [hjob], hro.srv ▸ hentry,
        hro.srv ▸ hdata, hro.closed.trans hopen⟩
      have hsend : Sending content i c'.job (pieces content) := by
        rw [hjob]
        exact .serving rfl hhead.writesz hhead.datasz
      have hout' : c'.conn.out ++ (pieces content).flatten = reply content := by
        rw [hro.out.trans hout, flatten_pieces]
        rfl
      -- the turn goes on with the reply
      obtain ⟨c₂, he, hpro⟩ := event_replying stream msgs hserv hsend hout'
        (pieces_ne_nil content) (t := { t with answers := c'.conn.answers })
        (fun a ha => has a (hro.answers.subset ha)) hlen
      have hcap' : capacity t.answers + c'.conn.inp.length
          ≤ capacity c'.conn.answers + c.conn.inp.length := hcap h10
      refine ⟨c₂, (serve_of_get (by rw [hjob]) (by rw [hjob]; rfl)).trans he, ?_⟩
      rw [flatten_pieces] at hpro
      cases hpro with
      | received h => exact .received h
      | getting need' h hle hfree =>
        have hle' : need' + capacity c'.conn.answers ≤ (reply content).length := hle
        exact .getting need' h (by omega) hfree
      | lost hserv' hlost hstall => exact .lost hserv' hlost hstall
  | sending rem hserv hsend hout hne =>
    exact event_replying stream msgs hserv hsend hout hne has hfuel

/-! ### Runs -/

/-- What nobody else changes, nobody else needs. -/
theorem Getting.keep (h : Getting stream content name i c need) (ht : t.Keeps name) :
    Getting stream content name i { c with srv := t.others c.srv } need := by
  cases h with
  | heading hhead h10 hentry hdata hout hopen =>
    obtain ⟨hlookup, hsame⟩ := ht c.srv
    exact .heading hhead h10 (hlookup.trans hentry) ((hsame i hentry).trans hdata) hout hopen
  | sending rem hserv hsend hout hne => exact .sending rem (hserv.keep ht) hsend hout hne

theorem Getting.opened (h : Getting stream content name i c need) : c.conn.closed = false := by
  cases h with
  | heading hhead h10 hentry hdata hout hopen => exact hopen
  | sending rem hserv => exact hserv.opened

theorem Getting.need_pos (h : Getting stream content name i c need) : 0 < need := by
  cases h with
  | heading =>
    rw [length_reply]
    omega
  | sending rem hserv hsend hout hne =>
    obtain ⟨p, rem', rfl⟩ := List.exists_cons_of_ne_nil hsend.ne_nil
    have hpos := List.length_pos_iff.mpr (hne p (by simp))
    rw [List.flatten_cons, List.length_append]
    omega

/-- A chunk that is lost in some turn is not sent in a later one. -/
theorem run_closed_of_lost {turns : List Turn} (hq : Quiet name turns)
    (h : Serving content name i c) (hlost : Lost content i c.job) (hr : run msgs fuel turns c = .ok c') :
    c'.conn.closed = false := by
  induction turns generalizing c with
  | nil =>
    obtain rfl : c = c' := Except.ok.inj hr
    exact h.opened
  | cons t turns ih =>
    rw [run, if_neg (by simp [h.opened])] at hr
    have hk := h.keep (hq.keeps t (by simp))
    split at hr
    · cases hr
    · rename_i c₁ he
      obtain ⟨hserv, hl⟩ := event_lost hk hlost (hq.steady t (by simp)) he
      exact ih hq.tail hserv hl hr

/-- No turn of the run ends where only the line, the size and whole chunks were sent. -/
def Free (msgs : Messages) (content : List UInt8) (fuel : ℕ) (turns : List Turn) (c : Ctx) : Prop :=
  ∀ pre, pre <+: turns → ∀ c', run msgs fuel pre c = .ok c' → ¬ Stalled content c'

theorem free_cons {turns : List Turn} {c₁ : Ctx} (hopen : c.conn.closed = false)
    (he : event msgs fuel t { c with srv := t.others c.srv } = .ok c₁) :
    Free msgs content fuel (t :: turns) c ↔
      ¬ Stalled content c ∧ Free msgs content fuel turns c₁ := by
  have hstep : ∀ pre, run msgs fuel (t :: pre) c = run msgs fuel pre c₁ := fun pre => by
    rw [run, if_neg (by simp [hopen]), he]
  constructor
  · intro h
    refine ⟨h [] (List.nil_prefix) c rfl, fun pre hpre c' hr => ?_⟩
    exact h (t :: pre) (List.cons_prefix_cons.mpr ⟨rfl, hpre⟩) c' ((hstep pre).trans hr)
  · rintro ⟨hc, h⟩ pre hpre c' hr
    rcases List.prefix_cons_iff.mp hpre with rfl | ⟨pre', rfl, hpre'⟩
    · obtain rfl : c = c' := Except.ok.inj hr
      exact hc
    · exact h pre' hpre' c' ((hstep pre').symm.trans hr)

/-- **A GET with enough answers is answered** exactly if no turn ends on a chunk boundary. -/
theorem run_getting (msgs : Messages) {turns : List Turn} (hget : IsGet stream name)
    (hq : Quiet name turns) (h : Getting stream content name i c need) (hfree : ¬ Stalled content c)
    (hcap : need ≤ ((turns.map Turn.answers).map capacity).sum)
    (hfuel : ∀ t ∈ turns, t.answers.length < fuel) :
    (Free msgs content fuel turns c → ∃ c', run msgs fuel turns c = .ok c' ∧ Received content c') ∧
    ∀ c', run msgs fuel turns c = .ok c' → c'.conn.closed = true →
      Free msgs content fuel turns c := by
  induction turns generalizing c need with
  | nil =>
    have hpos := h.need_pos
    rw [List.map_nil, List.map_nil, List.sum_nil] at hcap
    omega
  | cons t turns ih =>
    rw [List.map_cons, List.map_cons, List.sum_cons] at hcap
    obtain ⟨c₁, he, hpro⟩ := event_getting msgs hget (h.keep (hq.keeps t (by simp)))
      (hq.steady t (by simp)) (hfuel t (by simp))
    rw [free_cons h.opened he, run, if_neg (by simp [h.opened]), he]
    cases hpro with
    | received hrec =>
      refine ⟨fun _ => ⟨c₁, run_closed hrec.closed turns, hrec⟩, fun _ _ _ => ⟨hfree, ?_⟩⟩
      intro pre _ c' hr
      obtain rfl : c₁ = c' := Except.ok.inj ((run_closed hrec.closed pre).symm.trans hr)
      exact hrec.not_stalled
    | getting need' hget' hle hfree' =>
      obtain ⟨hyes, hno⟩ := ih hq.tail hget' hfree' (by omega)
        (fun t ht => hfuel t (List.mem_cons_of_mem _ ht))
      exact ⟨fun hall => hyes hall.2, fun c' hr hcl => ⟨hfree, hno c' hr hcl⟩⟩
    | lost hserv hlost hstall =>
      refine ⟨fun hall => absurd hstall (hall.2 [] List.nil_prefix c₁ rfl), fun c' hr hcl => ?_⟩
      rw [run_closed_of_lost hq.tail hserv hlost hr] at hcl
      cases hcl

/-! ### There and back -/

/-- **The client accepts the reply**, however it comes. -/
theorem client_get_reply (stack : Stack) {s : Stream} (hs : s.Steady)
    (hinp : s.inp = reply content) (hsize : content.length < 2 ^ 64) :
    ∃ n, ∀ fuel ≥ n, client_get fuel stack s = .ok content := by
  have hlen := length_leBytes 8 content.length
  have hinp' : s.inp = ascii "OK\n" ++ (leBytes 8 content.length ++ content) := by
    rw [hinp, reply, List.append_assoc]
  have hread : sizeRead stack (leBytes 8 content.length ++ content) = content.length := by
    have hne : leBytes 8 content.length ++ content ≠ [] :=
      List.ne_nil_of_length_pos (by rw [List.length_append, hlen]; omega)
    have h8 := stack.length_size
    rw [sizeRead, if_neg hne, List.take_left' hlen,
      List.drop_eq_nil_of_le (by rw [List.length_append]; omega), List.append_nil]
    exact leValue_size hsize
  obtain ⟨n, hn⟩ := client_get_ok stack hs hinp'
  refine ⟨n, fun fuel hf => ?_⟩
  rw [hn fuel hf, hread, List.drop_left' hlen, bodyEnd, if_neg (lt_irrefl _), if_pos rfl]

/-- A client has got the file: its connection was closed in the end, and what came over it, in any
    division, leaves the content in the local file. -/
def Fetches (msgs : Messages) (fuel : ℕ) (turns : List Turn) (stack : Stack)
    (content : List UInt8) (c : Ctx) : Prop :=
  ∃ c', run msgs fuel turns c = .ok c' ∧ c'.conn.closed = true ∧ ∀ s : Stream, s.Steady →
    s.inp = c'.conn.out → ∃ n, ∀ fuel ≥ n, client_get fuel stack s = .ok content

/-- What a PUT stores. -/
theorem run_put (msgs : Messages) {srv : Server} {turns : List Turn} (hname : Sendable name)
    (hw : srv.disk.Writable name) (hl : srv.file_list.count name ≤ 1)
    (hsize : content.length < 2 ^ 64) (ha : Alone name turns)
    (hcap : name.length + content.length + 17 ≤ ((turns.map Turn.answers).map capacity).sum)
    (hfuel : ∀ t ∈ turns, t.answers.length < fuel) :
    ∃ stored, run msgs fuel turns
        ⟨srv, init_job, Conn.fresh (putStream name content.length content)⟩ = .ok stored ∧
      stored.conn.out = ascii "OK\n" ∧ stored.srv.disk.content name = some content := by
  have hsz := announced_putStream hname content hsize
  have hbody := body_putStream hname content content.length
  have hyes : Accepts (announced (putStream name content.length content))
      (body (putStream name content.length content)) := by
    rw [hsz, hbody]
    exact .inl rfl
  have hreply : putReply msgs (putStream name content.length content) = ascii "OK\n" := if_pos hyes
  have hneed : (putReply msgs (putStream name content.length content)).length = 3 := by
    rw [hreply]
    decide
  obtain ⟨stored, hr, hans⟩ := run_putting (isPut_putStream hname content content.length) ha
    (putting_start msgs hname hw hl _ _) (by rw [hneed, length_putStream]; omega) hfuel
  have hset := hans.settled
  rw [Settled, if_pos hyes, hsz, hbody, List.take_length] at hset
  exact ⟨stored, hr, hans.out.trans hreply, hset.1⟩

/-- When a GET fetches the file. -/
theorem fetches_iff (msgs : Messages) {srv : Server} {turns : List Turn} (hname : Sendable name)
    (hfile : srv.disk.content name = some content) (hsize : content.length < 2 ^ 64)
    (hq : Quiet name turns)
    (hcap : name.length + content.length + 16 ≤ ((turns.map Turn.answers).map capacity).sum)
    (hfuel : ∀ t ∈ turns, t.answers.length < fuel) (stack : Stack) :
    Fetches msgs fuel turns stack content ⟨srv, init_job, Conn.fresh (getStream name)⟩ ↔
      Free msgs content fuel turns ⟨srv, init_job, Conn.fresh (getStream name)⟩ := by
  obtain ⟨i, hentry, hdata⟩ : ∃ i, srv.disk.lookup name = .file i ∧ srv.disk.data i = content := by
    unfold Disk.content at hfile
    split at hfile
    · rename_i i hi
      exact ⟨i, hi, Option.some.inj hfile⟩
    · cases hfile
  have hstart : Getting (getStream name) content name i
      ⟨srv, init_job, Conn.fresh (getStream name)⟩ _ :=
    .heading (Heading.init _) (isGet_getStream hname).newline hentry hdata rfl rfl
  have hnot : ¬ Stalled content ⟨srv, init_job, Conn.fresh (getStream name)⟩ := by
    rintro ⟨k, -, hlen⟩
    simp only [Conn.fresh, List.length_nil] at hlen
    omega
  have hlen : (getStream name).length = name.length + 5 := by
    simp [getStream, ascii]
  obtain ⟨hyes, hno⟩ := run_getting msgs (isGet_getStream hname) hq hstart hnot
    (by rw [length_reply]; simp only [Conn.fresh]; omega) hfuel
  constructor
  · rintro ⟨c', hr, hcl, -⟩
    exact hno c' hr hcl
  · intro hall
    obtain ⟨c', hr, hrec⟩ := hyes hall
    exact ⟨c', hr, hrec.closed, fun s hs hinp =>
      client_get_reply stack hs (hinp.trans hrec.out) hsize⟩

end SystemProgramming.Networking
