import SystemProgramming.Networking.Delete

namespace SystemProgramming.Networking

open SystemProgramming.Lib

/-!
# `nonstop_networking/server.c` — a LIST and a DELETE on a socket that is full

What a LIST and a DELETE send, whatever memory that was freed or not yet written reads as and
whatever the other jobs do in between.

* `Always` — what holds at the end of every run whose turns have these answers.
* `list_resume_iff`, `delete_resume_iff` — when it is the reply.
* `resume_iff` — both.
-/

variable {msgs : Messages} {srv : Server} {conn : Conn} {as : List Answer}
  {answers : List (List Answer)} {name : Name} {content data : List UInt8}

/-- A LIST, as `read_header` leaves it. -/
def Job.list : Job := { init_job with request := .list, state := .serving }

/-- The turns with these answers, whatever else they meet, close the descriptor, and `P` holds
    of them and of the end; nobody is there before the first. -/
def Always (msgs : Messages) (as : List Answer) (answers : List (List Answer)) (c : Ctx)
    (P : List Turn → Ctx → Prop) : Prop :=
  ∃ n, ∀ fuel ≥ n, ∀ t ts, t.answers = as → t.others = id → ts.map Turn.answers = answers →
    ∃ final, run msgs fuel (t :: ts) c = .ok final ∧ final.conn.closed = true ∧ P ts final

/-- Enough fuel for turns with these answers. -/
theorem exists_fuel_answers (answers : List (List Answer)) : ∃ n, ∀ bs ∈ answers, bs.length < n := by
  obtain ⟨n, hn⟩ := exists_fuel (answers.map (fun bs => { answers := bs }))
  refine ⟨n, fun bs hbs => ?_⟩
  exact hn { answers := bs } (List.mem_map_of_mem hbs)

/-! ### LIST -/

/-- What is left to be sent, if the memory comes to hold something else of the same length. -/
theorem Listing.of_length {j : Job} {rem : List (List UInt8)} {data' : List UInt8}
    (h : Listing data j rem) (hlen : data'.length = data.length) (hne : data' ≠ []) :
    ∃ rem', Listing data' j rem' ∧ rem'.flatten.getLast? = data'.getLast? := by
  have hpieces : dataPieces data' = [data'] := if_neg hne
  cases h with
  | response hst hw hd hsz =>
    refine ⟨_, .response hst hw hd (hsz.trans hlen.symm), ?_⟩
    rw [hpieces]
    simp [List.getLast?_append, List.getLast?_eq_some_getLast hne]
  | size hst hw hd hsz =>
    refine ⟨_, .size hst hw hd (hsz.trans hlen.symm), ?_⟩
    rw [hpieces]
    simp [List.getLast?_append, List.getLast?_eq_some_getLast hne]
  | data hst hw hd hsz =>
    refine ⟨_, .data hst (hlen ▸ hw) hd (hsz.trans hlen.symm), ?_⟩
    rw [List.flatten_singleton, List.getLast?_drop, if_neg (by omega)]

/-- Memory can hold something that ends in another byte. -/
theorem exists_getLast?_ne (h : data ≠ []) : ∃ data' : List UInt8,
    data'.length = data.length ∧ data' ≠ [] ∧ data'.getLast? ≠ data.getLast? := by
  have hlen : data.length ≠ 0 := fun h0 => h (List.length_eq_zero_iff.mp h0)
  refine ⟨List.replicate data.length (data.getLast h + 1), by simp, by simpa using h, ?_⟩
  rw [List.getLast?_replicate, if_neg hlen, List.getLast?_eq_some_getLast h]
  simp

/-- A turn with these answers whose memory holds `data`. -/
def turnWith (data : List UInt8) (as : List Answer) : Turn where
  answers := as
  heap := fun i => data.getD i 0

theorem memBytes_turnWith (data : List UInt8) (as : List Answer) :
    memBytes (turnWith data as).heap 0 data.length = data := by
  apply List.ext_getElem
  · simp
  · intro k h1 h2
    simp [memBytes, turnWith, h2]

theorem map_turnWith (data : List UInt8) (answers : List (List Answer)) :
    (answers.map (turnWith data)).map Turn.answers = answers := by
  rw [List.map_map]
  exact List.map_id' answers

/-- What the end of a LIST must be. -/
def ListEnd (srv : Server) (conn : Conn) (ts : List Turn) (final : Ctx) : Prop :=
  final.conn.out = conn.out ++ listReply srv.file_list ∧
    ((∀ t ∈ ts, t.others = id) → final.srv = srv)

/-- A size that is negative stops the server. -/
theorem event_crashed {c : Ctx} {t : Turn} {fuel : ℕ} (hreq : c.job.request = .list)
    (hst : c.job.state = .serving) (h : list_serving (c.begin t) = .error .crashed) :
    event msgs fuel t c = .error .crashed := by
  rw [event_list hreq (by simp [hst]) (by simp [hst])]
  unfold list_phases
  rw [whenState_pos (by exact hst), h]
  rfl

/-- What was sent after a first turn over `data` and later turns over `data'`. -/
theorem out_of_listed {c c₁ final : Ctx} {fuel : ℕ} {rem : List (List UInt8)} {data' : List UInt8}
    (h : Listed data as c rem c₁) (hlen : data'.length = data.length)
    (has : ∀ bs ∈ answers, ∀ a ∈ bs, a.Steady) (hfuel : ∀ bs ∈ answers, bs.length < fuel)
    (hreq : c.job.request = .list) (hopen : c.conn.closed = false)
    (hr : run msgs fuel (answers.map (turnWith data')) c₁ = .ok final)
    (hclosed : final.conn.closed = true) :
    (data' = data → final.conn.out = c.conn.out ++ rem.flatten) ∧
      (accept as rem ≠ [] → data ≠ [] → final.conn.out.getLast? = data'.getLast?) := by
  cases h with
  | all hsrv hclosed' hacc hout =>
    rw [run_closed hclosed'] at hr
    obtain rfl := Except.ok.inj hr
    exact ⟨fun _ => hout, fun h => absurd hacc h⟩
  | part hsame hleft hout =>
    -- the later turns send what their memory holds
    have hrest : ∀ {rem'}, Listing data' c₁.job rem' →
        final.conn.out = c₁.conn.out ++ rem'.flatten := by
      intro rem' hleft'
      have hturn : ∀ t ∈ answers.map (turnWith data'), t.answers ∈ answers ∧
          memBytes t.heap 0 data'.length = data' := by
        intro t ht
        obtain ⟨bs, hbs, rfl⟩ := List.mem_map.mp ht
        exact ⟨hbs, memBytes_turnWith data' bs⟩
      obtain ⟨c₂, hr₂, hcl, ho, -⟩ := run_listing msgs (fun t ht => has _ (hturn t ht).1)
        (fun t ht => (hturn t ht).2) (fun t ht => hfuel _ (hturn t ht).1)
        (hsame.request.trans hreq) (hsame.closed.trans hopen) hleft'
      obtain rfl : final = c₂ := Except.ok.inj (hr.symm.trans hr₂)
      rw [hcl.mp hclosed, List.flatten_nil, List.append_nil] at ho
      exact ho
    constructor
    · rintro rfl
      exact (hrest hleft).trans hout
    · intro _ hne
      have hne' : data' ≠ [] := List.ne_nil_of_length_pos (hlen ▸ List.length_pos_iff.mpr hne)
      obtain ⟨rem', hleft', hflat⟩ := hleft.of_length hlen hne'
      rw [hrest hleft', List.getLast?_append, hflat, List.getLast?_eq_some_getLast hne']
      rfl

/-- **A LIST that does not send its reply**: memory that is read in a later turn holds other
    names, or a size that overflows stops the server or is too small. -/
theorem not_always_list (hopen : conn.closed = false)
    (has : ∀ bs ∈ as :: answers, ∀ a ∈ bs, a.Steady)
    (h : 2 ^ 31 ≤ total srv.file_list ∨ joined srv.file_list ≠ [] ∧
      accept as (listPieces (joined srv.file_list)) ≠ []) :
    ¬ Always msgs as answers ⟨srv, .list, conn⟩ (ListEnd srv conn) := by
  rintro ⟨n, hn⟩
  obtain ⟨m, hm⟩ := exists_fuel_answers (as :: answers)
  obtain ⟨fuel, hle, hlong⟩ : ∃ fuel ≥ n, ∀ bs ∈ as :: answers, bs.length < fuel :=
    ⟨max m n, le_max_right m n, fun bs hbs => (hm bs hbs).trans_le (le_max_left m n)⟩
  -- a run whose later turns find `data'`, after a first turn over `k` bytes of the names
  have hrun : ∀ data' : List UInt8, ∀ k ≤ (joined srv.file_list).length, data'.length = k →
      list_serving (Ctx.begin ⟨srv, .list, conn⟩ (turnWith [] as)) = .ok (none,
        { Ctx.begin ⟨srv, .list, conn⟩ (turnWith [] as) with
          job := { Job.list with filesize := k, state := .writeResponse } }) →
      (data' = (joined srv.file_list).take k →
        listReply srv.file_list = (listPieces data').flatten) ∧
      (accept as (listPieces ((joined srv.file_list).take k)) ≠ [] →
        (joined srv.file_list).take k ≠ [] →
        (conn.out ++ listReply srv.file_list).getLast? = data'.getLast?) := by
    intro data' k hk hlen hserving
    obtain ⟨final, hr, hclosed, hfinal⟩ := hn fuel hle (turnWith [] as)
      (answers.map (turnWith data')) rfl rfl (map_turnWith _ _)
    obtain ⟨c₁, he, hlisted⟩ : ∃ c₁, event msgs fuel (turnWith [] as) ⟨srv, .list, conn⟩ = .ok c₁ ∧
        Listed ((joined srv.file_list).take k) as ⟨srv, .list, conn⟩
          (listPieces ((joined srv.file_list).take k)) c₁ :=
      event_first msgs rfl rfl rfl rfl hk hserving (has as (by simp)) (hlong as (by simp))
    rw [run_first hopen rfl, he] at hr
    obtain ⟨hsame, hlast⟩ := out_of_listed hlisted (hlen.trans (List.length_take_of_le hk).symm)
      (fun bs hbs => has bs (List.mem_cons_of_mem _ hbs))
      (fun bs hbs => hlong bs (List.mem_cons_of_mem _ hbs)) rfl hopen hr hclosed
    rw [hfinal.1] at hsame hlast
    refine ⟨?_, hlast⟩
    rintro rfl
    exact List.append_cancel_left (hsame rfl)
  rcases Nat.lt_or_ge (total srv.file_list) (2 ^ 31) with hlt | hge
  · obtain ⟨hne, hacc⟩ := h.resolve_left (by omega)
    obtain ⟨data', hlen, -, hother⟩ := exists_getLast?_ne hne
    have hlast := (hrun data' _ le_rfl hlen (list_serving_spec hlt)).2
    rw [List.take_length] at hlast
    apply hother
    rw [← hlast hacc hne, listReply, ← List.append_assoc, List.getLast?_append,
      List.getLast?_eq_some_getLast hne]
    rfl
  · rcases list_serving_overflow (c := Ctx.begin ⟨srv, .list, conn⟩ (turnWith [] as)) hge with
      hcrash | ⟨k, hk, hserving⟩
    · obtain ⟨final, hr, -⟩ := hn fuel hle (turnWith [] as) (answers.map (turnWith [])) rfl rfl
        (map_turnWith _ _)
      rw [run_first hopen rfl, event_crashed rfl rfl hcrash] at hr
      exact absurd hr (by simp)
    · have hk' : k < (joined srv.file_list).length := hk
      have hlen : ((joined srv.file_list).take k).length = k := List.length_take_of_le hk'.le
      have hshort := (hrun _ k hk'.le hlen hserving).1 rfl
      rw [flatten_listPieces] at hshort
      have hlength := congrArg List.length hshort
      simp only [listReply, List.length_append, length_leBytes, hlen] at hlength
      omega

/-- **A LIST sends its reply**, whatever it meets, exactly if the size fits an `int` and no
    turn but the first reads the names. -/
theorem list_resume_iff (msgs : Messages) (srv : Server) (hopen : conn.closed = false)
    (has : ∀ bs ∈ as :: answers, ∀ a ∈ bs, a.Steady)
    (hcap : 11 + (joined srv.file_list).length ≤ ((as :: answers).map capacity).sum) :
    Always msgs as answers ⟨srv, .list, conn⟩ (ListEnd srv conn) ↔
      total srv.file_list < 2 ^ 31 ∧ (joined srv.file_list = [] ∨
        accept as (listPieces (joined srv.file_list)) = []) := by
  obtain ⟨m, hm⟩ := exists_fuel_answers (as :: answers)
  have has' : ∀ {ts : List Turn}, ts.map Turn.answers = answers →
      ∀ t ∈ ts, ∀ a ∈ t.answers, a.Steady := by
    rintro ts rfl t ht
    exact has _ (List.mem_cons_of_mem _ (List.mem_map_of_mem ht))
  have hfuel : ∀ {fuel : ℕ} {ts : List Turn}, m ≤ fuel → ts.map Turn.answers = answers →
      ∀ t ∈ ts, t.answers.length < fuel := by
    rintro fuel ts hle rfl t ht
    exact (hm _ (List.mem_cons_of_mem _ (List.mem_map_of_mem ht))).trans_le hle
  constructor
  · intro halways
    by_contra hno
    rw [not_and_or, not_or] at hno
    exact not_always_list hopen has (hno.imp_left Nat.le_of_not_lt) halways
  · rintro ⟨hlt, hfirst⟩
    refine ⟨m, fun fuel hle t ts ht hid hts => ?_⟩
    subst ht
    obtain ⟨c₁, he, hlisted⟩ := event_first (c := ⟨srv, .list, conn⟩) (t := t)
      (n := (joined srv.file_list).length) msgs rfl rfl rfl rfl le_rfl (list_serving_spec hlt)
      (has _ (by simp)) ((hm _ (by simp)).trans_le hle)
    rw [List.take_length] at hlisted
    rw [run_first hopen hid, he]
    cases hlisted with
    | all hsrv hclosed hacc hout =>
      refine ⟨c₁, run_closed hclosed ts, hclosed, ?_, fun _ => hsrv⟩
      rw [hout, flatten_listPieces]
      rfl
    | part hsame hleft hout =>
      -- there are no names to be read
      have hnil : joined srv.file_list = [] :=
        hfirst.resolve_right (fun h => hleft.ne_nil h)
      rw [hnil] at hleft hout
      obtain ⟨c₂, hr, hclosed, hout₂, hsrv⟩ := run_listing msgs (has' hts) (fun _ _ => rfl)
        (hfuel hle hts) hsame.request (hsame.closed.trans hopen) hleft
      have hall : acceptAll (ts.map Turn.answers) (accept t.answers (listPieces [])) = [] := by
        rw [hts]
        show acceptAll (t.answers :: answers) (listPieces []) = []
        apply acceptAll_eq_nil has (listPieces_ne_nil [])
        rw [flatten_listPieces]
        rw [hnil] at hcap
        rw [List.length_append, List.length_append, length_leBytes]
        exact hcap
      rw [hall, List.flatten_nil, List.append_nil] at hout₂
      refine ⟨c₂, hr, hclosed.mpr hall, ?_, fun h => (hsrv h).trans hsame.srv⟩
      rw [hout₂, hout, flatten_listPieces, listReply, hnil]

/-! ### DELETE -/

/-- What the end of a DELETE must be. -/
def DeleteEnd (srv : Server) (name : Name) (conn : Conn) (_ : List Turn) (final : Ctx) : Prop :=
  final.conn.out = conn.out ++ ascii "OK\n" ∧ srv.disk.remove name = some final.srv.disk ∧
    final.srv.file_list = srv.file_list.erase name

/-- A file that was removed cannot be opened. -/
theorem openRead_remove {d d' : Disk} (h : d.remove name = some d') : d'.openRead name = none := by
  obtain ⟨-, habs, -⟩ := Disk.remove_spec h
  rw [Disk.openRead, habs]

/-- **A DELETE sends its reply and takes one entry off the list**, whatever it meets, exactly if
    the socket takes the response in the first turn and nothing behind the entry that is found
    is looked at. -/
theorem delete_resume_iff (msgs : Messages) (srv : Server) (hfile : srv.disk.content name = some content)
    (hopen : conn.closed = false) (has : ∀ bs ∈ as :: answers, ∀ a ∈ bs, a.Steady) :
    Always msgs as answers ⟨srv, .serve .delete name, conn⟩ (DeleteEnd srv name conn) ↔
      accept as [ascii "OK\n"] = [] ∧
        srv.file_list.length ≤ srv.file_list.idxOf name + 2 := by
  -- the first turn, whatever the freed name reads as
  have hfirst : ∀ fuel, ∀ t : Turn, t.answers = as → ∃ disk c',
      srv.disk.remove name = some disk ∧
      event msgs fuel t ⟨srv, .serve .delete name, conn⟩ = .ok c' ∧
      c'.srv = ⟨disk, (eraseEntries t.freed name srv.file_list).2⟩ ∧
      Deleted t.freed name as ⟨srv, .serve .delete name, conn⟩ c' := by
    rintro fuel t rfl
    exact event_delete (c := ⟨srv, .serve .delete name, conn⟩) hfile rfl rfl rfl rfl
      (has t.answers (by simp))
  constructor
  · rintro ⟨n, hn⟩
    have hrun : ∀ freed : Name, accept as [ascii "OK\n"] = [] ∧
        (eraseEntries freed name srv.file_list).2 = srv.file_list.erase name ∨
        accept as [ascii "OK\n"] ≠ [] ∧ freed ≠ name := by
      intro freed
      obtain ⟨t, ht⟩ : ∃ t : Turn, t = { answers := as, freed := freed } := ⟨_, rfl⟩
      obtain ⟨final, hr, hclosed, hout, hdisk, hlist⟩ := hn n le_rfl t (answers.map (turnWith []))
        (by rw [ht]) (by rw [ht]) (map_turnWith _ _)
      obtain ⟨disk, c', hremove, he, hsrv, hdeleted⟩ := hfirst n t (by rw [ht])
      rw [run_first hopen (by rw [ht]), he] at hr
      dsimp only at hr
      cases hdeleted with
      | answered hacc hclosed' hst hout' =>
        rw [run_closed hclosed'] at hr
        obtain rfl := Except.ok.inj hr
        rw [hsrv, ht] at hlist
        exact .inl ⟨hacc, hlist⟩
      | blocked offset hacc hlt hclosed' hreq hst hw hname hout' =>
        refine .inr ⟨hacc, ?_⟩
        rintro rfl
        -- the file is looked for again, and the reply is another one
        have hname' : c'.job.filename = some freed := by
          rw [hname, ht]
          exact congrArg some (or_self_iff.mp (eraseEntries_spec freed freed srv.file_list).2)
        have hgone : c'.srv.disk.openRead (c'.job.filename.getD []) = none := by
          rw [hname', hsrv]
          exact openRead_remove hremove
        have hturn : ∀ t ∈ answers.map (turnWith []), t.answers ∈ answers ∧ t.others = id := by
          intro t ht
          obtain ⟨bs, hbs, rfl⟩ := List.mem_map.mp ht
          exact ⟨hbs, rfl⟩
        have hreply := run_blocked
          (fun t ht => has _ (List.mem_cons_of_mem _ (hturn t ht).1)) (fun t ht => (hturn t ht).2)
          hreq hst (hw ▸ hlt) hgone (hclosed'.trans hopen) hr hclosed
        have hlen := congrArg List.length (hout.symm.trans hreply)
        rw [hout', hw] at hlen
        have h3 : (ascii "OK\n").length = 3 := by decide
        have h6 : (ascii "ERROR\n").length = 6 := by decide
        simp only [List.length_append, List.length_take, List.length_drop, h3, h6] at hlen
        omega
    have hacc : accept as [ascii "OK\n"] = [] :=
      ((hrun name).resolve_right (fun h => h.2 rfl)).1
    refine ⟨hacc, ?_⟩
    by_contra hlt
    obtain ⟨freed, hfreed⟩ := eraseEntries_freed (Nat.lt_of_not_le hlt)
    obtain ⟨-, heq⟩ := (hrun freed).resolve_right (fun h => h.1 hacc)
    rw [heq] at hfreed
    exact Nat.lt_irrefl _ hfreed
  · rintro ⟨hacc, hlist⟩
    refine ⟨0, fun fuel _ t ts ht hid _ => ?_⟩
    obtain ⟨disk, c', hremove, he, hsrv, hdeleted⟩ := hfirst fuel t ht
    rw [run_first hopen hid, he]
    cases hdeleted with
    | answered _ hclosed hst hout =>
      refine ⟨c', run_closed hclosed ts, hclosed, hout, ?_, ?_⟩
      · rw [hsrv, hremove]
      · rw [hsrv]
        exact eraseEntries_erase t.freed hlist
    | blocked offset hne => exact absurd hacc hne

/-! ### Both -/

/-- The answers of a socket that takes one byte at a time are steady. -/
theorem steady_bytewise (ks : List ℕ) : ∀ bs ∈ (ks.map bytewise).map Turn.answers,
    ∀ a ∈ bs, a.Steady := by
  intro bs hbs
  obtain ⟨t, ht, rfl⟩ := List.mem_map.mp hbs
  exact (quiet_bytewise [] ks).steady t ht

end SystemProgramming.Networking
