import SystemProgramming.Networking.Turns

namespace SystemProgramming.Networking

open SystemProgramming.Lib

/-!
# `nonstop_networking/server.c` — a turn of `list`

The reply to a LIST is `"OK\n"`, the size and the names.  The names are put together in the
turn in which the request begins to be served; the memory from which they are written is
allocated anew in every turn, so that a later turn writes what it finds there.

* `Listing` — what is left to be sent, when the memory holds `data`.
* `list_phases_spec` — a turn of `list` over such a memory.
* `list_serving_spec`, `list_serving_overflow` — the first turn: the size is an `int`.
-/

variable {names : List Name} {data : List UInt8} {c : Ctx} {fuel : ℕ} {flist : Mem} {t : Turn}
  {msgs : Messages}

/-! ### The names and the memory -/

/-- The names and a byte for each. -/
def total (names : List Name) : ℕ := (names.map (fun name => name.length + 1)).sum

/-- The text is one byte shorter than that. -/
theorem length_joined (h : names ≠ []) : (joined names).length + 1 = total names := by
  unfold joined total
  induction names with
  | nil => exact absurd rfl h
  | cons name names ih =>
    cases names with
    | nil => simp
    | cons name' names =>
      have ih' := ih (by simp)
      rw [List.intercalate_cons_cons, List.map_cons, List.sum_cons, ← ih']
      simp only [List.length_append, List.length_singleton]
      omega

@[simp] theorem length_memBytes (m : Mem) (off n : ℕ) : (memBytes m off n).length = n := by
  simp [memBytes]

/-- The bytes from `w` on. -/
theorem memBytes_drop (m : Mem) {w n : ℕ} (h : memBytes m 0 n = data) :
    memBytes m w (n - w) = data.drop w := by
  subst h
  apply List.ext_getElem
  · simp
  · intro k h1 h2
    simp [memBytes]

/-- The text is where it was written. -/
theorem memBytes_listMem (t : Turn) {text : List UInt8} {n : ℕ} (h : n ≤ text.length) :
    memBytes (listMem t text) 0 n = text.take n := by
  apply List.ext_getElem
  · simp [h]
  · intro k h1 h2
    have hk : k < text.length := by
      rw [length_memBytes] at h1
      omega
    simp [memBytes, listMem, hk]

/-! ### A turn -/

/-- The names, if there are any, as a piece. -/
def dataPieces (data : List UInt8) : List (List UInt8) := if data = [] then [] else [data]

/-- What is left to be sent, when the memory holds `data`. -/
inductive Listing (data : List UInt8) (j : Job) : List (List UInt8) → Prop
  | response (hst : j.state = .writeResponse) (hw : j.writesz < 3) (hd : j.datasz = 0)
      (hsz : j.filesize = data.length) : Listing data j
        ((ascii "OK\n").drop j.writesz :: leBytes 8 data.length :: dataPieces data)
  | size (hst : j.state = .writeSize) (hw : j.writesz < 8) (hd : j.datasz = 0)
      (hsz : j.filesize = data.length) :
      Listing data j ((leBytes 8 data.length).drop j.writesz :: dataPieces data)
  | data (hst : j.state = .writeData) (hw : j.writesz < data.length) (hd : j.datasz = 0)
      (hsz : j.filesize = data.length) : Listing data j [data.drop j.writesz]

/-- **The loop.** -/
theorem list_data_spec (has : ∀ a ∈ c.conn.answers, a.Steady) (hst : c.job.state = .writeData)
    (hw : c.job.writesz < data.length) (hd : c.job.datasz = 0) (hsz : c.job.filesize = data.length)
    (hmem : memBytes flist 0 data.length = data) (hfuel : c.conn.answers.length < fuel) :
    ∃ r, list_data flist fuel c = .ok r ∧ Took (Listing data) c [data.drop c.job.writesz] r := by
  obtain ⟨fuel, rfl⟩ := Nat.exists_eq_add_one_of_ne_zero (show fuel ≠ 0 by omega)
  have hlen : (data.drop c.job.writesz).length = data.length - c.job.writesz := List.length_drop
  have hne : data.drop c.job.writesz ≠ [] := List.ne_nil_of_length_pos (by omega)
  rw [list_data, if_neg (by simp [hst]), hsz, memBytes_drop flist hmem]
  rcases Conn.writer_cases has hne [] with ⟨rest, hwr, hwrote⟩ | ⟨offset, hwr, hfull⟩
  · have hshort := hwrote.shorter
    obtain ⟨fuel, rfl⟩ := Nat.exists_eq_add_one_of_ne_zero (show fuel ≠ 0 by omega)
    rw [hwr]
    dsimp only
    rw [hd, hlen, if_pos (by omega), list_data, if_pos (by simp)]
    refine ⟨_, rfl, .all _ ⟨rfl, rfl, rfl, rfl⟩ ?_ rfl (by simp)⟩
    rw [hwrote.accept, accept_nil]
  · have hlt := hfull.lt
    rw [hwr]
    refine ⟨_, rfl, .full hfull ⟨rfl, rfl, rfl, rfl⟩ rfl ?_⟩
    rw [List.drop_drop]
    exact .data hst (show c.job.writesz + offset < data.length by omega) hd hsz

/-- What a turn does from the size on. -/
theorem list_size_spec (has : ∀ a ∈ c.conn.answers, a.Steady) (hst : c.job.state = .writeSize)
    (hw : c.job.writesz < 8) (hd : c.job.datasz = 0) (hsz : c.job.filesize = data.length)
    (hmem : memBytes flist 0 data.length = data) (hfuel : c.conn.answers.length < fuel) :
    ∃ r, (whenState .writeSize (fun c => checked (write_size c)) c).next (list_data flist fuel) = .ok r ∧
      Took (Listing data) c ((leBytes 8 data.length).drop c.job.writesz :: dataPieces data) r := by
  rw [← hsz]
  apply took_size has hst hw
  · intro w _ hlt
    exact hsz ▸ .size hst hlt hd hsz
  · rintro rest hshort hsteady c₁ rfl
    by_cases hzero : c.job.filesize = 0
    · have hnil : data = [] := List.length_eq_zero_iff.mp (hsz ▸ hzero)
      obtain ⟨fuel, rfl⟩ := Nat.exists_eq_add_one_of_ne_zero (show fuel ≠ 0 by omega)
      rw [if_pos hzero, list_data, if_pos (by simp), dataPieces, if_pos hnil]
      exact ⟨_, rfl, .all _ ⟨rfl, rfl, rfl, rfl⟩ (accept_nil _) rfl (by simp)⟩
    · have hne : data ≠ [] := fun h => hzero (by rw [hsz, h]; rfl)
      rw [if_neg hzero, dataPieces, if_neg hne]
      exact list_data_spec hsteady rfl (List.length_pos_iff.mpr hne) hd hsz hmem (hshort.trans hfuel)

/-- What a turn does from the response on. -/
theorem list_response_spec (has : ∀ a ∈ c.conn.answers, a.Steady) (hreq : c.job.request = .list)
    (hst : c.job.state = .writeResponse) (hw : c.job.writesz < 3) (hd : c.job.datasz = 0)
    (hsz : c.job.filesize = data.length) (hmem : memBytes flist 0 data.length = data)
    (hfuel : c.conn.answers.length < fuel) :
    ∃ r, (whenState .writeResponse (fun c => checked (write_response c)) c).next (fun c =>
        (whenState .writeSize (fun c => checked (write_size c)) c).next (list_data flist fuel)) = .ok r ∧
      Took (Listing data) c
        ((ascii "OK\n").drop c.job.writesz :: leBytes 8 data.length :: dataPieces data) r := by
  apply took_response has (.inl hreq) hst hw
  · intro w _ hlt
    exact .response hst hlt hd hsz
  · rintro rest hshort hsteady c₁ rfl
    exact list_size_spec hsteady rfl (show 0 < 8 by omega) hd hsz hmem (hshort.trans hfuel)

/-- All phases of a turn of `list` over the memory `flist`. -/
def list_phases (flist : Mem) (fuel : ℕ) (c : Ctx) : Phase :=
  (((whenState .serving list_serving c).next
    (whenState .writeResponse (fun c => checked (write_response c)))).next
    (whenState .writeSize (fun c => checked (write_size c)))).next (list_data flist fuel)

/-- **A turn of `list`** on a request that is being served. -/
theorem list_phases_spec {rem : List (List UInt8)} (has : ∀ a ∈ c.conn.answers, a.Steady)
    (hreq : c.job.request = .list) (h : Listing data c.job rem)
    (hmem : memBytes flist 0 data.length = data) (hfuel : c.conn.answers.length < fuel) :
    ∃ r, list_phases flist fuel c = .ok r ∧ Took (Listing data) c rem r := by
  unfold list_phases
  rw [Phase.next_assoc, Phase.next_assoc]
  cases h with
  | response hst hw hd hsz =>
    rw [whenState_neg (by simp [hst]), Phase.next_none]
    exact list_response_spec has hreq hst hw hd hsz hmem hfuel
  | size hst hw hd hsz =>
    rw [whenState_neg (by simp [hst]), Phase.next_none, whenState_neg (by simp [hst]),
      Phase.next_none]
    exact list_size_spec has hst hw hd hsz hmem hfuel
  | data hst hw hd hsz =>
    rw [whenState_neg (by simp [hst]), Phase.next_none, whenState_neg (by simp [hst]),
      Phase.next_none, whenState_neg (by simp [hst]), Phase.next_none]
    exact list_data_spec has hst hw hd hsz hmem hfuel

/-! ### The first turn -/

/-- A number that is cast to an `int`. -/
theorem int_eq (n : ℕ) : int n = if n % 2 ^ 32 < 2 ^ 31 then ((n % 2 ^ 32 : ℕ) : ℤ) else
    ((n % 2 ^ 32 : ℕ) : ℤ) - 2 ^ 32 := by
  unfold int Int.bmod
  dsimp only
  split <;> split <;> omega

/-- `len - 1`, as the size that is announced. -/
theorem size_t_sub_one {n : ℕ} (hpos : 0 < n) (hlt : n < 2 ^ 32) : size_t ((n : ℤ) - 1) = n - 1 := by
  unfold size_t
  omega

/-- **The size of a list that fits an `int`.** -/
theorem list_serving_spec (h : total c.srv.file_list < 2 ^ 31) :
    list_serving c = .ok (none, { c with job := { c.job with
      filesize := (joined c.srv.file_list).length, state := .writeResponse } }) := by
  have hint : int (total c.srv.file_list : ℕ) = (total c.srv.file_list : ℕ) := by
    rw [int_eq, Nat.mod_eq_of_lt (by omega), if_pos h]
  unfold list_serving
  rw [show (c.srv.file_list.map (fun name => name.length + 1)).sum = total c.srv.file_list from rfl,
    hint]
  dsimp only
  by_cases hnil : c.srv.file_list = []
  · rw [if_neg (by simp [hnil]), if_pos hnil, hnil]
    rfl
  · have hlen := length_joined hnil
    rw [if_neg (by omega), if_neg hnil, size_t_sub_one (by omega) (by omega), ← hlen,
      Nat.add_sub_cancel]

/-- **The size of a list that does not**: it is negative, or too small. -/
theorem list_serving_overflow (h : 2 ^ 31 ≤ total c.srv.file_list) :
    list_serving c = .error .crashed ∨ ∃ n, n < (joined c.srv.file_list).length ∧
      list_serving c = .ok (none, { c with job := { c.job with
        filesize := n, state := .writeResponse } }) := by
  have hnil : c.srv.file_list ≠ [] := by
    intro hnil
    rw [hnil] at h
    exact absurd h (by decide)
  have hlen := length_joined hnil
  unfold list_serving
  rw [show (c.srv.file_list.map (fun name => name.length + 1)).sum = total c.srv.file_list from rfl,
    int_eq]
  dsimp only
  split
  · rename_i hlt
    by_cases hzero : total c.srv.file_list % 2 ^ 32 = 0
    · exact .inl (if_pos ⟨hnil, by omega⟩)
    · refine .inr ⟨total c.srv.file_list % 2 ^ 32 - 1, by omega, ?_⟩
      rw [if_neg (by omega), size_t_sub_one (by omega) (by omega)]
  · exact .inl (if_pos ⟨hnil, by omega⟩)

/-! ### The turns of a job -/

/-- What a LIST sends. -/
def listReply (names : List Name) : List UInt8 :=
  ascii "OK\n" ++ leBytes 8 (joined names).length ++ joined names

/-- The event of a LIST that is being served. -/
theorem event_list (hreq : c.job.request = .list) (hst : c.job.state ≠ .readHeader)
    (herr : c.job.state ≠ .error) : event msgs fuel t c =
    served ((list_phases (listMem t (if c.job.state = .serving then joined c.srv.file_list else []))
      fuel (c.begin t)).next (fun c => .ok (some .ok, c.close))).result := by
  rw [event_of_read hst, serve_eq]
  unfold handle Ctx.begin
  dsimp only
  rw [hreq]
  dsimp only
  unfold list
  rw [if_neg herr]
  rfl

/-- The states in which a LIST sends its reply. -/
theorem Listing.state_ne {j : Job} {rem : List (List UInt8)} (h : Listing data j rem) :
    j.state ≠ .readHeader ∧ j.state ≠ .error ∧ j.state ≠ .serving ∧ j.state ≠ .done := by
  cases h with
  | response hst => simp [hst]
  | size hst => simp [hst]
  | data hst => simp [hst]

theorem Listing.ne_nil {j : Job} {rem : List (List UInt8)} (h : Listing data j rem) : rem ≠ [] := by
  cases h <;> exact List.cons_ne_nil _ _

/-- How the turns of the job may go on after a turn. -/
inductive Listed (data : List UInt8) (as : List Answer) (c : Ctx) (rem : List (List UInt8)) :
    Ctx → Prop
  | all (c' : Ctx) (hsrv : c'.srv = c.srv) (hclosed : c'.conn.closed = true)
      (hacc : accept as rem = []) (hout : c'.conn.out = c.conn.out ++ rem.flatten) :
      Listed data as c rem c'
  | part (c' : Ctx) (hsame : Same c c') (hleft : Listing data c'.job (accept as rem))
      (hout : c'.conn.out ++ (accept as rem).flatten = c.conn.out ++ rem.flatten) :
      Listed data as c rem c'

/-- The end of a turn. -/
theorem listed_of_took {rem : List (List UInt8)} {p : Phase}
    (h : ∃ r, p = .ok r ∧ Took (Listing data) (c.begin t) rem r) :
    ∃ c', served (p.next (fun c => .ok (some .ok, c.close))).result = .ok c' ∧
      Listed data t.answers c rem c' := by
  obtain ⟨r, rfl, htook⟩ := h
  cases htook with
  | all c' hs ha hdone ho =>
    rw [Phase.next_none]
    dsimp only [Phase.result, Option.getD_some, Ctx.close, served]
    rw [if_neg (by rw [hdone]; decide)]
    exact ⟨_, rfl, .all _ hs.srv rfl ha ho⟩
  | part c' hs hne hleft ho =>
    exact ⟨c', rfl, .part c' ⟨hs.srv, hs.request, hs.filename, hs.closed⟩ hleft ho⟩

/-- **One turn of a LIST**, after the first. -/
theorem event_listing (msgs : Messages) {rem : List (List UInt8)} (hreq : c.job.request = .list)
    (h : Listing data c.job rem) (hmem : memBytes t.heap 0 data.length = data)
    (has : ∀ a ∈ t.answers, a.Steady) (hfuel : t.answers.length < fuel) :
    ∃ c', event msgs fuel t c = .ok c' ∧ Listed data t.answers c rem c' := by
  have hst := h.state_ne
  rw [event_list hreq hst.1 hst.2.1, if_neg hst.2.2.1]
  apply listed_of_took
  -- the memory is not filled again
  have hmem' : memBytes (listMem t []) 0 data.length = data := by
    have heq : listMem t [] = t.heap := by
      funext k
      simp [listMem]
    rw [heq, hmem]
  have h' : Listing data (c.begin t).job rem := h
  exact list_phases_spec has hreq h' hmem' hfuel

/-- The pieces of a reply that begins with the size of `data`. -/
def listPieces (data : List UInt8) : List (List UInt8) :=
  ascii "OK\n" :: leBytes 8 data.length :: dataPieces data

theorem listPieces_ne_nil (data : List UInt8) : ∀ p ∈ listPieces data, p ≠ [] := by
  have hsize : leBytes 8 data.length ≠ [] :=
    List.ne_nil_of_length_pos (by rw [length_leBytes]; omega)
  have hresponse : ascii "OK\n" ≠ [] := by decide
  intro p hp
  unfold listPieces dataPieces at hp
  split at hp
  · simp only [List.mem_cons, List.not_mem_nil, or_false] at hp
    rcases hp with rfl | rfl
    exacts [hresponse, hsize]
  · rename_i hne
    simp only [List.mem_cons, List.not_mem_nil, or_false] at hp
    rcases hp with rfl | rfl | rfl
    exacts [hresponse, hsize, hne]

theorem flatten_listPieces (data : List UInt8) :
    (listPieces data).flatten = ascii "OK\n" ++ leBytes 8 data.length ++ data := by
  unfold listPieces dataPieces
  split
  · rename_i h
    simp [h]
  · simp

/-- **The first turn of a LIST** that announces the size `n`. -/
theorem event_first (msgs : Messages) {n : ℕ} (hreq : c.job.request = .list)
    (hst : c.job.state = .serving) (hw : c.job.writesz = 0) (hd : c.job.datasz = 0)
    (hn : n ≤ (joined c.srv.file_list).length)
    (hserving : list_serving (c.begin t) = .ok (none, { c.begin t with job := { c.job with
      filesize := n, state := .writeResponse } }))
    (has : ∀ a ∈ t.answers, a.Steady) (hfuel : t.answers.length < fuel) :
    ∃ c', event msgs fuel t c = .ok c' ∧ Listed ((joined c.srv.file_list).take n) t.answers c
      (listPieces ((joined c.srv.file_list).take n)) c' := by
  have hlen : ((joined c.srv.file_list).take n).length = n := List.length_take_of_le hn
  rw [event_list hreq (by simp [hst]) (by simp [hst]), if_pos hst]
  apply listed_of_took
  obtain ⟨c₁, hc₁⟩ : ∃ c₁ : Ctx, c₁ = { c.begin t with job := { c.job with
      filesize := n, state := .writeResponse } } := ⟨_, rfl⟩
  rw [← hc₁] at hserving
  -- what follows does not look at the list again
  have hphases : list_phases (listMem t (joined c.srv.file_list)) fuel (c.begin t)
      = list_phases (listMem t (joined c.srv.file_list)) fuel c₁ := by
    have hst₁ : c₁.job.state ≠ .serving := by simp [hc₁]
    unfold list_phases
    rw [whenState_pos (by exact hst), hserving, whenState_neg hst₁]
  have hleft : Listing ((joined c.srv.file_list).take n) c₁.job
      (listPieces ((joined c.srv.file_list).take n)) := by
    have h := @Listing.response ((joined c.srv.file_list).take n) c₁.job
      (by rw [hc₁]) (by rw [hc₁]; exact hw ▸ Nat.zero_lt_succ 2) (by rw [hc₁]; exact hd)
      (by rw [hc₁, hlen])
    have hw₁ : c₁.job.writesz = 0 := by rw [hc₁]; exact hw
    rw [hw₁, List.drop_zero] at h
    exact h
  have hmem : memBytes (listMem t (joined c.srv.file_list)) 0
      ((joined c.srv.file_list).take n).length = (joined c.srv.file_list).take n := by
    rw [hlen, memBytes_listMem t hn]
  have hans : c₁.conn.answers = t.answers := by rw [hc₁]; rfl
  obtain ⟨r, hr, htook⟩ := list_phases_spec (hans ▸ has) (by rw [hc₁]; exact hreq) hleft hmem
    (hans ▸ hfuel)
  exact ⟨r, hphases.trans hr, htook.of_same ⟨by rw [hc₁], by rw [hc₁]; rfl, by rw [hc₁]; rfl,
    by rw [hc₁]⟩ (by rw [hc₁])⟩

/-- **A run of a LIST**: its turns send what `acceptAll` takes. -/
theorem run_listing (msgs : Messages) {turns : List Turn} {rem : List (List UInt8)}
    (has : ∀ t ∈ turns, ∀ a ∈ t.answers, a.Steady)
    (hmem : ∀ t ∈ turns, memBytes t.heap 0 data.length = data)
    (hfuel : ∀ t ∈ turns, t.answers.length < fuel) (hreq : c.job.request = .list)
    (hopen : c.conn.closed = false) (h : Listing data c.job rem) :
    ∃ c', run msgs fuel turns c = .ok c' ∧
      (c'.conn.closed = true ↔ acceptAll (turns.map Turn.answers) rem = []) ∧
      c'.conn.out ++ (acceptAll (turns.map Turn.answers) rem).flatten
        = c.conn.out ++ rem.flatten ∧
      ((∀ t ∈ turns, t.others = id) → c'.srv = c.srv) := by
  induction turns generalizing c rem with
  | nil =>
    refine ⟨c, rfl, ?_, rfl, fun _ => rfl⟩
    rw [hopen]
    exact ⟨fun h => absurd h (by simp), fun hnil => absurd hnil h.ne_nil⟩
  | cons t turns ih =>
    rw [run, if_neg (by simp [hopen])]
    obtain ⟨c₁, he, hlisted⟩ := event_listing (c := { c with srv := t.others c.srv }) msgs hreq h
      (hmem t (by simp)) (has t (by simp)) (hfuel t (by simp))
    rw [he]
    cases hlisted with
    | all hsrv hclosed hacc hout =>
      have hall : acceptAll ((t :: turns).map Turn.answers) rem = [] := by
        show acceptAll (turns.map Turn.answers) (accept t.answers rem) = []
        rw [hacc, acceptAll_nil]
      refine ⟨c₁, run_closed hclosed turns, ⟨fun _ => hall, fun _ => hclosed⟩, ?_, fun hid => ?_⟩
      · rw [hall, hout, List.flatten_nil, List.append_nil]
      · rw [hsrv]
        show t.others c.srv = c.srv
        rw [hid t (by simp), id]
    | part hsame hleft hout =>
      obtain ⟨c₂, hr, hcl, ho, hsrv⟩ := ih (fun u hu => has u (List.mem_cons_of_mem _ hu))
        (fun u hu => hmem u (List.mem_cons_of_mem _ hu))
        (fun u hu => hfuel u (List.mem_cons_of_mem _ hu)) (hsame.request.trans hreq)
        (hsame.closed.trans hopen) hleft
      refine ⟨c₂, hr, hcl, ho.trans hout, fun hid => ?_⟩
      rw [hsrv (fun u hu => hid u (List.mem_cons_of_mem _ hu)), hsame.srv]
      show t.others c.srv = c.srv
      rw [hid t (by simp), id]

end SystemProgramming.Networking
