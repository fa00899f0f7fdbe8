import SystemProgramming.Networking.List

namespace SystemProgramming.Networking

open SystemProgramming.Lib

/-!
# `nonstop_networking/server.c` — a DELETE, and what a blocked write does

`handle_delete` removes the file and answers in the same turn.  A later turn begins again: it
looks for a file that is gone.  And behind an entry that was erased, the name is compared with
memory that was freed.

* `eraseEntries_spec`, `eraseEntries_freed` — what the loop over the list erases.
* `event_delete`, `run_blocked` — the first turn of a DELETE, and the turns after one in which
  the socket was full.
* `resume_iff` — when a LIST and a DELETE send what they would send on a socket that is never
  full.
-/

variable {name freed : Name} {file_list : List Name} {c : Ctx} {t : Turn} {msgs : Messages}
  {fuel : ℕ} {content : List UInt8}

/-! ### The loop over the list -/

/-- An entry of another name stays. -/
theorem eraseEntries_ne {filename : Name} (h : filename ≠ name) (rest : List Name) :
    eraseEntries freed name (filename :: rest)
      = ((eraseEntries freed name rest).1, filename :: (eraseEntries freed name rest).2) := by
  rw [eraseEntries.eq_def]
  exact if_neg h

/-- The entry behind one that is erased is not looked at. -/
theorem eraseEntries_self (skipped : Name) (rest : List Name) :
    eraseEntries freed name (name :: skipped :: rest)
      = ((eraseEntries freed freed rest).1, skipped :: (eraseEntries freed freed rest).2) := by
  rw [eraseEntries.eq_def]
  exact if_pos rfl

theorem eraseEntries_last : eraseEntries freed name [name] = (freed, []) := by
  rw [eraseEntries.eq_def]
  exact if_pos rfl

/-- The list does not get longer, and the name reads as before or as freed memory. -/
theorem eraseEntries_spec (freed name : Name) (file_list : List Name) :
    (eraseEntries freed name file_list).2.length ≤ file_list.length ∧
      ((eraseEntries freed name file_list).1 = name ∨
        (eraseEntries freed name file_list).1 = freed) := by
  fun_induction eraseEntries freed name file_list with
  | case1 name => exact ⟨le_rfl, .inl rfl⟩
  | case2 => exact ⟨Nat.zero_le _, .inr rfl⟩
  | case3 filename skipped rest name' rest' heq ih =>
    rw [heq] at ih
    exact ⟨Nat.succ_le_succ (ih.1.trans (Nat.le_succ _)), .inr (or_self_iff.mp ih.2)⟩
  | case4 name filename rest hne name' rest' heq ih =>
    rw [heq] at ih
    exact ⟨Nat.succ_le_succ ih.1, ih.2⟩

/-- An entry that is found is erased. -/
theorem eraseEntries_head (freed name : Name) (rest : List Name) :
    (eraseEntries freed name (name :: rest)).2.length ≤ rest.length := by
  cases rest with
  | nil => rw [eraseEntries_last]
  | cons skipped rest =>
    rw [eraseEntries_self]
    exact Nat.succ_le_succ (eraseEntries_spec freed freed rest).1

/-- **One entry is erased** when nothing behind it is looked at. -/
theorem eraseEntries_erase (freed : Name) (h : file_list.length ≤ file_list.idxOf name + 2) :
    (eraseEntries freed name file_list).2 = file_list.erase name := by
  induction file_list with
  | nil => rfl
  | cons filename rest ih =>
    by_cases heq : filename = name
    · subst heq
      rw [List.idxOf_cons_self] at h
      rw [List.erase_cons_head]
      match rest with
      | [] => rw [eraseEntries_last]
      | [skipped] =>
        rw [eraseEntries_self]
        rfl
      | skipped :: next :: rest => exact absurd h (by simp)
    · rw [eraseEntries_ne heq, List.erase_cons_tail (by simpa using heq)]
      rw [List.idxOf_cons_ne _ heq, List.length_cons] at h
      exact congrArg (filename :: ·) (ih (by omega))

/-- **More entries are erased** when the freed memory reads as the name of one that is looked
    at. -/
theorem eraseEntries_freed (h : file_list.idxOf name + 2 < file_list.length) :
    ∃ freed, (eraseEntries freed name file_list).2.length < (file_list.erase name).length := by
  induction file_list with
  | nil => exact absurd h (by simp)
  | cons filename rest ih =>
    by_cases heq : filename = name
    · rw [heq, List.idxOf_cons_self] at h
      match rest, h with
      | skipped :: next :: rest, _ =>
        refine ⟨next, ?_⟩
        rw [heq, List.erase_cons_head, eraseEntries_self]
        exact Nat.succ_lt_succ (Nat.lt_succ_of_le (eraseEntries_head next next rest))
    · rw [List.idxOf_cons_ne _ heq, List.length_cons] at h
      obtain ⟨freed, hfreed⟩ := ih (by omega)
      refine ⟨freed, ?_⟩
      rw [eraseEntries_ne heq, List.erase_cons_tail (by simpa using heq)]
      exact Nat.succ_lt_succ hfreed

/-! ### The turns of a DELETE -/

/-- The event of a DELETE after its header. -/
theorem event_of_delete (hreq : c.job.request = .delete) (hst : c.job.state ≠ .readHeader) :
    event msgs fuel t c = served (.ok (handle_delete msgs t (c.begin t))) := by
  rw [event_of_read hst, serve_eq]
  unfold handle Ctx.begin
  rw [hreq]

/-- What is left of a DELETE after its first turn. -/
inductive Deleted (freed : Name) (name : Name) (as : List Answer) (c : Ctx) (c' : Ctx) : Prop
  | answered (hacc : accept as [ascii "OK\n"] = []) (hclosed : c'.conn.closed = true)
      (hst : c'.job.state = .done) (hout : c'.conn.out = c.conn.out ++ ascii "OK\n")
  | blocked (offset : ℕ) (hacc : accept as [ascii "OK\n"] ≠ []) (hlt : offset < 3)
      (hclosed : c'.conn.closed = c.conn.closed) (hreq : c'.job.request = .delete)
      (hst : c'.job.state = .writeResponse) (hw : c'.job.writesz = offset)
      (hfile : c'.job.filename = some (eraseEntries freed name c.srv.file_list).1)
      (hout : c'.conn.out = c.conn.out ++ (ascii "OK\n").take offset)

/-- **The first turn of a DELETE.** -/
theorem event_delete (hfile : c.srv.disk.content name = some content)
    (hreq : c.job.request = .delete) (hname : c.job.filename = some name)
    (hst : c.job.state = .serving) (hw : c.job.writesz = 0) (has : ∀ a ∈ t.answers, a.Steady) :
    ∃ disk c', c.srv.disk.remove name = some disk ∧ event msgs fuel t c = .ok c' ∧
      c'.srv = ⟨disk, (eraseEntries t.freed name c.srv.file_list).2⟩ ∧
      Deleted t.freed name t.answers c c' := by
  obtain ⟨i, hi, -⟩ := Disk.content_eq_some.mp hfile
  obtain ⟨disk, hremove⟩ : ∃ disk, c.srv.disk.remove name = some disk := by
    rw [Disk.remove, hi]
    exact ⟨_, rfl⟩
  have hopen : c.srv.disk.openRead name = some (.file i 0) := by rw [Disk.openRead, hi]
  -- the context in which the response is written
  obtain ⟨c₁, hc₁⟩ : ∃ c₁ : Ctx, c₁ = { c.begin t with
      srv := ⟨disk, (eraseEntries t.freed name c.srv.file_list).2⟩,
      job := { c.job with
        filename := some (eraseEntries t.freed name c.srv.file_list).1,
        state := .writeResponse } } := ⟨_, rfl⟩
  have hhandle : handle_delete msgs t (c.begin t) = write_response c₁ := by
    have hopenfile : openfile msgs (c.begin t) = (some (.file i 0), c.begin t) := by
      unfold openfile Ctx.begin
      rw [hname, Option.getD_some, hopen]
    unfold handle_delete
    rw [if_neg (by simp [Ctx.begin, hst]), hopenfile, hc₁]
    unfold Ctx.begin
    dsimp only
    rw [hname, Option.getD_some, hremove]
  have has₁ : ∀ a ∈ c₁.conn.answers, a.Steady := hc₁ ▸ has
  have hw₁ : c₁.job.writesz = 0 := hc₁ ▸ hw
  have hreq₁ : c₁.job.request = .delete := hc₁ ▸ hreq
  have hout₁ : c₁.conn.out = c.conn.out := hc₁ ▸ rfl
  rw [event_of_delete hreq (by simp [hst]), hhandle]
  rcases write_response_cases has₁ (by omega) [] with ⟨rest, hwrote, hres⟩ | ⟨offset, hfull, hres⟩
  · have hacc := hwrote.accept
    rw [hw₁, List.drop_zero, accept_nil] at hacc
    rw [hres, if_neg (by simp [hreq₁]), served_ok (by simp)]
    refine ⟨disk, _, hremove, rfl, by rw [hc₁], ?_⟩
    have hans : c₁.conn.answers = t.answers := by rw [hc₁]; rfl
    refine .answered (hans ▸ hacc) rfl rfl ?_
    rw [hw₁, List.drop_zero]
    exact congrArg (· ++ _) hout₁
  · have hacc := hfull.accept
    have hlt := hfull.lt
    rw [hw₁, List.drop_zero] at hacc hlt
    rw [hres]
    refine ⟨disk, _, hremove, rfl, by rw [hc₁], ?_⟩
    refine .blocked offset ?_ hlt (by rw [hc₁]; rfl) hreq₁ (by rw [hc₁])
      (by simp [hw₁]) (by rw [hc₁]) ?_
    · have hans : c₁.conn.answers = t.answers := by rw [hc₁]; rfl
      rw [← hans, hacc]
      exact List.cons_ne_nil _ _
    · rw [hw₁, List.drop_zero]
      exact congrArg (· ++ _) hout₁

/-- The reply to a request that has failed, if it is ever complete. -/
theorem run_failed {turns : List Turn} {text : List UInt8} {c' : Ctx}
    (htext : text = ascii "ERROR\n" ++ c.job.errmsg)
    (has : ∀ t ∈ turns, ∀ a ∈ t.answers, a.Steady) (hst : c.job.state = .error)
    (hw : c.job.writesz < text.length) (hopen : c.conn.closed = false)
    (hr : run msgs fuel turns c = .ok c') (hclosed : c'.conn.closed = true) :
    c'.conn.out = c.conn.out ++ text.drop c.job.writesz := by
  induction turns generalizing c with
  | nil =>
    obtain rfl : c = c' := Except.ok.inj hr
    exact absurd hclosed (by simp [hopen])
  | cons t turns ih =>
    rw [run, if_neg (by simp [hopen]), event_of_read (by simp [hst]),
      serve_error (by exact hst)] at hr
    dsimp only at hr
    have hspec := write_err_spec (c := Ctx.begin { c with srv := t.others c.srv } t)
      (fun a ha => (has t (by simp) a ha).moves) (by exact htext ▸ hw)
    obtain ⟨r, hres⟩ : ∃ r, write_err (Ctx.begin { c with srv := t.others c.srv } t) = r := ⟨_, rfl⟩
    rw [hres] at hspec hr
    cases hspec with
    | done as hsub =>
      rw [run_closed rfl] at hr
      obtain rfl := Except.ok.inj hr
      rw [htext]
      rfl
    | waits ret w out as hret hsub hle hlt hout hcap =>
      have hlt' : w < text.length := htext ▸ hlt
      have hrest := ih (c := { c with
        srv := t.others c.srv, job := { c.job with writesz := w },
        conn := { c.conn with out := out, answers := as } }) htext
        (fun u hu => has u (List.mem_cons_of_mem _ hu)) hst hlt' hopen hr
      rw [hrest, htext]
      exact hout

/-- **A DELETE whose first turn ends within the response**: when nobody stores the file
    again, its reply never is the one to a DELETE. -/
theorem run_blocked {turns : List Turn} {c' : Ctx} (has : ∀ t ∈ turns, ∀ a ∈ t.answers, a.Steady)
    (hothers : ∀ t ∈ turns, t.others = id) (hreq : c.job.request = .delete)
    (hst : c.job.state = .writeResponse) (hw : c.job.writesz < 3)
    (hgone : c.srv.disk.openRead (c.job.filename.getD []) = none)
    (hopen : c.conn.closed = false) (hr : run msgs fuel turns c = .ok c')
    (hclosed : c'.conn.closed = true) :
    c'.conn.out = c.conn.out ++ (ascii "ERROR\n" ++ msgs.err_no_such_file).drop c.job.writesz := by
  cases turns with
  | nil =>
    obtain rfl : c = c' := Except.ok.inj hr
    exact absurd hclosed (by simp [hopen])
  | cons t turns =>
    -- the second turn fails, as it would have done had it begun in this state
    obtain ⟨c₁, hc₁⟩ : ∃ c₁ : Ctx, c₁ = { c with
        job := { c.job with state := .error, errmsg := msgs.err_no_such_file } } := ⟨_, rfl⟩
    have hid : t.others = id := hothers t (by simp)
    have hst₁ : c₁.job.state = .error := by rw [hc₁]
    have hevent : event msgs fuel t c = event msgs fuel t c₁ := by
      have hopenfile : openfile msgs (c.begin t) = (none, c₁.begin t) := by
        unfold openfile Ctx.begin
        rw [hgone, hc₁]
      have hdelete : handle_delete msgs t (c.begin t) = (.ok, c₁.begin t) := by
        unfold handle_delete
        rw [if_neg (by simp [Ctx.begin, hst]), hopenfile]
      rw [event_of_delete hreq (by simp [hst]), hdelete, served_failed (by exact hst₁),
        event_of_read (by simp [hst₁]), serve_error (by exact hst₁)]
    have hrun : run msgs fuel (t :: turns) c₁ = .ok c' := by
      rw [run, if_neg (by simp [hc₁, hopen]), hid, id, ← hevent]
      rw [run, if_neg (by simp [hopen]), hid, id] at hr
      exact hr
    have hlen : 3 ≤ (ascii "ERROR\n" ++ msgs.err_no_such_file).length := by
      rw [List.length_append]
      exact (by decide : 3 ≤ (ascii "ERROR\n").length).trans (Nat.le_add_right _ _)
    have h : c'.conn.out
        = c₁.conn.out ++ (ascii "ERROR\n" ++ msgs.err_no_such_file).drop c₁.job.writesz :=
      run_failed (by rw [hc₁]) has hst₁ (by rw [hc₁]; exact hw.trans_le hlen)
        (by rw [hc₁]; exact hopen) hrun hclosed
    rw [h, hc₁]

end SystemProgramming.Networking
