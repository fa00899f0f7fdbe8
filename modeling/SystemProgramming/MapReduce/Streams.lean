import SystemProgramming.MapReduce.Descriptors

namespace SystemProgramming.MapReduce

open Lib

/-!
# What is in the pipes

What a splitter has to write is, all the time, what its mapper has processed, what the mapper holds,
what is in the pipe and what the splitter still holds; what the mappers have written is what the
reducer holds and what is in its pipe.

* `Stream` — a portion on its way to the reducer.
* `Streams` — the invariant, as long as the main process has not given up.
* `Streams.records` — what the mappers have written in the end.
* `reducer_input` — what the reducer makes of it.
-/

variable {n : ℕ}

namespace Child

/-- What a splitter has not written. -/
def todo (J : Job) (i : Fin n) : Child n → Bytes
  | unborn => J.portion i
  | setup _ _ => J.portion i
  | running (.splitter todo) _ => todo
  | _ => []

/-- What a mapper has read and not processed. -/
def buf : Child n → Bytes
  | running (.mapper buf _ _) _ => buf
  | _ => []

/-- What a mapper has not written. -/
def pending : Child n → Bytes
  | running (.mapper _ pending _) _ => pending
  | _ => []

/-- A mapper has nothing more to read. -/
def eof : Child n → Bool
  | running (.mapper _ _ eof) _ => eof
  | exited (.status k) => k = 0
  | _ => false

/-- What the reducer has read. -/
def input : Child n → Bytes
  | running (.reducer input) _ => input
  | _ => []

def ended : Child n → Bool
  | exited _ => true
  | _ => false

def failed : Child n → Bool
  | exited e => e.failed
  | _ => false

end Child

/-- What a mapper writes at once: what it prints for a line. -/
def Job.chunk (J : Job) (l : Bytes) : Bytes := (J.mapper.line l).flatten

/-- What a mapper writes for lines, without the lines that it prints nothing for. -/
def Job.chunks (J : Job) (ls : List Bytes) : List Bytes := (ls.map J.chunk).filter (· ≠ [])

/-- What is printed for a line is not divided. -/
def Job.Fits (J : Job) : Prop := ∀ l ∈ lines newline J.file, (J.chunk l).length ≤ PIPE_BUF

/-- What a mapper has written. -/
def State.written (s : State n) (i : Fin n) : List Bytes :=
  (s.log.filter (·.1 = .mapper i)).map Prod.snd

/-- **A portion on its way to the reducer.** -/
structure Stream (J : Job) (i : Fin n) (s : State n) : Prop where
  portion : lines newline (J.portion i) = s.got (.mapper i) ++ lines newline
    ((s.child (.mapper i)).buf ++ s.pipe (.fd_m i) ++ (s.child (.splitter i)).todo J i)
  eof : (s.child (.mapper i)).eof = true →
    s.pipe (.fd_m i) = [] ∧ (s.child (.splitter i)).todo J i = []
  chunks : s.written i ++ [(s.child (.mapper i)).pending].filter (· ≠ []) =
    J.chunks (s.got (.mapper i))

/-- **What the reducer has**, as long as it is there, and what it has printed in the end. -/
structure Reduced (J : Job) (s : State n) : Prop where
  input : (s.child .reducer).ended = false →
    (s.child .reducer).input ++ s.pipe .fd_r = (s.log.map Prod.snd).flatten ∧ s.file = J.old
  output : s.child .reducer = .exited (.status 0) → (∀ i, (s.child (.mapper i)).ended = true) ∧
    ∃ out, run_reducer_on reducer (s.log.map Prod.snd).flatten = some out ∧
      s.file = if J.opens then overwrite J.old out else J.old

/-- **The pipes**, as long as the main process has not given up. -/
structure Streams (J : Job) (s : State n) : Prop where
  stream : ∀ i, (s.child (.splitter i)).failed = false → Stream J i s
  log : ∀ x ∈ s.log, ∃ i, x.1 = .mapper i
  signal : ∀ c, s.child c ≠ .exited .signal
  reduced : Reduced J s

variable {J : Job} {s s' : State n} {ok : Bool} {c : Proc n} {i : Fin n} {x : Child n}

theorem Child.ended_iff : x.ended = true ↔ ∃ e, x = .exited e := by
  cases x <;> simp [ended]

theorem Job.chunks_append (J : Job) (ls : List Bytes) (l : Bytes) :
    J.chunks (ls ++ [l]) = J.chunks ls ++ [J.chunk l].filter (· ≠ []) := by
  simp [chunks]

/-! ### Who is there -/

/-- **A child that is there** finds all pipes open for reading. -/
theorem Described.readsR (hs : Described J s) (hw : Waited s) (hpc : s.pc ≠ .exit)
    (halive : (s.child c).alive = true) : s.pc.readsR = true := by
  have hborn : (s.child c).born = true := by
    revert halive
    cases s.child c <;> simp [Child.alive, Child.born]
  have hforked := (hs.born hpc c).mp hborn
  have hended : ∀ e, s.child c ≠ .exited e := by
    intro e he
    rw [he] at halive
    cases halive
  have hwaited : s.pc.waited n = n → s.pc.reaped = true → False := by
    intro hwaited hreaped
    cases c with
    | splitter j =>
      obtain ⟨e, he, -⟩ := hw.splitter j (hwaited.symm ▸ j.isLt)
      exact hended e he
    | mapper j =>
      obtain ⟨e, he, -⟩ := hw.mapper j (hwaited.symm ▸ j.isLt)
      exact hended e he
    | reducer =>
      obtain ⟨e, he, -⟩ := hw.reducer hreaped
      exact hended e he
  revert hforked hwaited hpc
  cases s.pc <;> cases c <;>
    simp [Pc.readsR, Pc.Forked, Pc.splitters, Pc.mappers, Pc.waits, Pc.waited, Pc.reaped]

/-- A splitter is forked before its mapper. -/
theorem forked_splitter {pc : Pc} (h : pc.Forked (.mapper i)) : pc.Forked (.splitter i) := by
  have hle : pc.mappers n ≤ pc.splitters n := by cases pc <;> simp [Pc.mappers, Pc.splitters]
  exact lt_of_lt_of_le h hle

/-- A child that was forked and has no descriptors has ended. -/
theorem ended_of_forked (hs : Described J s) (hpc : s.pc ≠ .exit) (hforked : s.pc.Forked c)
    (halive : (s.child c).alive ≠ true) : ∃ e, s.child c = .exited e := by
  have hborn := (hs.born hpc c).mpr hforked
  cases hc : s.child c with
  | exited e => exact ⟨e, rfl⟩
  | unborn =>
    rw [hc] at hborn
    cases hborn
  | _ =>
    rw [hc] at halive
    exact absurd rfl halive

/-- What stands for a child does, when another takes its place and no difference is seen. -/
theorem update_view {α : Type*} (f : Child n → α) (c' : Proc n)
    (h : c' = c → f x = f (s.child c)) : f (Function.update s.child c x c') = f (s.child c') := by
  by_cases hc : c' = c
  · rw [hc, Function.update_self]
    exact h hc
  · rw [Function.update_of_ne hc]

theorem Stream.intro {y z : Child n} (pipe : Bytes) (got written : List Bytes)
    (hsp : s.child (.splitter i) = y) (hmp : s.child (.mapper i) = z)
    (hpipe : s.pipe (.fd_m i) = pipe) (hgot : s.got (.mapper i) = got)
    (hwritten : s.written i = written)
    (hportion : lines newline (J.portion i) = got ++ lines newline (z.buf ++ pipe ++ y.todo J i))
    (heof : z.eof = true → pipe = [] ∧ y.todo J i = [])
    (hchunks : written ++ [z.pending].filter (· ≠ []) = J.chunks got) : Stream J i s := by
  subst hsp hmp hpipe hgot hwritten
  exact ⟨hportion, heof, hchunks⟩

/-- **A stream stays as it is** when nothing that belongs to it changes. -/
theorem Stream.frame (h : Stream J i s)
    (htodo : (s'.child (.splitter i)).todo J i = (s.child (.splitter i)).todo J i)
    (hbuf : (s'.child (.mapper i)).buf = (s.child (.mapper i)).buf)
    (hpending : (s'.child (.mapper i)).pending = (s.child (.mapper i)).pending)
    (heof : (s'.child (.mapper i)).eof = (s.child (.mapper i)).eof)
    (hpipe : s'.pipe (.fd_m i) = s.pipe (.fd_m i)) (hgot : s'.got (.mapper i) = s.got (.mapper i))
    (hwritten : s'.written i = s.written i) : Stream J i s' := by
  obtain ⟨hportion, heof', hchunks⟩ := h
  refine ⟨?_, ?_, ?_⟩
  · rw [hgot, hbuf, hpipe, htodo]
    exact hportion
  · rw [heof, hpipe, htodo]
    exact heof'
  · rw [hwritten, hpending, hgot]
    exact hchunks

/-! ### What a child changes -/

theorem fd_m_ne_fd_r : (.fd_m i : Pipe n) ≠ .fd_r := by simp

theorem written_append {l : Bytes} (h : s'.log = s.log ++ [(c, l)]) :
    s'.written i = s.written i ++ if c = .mapper i then [l] else [] := by
  rw [State.written, h, List.filter_append, List.map_append]
  split <;> simp [State.written, *]

/-- **A portion is changed** by its splitter and its mapper only. -/
theorem Moves.rest (h : Moves J s ok c s') (hsplitter : c ≠ .splitter i) (hmapper : c ≠ .mapper i) :
    s'.pipe (.fd_m i) = s.pipe (.fd_m i) ∧ s'.got (.mapper i) = s.got (.mapper i) ∧
      s'.written i = s.written i := by
  cases h with
  | splitter_write j =>
    refine ⟨State.setPipe_ne _ fun hij => hsplitter ?_, rfl, rfl⟩
    rw [Pipe.fd_m.inj hij]
  | mapper_write j buf pending eof fds k =>
    refine ⟨by simp [State.setPipe_ne _ fd_m_ne_fd_r], rfl, ?_⟩
    rw [written_append rfl, if_neg hmapper, List.append_nil]
    rfl
  | mapper_line j => exact ⟨rfl, Function.update_of_ne hmapper.symm _ _, rfl⟩
  | mapper_read j =>
    refine ⟨State.setPipe_ne _ fun hij => hmapper ?_, rfl, rfl⟩
    rw [Pipe.fd_m.inj hij]
  | reducer_read => exact ⟨State.setPipe_ne _ fd_m_ne_fd_r, rfl, rfl⟩
  | _ => exact ⟨rfl, rfl, rfl⟩

theorem Stream.other (h : Stream J i s) (hmoves : Moves J s ok c s') (hsplitter : c ≠ .splitter i)
    (hmapper : c ≠ .mapper i) : Stream J i s' := by
  have hsp := hmoves.ne hsplitter.symm
  have hmp := hmoves.ne hmapper.symm
  obtain ⟨hpipe, hgot, hwritten⟩ := hmoves.rest hsplitter hmapper
  exact h.frame (by rw [hsp]) (by rw [hmp]) (by rw [hmp]) (by rw [hmp]) hpipe hgot hwritten

/-- A step of the splitter. -/
theorem Stream.splitter (h : Stream J i s) (hread : ∀ p, s.Holds (.read p))
    (hmoves : Moves J s ok (.splitter i) s') (hfailed : (s'.child (.splitter i)).failed = false) :
    Stream J i s' := by
  have hmp : s'.child (.mapper i) = s.child (.mapper i) := hmoves.ne (by simp)
  -- a step that leaves the pipe and what is to write
  have hsame : ∀ {x y : Child n}, s'.child (.splitter i) = x → s.child (.splitter i) = y →
      x.todo J i = y.todo J i → s'.pipe (.fd_m i) = s.pipe (.fd_m i) →
      s'.got (.mapper i) = s.got (.mapper i) → s'.written i = s.written i → Stream J i s' := by
    rintro _ _ rfl rfl htodo
    exact h.frame htodo (by rw [hmp]) (by rw [hmp]) (by rw [hmp])
  have ⟨hportion, heof, hchunks⟩ := h
  cases hmoves with
  | close _ fd calls fds hc => exact hsame (State.set_self _) hc rfl rfl rfl rfl
  | dup2 _ oldfd newfd calls fds hc => exact hsame (State.set_self _) hc rfl rfl rfl rfl
  | execlp _ work calls fds hc hwork =>
    obtain ⟨-, hwork⟩ := Option.ite_none_right_eq_some.mp hwork
    obtain rfl := Option.some.inj hwork
    exact hsame (State.set_self _) hc rfl rfl rfl rfl
  | exec_failed _ calls fds hc =>
    rw [State.set_self] at hfailed
    cases hfailed
  | killed _ p halive hnone => exact absurd (hread p) hnone
  | splitter_end _ fds hc => exact hsame (State.set_self _) hc rfl rfl rfl rfl
  | splitter_write _ todo fds k hc hk =>
    rw [hc] at hportion heof
    refine .intro (s.pipe (.fd_m i) ++ todo.take k) (s.got (.mapper i)) (s.written i)
      (State.set_self _) hmp (State.setPipe_self _) rfl rfl ?_ (fun he => ?_) hchunks
    · rw [hportion]
      simp [Child.todo]
    · have htodo : todo = [] := (heof he).2
      rw [htodo] at hk
      exact absurd (hk.1.trans_le hk.2) (lt_irrefl 0)

theorem getline_some {buf l : Bytes} {eof : Bool} (h : getline buf eof = some l) :
    (∃ ls, lines newline buf = l :: ls) ∧ buf = l ++ buf.drop l.length ∧
      (l.getLast? = some newline ∨ eof = true) := by
  rw [getline] at h
  split at h
  · cases h
  · rename_i l₀ ls hls
    obtain ⟨hend, h⟩ := Option.ite_none_right_eq_some.mp h
    obtain rfl := Option.some.inj h
    have hflatten : (lines newline buf).flatten = buf := flatten_lines buf
    rw [hls, List.flatten_cons] at hflatten
    exact ⟨⟨ls, hls⟩, by rw [← hflatten, List.drop_left], hend⟩

/-- The first line of what has been read is that of what there is. -/
theorem getline_lines {buf l rest : Bytes} {eof : Bool} (hl : getline buf eof = some l)
    (heof : eof = true → rest = []) :
    lines newline (buf ++ rest) = l :: lines newline (buf.drop l.length ++ rest) := by
  obtain ⟨⟨ls, hls⟩, hbuf, hend⟩ := getline_some hl
  obtain hend | hend := hend
  · have hmem : l ∈ lines newline buf := hls ▸ List.mem_cons_self
    obtain hnone | ⟨l, rfl, hnl⟩ := line_cases hmem
    · exact absurd (List.mem_of_getLast? hend) hnone
    · conv_lhs => rw [hbuf, List.append_assoc, List.append_assoc, List.singleton_append]
      rw [Lib.lines_append, lines_line hnl, List.singleton_append]
  · rw [heof hend, List.append_nil, List.append_nil, hls, lines_tail hls]

theorem getline_none {buf : Bytes} (h : getline buf true = none) : buf = [] := by
  rw [getline] at h
  split at h
  · rename_i hlines
    rw [← flatten_lines buf, hlines]
    rfl
  · simp at h

/-- What a mapper writes at once is what it has printed for a line. -/
theorem Stream.pending_le (h : Stream J i s) (hfits : J.Fits)
    (hlines : ∀ l ∈ lines newline (J.portion i), l ∈ lines newline J.file) :
    (s.child (.mapper i)).pending.length ≤ PIPE_BUF := by
  by_cases hpending : (s.child (.mapper i)).pending = []
  · rw [hpending]
    exact Nat.zero_le _
  · have hmem : (s.child (.mapper i)).pending ∈ J.chunks (s.got (.mapper i)) := by
      rw [← h.chunks]
      exact List.mem_append_right _ (by simpa using hpending)
    obtain ⟨l, hl, heq⟩ := List.mem_map.mp (List.mem_filter.mp hmem).1
    rw [← heq]
    exact hfits l (hlines l (h.portion.symm ▸ List.mem_append_left _ hl))

/-- A step of the mapper. -/
theorem Stream.mapper (h : Stream J i s) (hs : Described J s) (hpc : s.pc ≠ .exit)
    (hfits : J.Fits) (hlines : ∀ l ∈ lines newline (J.portion i), l ∈ lines newline J.file)
    (hread : ∀ p, s.Holds (.read p)) (hmoves : Moves J s ok (.mapper i) s') : Stream J i s' := by
  have hsp : s'.child (.splitter i) = s.child (.splitter i) := hmoves.ne (by simp)
  -- a step that leaves the pipe and what the mapper holds
  have hsame : ∀ {x y : Child n}, s'.child (.mapper i) = x → s.child (.mapper i) = y →
      x.buf = y.buf → x.pending = y.pending → x.eof = y.eof →
      s'.pipe (.fd_m i) = s.pipe (.fd_m i) → s'.got (.mapper i) = s.got (.mapper i) →
      s'.written i = s.written i → Stream J i s' := by
    rintro _ _ rfl rfl
    exact h.frame (by rw [hsp])
  have ⟨hportion, heof, hchunks⟩ := h
  cases hmoves with
  | close _ fd calls fds hc => exact hsame (State.set_self _) hc rfl rfl rfl rfl rfl rfl
  | dup2 _ oldfd newfd calls fds hc => exact hsame (State.set_self _) hc rfl rfl rfl rfl rfl rfl
  | execlp _ work calls fds hc hwork =>
    obtain rfl := Option.some.inj hwork
    exact hsame (State.set_self _) hc rfl rfl rfl rfl rfl rfl
  | exec_failed _ calls fds hc => exact hsame (State.set_self _) hc rfl rfl rfl rfl rfl rfl
  | killed _ p halive hnone => exact absurd (hread p) hnone
  | mapper_write _ buf pending eof fds k hc hpending hk =>
    rw [hc] at hportion heof hchunks
    have hlength := h.pending_le hfits hlines
    rw [hc, Child.pending] at hlength
    obtain rfl : k = pending.length := by
      rw [Transfers, if_pos hlength] at hk
      exact hk
    refine .intro (s.pipe (.fd_m i)) (s.got (.mapper i)) (s.written i ++ [pending]) hsp
      (State.set_self _) (by simp [State.setPipe_ne _ fd_m_ne_fd_r]) rfl ?_ hportion heof ?_
    · rw [written_append (s := s) rfl]
      simp
    · rw [← hchunks]
      simp [Child.pending, hpending]
  | mapper_line _ buf l eof fds hc hl =>
    rw [hc] at hportion heof hchunks
    refine .intro (s.pipe (.fd_m i)) (s.got (.mapper i) ++ [l]) (s.written i) hsp
      (State.set_self _) rfl (Function.update_self _ _ _) rfl ?_ heof ?_
    · have hrest : eof = true → s.pipe (.fd_m i) ++ (s.child (.splitter i)).todo J i = [] := by
        intro he
        rw [(heof he).1, (heof he).2, List.append_nil]
      rw [hportion, List.append_assoc (Child.buf _), Child.buf, getline_lines hl hrest]
      simp [Child.buf]
    · rw [Job.chunks_append, ← hchunks]
      simp [Child.pending, Job.chunk]
  | mapper_end _ buf fds hc hl =>
    rw [hc] at hportion heof hchunks
    refine .intro _ _ _ hsp (State.set_self _) rfl rfl rfl ?_ (fun _ => heof rfl) hchunks
    obtain rfl : buf = [] := getline_none hl
    exact hportion
  | mapper_eof _ buf fds hc hl hempty hwrite =>
    rw [hc] at hportion hchunks
    refine .intro _ _ _ hsp (State.set_self _) rfl rfl rfl hportion (fun _ => ⟨hempty, ?_⟩) hchunks
    -- nobody can write to the pipe, and so its splitter has ended
    have hborn : (s.child (.mapper i)).born = true := by rw [hc]; rfl
    have hforked := forked_splitter ((hs.born hpc _).mp hborn)
    obtain ⟨e, he⟩ := ended_of_forked hs hpc hforked fun halive =>
      hwrite (hs.holds halive (table_splitter J i))
    rw [he]
    rfl
  | mapper_read _ buf fds k hc hl hk =>
    rw [hc] at hportion hchunks
    refine .intro _ _ _ hsp (State.set_self _) (State.setPipe_self _) rfl rfl ?_ nofun hchunks
    rw [hportion]
    simp [Child.buf]

/-- What the reducer has read and what is in its pipe, when another child makes a step. -/
theorem Moves.reducer_pipe (h : Moves J s ok c s') (hc : c ≠ .reducer) : s'.file = s.file ∧
    ((s'.pipe .fd_r = s.pipe .fd_r ∧ s'.log = s.log) ∨ ∃ i bytes, c = .mapper i ∧
      s'.pipe .fd_r = s.pipe .fd_r ++ bytes ∧ s'.log = s.log ++ [(.mapper i, bytes)]) := by
  cases h with
  | splitter_write i => exact ⟨rfl, .inl ⟨State.setPipe_ne _ fd_m_ne_fd_r.symm, rfl⟩⟩
  | mapper_write i buf pending eof fds k =>
    exact ⟨rfl, .inr ⟨i, pending.take k, rfl, by simp [State.setPipe_self], rfl⟩⟩
  | mapper_read i => exact ⟨rfl, .inl ⟨State.setPipe_ne _ fd_m_ne_fd_r.symm, rfl⟩⟩
  | reducer_end => exact absurd rfl hc
  | reducer_read => exact absurd rfl hc
  | _ => exact ⟨rfl, .inl ⟨rfl, rfl⟩⟩

/-- A step of the reducer. -/
theorem Reduced.reducer (h : Reduced J s) (hs : Described J s) (hpc : s.pc ≠ .exit)
    (hread : ∀ p, s.Holds (.read p)) (hmoves : Moves J s ok .reducer s') : Reduced J s' := by
  have ⟨hinput, houtput⟩ := h
  -- before it reads
  have hsame : ∀ {x y : Child n}, s'.child .reducer = x → s.child .reducer = y →
      y.ended = false → x.input = y.input → x ≠ .exited (.status 0) → s'.file = s.file →
      s'.pipe .fd_r = s.pipe .fd_r → s'.log = s.log → Reduced J s' := by
    rintro _ _ rfl rfl hended hin hne hfile hpipe hlog
    obtain ⟨hin', hfile'⟩ := hinput hended
    refine ⟨fun _ => ⟨?_, hfile.trans hfile'⟩, fun heq => absurd heq hne⟩
    rw [hin, hpipe, hin', hlog]
  cases hmoves with
  | close _ fd calls fds hc => exact hsame (State.set_self _) hc rfl rfl nofun rfl rfl rfl
  | dup2 _ oldfd newfd calls fds hc =>
    exact hsame (State.set_self _) hc rfl rfl nofun rfl rfl rfl
  | execlp _ work calls fds hc hwork =>
    obtain rfl := Option.some.inj hwork
    exact hsame (State.set_self _) hc rfl rfl nofun rfl rfl rfl
  | exec_failed _ calls fds hc =>
    exact hsame (State.set_self _) hc rfl rfl (by simp) rfl rfl rfl
  | killed _ p halive hnone => exact absurd (hread p) hnone
  | reducer_end input out fds hc hempty hwrite hout =>
    rw [hc] at hinput
    obtain ⟨hin, hfile⟩ := hinput rfl
    rw [hempty, List.append_nil] at hin
    refine ⟨fun hended => ?_, fun _ => ⟨fun i => ?_, out, ?_, ?_⟩⟩
    · rw [State.setFile_child, State.set_self] at hended
      cases hended
    · have hborn : (s.child .reducer).born = true := by rw [hc]; rfl
      have hwaits : s.pc.waits = true := (hs.born hpc _).mp hborn
      have hforked : s.pc.Forked (.mapper i) := by
        revert hwaits
        cases s.pc <;> simp [Pc.Forked, Pc.waits, Pc.mappers]
      obtain ⟨e, he⟩ := ended_of_forked hs hpc hforked fun halive =>
        hwrite (hs.holds halive (table_mapper J i).2)
      rw [State.setFile_child, State.set_ne _ (by simp), he]
      rfl
    · rw [State.setFile_log, State.set_log, ← hin]
      exact hout
    · rw [← hfile]
      rfl
  | reducer_read input fds k hc hk =>
    rw [hc] at hinput
    obtain ⟨hin, hfile⟩ := hinput rfl
    refine ⟨fun _ => ⟨?_, hfile⟩, fun heq => ?_⟩
    · rw [State.setPipe_self, State.setPipe_child, State.set_self, State.setPipe_log,
        State.set_log, ← hin]
      simp [Child.input]
    · rw [State.setPipe_child, State.set_self] at heq
      cases heq

/-- A step of another child. -/
theorem Reduced.other (h : Reduced J s) (hmoves : Moves J s ok c s') (hc : c ≠ .reducer) :
    Reduced J s' := by
  have hchild := hmoves.ne hc.symm
  obtain ⟨hfile, hpipe⟩ := hmoves.reducer_pipe hc
  refine ⟨fun hended => ?_, fun heq => ?_⟩
  · rw [hchild] at hended ⊢
    obtain ⟨hin, hold⟩ := h.input hended
    refine ⟨?_, hfile.trans hold⟩
    obtain ⟨hpipe, hlog⟩ | ⟨i, bytes, -, hpipe, hlog⟩ := hpipe
    · rw [hpipe, hlog, hin]
    · rw [hpipe, hlog, ← List.append_assoc, hin]
      simp
  · rw [hchild] at heq
    obtain ⟨hended, hout⟩ := h.output heq
    -- a mapper that has ended writes nothing
    have hlog : s'.log = s.log := by
      obtain ⟨-, hlog⟩ | ⟨i, bytes, rfl, -⟩ := hpipe
      · exact hlog
      · have halive := hmoves.frame.1
        obtain ⟨e, he⟩ := Child.ended_iff.mp (hended i)
        rw [he] at halive
        cases halive
    refine ⟨fun i => ?_, ?_⟩
    · obtain ⟨e, he⟩ := Child.ended_iff.mp (hended i)
      rw [hmoves.exited he]
      rfl
    · rw [hlog, hfile]
      exact hout

theorem Streams.moves (h : Streams J s) (hs : Described J s) (hw : Waited s)
    (hpc : s.pc ≠ .exit) (hfits : J.Fits)
    (hlines : ∀ i : Fin n, ∀ l ∈ lines newline (J.portion i), l ∈ lines newline J.file)
    (hmoves : Moves J s ok c s') : Streams J s' := by
  have hread := hs.holds_read (hs.readsR hw hpc hmoves.frame.1)
  refine ⟨fun i hfailed => ?_, ?_, fun c' heq => ?_, ?_⟩
  · have hstream : Stream J i s := h.stream i <| by
      cases hc : s.child (.splitter i) with
      | exited e =>
        rw [hmoves.exited hc] at hfailed
        exact hfailed
      | _ => rfl
    by_cases hsplitter : c = .splitter i
    · subst hsplitter
      exact hstream.splitter hread hmoves hfailed
    · by_cases hmapper : c = .mapper i
      · subst hmapper
        exact hstream.mapper hs hpc hfits (hlines i) hread hmoves
      · exact hstream.other hmoves hsplitter hmapper
  · cases hmoves with
    | mapper_write i buf pending eof fds k =>
      intro x hx
      obtain hx | hx := List.mem_append.mp hx
      · exact h.log x hx
      · rw [List.mem_singleton.mp hx]
        exact ⟨i, rfl⟩
    | _ => exact h.log
  · by_cases hc : c' = c
    · subst hc
      cases hmoves with
      | killed _ p halive hnone => exact hnone (hread p)
      | _ => simp [State.set_self] at heq
    · rw [hmoves.ne hc] at heq
      exact h.signal c' heq
  · by_cases hc : c = .reducer
    · subst hc
      exact h.reduced.reducer hs hpc hread hmoves
    · exact h.reduced.other hmoves hc

/-- The main process starts children, and touches nothing else. -/
theorem Described.main_rest (hs : Described J s) (h : MainSteps J s ok s') : s'.pipe = s.pipe ∧
    s'.file = s.file ∧ s'.got = s.got ∧ s'.log = s.log ∧ (s'.child = s.child ∨
      ∃ c : Proc n, s.child c = .unborn ∧
        s'.child = Function.update s.child c (.setup c.calls s.fds)) := by
  cases h with
  | fork c next hforks =>
    refine ⟨rfl, rfl, rfl, rfl, .inr ⟨c, ?_, rfl⟩⟩
    have hexit := (forks_ne hforks).1
    cases hc : s.child c with
    | unborn => rfl
    | _ => exact absurd ((hs.born hexit c).mp (by rw [hc]; rfl)) (forks_not_forked hforks)
  | _ => exact ⟨rfl, rfl, rfl, rfl, .inl rfl⟩

theorem Described.main_exited (hs : Described J s) (h : MainSteps J s ok s') {e : Exit}
    (he : s'.child c = .exited e) : s.child c = .exited e := by
  obtain ⟨-, -, -, -, hchild | ⟨c₀, -, hchild⟩⟩ := hs.main_rest h
  · rwa [hchild] at he
  · by_cases hc : c = c₀
    · rw [hchild, hc, Function.update_self] at he
      cases he
    · rwa [hchild, Function.update_of_ne hc] at he

/-- A child that was forked differs in nothing that counts. -/
theorem Streams.main (h : Streams J s) (hs : Described J s) (hmain : MainSteps J s ok s') :
    Streams J s' := by
  obtain ⟨hpipe, hfile, hgot, hlog, hchild⟩ := hs.main_rest hmain
  have hview : ∀ {α : Type} (f : Child n → α),
      (∀ calls fds, f (.setup calls fds) = f .unborn) → ∀ c, f (s'.child c) = f (s.child c) := by
    intro α f hf c
    obtain hchild | ⟨c₀, hc₀, hchild⟩ := hchild
    · rw [hchild]
    · rw [hchild]
      refine update_view f c fun _ => ?_
      rw [hc₀]
      exact hf _ _
  have hwritten : ∀ i, s'.written i = s.written i := by
    intro i
    rw [State.written, hlog]
    rfl
  have hended : ∀ c, (s'.child c).ended = (s.child c).ended :=
    hview Child.ended fun _ _ => rfl
  have hexited : ∀ {c : Proc n} {e : Exit}, s'.child c = .exited e → s.child c = .exited e :=
    hs.main_exited hmain
  refine ⟨fun i hfailed => ?_, by rw [hlog]; exact h.log, fun c he => h.signal c (hexited he), ?_⟩
  · rw [hview Child.failed fun _ _ => rfl] at hfailed
    exact (h.stream i hfailed).frame (hview (Child.todo J i) (fun _ _ => rfl) _)
      (hview Child.buf (fun _ _ => rfl) _) (hview Child.pending (fun _ _ => rfl) _)
      (hview Child.eof (fun _ _ => rfl) _) (by rw [hpipe]) (by rw [hgot]) (hwritten i)
  · refine ⟨fun he => ?_, fun he => ?_⟩
    · rw [hended] at he
      rw [hview Child.input fun _ _ => rfl, hpipe, hlog, hfile]
      exact h.reduced.input he
    · obtain ⟨hall, hout⟩ := h.reduced.output (hexited he)
      refine ⟨fun i => (hended _).trans (hall i), ?_⟩
      rw [hlog, hfile]
      exact hout

theorem streams_initial (n : ℕ) (J : Job) : Streams J (initial n J) := by
  refine ⟨fun i _ => ⟨?_, nofun, ?_⟩, nofun, nofun, ⟨fun _ => ⟨rfl, rfl⟩, nofun⟩⟩
  · rfl
  · rfl

/-! ### In the end -/

/-- **What a job must be like**: the text has no NUL, the sizes and the counts do not overflow, and
    what is printed for a line is not divided. -/
structure Job.Regular (J : Job) (n : ℕ) : Prop where
  pos : 0 < n
  size : J.file.length * n < 2 ^ 64
  nul : 0 ∉ J.file
  counts : ∀ key, (J.mapper.keys J.file).count key < 2 ^ 31
  fits : J.Fits

/-- What the job is about: how often each key is there. -/
def Job.result (J : Job) : Bytes := (key_counts (J.mapper.keys J.file)).flatMap count_line

theorem Job.lines_portions (J : Job) (hJ : J.Regular n) :
    ((List.finRange n).flatMap fun i => lines newline (J.portion i)) = lines newline J.file := by
  rw [← MapReduce.lines_portions hJ.pos hJ.size, List.flatMap_def]
  congr 1
  rw [← List.map_coe_finRange_eq_range, List.map_map]
  rfl

theorem Job.Regular.mem_lines (hJ : J.Regular n) (i : Fin n) {l : Bytes}
    (hl : l ∈ lines newline (J.portion i)) : l ∈ lines newline J.file := by
  rw [← J.lines_portions hJ]
  exact List.mem_flatMap.mpr ⟨i, List.mem_finRange i, hl⟩

/-- A mapper that has ended has written what it prints for its portion. -/
theorem Stream.written_eq (h : Stream J i s) (hmp : s.child (.mapper i) = .exited (.status 0)) :
    s.written i = J.chunks (lines newline (J.portion i)) := by
  obtain ⟨hportion, heof, hchunks⟩ := h
  rw [hmp] at hportion heof hchunks
  obtain ⟨hpipe, htodo⟩ := heof rfl
  have hgot : s.got (.mapper i) = lines newline (J.portion i) := by
    rw [hportion, hpipe, htodo]
    simp [Child.buf]
  rw [← hgot, ← hchunks]
  simp [Child.pending]

/-- **What the mappers have written** when all have ended, in some order. -/
theorem Streams.log_perm (h : Streams J s) (hJ : J.Regular n)
    (hsp : ∀ i, (s.child (.splitter i)).failed = false)
    (hmp : ∀ i, s.child (.mapper i) = .exited (.status 0)) :
    (s.log.map Prod.snd).Perm (J.chunks (lines newline J.file)) := by
  have hnodup : ((List.finRange n).map Proc.mapper).Nodup :=
    (List.nodup_finRange n).map fun i j hij => by simpa using hij
  have hmem : ∀ x ∈ s.log, x.1 ∈ (List.finRange n).map Proc.mapper := by
    intro x hx
    obtain ⟨i, hi⟩ := h.log x hx
    exact List.mem_map.mpr ⟨i, List.mem_finRange i, hi.symm⟩
  refine ((flatMap_filter_perm hnodup hmem).map Prod.snd).symm.trans (List.Perm.of_eq ?_)
  rw [List.map_flatMap, List.flatMap_map]
  calc (List.finRange n).flatMap s.written
      = (List.finRange n).flatMap fun i => J.chunks (lines newline (J.portion i)) :=
        List.flatMap_congr fun i _ => (h.stream i (hsp i)).written_eq (hmp i)
    _ = J.chunks (lines newline J.file) := by
        rw [← J.lines_portions hJ, Job.chunks, List.map_flatMap, List.filter_flatMap]
        rfl

/-- What the mappers print, in whatever order, are records of the keys of the file. -/
theorem Job.chunks_records (hJ : J.Regular n) {out : List Bytes}
    (hperm : out.Perm (J.chunks (lines newline J.file))) :
    ∃ ws : List Bytes, ws.Perm (J.mapper.keys J.file) ∧ out.flatten = (ws.map record).flatten := by
  rw [Job.chunks, List.filter_map] at hperm
  obtain ⟨ls, hls, rfl⟩ := exists_map_of_perm hperm
  -- the lines that nothing is printed for
  let rest := (lines newline J.file).filter fun l => !decide (J.chunk l ≠ [])
  have hall : (ls ++ rest).Perm (lines newline J.file) :=
    (hls.append_right rest).trans (List.filter_append_perm _ _)
  have hrecords : ((ls ++ rest).flatMap J.mapper.line).Perm
      ((J.mapper.keys J.file).map record) := by
    rw [← J.mapper.run_mapper_records hJ.nul]
    exact hall.flatMap_right _
  obtain ⟨ws, hws, heq⟩ := exists_map_of_perm hrecords
  refine ⟨ws, hws, ?_⟩
  have hrest : (rest.map J.chunk).flatten = [] := by
    rw [List.flatten_eq_nil_iff]
    intro chunk hchunk
    obtain ⟨l, hl, rfl⟩ := List.mem_map.mp hchunk
    simpa using (List.mem_filter.mp hl).2
  have hchunks : ∀ ls : List Bytes,
      (ls.flatMap J.mapper.line).flatten = (ls.map J.chunk).flatten := by
    intro ls
    rw [List.flatMap_def, List.flatten_flatten, List.map_map]
    rfl
  rw [← heq, hchunks, List.map_append, List.flatten_append, hrest, List.append_nil]

/-- **The reducer's input** when all mappers have ended is enough for the result. -/
theorem Streams.reduce (h : Streams J s) (hJ : J.Regular n)
    (hsp : ∀ i, (s.child (.splitter i)).failed = false)
    (hmp : ∀ i, s.child (.mapper i) = .exited (.status 0)) :
    run_reducer_on reducer (s.log.map Prod.snd).flatten = some J.result := by
  obtain ⟨ws, hws, heq⟩ := J.chunks_records hJ (h.log_perm hJ hsp hmp)
  rw [heq]
  exact J.mapper.reduce_records hws hJ.nul hJ.counts

end SystemProgramming.MapReduce
