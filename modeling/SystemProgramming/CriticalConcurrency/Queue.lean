import Mathlib.Algebra.Order.Group.Int
import SystemProgramming.Lib.Chain
import SystemProgramming.Lib.Monitor

namespace SystemProgramming.CriticalConcurrency

open SystemProgramming.Lib
open Monitor (Wakes Ending Status Action)

/-!
# `critical_concurrency/queue.c` — the bounded queue

A linked list under a mutex, with one condition variable for those who push and those who
pull.  `malloc` answers with the address of a node that is not in use.

* `queue_push`, `queue_pull` — the sections of the two calls: a thread that cannot go on
  waits, and runs the section again when it has the mutex.
* `Holds` — the list from the head on, with the tail and the size.
* `bounded_fifo` — in every run, what was pulled and what is in the list is what was pushed.
* `no_lost_wakeup` — in every run, who sleeps cannot go on.
-/

/-- An address. -/
abbrev Addr := ℕ

/-- `queue_node` -/
abbrev queue_node (D : Type) := Node Addr D

/-- `queue`, without its mutex and its condition variable, and the nodes in use. -/
structure queue (D : Type) where
  nodes : Addr → Option (queue_node D)
  head : Option Addr
  tail : Option Addr
  size : ℤ
  /-- not positive if the queue has no maximal size -/
  max_size : ℤ

/-- `queue_create` -/
def queue_create (D : Type) (max_size : ℤ) : queue D where
  nodes _ := none
  head := none
  tail := none
  size := 0
  max_size := max_size

/-- The calls. -/
inductive QueueCall (D : Type)
  | push (data : D)
  | pull
  deriving DecidableEq

variable {D : Type}

/-- The new node becomes the last one. -/
def link (newnode : Addr) (this : queue D) : Option (queue D) :=
  if this.size ≠ 0 then do
    let tail ← this.tail
    let last ← this.nodes tail
    some { this with
      nodes := Function.update this.nodes tail (some { last with next := some newnode })
      tail := some newnode }
  else some { this with tail := some newnode, head := some newnode }

/-- `queue_push`, from where it has the mutex; `newnode` is what `malloc` answers. -/
def queue_push (newnode : Addr) (data : D) (this : queue D) :
    Option (queue D × Wakes × Ending (QueueCall D) (Option D)) :=
  -- the maximal size is never changed, so that it may be asked for again after a wait
  if 0 < this.max_size ∧ this.size = this.max_size then
    some (this, .nobody, .wait (.push data))
  else do
    guard (this.nodes newnode).isNone
    let this := { this with nodes := Function.update this.nodes newnode (some ⟨data, none⟩) }
    let this ← link newnode this
    let this := { this with size := this.size + 1 }
    some (this, if this.size = 1 then .all else .nobody, .done none)

/-- `queue_pull`, from where it has the mutex. -/
def queue_pull (this : queue D) : Option (queue D × Wakes × Ending (QueueCall D) (Option D)) :=
  if this.size = 0 then some (this, .nobody, .wait .pull)
  else do
    let tmp ← this.head
    let node ← this.nodes tmp
    let this := { this with head := node.next }
    let this := if this.head = none then { this with tail := none } else this
    -- `free(tmp)`
    let this := { this with nodes := Function.update this.nodes tmp none }
    let this := { this with size := this.size - 1 }
    some (this, if 0 < this.max_size ∧ this.size = this.max_size - 1 then .all else .nobody,
      .done (some node.data))

variable (D) in
/-- The queue as a monitor. -/
def queue_monitor : Monitor (queue D) (QueueCall D) (QueueCall D) Addr (Option D) where
  start := id
  body newnode
    | .push data => queue_push newnode data
    | .pull => queue_pull

/-! ### How a section goes -/

variable {q q' : queue D} {node : Addr} {data : D} {w : Wakes}
  {e : Ending (QueueCall D) (Option D)} {xs : List (Addr × D)}

theorem triple_inj {α β γ : Type} {a a' : α} {b b' : β} {c c' : γ}
    (h : some (a, b, c) = some (a', b', c')) : a = a' ∧ b = b' ∧ c = c' := by
  simpa using h

/-- How a push goes: the queue is full; or the node is the first, or one behind the last. -/
inductive Pushes (q : queue D) (node : Addr) (data : D) :
    queue D → Wakes → Ending (QueueCall D) (Option D) → Prop
  | full (hmax : 0 < q.max_size) (hsize : q.size = q.max_size) :
      Pushes q node data q .nobody (.wait (.push data))
  | first (hroom : ¬ (0 < q.max_size ∧ q.size = q.max_size)) (hnode : q.nodes node = none)
      (hsize : q.size = 0) : Pushes q node data { q with
        nodes := Function.update q.nodes node (some ⟨data, none⟩)
        tail := some node
        head := some node
        size := q.size + 1 } .all (.done none)
  | later (tail : Addr) (last : queue_node D) (hroom : ¬ (0 < q.max_size ∧ q.size = q.max_size))
      (hnode : q.nodes node = none) (hsize : q.size ≠ 0) (htail : q.tail = some tail)
      (hlast : Function.update q.nodes node (some ⟨data, none⟩) tail = some last) :
      Pushes q node data { q with
        nodes := Function.update (Function.update q.nodes node (some ⟨data, none⟩)) tail
          (some ⟨last.data, some node⟩)
        tail := some node
        size := q.size + 1 } (if q.size + 1 = 1 then .all else .nobody) (.done none)

theorem push_cases (h : queue_push node data q = some (q', w, e)) : Pushes q node data q' w e := by
  unfold queue_push at h
  split at h
  · rename_i hfull
    obtain ⟨rfl, rfl, rfl⟩ := triple_inj h
    exact .full hfull.1 hfull.2
  · rename_i hroom
    obtain ⟨_, hguard, h⟩ := Option.bind_eq_some_iff.mp h
    have hnode : q.nodes node = none := by simpa [guard] using hguard
    obtain ⟨this, hthis, h⟩ := Option.bind_eq_some_iff.mp h
    unfold link at hthis
    dsimp only at hthis
    split at hthis
    · rename_i hsize
      obtain ⟨tail, htail, hthis⟩ := Option.bind_eq_some_iff.mp hthis
      obtain ⟨last, hlast, hthis⟩ := Option.bind_eq_some_iff.mp hthis
      obtain rfl := Option.some.inj hthis
      obtain ⟨rfl, rfl, rfl⟩ := triple_inj h
      exact .later tail last hroom hnode hsize htail hlast
    · rename_i hsize
      have hzero : q.size = 0 := not_not.mp hsize
      obtain rfl := Option.some.inj hthis
      obtain ⟨rfl, rfl, rfl⟩ := triple_inj h
      have hfirst : Pushes q node data _ _ _ := .first hroom hnode hzero
      rw [if_pos (by simp [hzero])]
      exact hfirst

/-- A push that does not wait. -/
theorem Pushes.done (h : Pushes q node data q' w e) (hroom : ¬ (0 < q.max_size ∧ q.size = q.max_size)) :
    e = .done none ∧ q'.max_size = q.max_size ∧ q'.size = q.size + 1 ∧
      w = if q.size = 0 then .all else .nobody := by
  cases h with
  | full hmax hsize => exact absurd ⟨hmax, hsize⟩ hroom
  | first _ _ hsize => exact ⟨rfl, rfl, rfl, (if_pos hsize).symm⟩
  | later _ _ _ _ hsize =>
    refine ⟨rfl, rfl, rfl, ?_⟩
    rw [if_neg hsize, if_neg (by omega)]

/-- How a pull goes: the queue is empty; or its head is taken. -/
inductive Pulls (q : queue D) : queue D → Wakes → Ending (QueueCall D) (Option D) → Prop
  | empty (hsize : q.size = 0) : Pulls q q .nobody (.wait .pull)
  | taken (tmp : Addr) (node : queue_node D) (hsize : q.size ≠ 0) (hhead : q.head = some tmp)
      (hnode : q.nodes tmp = some node) : Pulls q { q with
        nodes := Function.update q.nodes tmp none
        head := node.next
        tail := if node.next = none then none else q.tail
        size := q.size - 1 }
      (if 0 < q.max_size ∧ q.size - 1 = q.max_size - 1 then .all else .nobody)
      (.done (some node.data))

theorem pull_cases (h : queue_pull q = some (q', w, e)) : Pulls q q' w e := by
  unfold queue_pull at h
  split at h
  · rename_i hsize
    obtain ⟨rfl, rfl, rfl⟩ := triple_inj h
    exact .empty hsize
  · rename_i hsize
    obtain ⟨tmp, hhead, h⟩ := Option.bind_eq_some_iff.mp h
    obtain ⟨node, hnode, h⟩ := Option.bind_eq_some_iff.mp h
    have htaken := Pulls.taken tmp node hsize hhead hnode
    dsimp only at h
    by_cases hnext : node.next = none
    · rw [if_pos hnext] at h htaken
      obtain ⟨rfl, rfl, rfl⟩ := triple_inj h
      exact htaken
    · rw [if_neg hnext] at h htaken
      obtain ⟨rfl, rfl, rfl⟩ := triple_inj h
      exact htaken

/-! ### First in, first out -/

/-- The list from the head on is `xs`, and the queue knows its end and its length. -/
structure Holds (q : queue D) (xs : List (Addr × D)) : Prop where
  chain : Chain q.nodes q.head xs none
  nodup : (xs.map Prod.fst).Nodup
  tail : q.tail = (xs.map Prod.fst).getLast?
  size : q.size = xs.length

theorem holds_create (D : Type) (max_size : ℤ) : Holds (queue_create D max_size) [] :=
  ⟨rfl, List.nodup_nil, rfl, rfl⟩

/-- **A push** puts its value behind the others. -/
theorem Holds.push (hq : Holds q xs) (hp : Pushes q node data q' w (.done none)) :
    Holds q' (xs ++ [(node, data)]) := by
  -- the new node is none of the others
  have hnew : q.nodes node = none → node ∉ xs.map Prod.fst := by
    intro hnone hmem
    obtain ⟨x, hx, heq⟩ := List.mem_map.mp hmem
    exact hq.chain.ne_of_free hnone hx heq
  have hnodup : q.nodes node = none → ((xs ++ [(node, data)]).map Prod.fst).Nodup := by
    intro hnone
    rw [List.map_append]
    apply List.nodup_append.mpr
    refine ⟨hq.nodup, by simp, fun a ha b hb => ?_⟩
    obtain rfl : b = node := by simpa using hb
    rintro rfl
    exact hnew hnone ha
  have hsize : (q.size + 1 : ℤ) = ((xs ++ [(node, data)]).length : ℤ) := by
    rw [hq.size]
    simp
  cases hp with
  | first hroom hnode hzero =>
    obtain rfl : xs = [] := by
      apply List.eq_nil_of_length_eq_zero
      have hlen := hq.size
      omega
    refine ⟨⟨rfl, none, Function.update_self .., rfl⟩, hnodup hnode, rfl, hsize⟩
  | later tail last hroom hnode hne htail hlast =>
    -- the last node is the one of the tail
    obtain ⟨ys, ⟨t, v⟩, rfl⟩ : ∃ ys y, xs = ys ++ [y] := by
      apply (List.eq_nil_or_concat' xs).resolve_left
      rintro rfl
      exact hne hq.size
    have ht : t = tail := by
      have heq := hq.tail.symm.trans htail
      simpa using heq
    subst ht
    have htn : t ≠ node := by
      rintro rfl
      exact hnew hnode (by simp)
    obtain ⟨next, hold⟩ := hq.chain.node (a := t) (v := v) (by simp)
    rw [Function.update_of_ne htn, hold] at hlast
    obtain rfl := Option.some.inj hlast
    exact ⟨hq.chain.snoc hq.nodup hnode, hnodup hnode, by simp, hsize⟩

/-- **A pull** takes the value that was there first. -/
theorem Holds.pull {v : D} (hq : Holds q xs) (hp : Pulls q q' w (.done (some v))) :
    ∃ a ys, xs = (a, v) :: ys ∧ Holds q' ys := by
  cases hp with
  | taken tmp node hne hhead hnode =>
    cases xs with
    | nil => exact absurd hq.size hne
    | cons x ys =>
      obtain ⟨a, v⟩ := x
      obtain ⟨hhead', next, ha, hys⟩ := hq.chain
      obtain rfl := Option.some.inj (hhead.symm.trans hhead')
      obtain rfl := Option.some.inj (hnode.symm.trans ha)
      obtain ⟨hnot, hnodup⟩ := List.nodup_cons.mp hq.nodup
      refine ⟨tmp, ys, rfl, ?_, hnodup, ?_, ?_⟩
      · apply hys.congr
        intro x hx
        apply Function.update_of_ne
        intro heq
        have hmem : x.1 ∈ ys.map Prod.fst := List.mem_map_of_mem hx
        exact hnot (heq ▸ hmem)
      · have hnext : next = (ys.map Prod.fst).head? := hys.head
        have htail : q.tail = ((tmp :: ys.map Prod.fst).getLast? : Option Addr) := hq.tail
        dsimp only
        rw [htail, hnext]
        cases ys with
        | nil => rfl
        | cons y ys => rfl
      · have hsize : q.size = ((ys.length + 1 : ℕ) : ℤ) := hq.size
        dsimp only
        omega

/-- The values of the pushes that are completed, in the order of their sections. -/
def pushed (log : List (QueueCall D × Option D)) : List D :=
  log.filterMap (fun x => match x.1 with
    | .push data => some data
    | .pull => none)

/-- The values that the pulls have returned, in the order of their sections. -/
def pulled (log : List (QueueCall D × Option D)) : List D :=
  log.filterMap (fun x => match x.1 with
    | .push _ => none
    | .pull => x.2)

/-- The law of the queue. -/
def Fifo (max_size : ℤ) (q : queue D) (log : List (QueueCall D × Option D)) : Prop :=
  q.max_size = max_size ∧ (0 < max_size → q.size ≤ max_size) ∧
    ∃ xs, Holds q xs ∧ pulled log ++ xs.map Prod.snd = pushed log

/-- **A section keeps the law.** -/
theorem Fifo.body {max_size : ℤ} {log : List (QueueCall D × Option D)} {c : QueueCall D}
    (hf : Fifo max_size q log) (hb : (queue_monitor D).body node c q = some (q', w, e)) :
    Fifo max_size q' (log ++ e.logged c) := by
  obtain ⟨hmax, hle, xs, hq, hlaw⟩ := hf
  cases c with
  | push data =>
    have hp : Pushes q node data q' w e := push_cases hb
    by_cases hfull : 0 < q.max_size ∧ q.size = q.max_size
    · cases hp with
      | full => exact ⟨hmax, hle, xs, hq, by simpa [Ending.logged] using hlaw⟩
      | first hroom => exact absurd hfull hroom
      | later _ _ hroom => exact absurd hfull hroom
    · obtain ⟨rfl, hmax', hsize', -⟩ := hp.done hfull
      refine ⟨hmax'.trans hmax, fun hpos => ?_, _, hq.push hp, ?_⟩
      · have hroom := hle hpos
        rw [hsize']
        rw [hmax] at hfull
        omega
      · simp [pushed, pulled, Ending.logged, List.filterMap_append] at hlaw ⊢
        rw [← hlaw, List.append_assoc]
  | pull =>
    have hp : Pulls q q' w e := pull_cases hb
    cases hp with
    | empty => exact ⟨hmax, hle, xs, hq, by simpa [Ending.logged] using hlaw⟩
    | taken tmp last hne hhead hnode =>
      obtain ⟨a, ys, rfl, hys⟩ := hq.pull (.taken tmp last hne hhead hnode)
      refine ⟨hmax, fun hpos => ?_, ys, hys, ?_⟩
      · have hroom := hle hpos
        dsimp only
        omega
      · simpa [pushed, pulled, Ending.logged, List.filterMap_append] using hlaw

variable {I : Type} [DecidableEq I] [Fintype I] {max_size : ℤ}

variable (D I) in
/-- Threads that share a queue. -/
abbrev queue_lts (max_size : ℤ) :=
  (queue_monitor D).lts I (queue_create D max_size)

variable (D I) in
/-- The threads and their queue. -/
abbrev QueueState := Monitor.State I (queue D) (QueueCall D) (Option D)

/-- Anything may happen. -/
def Free (_ : QueueState D I) (_ : Action I (QueueCall D) Addr) : Prop := True

instance (s : QueueState D I) (a : Action I (QueueCall D) Addr) : Decidable (Free s a) :=
  .isTrue trivial

theorem fifo_of_reach {s : QueueState D I} (hr : (queue_lts D I max_size).Reach Free s) :
    Fifo max_size s.shared s.log := by
  apply Monitor.shared_invariant (P := Fifo max_size) _ _ hr
  · exact ⟨rfl, fun hpos => Int.le_of_lt hpos, [], holds_create D max_size, rfl⟩
  · exact fun _ _ _ _ _ _ _ hb hf => hf.body hb

/-- **The queue is a bounded queue.**  In every state that any threads reach, what was pulled,
    and then what is in the list from the head on, is what was pushed; the queue knows the
    length of the list and its last node; and a maximal size is not exceeded. -/
theorem bounded_fifo {s : QueueState D I} (hr : (queue_lts D I max_size).Reach Free s) :
    ∃ xs : List (Addr × D), Chain s.shared.nodes s.shared.head xs none ∧
      pulled s.log ++ xs.map Prod.snd = pushed s.log ∧ s.shared.size = xs.length ∧
      s.shared.tail = (xs.map Prod.fst).getLast? ∧
      (0 < max_size → 0 ≤ s.shared.size ∧ s.shared.size ≤ max_size) := by
  obtain ⟨-, hle, xs, hq, hlaw⟩ := fifo_of_reach hr
  refine ⟨xs, hq.chain, hlaw, hq.size, hq.tail, fun hpos => ⟨?_, hle hpos⟩⟩
  rw [hq.size]
  omega

/-- One pushes twice, and another, who was asleep, pulls once. -/
theorem bounded_fifo_some : ∃ (s : QueueState ℕ (Fin 2)) (xs : List (Addr × ℕ)),
    Chain s.shared.nodes s.shared.head xs none ∧ pulled s.log = [5] ∧ pushed s.log = [5, 6] ∧
      [5] ++ xs.map Prod.snd = [5, 6] := by
  have hrun : ((queue_lts ℕ (Fin 2) 2).run Free (Monitor.start₀ (queue_create ℕ 2)) [.call 1 .pull,
      .run 1 none 0, .call 0 (.push 5), .run 0 none 7, .call 0 (.push 6), .run 0 none 8,
      .run 1 none 0]).any (fun s => decide (pulled s.log = [5] ∧ pushed s.log = [5, 6])) = true := by
    decide +kernel
  obtain ⟨s, hs, hdone⟩ := (Option.any_eq_true _ _).mp hrun
  obtain ⟨hpulled, hpushed⟩ := of_decide_eq_true hdone
  have hr : (queue_lts ℕ (Fin 2) 2).Reach Free s := .of_run (.init rfl) hs
  obtain ⟨xs, hchain, hlaw, -⟩ := bounded_fifo hr
  refine ⟨s, xs, hchain, hpulled, hpushed, ?_⟩
  rw [← hpulled, hlaw, hpushed]

/-- The end of a list that is not empty is a node. -/
theorem Holds.last (hq : Holds q xs) (hsize : q.size ≠ 0) :
    ∃ t v next, q.tail = some t ∧ q.nodes t = some ⟨v, next⟩ := by
  obtain ⟨ys, ⟨t, v⟩, rfl⟩ : ∃ ys y, xs = ys ++ [y] := by
    apply (List.eq_nil_or_concat' xs).resolve_left
    rintro rfl
    exact hsize hq.size
  obtain ⟨next, hnode⟩ := hq.chain.node (a := t) (v := v) (by simp)
  exact ⟨t, v, next, by simp [hq.tail], hnode⟩

/-- No section goes through a null pointer, and so each of them ends. -/
theorem section_returns {s : QueueState D I} (hr : (queue_lts D I max_size).Reach Free s)
    (c : QueueCall D) (hnode : s.shared.nodes node = none) :
    ((queue_monitor D).body node c s.shared).isSome := by
  obtain ⟨-, -, xs, hq, -⟩ := fifo_of_reach hr
  cases c with
  | push data =>
    show (queue_push node data s.shared).isSome
    unfold queue_push link
    split
    · rfl
    · by_cases hsize : s.shared.size = 0
      · simp [hnode, hsize]
      · obtain ⟨t, v, next, htail, ht⟩ := hq.last hsize
        have htn : t ≠ node := by
          rintro rfl
          exact absurd (hnode.symm.trans ht) (by simp)
        simp [hnode, hsize, htail, Function.update_of_ne htn, ht]
  | pull =>
    show (queue_pull s.shared).isSome
    unfold queue_pull
    split
    · rfl
    · rename_i hsize
      cases xs with
      | nil => exact absurd hq.size hsize
      | cons x xs =>
        obtain ⟨hhead, next, hx, -⟩ := hq.chain
        simp [hhead, hx]

/-! ### No lost wakeup -/

/-- What keeps a call from going on. -/
def Blocked : QueueCall D → queue D → Prop
  | .push _, q => 0 < q.max_size ∧ q.size = q.max_size
  | .pull, q => q.size = 0

/-- A section that does not broadcast unblocks nobody. -/
theorem Blocked.keep {c c' : QueueCall D} (hb : (queue_monitor D).body node c q = some (q', w, e))
    (hall : w ≠ .all) (hblocked : Blocked c' q) : Blocked c' q' := by
  cases c with
  | push data =>
    have hp : Pushes q node data q' w e := push_cases hb
    by_cases hfull : 0 < q.max_size ∧ q.size = q.max_size
    · cases hp with
      | full => exact hblocked
      | first hroom => exact absurd hfull hroom
      | later _ _ hroom => exact absurd hfull hroom
    · obtain ⟨-, -, -, rfl⟩ := hp.done hfull
      cases c' with
      | push => exact absurd hblocked hfull
      | pull => exact absurd (if_pos hblocked) hall
  | pull =>
    have hp : Pulls q q' w e := pull_cases hb
    cases hp with
    | empty => exact hblocked
    | taken tmp last hne =>
      cases c' with
      | push =>
        obtain ⟨hpos, hfull⟩ := hblocked
        exact absurd (if_pos ⟨hpos, by rw [hfull]⟩) hall
      | pull => exact absurd hblocked hne

/-- **No wakeup is lost.**  In every state that any threads reach, a thread that sleeps, and was
    not notified since, is in a pull from an empty queue, or in a push to a full one. -/
theorem no_lost_wakeup {s : QueueState D I} {i : I}
    (hr : (queue_lts D I max_size).Reach Free s) :
    (s.status i = .asleep .pull → s.shared.size = 0) ∧
    ∀ data, s.status i = .asleep (.push data) → 0 < max_size ∧ s.shared.size = max_size := by
  have hblocked : ∀ i c, s.status i = .asleep c → Blocked c s.shared := by
    apply Monitor.asleep_blocked (B := Blocked) _ _ hr
    · intro node c q q' w c' hb
      cases c with
      | push data =>
        have hp : Pushes q node data q' w (.wait c') := push_cases hb
        cases hp with
        | full hmax hsize => exact ⟨hmax, hsize⟩
      | pull =>
        have hp : Pulls q q' w (.wait c') := pull_cases hb
        cases hp with
        | empty hsize => exact hsize
    · exact fun _ _ _ _ _ _ hb hall _ => Blocked.keep hb hall
  obtain ⟨hmax, -⟩ := fifo_of_reach hr
  refine ⟨hblocked i .pull, fun data hi => ?_⟩
  have hfull := hblocked i (.push data) hi
  exact hmax ▸ hfull

/-- One sleeps in a pull, and another in a push. -/
theorem no_lost_wakeup_some : ∃ s t : QueueState ℕ (Fin 2),
    s.status 1 = .asleep .pull ∧ s.shared.size = 0 ∧
    t.status 1 = .asleep (.push 6) ∧ t.shared.size = 1 := by
  have hrun : ((queue_lts ℕ (Fin 2) 1).run Free (Monitor.start₀ (queue_create ℕ 1)) [.call 1 .pull,
      .run 1 none 0]).any (fun s => decide (s.status 1 = .asleep .pull)) = true := by
    decide +kernel
  have hrun' : ((queue_lts ℕ (Fin 2) 1).run Free (Monitor.start₀ (queue_create ℕ 1)) [
      .call 0 (.push 5), .run 0 none 7, .call 1 (.push 6), .run 1 none 8]).any
      (fun s => decide (s.status 1 = .asleep (.push 6))) = true := by
    decide +kernel
  obtain ⟨s, hs, hdone⟩ := (Option.any_eq_true _ _).mp hrun
  obtain ⟨t, ht, hdone'⟩ := (Option.any_eq_true _ _).mp hrun'
  have hr : (queue_lts ℕ (Fin 2) 1).Reach Free s := .of_run (.init rfl) hs
  have hr' : (queue_lts ℕ (Fin 2) 1).Reach Free t := .of_run (.init rfl) ht
  have hi := of_decide_eq_true hdone
  have hi' := of_decide_eq_true hdone'
  exact ⟨s, t, hi, (no_lost_wakeup hr).1 hi, hi', ((no_lost_wakeup hr').2 6 hi').2⟩

end SystemProgramming.CriticalConcurrency
