import Mathlib.Data.Fintype.Card
import Mathlib.Order.Interval.Finset.Nat
import SystemProgramming.Chatroom.Server

namespace SystemProgramming.Chatroom

open Lib

/-!
# The slots of the chat server

`clientsCount` and the slots are changed under the mutex, except that the acceptor reads the count
before it takes the mutex.  Only the acceptor raises the count, so that there still is a free slot
when it has the mutex.

* `Inv` — who holds the mutex and which slot; the count.
* `Inv.goto`, `Inv.clear`, `Inv.decrement`, `Inv.accepts` — what the steps keep.
* `slots_consistent` — the bookkeeping in every state of every run.
-/

/-! ### Where the threads are -/

/-- Between the lock and the unlock. -/
def Acceptor.locked : Acceptor → Bool
  | .storing _ => true
  | .counting _ => true
  | .unlocking _ => true
  | _ => false

/-- The slot that was taken for a thread that is not there yet. -/
def Acceptor.stored : Acceptor → Option (Option (Fin MAX_CLIENTS))
  | .counting p => some p
  | .unlocking p => some p
  | .creating p => some p
  | _ => none

/-- The slot is taken, and not counted. -/
def Acceptor.uncounted : Acceptor → Bool
  | .counting _ => true
  | _ => false

/-- The thread is counted, and not there yet. -/
def Acceptor.pending : Acceptor → Bool
  | .unlocking _ => true
  | .creating _ => true
  | _ => false

/-- It goes for a slot. -/
def Acceptor.searching : Acceptor → Bool
  | .locking _ => true
  | .storing _ => true
  | _ => false

/-- Between a lock and the unlock. -/
def Pc.locked : Pc → Bool
  | .sending _ _ _ => true
  | .clearing => true
  | .decrementing => true
  | .unlocking => true
  | _ => false

/-- The thread has not yet cleared its slot. -/
def Pc.holds : Pc → Bool
  | .decrementing => false
  | .unlocking => false
  | .done => false
  | _ => true

/-- The thread has cleared its slot, and is still counted. -/
def Pc.uncleared : Pc → Bool
  | .decrementing => true
  | _ => false

/-- The thread is counted. -/
def Pc.counted : Pc → Bool
  | .unlocking => false
  | .done => false
  | _ => true

theorem Pc.counted_eq (pc : Pc) : pc.counted = (pc.holds || pc.uncleared) := by
  cases pc <;> rfl

/-! ### What is counted -/

def State.occupied (s : State) : ℕ := (Finset.univ.filter fun i => (s.clients i).isSome).card

/-- The connection is being served: its thread was started and is counted. -/
def State.serving (s : State) (c : ℕ) : Bool := (s.threads c).any fun t => t.pc.counted

/-- How many are being served. -/
def State.served (s : State) : ℕ := ((Finset.range s.next).filter fun c => s.serving c).card

/-- The thread that has the mutex has cleared its slot, and is still counted. -/
def State.uncleared (s : State) : Bool :=
  match s.mutex with
  | some (.client c) => (s.threads c).any fun t => t.pc.uncleared
  | _ => false

structure Inv (s : State) : Prop where
  acceptor : s.mutex = some .acceptor ↔ s.acceptor.locked
  client : ∀ c, s.mutex = some (.client c) ↔ ∃ t, s.threads c = some t ∧ t.pc.locked
  fresh : ∀ c, s.next ≤ c → s.threads c = none
  owned : ∀ i, s.owner i = none ↔ s.clients i = none
  thread : ∀ c t, s.threads c = some t →
    ∃ i, t.clientId = some i ∧ (t.pc.holds → s.owner i = some c)
  stored : ∀ p, s.acceptor.stored = some p → ∃ i, p = some i ∧ s.owner i = some s.next
  owner : ∀ i c, s.owner i = some c → c = s.next ∧ s.acceptor.stored = some (some i) ∨
    ∃ pc, s.threads c = some ⟨some i, pc⟩ ∧ pc.holds
  room : s.acceptor.searching → s.occupied < MAX_CLIENTS
  count : s.clientsCount + (if s.acceptor.uncounted then 1 else 0) =
    s.occupied + (if s.uncleared then 1 else 0)
  served : s.clientsCount = s.served + (if s.acceptor.pending then 1 else 0)

variable {s s' : State} {e : Event} {c : ℕ} {i : Fin MAX_CLIENTS} {pc pc' : Pc} {fd : ℕ}
  {m : Option Owner}

theorem inv_initial : Inv initial where
  acceptor := by simp [initial, Acceptor.locked]
  client c := by simp [initial]
  fresh _ _ := rfl
  owned _ := Iff.rfl
  thread _ _ h := by cases h
  stored _ h := by cases h
  owner _ _ h := by cases h
  room h := by cases h
  count := rfl
  served := rfl

/-- The bookkeeping is about the slots, the count, the mutex and where the threads are. -/
theorem Inv.congr (h : Inv s) (hclients : s'.clients = s.clients)
    (hcount : s'.clientsCount = s.clientsCount) (hmutex : s'.mutex = s.mutex)
    (hacceptor : s'.acceptor = s.acceptor) (hthreads : s'.threads = s.threads)
    (hnext : s'.next = s.next) (howner : s'.owner = s.owner) : Inv s' := by
  cases s
  cases s'
  subst hclients hcount hmutex hacceptor hthreads hnext howner
  exact ⟨h.acceptor, h.client, h.fresh, h.owned, h.thread, h.stored, h.owner, h.room, h.count,
    h.served⟩

/-- A slot is taken. -/
theorem occupied_store (hi : s.clients i = none) (fd : ℕ) :
    (s.store (some i) fd).occupied = s.occupied + 1 := by
  have hset : (Finset.univ.filter fun j => (Function.update s.clients i (some fd) j).isSome) =
      insert i (Finset.univ.filter fun j => (s.clients j).isSome) := by
    ext j
    by_cases hj : j = i
    · simp [hj]
    · simp [hj]
  show (Finset.univ.filter fun j => (Function.update s.clients i (some fd) j).isSome).card = _
  rw [hset, Finset.card_insert_of_notMem (by simp [hi])]
  rfl

/-- A slot is cleared. -/
theorem occupied_clear (hi : s.clients i ≠ none) : (s.clear i).occupied + 1 = s.occupied := by
  have hset : (Finset.univ.filter fun j => (Function.update s.clients i none j).isSome) =
      (Finset.univ.filter fun j => (s.clients j).isSome).erase i := by
    ext j
    by_cases hj : j = i
    · simp [hj]
    · simp [hj]
  show (Finset.univ.filter fun j => (Function.update s.clients i none j).isSome).card + 1 = _
  rw [hset, Finset.card_erase_add_one (by simp [Option.isSome_iff_ne_none, hi])]
  rfl

/-- A thread that moves is counted as before, or it is not. -/
theorem served_goto (pc' : Pc) (hc : c < s.next) (hpc : s.threads c = some ⟨some i, pc⟩) :
    (s.goto c i pc').served + (if pc.counted then 1 else 0) =
      s.served + (if pc'.counted then 1 else 0) := by
  have hself : s.serving c = pc.counted := by rw [State.serving, hpc]; rfl
  have hself' : (s.goto c i pc').serving c = pc'.counted := by rw [State.serving, goto_self]; rfl
  have hother (d : ℕ) (hd : d ≠ c) : (s.goto c i pc').serving d = s.serving d := by
    rw [State.serving, goto_of_ne hd]
    rfl
  have hrest : ((Finset.range s.next).filter fun d => (s.goto c i pc').serving d).erase c =
      ((Finset.range s.next).filter fun d => s.serving d).erase c := by
    ext d
    by_cases hd : d = c
    · simp [hd]
    · simp [hd, hother d hd]
  have hcard (f : ℕ → Bool) : ((Finset.range s.next).filter fun d => f d).card =
      (((Finset.range s.next).filter fun d => f d).erase c).card + (if f c then 1 else 0) := by
    by_cases hf : f c = true
    · rw [if_pos hf, Finset.card_erase_add_one (by simp [hc, hf])]
    · rw [if_neg hf, Finset.erase_eq_of_notMem (by simp [hf])]
      rfl
  have hserved := hcard s.serving
  have hserved' := hcard (s.goto c i pc').serving
  rw [hself] at hserved
  rw [hself', hrest] at hserved'
  rw [show s.served = _ from hserved, show (s.goto c i pc').served = _ from hserved']
  omega

/-! ### The threads of the connections -/

/-- A thread of a connection was let in before. -/
theorem Inv.lt (h : Inv s) (ht : s.threads c = some ⟨some i, pc⟩) : c < s.next := by
  by_contra hge
  rw [h.fresh c (not_lt.mp hge)] at ht
  cases ht

/-- Its slot is its own until it has cleared it. -/
theorem Inv.owner_eq (h : Inv s) (ht : s.threads c = some ⟨some i, pc⟩) (hholds : pc.holds) :
    s.owner i = some c := by
  obtain ⟨j, hj, howner⟩ := h.thread c _ ht
  rw [Option.some.inj hj]
  exact howner hholds

theorem Inv.locked_iff (h : Inv s) (ht : s.threads c = some ⟨some i, pc⟩) :
    s.mutex = some (.client c) ↔ pc.locked := by
  rw [h.client c, ht]
  constructor
  · rintro ⟨t, heq, hlocked⟩
    obtain rfl := Option.some.inj heq
    exact hlocked
  · exact fun hlocked => ⟨_, rfl, hlocked⟩

theorem uncleared_iff : s.uncleared ↔
    ∃ d t, s.mutex = some (.client d) ∧ s.threads d = some t ∧ t.pc.uncleared := by
  unfold State.uncleared
  split
  · rename_i d hm
    rw [Option.any_eq_true]
    constructor
    · rintro ⟨t, ht, hpc⟩
      exact ⟨d, t, hm, ht, hpc⟩
    · rintro ⟨d', t, hm', ht, hpc⟩
      obtain rfl : d = d' := by simpa [hm] using hm'
      exact ⟨t, ht, hpc⟩
  · rename_i hm
    constructor
    · intro h
      cases h
    · rintro ⟨d, t, hm', -⟩
      exact absurd hm' (hm d)

/-- What the mutex says of a thread, and of the others. -/
theorem uncleared_eq (ht : s.threads c = some ⟨some i, pc⟩) (hm : s.mutex = some (.client c)) :
    s.uncleared = pc.uncleared := by
  rw [Bool.eq_iff_iff, uncleared_iff]
  constructor
  · rintro ⟨d, t, hm', ht', hpc⟩
    obtain rfl : c = d := by simpa [hm] using hm'
    obtain rfl := Option.some.inj (ht.symm.trans ht')
    exact hpc
  · exact fun hpc => ⟨c, _, hm, ht, hpc⟩

/-- When a thread goes on, the mutex is that of the thread in a section. -/
theorem Inv.goto_client (h : Inv s)
    (hother : ∀ d ≠ c, m = some (.client d) ↔ s.mutex = some (.client d))
    (hself : m = some (.client c) ↔ pc'.locked) (d : ℕ) :
    m = some (.client d) ↔ ∃ t, (s.goto c i pc').threads d = some t ∧ t.pc.locked := by
  by_cases hd : d = c
  · rw [hd, goto_self]
    refine hself.trans ⟨fun hlocked => ⟨_, rfl, hlocked⟩, ?_⟩
    rintro ⟨t, heq, hlocked⟩
    obtain rfl := Option.some.inj heq
    exact hlocked
  · rw [goto_of_ne hd]
    exact (hother d hd).trans (h.client d)

/-- There are no threads of connections to come. -/
theorem Inv.goto_fresh (h : Inv s) (hlt : c < s.next) (d : ℕ) (hd : s.next ≤ d) :
    (s.goto c i pc').threads d = none := by
  rw [goto_of_ne (Nat.ne_of_gt (Nat.lt_of_lt_of_le hlt hd))]
  exact h.fresh d hd

/-- **A thread goes on** outside of the sections or inside, or it takes or leaves the mutex. -/
theorem Inv.goto (h : Inv s) (ht : s.threads c = some ⟨some i, pc⟩) (hholds : pc'.holds = pc.holds)
    (hpc : pc.uncleared = false) (hpc' : pc'.uncleared = false)
    (hacceptor : m = some .acceptor ↔ s.mutex = some .acceptor)
    (hother : ∀ d ≠ c, m = some (.client d) ↔ s.mutex = some (.client d))
    (hself : m = some (.client c) ↔ pc'.locked) : Inv ({ s with mutex := m }.goto c i pc') := by
  have hlt := h.lt ht
  have hcounted : pc'.counted = pc.counted := by
    rw [Pc.counted_eq, Pc.counted_eq, hholds, hpc, hpc']
  refine ⟨hacceptor.trans h.acceptor, h.goto_client hother hself, h.goto_fresh hlt, h.owned,
    fun d t hd => ?_, h.stored, fun j d hj => ?_, h.room, ?_, ?_⟩
  · rcases goto_cases hd with ⟨rfl, rfl⟩ | ⟨-, hd⟩
    · refine ⟨i, rfl, fun hh => ?_⟩
      dsimp only at hh
      rw [hholds] at hh
      exact h.owner_eq ht hh
    · exact h.thread d t hd
  · refine (h.owner j d hj).imp_right ?_
    rintro ⟨pc₁, hd, hh⟩
    -- the thread keeps its slot, since it holds one before and behind the step
    by_cases hdc : d = c
    · rw [hdc, ht] at hd
      obtain ⟨rfl, rfl⟩ : i = j ∧ pc = pc₁ := by simpa using hd
      rw [hdc, goto_self]
      exact ⟨pc', rfl, hholds ▸ hh⟩
    · rw [goto_of_ne hdc]
      exact ⟨pc₁, hd, hh⟩
  · have huncleared : ({ s with mutex := m }.goto c i pc').uncleared = s.uncleared := by
      rw [Bool.eq_iff_iff, uncleared_iff, uncleared_iff]
      constructor
      · rintro ⟨d, t, hm, hd, hh⟩
        rcases goto_cases hd with ⟨rfl, rfl⟩ | ⟨hdc, hd⟩
        · exact absurd hh (by simp [hpc'])
        · exact ⟨d, t, (hother d hdc).mp hm, hd, hh⟩
      · rintro ⟨d, t, hm, hd, hh⟩
        have hdc : d ≠ c := by
          rintro rfl
          obtain rfl := Option.some.inj (ht.symm.trans hd)
          exact absurd hh (by simp [hpc])
        exact ⟨d, t, (hother d hdc).mpr hm, (goto_of_ne hdc).trans hd, hh⟩
    rw [huncleared]
    exact h.count
  · have hserved := served_goto (s := { s with mutex := m }) pc' hlt ht
    rw [hcounted] at hserved
    have hserved' : ({ s with mutex := m }.goto c i pc').served = s.served := by
      show _ = ({ s with mutex := m } : State).served
      omega
    rw [hserved']
    exact h.served

/-- A thread goes on, without the mutex or with it. -/
theorem Inv.move (h : Inv s) (ht : s.threads c = some ⟨some i, pc⟩) (hholds : pc'.holds = pc.holds)
    (hpc : pc.uncleared = false) (hpc' : pc'.uncleared = false) (hlocked : pc'.locked = pc.locked) :
    Inv (s.goto c i pc') := by
  have hself : s.mutex = some (.client c) ↔ pc'.locked := by rw [h.locked_iff ht, hlocked]
  exact h.goto ht hholds hpc hpc' Iff.rfl (fun _ _ => Iff.rfl) hself

/-- A thread takes the mutex. -/
theorem Inv.enter (h : Inv s) (ht : s.threads c = some ⟨some i, pc⟩) (hholds : pc'.holds = pc.holds)
    (hpc : pc.uncleared = false) (hpc' : pc'.uncleared = false) (hlocked : pc'.locked)
    (hm : s.mutex = none) : Inv ({ s with mutex := some (.client c) }.goto c i pc') := by
  refine h.goto ht hholds hpc hpc' ?_ (fun d hd => ?_) (iff_of_true rfl hlocked)
  · simp [hm]
  · simp [hm, Ne.symm hd]

/-- A thread leaves the mutex. -/
theorem Inv.exit (h : Inv s) (ht : s.threads c = some ⟨some i, pc⟩) (hholds : pc'.holds = pc.holds)
    (hpc : pc.uncleared = false) (hpc' : pc'.uncleared = false) (hlocked : pc.locked)
    (hlocked' : pc'.locked = false) : Inv ({ s with mutex := none }.goto c i pc') := by
  have hm := (h.locked_iff ht).mpr hlocked
  refine h.goto ht hholds hpc hpc' ?_ (fun d hd => ?_) (by simp [hlocked'])
  · simp [hm]
  · simp [hm, Ne.symm hd]

/-- **A thread clears its slot.** -/
theorem Inv.clear (h : Inv s) (ht : s.threads c = some ⟨some i, .clearing⟩) :
    Inv ((s.clear i).goto c i .decrementing) := by
  have hm := (h.locked_iff ht).mpr rfl
  have hlt := h.lt ht
  have howner := h.owner_eq ht rfl
  have hclient : s.clients i ≠ none := by
    intro hnone
    rw [← h.owned i, howner] at hnone
    cases hnone
  have hclients := h.goto_client (i := i) (fun _ _ => Iff.rfl)
    (iff_of_true hm (show Pc.decrementing.locked from rfl))
  refine ⟨h.acceptor, hclients, h.goto_fresh hlt, fun j => ?_, fun d t hd => ?_, fun p hp => ?_,
    fun j d hj => ?_, fun hs => ?_, ?_, ?_⟩
  · show Function.update s.owner i none j = none ↔ Function.update s.clients i none j = none
    by_cases hj : j = i
    · rw [hj, Function.update_self, Function.update_self]
    · rw [Function.update_of_ne hj, Function.update_of_ne hj]
      exact h.owned j
  · show ∃ j, t.clientId = some j ∧ (t.pc.holds → Function.update s.owner i none j = some d)
    rcases goto_cases hd with ⟨rfl, rfl⟩ | ⟨hdc, hd⟩
    · exact ⟨i, rfl, fun hh => absurd hh Bool.false_ne_true⟩
    · -- another thread has another slot
      obtain ⟨j, hj, hh⟩ := h.thread d t hd
      refine ⟨j, hj, fun hholds => ?_⟩
      have hji : j ≠ i := by
        rintro rfl
        exact hdc (Option.some.inj ((hh hholds).symm.trans howner))
      rw [Function.update_of_ne hji]
      exact hh hholds
  · obtain ⟨j, hj, hstored⟩ := h.stored p hp
    have hji : j ≠ i := by
      rintro rfl
      have heq := Option.some.inj (hstored.symm.trans howner)
      omega
    exact ⟨j, hj, (Function.update_of_ne hji ..).trans hstored⟩
  · have hj' : Function.update s.owner i none j = some d := hj
    have hji : j ≠ i := by
      rintro rfl
      rw [Function.update_self] at hj'
      cases hj'
    rw [Function.update_of_ne hji] at hj'
    refine (h.owner j d hj').imp_right ?_
    rintro ⟨pc₁, hd, hh⟩
    have hdc : d ≠ c := by
      rintro rfl
      obtain ⟨hij, -⟩ : i = j ∧ Pc.clearing = pc₁ := by simpa using ht.symm.trans hd
      exact hji hij.symm
    rw [goto_of_ne hdc]
    exact ⟨pc₁, hd, hh⟩
  · have hroom := h.room hs
    have hoccupied := occupied_clear hclient
    show (s.clear i).occupied < _
    omega
  · have hcount := h.count
    have hoccupied := occupied_clear hclient
    have huncleared : ((s.clear i).goto c i .decrementing).uncleared = true :=
      uncleared_eq (goto_self ..) hm
    rw [uncleared_eq ht hm, if_neg (show ¬ Pc.clearing.uncleared from Bool.false_ne_true)] at hcount
    rw [huncleared, if_pos rfl]
    show s.clientsCount + (if s.acceptor.uncounted then 1 else 0) = ((s.clear i).occupied : ℤ) + 1
    omega
  · have hserved := served_goto (s := s.clear i) .decrementing hlt ht
    have hserved' : ((s.clear i).goto c i .decrementing).served = s.served :=
      Nat.add_right_cancel hserved
    rw [hserved']
    exact h.served

/-- **A thread is not counted any more.** -/
theorem Inv.decrement (h : Inv s) (ht : s.threads c = some ⟨some i, .decrementing⟩) :
    Inv ({ s with clientsCount := s.clientsCount - 1 }.goto c i .unlocking) := by
  have hm := (h.locked_iff ht).mpr rfl
  have hlt := h.lt ht
  have hclients := h.goto_client (i := i) (fun _ _ => Iff.rfl)
    (iff_of_true hm (show Pc.unlocking.locked from rfl))
  refine ⟨h.acceptor, hclients, h.goto_fresh hlt, h.owned, fun d t hd => ?_, h.stored,
    fun j d hj => ?_, h.room, ?_, ?_⟩
  · rcases goto_cases hd with ⟨rfl, rfl⟩ | ⟨-, hd⟩
    · exact ⟨i, rfl, fun hh => absurd hh Bool.false_ne_true⟩
    · exact h.thread d t hd
  · refine (h.owner j d hj).imp_right ?_
    rintro ⟨pc₁, hd, hh⟩
    have hdc : d ≠ c := by
      rintro rfl
      obtain ⟨-, rfl⟩ : i = j ∧ Pc.decrementing = pc₁ := by simpa using ht.symm.trans hd
      cases hh
    rw [goto_of_ne hdc]
    exact ⟨pc₁, hd, hh⟩
  · have hcount := h.count
    have huncleared : ({ s with clientsCount := s.clientsCount - 1 }.goto c i .unlocking).uncleared =
        false := uncleared_eq (goto_self ..) hm
    rw [uncleared_eq ht hm, if_pos (show Pc.decrementing.uncleared from rfl)] at hcount
    rw [huncleared, if_neg Bool.false_ne_true]
    show s.clientsCount - 1 + (if s.acceptor.uncounted then 1 else 0) = (s.occupied : ℤ) + 0
    omega
  · have hserved := served_goto (s := { s with clientsCount := s.clientsCount - 1 })
      .unlocking hlt ht
    have hserved' := h.served
    have hone : ({ s with clientsCount := s.clientsCount - 1 }.goto c i .unlocking).served + 1 =
        s.served := hserved
    rw [← hone] at hserved'
    show s.clientsCount - 1 = (_ : ℤ) + (if s.acceptor.pending then 1 else 0)
    push_cast at hserved'
    omega

/-! ### The acceptor -/

/-- **There is a free slot**, and the acceptor finds it. -/
theorem free_eq (hroom : s.occupied < MAX_CLIENTS) :
    ∃ i, s.free = some i ∧ s.clients i = none := by
  cases hfree : s.free with
  | some i =>
    have hnone := List.find?_some hfree
    exact ⟨i, rfl, Option.isNone_iff_eq_none.mp hnone⟩
  | none =>
    have hall : ∀ i, (s.clients i).isSome := by
      intro i
      have hi := List.find?_eq_none.mp hfree i (List.mem_finRange i)
      simpa [Option.isSome_iff_ne_none] using hi
    have hfull : s.occupied = MAX_CLIENTS := by
      rw [State.occupied, Finset.filter_true_of_mem (fun i _ => hall i), Finset.card_univ,
        Fintype.card_fin]
    omega

/-- **The acceptor goes on** without touching what is shared. -/
theorem Inv.acceptor_move (h : Inv s) {a : Acceptor} (hlocked : a.locked = s.acceptor.locked)
    (hstored : a.stored = s.acceptor.stored) (huncounted : a.uncounted = s.acceptor.uncounted)
    (hpending : a.pending = s.acceptor.pending) (hroom : a.searching → s.occupied < MAX_CLIENTS) :
    Inv { s with acceptor := a } := by
  refine ⟨?_, h.client, h.fresh, h.owned, h.thread, ?_, ?_, hroom, ?_, ?_⟩
  · show s.mutex = some .acceptor ↔ a.locked
    rw [hlocked]
    exact h.acceptor
  · show ∀ p, a.stored = some p → _
    rw [hstored]
    exact h.stored
  · show ∀ i c, s.owner i = some c → c = s.next ∧ a.stored = some (some i) ∨ _
    rw [hstored]
    exact h.owner
  · show s.clientsCount + (if a.uncounted then 1 else 0) = (s.occupied : ℤ) + _
    rw [huncounted]
    exact h.count
  · show s.clientsCount = (s.served : ℤ) + (if a.pending then 1 else 0)
    rw [hpending]
    exact h.served

/-- A connection was dealt with, and has no thread. -/
theorem Inv.reject (h : Inv s) (hlocked : s.acceptor.locked = false)
    (hstored : s.acceptor.stored = none) (huncounted : s.acceptor.uncounted = false)
    (hpending : s.acceptor.pending = false) :
    Inv { s with acceptor := .test, next := s.next + 1 } := by
  refine ⟨?_, h.client, fun c hc => h.fresh c (Nat.le_of_succ_le hc), h.owned, h.thread,
    fun p hp => (Option.some_ne_none p hp.symm).elim, fun i c hi => ?_,
    fun hs => absurd hs Bool.false_ne_true, ?_, ?_⟩
  · show s.mutex = some .acceptor ↔ Acceptor.test.locked
    rw [h.acceptor, hlocked]
    rfl
  · rcases h.owner i c hi with ⟨-, hp⟩ | hthread
    · rw [hstored] at hp
      cases hp
    · exact .inr hthread
  · have hcount := h.count
    rw [huncounted] at hcount
    exact hcount
  · have hserved := h.served
    rw [hpending] at hserved
    have hnone : ¬ s.serving s.next := by
      rw [State.serving, h.fresh s.next le_rfl]
      exact Bool.false_ne_true
    have heq : ({ s with acceptor := .test, next := s.next + 1 } : State).served = s.served := by
      show ((Finset.range (s.next + 1)).filter fun c => s.serving c).card = _
      rw [Finset.range_add_one, Finset.filter_insert, if_neg hnone]
      rfl
    rw [heq]
    exact hserved

/-- The acceptor takes the mutex. -/
theorem Inv.acceptor_lock (h : Inv s) (ha : s.acceptor = .locking fd) (hm : s.mutex = none) :
    Inv { s with mutex := some .acceptor, acceptor := .storing fd } := by
  have hcount := h.count
  have hserved := h.served
  have hroom := h.room
  have howner := h.owner
  rw [ha] at hcount hserved hroom howner
  have huncleared : s.uncleared = false := by
    rw [State.uncleared, hm]
  rw [huncleared] at hcount
  refine ⟨iff_of_true rfl rfl, fun c => ?_, h.fresh, h.owned, h.thread, fun p hp => ?_, howner,
    fun _ => hroom rfl, hcount, hserved⟩
  · have hclient := h.client c
    rw [hm] at hclient
    exact (iff_of_false (by simp) (by simp)).trans hclient
  · cases hp

/-- **A slot is taken.** -/
theorem Inv.store (h : Inv s) (ha : s.acceptor = .storing fd) :
    Inv { s.store s.free fd with acceptor := .counting s.free } := by
  have hroom := h.room
  rw [ha] at hroom
  obtain ⟨i, hfree, hi⟩ := free_eq (hroom rfl)
  have hm := h.acceptor.mpr (by rw [ha]; rfl)
  have hnone := (h.owned i).mpr hi
  rw [hfree]
  refine ⟨iff_of_true hm rfl, h.client, h.fresh, fun j => ?_, fun c t ht => ?_, fun p hp => ?_,
    fun j c hj => ?_, fun hs => absurd hs Bool.false_ne_true, ?_, ?_⟩
  · show Function.update s.owner i (some s.next) j = none ↔
      Function.update s.clients i (some fd) j = none
    by_cases hj : j = i
    · rw [hj, Function.update_self, Function.update_self]
      simp
    · rw [Function.update_of_ne hj, Function.update_of_ne hj]
      exact h.owned j
  · obtain ⟨j, hj, hholds⟩ := h.thread c t ht
    refine ⟨j, hj, fun hh => ?_⟩
    -- the slot was free, and so is not that of a thread
    have hji : j ≠ i := by
      rintro rfl
      rw [hholds hh] at hnone
      cases hnone
    exact (Function.update_of_ne hji ..).trans (hholds hh)
  · obtain rfl : some i = p := Option.some.inj hp
    exact ⟨i, rfl, Function.update_self ..⟩
  · have hj' : Function.update s.owner i (some s.next) j = some c := hj
    -- the slot at hand is owned by the thread that is to be created
    by_cases hji : j = i
    · rw [hji, Function.update_self] at hj'
      exact .inl ⟨(Option.some.inj hj').symm, by rw [hji]; rfl⟩
    · rw [Function.update_of_ne hji] at hj'
      rcases h.owner j c hj' with ⟨-, hp⟩ | hthread
      · rw [ha] at hp
        cases hp
      · exact .inr hthread
  · have hcount := h.count
    have hoccupied := occupied_store hi fd
    rw [ha] at hcount
    show s.clientsCount + 1 = ((s.store (some i) fd).occupied : ℤ) + (if s.uncleared then 1 else 0)
    rw [hoccupied]
    push_cast
    have hcount' : s.clientsCount + 0 = s.occupied + (if s.uncleared then 1 else 0) := hcount
    omega
  · have hserved := h.served
    rw [ha] at hserved
    exact hserved

/-- **A slot is counted.** -/
theorem Inv.counted (h : Inv s) {p : Option (Fin MAX_CLIENTS)} (ha : s.acceptor = .counting p) :
    Inv { s with clientsCount := s.clientsCount + 1, acceptor := .unlocking p } := by
  have hm := h.acceptor.mpr (by rw [ha]; rfl)
  have hcount := h.count
  have hserved := h.served
  have hstored := h.stored
  have howner := h.owner
  rw [ha] at hcount hserved hstored howner
  refine ⟨iff_of_true hm rfl, h.client, h.fresh, h.owned, h.thread, hstored, howner,
    fun hs => absurd hs Bool.false_ne_true, ?_, ?_⟩
  · exact (Int.add_zero _).trans hcount
  · have hserved' : s.clientsCount = s.served + 0 := hserved
    show s.clientsCount + 1 = s.served + 1
    omega

/-- The acceptor leaves the mutex. -/
theorem Inv.acceptor_unlock (h : Inv s) {p : Option (Fin MAX_CLIENTS)}
    (ha : s.acceptor = .unlocking p) : Inv { s with mutex := none, acceptor := .creating p } := by
  have hm := h.acceptor.mpr (by rw [ha]; rfl)
  have hcount := h.count
  have hserved := h.served
  have hstored := h.stored
  have howner := h.owner
  have huncleared : s.uncleared = false := by rw [State.uncleared, hm]
  rw [ha] at hcount hserved hstored howner
  rw [huncleared] at hcount
  refine ⟨iff_of_false (by simp) Bool.false_ne_true, fun c => ?_, h.fresh, h.owned, h.thread,
    hstored, howner, fun hs => absurd hs Bool.false_ne_true, hcount, hserved⟩
  have hclient := h.client c
  rw [hm] at hclient
  exact (iff_of_false (by simp) (by simp)).trans hclient

/-- **A thread is created** for the connection at hand. -/
theorem Inv.create (h : Inv s) {p : Option (Fin MAX_CLIENTS)} (ha : s.acceptor = .creating p) :
    Inv { s with
      threads := Function.update s.threads s.next (some ⟨p, .test⟩)
      acceptor := .test, next := s.next + 1 } := by
  have hcount := h.count
  have hserved := h.served
  have howner := h.owner
  rw [ha] at hcount hserved howner
  obtain ⟨i, rfl, hi⟩ := h.stored p (by rw [ha]; rfl)
  have hfresh := h.fresh s.next le_rfl
  have hne {d : ℕ} (hd : d ≠ s.next) :
      Function.update s.threads s.next (some ⟨some i, .test⟩) d = s.threads d :=
    Function.update_of_ne hd ..
  have hself : Function.update s.threads s.next (some ⟨some i, .test⟩) s.next =
      some ⟨some i, .test⟩ := Function.update_self ..
  refine ⟨?_, fun c => ?_, fun c hc => ?_, h.owned, fun c t ht => ?_,
    fun p hp => (Option.some_ne_none p hp.symm).elim, fun j c hj => .inr ?_,
    fun hs => absurd hs Bool.false_ne_true, ?_, ?_⟩
  · rw [h.acceptor, ha]
    rfl
  · show s.mutex = some (.client c) ↔
      ∃ t, Function.update s.threads s.next (some ⟨some i, .test⟩) c = some t ∧ t.pc.locked
    -- the new thread does not have the mutex
    by_cases hc : c = s.next
    · rw [hc, hself, h.client, hfresh]
      refine iff_of_false ?_ ?_
      · rintro ⟨t, ht, -⟩
        cases ht
      · rintro ⟨t, ht, hlocked⟩
        obtain rfl := Option.some.inj ht
        cases hlocked
    · rw [hne hc]
      exact h.client c
  · have hc' : s.next + 1 ≤ c := hc
    exact (hne (by omega)).trans (h.fresh c (by omega))
  · have ht' : Function.update s.threads s.next (some ⟨some i, .test⟩) c = some t := ht
    by_cases hc : c = s.next
    · rw [hc, hself] at ht'
      obtain rfl := Option.some.inj ht'
      rw [hc]
      exact ⟨i, rfl, fun _ => hi⟩
    · rw [hne hc] at ht'
      exact h.thread c t ht'
  · show ∃ pc, Function.update s.threads s.next (some ⟨some i, .test⟩) c = some ⟨some j, pc⟩ ∧ _
    -- the slot at hand goes to the new thread, and the others stay with theirs
    rcases howner j c hj with ⟨rfl, hp⟩ | ⟨pc, ht, hholds⟩
    · obtain rfl : i = j := by simpa [Acceptor.stored] using hp
      exact ⟨.test, hself, rfl⟩
    · have hc : c ≠ s.next := by
        rintro rfl
        rw [hfresh] at ht
        cases ht
      exact ⟨pc, (hne hc).trans ht, hholds⟩
  · have huncleared : ({ s with
        threads := Function.update s.threads s.next (some ⟨some i, .test⟩)
        acceptor := .test, next := s.next + 1 } : State).uncleared = s.uncleared := by
      rw [Bool.eq_iff_iff, uncleared_iff, uncleared_iff]
      refine exists_congr fun d => exists_congr fun t => and_congr_right fun _ => ?_
      show Function.update s.threads s.next (some ⟨some i, .test⟩) d = some t ∧ _ ↔ _
      -- a thread that has just begun is not about to lower the count
      by_cases hd : d = s.next
      · rw [hd, hself, hfresh]
        refine iff_of_false ?_ (by simp)
        rintro ⟨ht, hpc⟩
        obtain rfl := Option.some.inj ht
        cases hpc
      · rw [hne hd]
    rw [huncleared]
    exact hcount
  · have hnext : ({ s with
        threads := Function.update s.threads s.next (some ⟨some i, .test⟩)
        acceptor := .test, next := s.next + 1 } : State).served = s.served + 1 := by
      show ((Finset.range (s.next + 1)).filter fun c =>
        (Function.update s.threads s.next (some ⟨some i, .test⟩) c).any fun t => t.pc.counted).card = _
      rw [Finset.range_add_one, Finset.filter_insert, hself, if_pos (by rfl),
        Finset.card_insert_of_notMem (by simp), State.served]
      congr 2
      refine Finset.filter_congr fun d hd => ?_
      rw [hne (Finset.mem_range.mp hd).ne]
      rfl
    rw [hnext]
    have hserved' : s.clientsCount = s.served + 1 := hserved
    push_cast
    exact hserved'.trans (Int.add_zero _).symm

/-- **A step of the acceptor.** -/
theorem Inv.accepts (h : Inv s) (hs : Accepts s s') : Inv s' := by
  cases hs with
  | finish ha =>
    exact h.acceptor_move (by rw [ha]; rfl) (by rw [ha]; rfl) (by rw [ha]; rfl) (by rw [ha]; rfl)
      (fun hs => absurd hs Bool.false_ne_true)
  | again ha =>
    exact h.acceptor_move (by rw [ha]; rfl) (by rw [ha]; rfl) (by rw [ha]; rfl) (by rw [ha]; rfl)
      (fun hs => absurd hs Bool.false_ne_true)
  | leave ha =>
    exact h.acceptor_move (by rw [ha]; rfl) (by rw [ha]; rfl) (by rw [ha]; rfl) (by rw [ha]; rfl)
      (fun hs => absurd hs Bool.false_ne_true)
  | full ha =>
    exact h.acceptor_move (by rw [ha]; rfl) (by rw [ha]; rfl) (by rw [ha]; rfl) (by rw [ha]; rfl)
      (fun hs => absurd hs Bool.false_ne_true)
  | room ha hlt =>
    refine h.acceptor_move (by rw [ha]; rfl) (by rw [ha]; rfl) (by rw [ha]; rfl) (by rw [ha]; rfl)
      fun _ => ?_
    -- what is counted beside the slots that are taken is a thread that has cleared its slot
    have hcount := h.count
    rw [ha, if_neg (show ¬ (Acceptor.accepted _).uncounted from Bool.false_ne_true)] at hcount
    split at hcount <;> omega
  | reject ha =>
    have hreject := h.reject (by rw [ha]; rfl) (by rw [ha]; rfl) (by rw [ha]; rfl) (by rw [ha]; rfl)
    exact hreject.congr rfl rfl rfl rfl rfl rfl rfl
  | lock ha hm => exact h.acceptor_lock ha hm
  | store ha => exact h.store ha
  | count ha => exact h.counted ha
  | unlock ha => exact h.acceptor_unlock ha
  | create ha => exact h.create ha

/-- **A step of a thread.** -/
theorem Inv.serves (h : Inv s) (ht : s.threads c = some ⟨some i, pc⟩) (hs : Serves s c i pc s') :
    Inv s' := by
  cases hs with
  | ended => exact h.move ht rfl rfl rfl rfl
  | round => exact h.move ht rfl rfl rfl rfl
  | message => exact h.move ht rfl rfl rfl rfl
  | eof => exact h.move ht rfl rfl rfl rfl
  | lock hm => exact h.enter ht rfl rfl rfl rfl hm
  | skip => exact h.move ht rfl rfl rfl rfl
  | write => exact Inv.move (h.congr rfl rfl rfl rfl rfl rfl rfl) ht rfl rfl rfl rfl
  | sent => exact h.exit ht rfl rfl rfl rfl rfl
  | close => exact Inv.move (h.congr rfl rfl rfl rfl rfl rfl rfl) ht rfl rfl rfl rfl
  | closeNone => exact h.move ht rfl rfl rfl rfl
  | lockAgain hm => exact h.enter ht rfl rfl rfl rfl hm
  | clear => exact h.clear ht
  | decrement => exact h.decrement ht
  | unlock => exact h.exit ht rfl rfl rfl rfl rfl

/-- **A step keeps the bookkeeping.** -/
theorem Inv.step (h : Inv s) (hs : Step s s') : Inv s' := by
  cases hs with
  | interrupt => exact h.congr rfl rfl rfl rfl rfl rfl rfl
  | @accept fd ha =>
    have hmove := h.acceptor_move (a := .accepted fd) (by rw [ha]; rfl) (by rw [ha]; rfl)
      (by rw [ha]; rfl) (by rw [ha]; rfl) (fun hs => absurd hs Bool.false_ne_true)
    exact hmove.congr rfl rfl rfl rfl rfl rfl rfl
  | acceptor hs => exact h.accepts hs
  | client ht hs => exact h.serves ht hs

/-- **Every run.** -/
theorem Reach.inv {ok : State → Event → Prop} (hr : server.Reach ok s) : Inv s := by
  apply hr.invariant
  · rintro s rfl
    exact inv_initial
  · intro s e s' h _ hs
    exact h.step (step_cases hs)

/-! ### The bookkeeping -/

theorem occupied_le (s : State) : s.occupied ≤ MAX_CLIENTS := by
  have hle := Finset.card_filter_le (Finset.univ : Finset (Fin MAX_CLIENTS))
    fun i => (s.clients i).isSome
  rwa [Finset.card_univ, Fintype.card_fin] at hle

/-- The count is raised only when there was a free slot. -/
theorem Inv.count_le (h : Inv s) (hle : s.clientsCount ≤ MAX_CLIENTS) (hs : Step s s') :
    s'.clientsCount ≤ MAX_CLIENTS := by
  cases hs with
  | interrupt => exact hle
  | accept => exact hle
  | acceptor hs =>
    cases hs with
    | store =>
      cases s.free with
      | none => exact hle
      | some i => exact hle
    | count ha =>
      have hcount := h.count
      have hm := h.acceptor.mpr (by rw [ha]; rfl)
      have huncleared : s.uncleared = false := by rw [State.uncleared, hm]
      rw [ha, huncleared] at hcount
      have hcount' : s.clientsCount + 1 = s.occupied + 0 := hcount
      have hoccupied := occupied_le s
      show s.clientsCount + 1 ≤ MAX_CLIENTS
      omega
    | _ => exact hle
  | client ht hs =>
    cases hs with
    | decrement => exact (Int.sub_le_self _ Int.one_nonneg).trans hle
    | _ => exact hle

theorem Reach.count_le {ok : State → Event → Prop} (hr : server.Reach ok s) :
    s.clientsCount ≤ MAX_CLIENTS := by
  have hboth : Inv s ∧ s.clientsCount ≤ MAX_CLIENTS := by
    apply hr.invariant
    · rintro s rfl
      exact ⟨inv_initial, Int.natCast_nonneg _⟩
    · intro s e s' h _ hs
      exact ⟨h.1.step (step_cases hs), h.1.count_le h.2 (step_cases hs)⟩
  exact hboth.2

/-- The bookkeeping of the slots. -/
structure Consistent (s : State) : Prop where
  /-- The count is right whenever the mutex is free. -/
  count : s.mutex = none →
    s.clientsCount = s.occupied ∧ 0 ≤ s.clientsCount ∧ s.clientsCount ≤ MAX_CLIENTS
  /-- A thread is started with the index of a slot that no other thread has and has not cleared. -/
  started : ∀ p, s.acceptor = .creating p →
    ∃ i, p = some i ∧ ∀ c t, s.threads c = some t → t.pc.holds → t.clientId ≠ some i
  /-- It keeps the slot for itself until it has cleared it. -/
  kept : ∀ c t, s.threads c = some t → ∃ i, t.clientId = some i ∧
    (t.pc.holds → ∀ d u, s.threads d = some u → u.pc.holds → u.clientId = some i → d = c)
  /-- A connection is rejected only when `MAX_CLIENTS` are being served. -/
  rejected : ∀ fd s', s.acceptor = .accepted fd → step s .acceptor = some s' →
    s'.acceptor = .rejecting fd → s.served = MAX_CLIENTS

/-- **The slots are consistent** in every state of every run. -/
theorem slots_consistent (hr : server.Reach (fun _ _ => True) s) : Consistent s := by
  have h := Reach.inv hr
  have hle := Reach.count_le hr
  refine ⟨fun hm => ?_, fun p ha => ?_, fun c t ht => ?_, fun fd s' ha hs hrejecting => ?_⟩
  · have hcount := h.count
    have hacceptor : s.acceptor.uncounted = false := by
      cases ha : s.acceptor with
      | counting p =>
        have hlocked := h.acceptor.mpr (by rw [ha]; rfl)
        rw [hm] at hlocked
        cases hlocked
      | _ => rfl
    have huncleared : s.uncleared = false := by rw [State.uncleared, hm]
    rw [hacceptor, huncleared] at hcount
    have hcount' : s.clientsCount + 0 = s.occupied + 0 := hcount
    omega
  · obtain ⟨i, rfl, hi⟩ := h.stored p (by rw [ha]; rfl)
    refine ⟨i, rfl, fun c t ht hholds heq => ?_⟩
    obtain ⟨j, hj, howner⟩ := h.thread c t ht
    obtain rfl : j = i := Option.some.inj (hj.symm.trans heq)
    obtain rfl := Option.some.inj ((howner hholds).symm.trans hi)
    rw [h.fresh s.next le_rfl] at ht
    cases ht
  · obtain ⟨i, hi, howner⟩ := h.thread c t ht
    refine ⟨i, hi, fun hholds d u hu hholds' heq => ?_⟩
    obtain ⟨j, hj, howner'⟩ := h.thread d u hu
    obtain rfl : j = i := Option.some.inj (hj.symm.trans heq)
    exact Option.some.inj ((howner' hholds').symm.trans (howner hholds))
  · have hserved := h.served
    rw [ha, if_neg (show ¬ (Acceptor.accepted fd).pending from Bool.false_ne_true)] at hserved
    have hfull : (MAX_CLIENTS : ℤ) ≤ s.clientsCount := by
      cases run_server_cases hs with
      | full _ hcount => exact hcount
      | finish ha' | again ha' | reject ha' | lock ha' | store ha' | count ha' | unlock ha'
      | create ha' =>
        rw [ha] at ha'
        cases ha'
      | leave | room => cases hrejecting
    omega

/-- Two connections, and the first of them is gone. -/
def two_connections : List Event :=
  [.acceptor, .accept 4, .acceptor, .acceptor, .acceptor, .acceptor, .acceptor, .acceptor,
    .client 0, .receive 0 none, .client 0, .acceptor, .accept 4, .acceptor, .acceptor, .acceptor,
    .acceptor, .acceptor, .client 0, .client 0, .client 0, .client 0, .acceptor]

theorem slots_consistent_two :
    ∃ s, server.run (fun _ _ => True) initial two_connections = some s ∧ Consistent s := by
  obtain ⟨s, hs⟩ := Option.isSome_iff_exists.mp
    (show (server.run (fun _ _ => True) initial two_connections).isSome by decide)
  exact ⟨s, hs, slots_consistent (.of_run (.init rfl) hs)⟩

end SystemProgramming.Chatroom
