import Mathlib.Data.List.TakeWhile
import SystemProgramming.Lib.Lts

namespace SystemProgramming.CriticalConcurrency.Rendezvous

open Lib

/-!
# `critical_concurrency/rendezvous.c` — two threads and two semaphores

Each thread lowers the bytes of one quote, and prints the other when its thread has done so.  A step
is a byte read or written, or a call of `sem_post`, `sem_wait` or `pthread_join`.

* `modifyA_printB`, `modifyB_printA`, `main` — the steps.
* `Inv` — what holds in every state.
* `rendezvous` — in any order of the steps both quotes are printed as a whole, nothing is read
  after it was freed, and all threads end.
-/

/-- The bytes of a string, without the null byte. -/
abbrev Str := List UInt8

inductive Quote
  | A
  | B
  deriving DecidableEq

def Quote.other : Quote → Quote
  | A => B
  | B => A

/-- Where a thread is. -/
inductive Pc
  | modify (i : ℕ)
  | sem_post
  | sem_wait
  /-- with the bytes that have been printed -/
  | printf (out : Str)
  | finished

/-- Where the main thread is. -/
inductive Main
  | pthread_join (tid : Quote)
  | free
  | finished
  deriving DecidableEq

/-- A thread goes by the quote that it modifies, and so does the semaphore that it posts: `s1` is
    that of the quote A. -/
structure State where
  /-- the bytes in front of the null byte -/
  quote : Quote → Str
  pc : Quote → Pc
  sem : Quote → ℕ
  main : Main
  printed : List (Quote × Str)

namespace State

def goto (s : State) (q : Quote) (pc : Pc) : State := { s with pc := Function.update s.pc q pc }

def setQuote (s : State) (q : Quote) (str : Str) : State :=
  { s with quote := Function.update s.quote q str }

def setSem (s : State) (q : Quote) (value : ℕ) : State :=
  { s with sem := Function.update s.sem q value }

/-- A line of the output. -/
def print (s : State) (q : Quote) (out : Str) : State :=
  { s with printed := s.printed ++ [(q, out)] }

/-- `quote[i]`, which may be the null byte at the end. -/
def char (s : State) (q : Quote) (i : ℕ) : UInt8 := (s.quote q)[i]?.getD 0

end State

/-- A thread that modifies the quote `q` and prints the other.  A quote that was freed must not be
    read. -/
def modify_print (q : Quote) (s : State) : Option State :=
  if s.main = .finished then none
  else match s.pc q with
  | .modify i =>
    let c := s.char q i
    if c ≠ 0 then some ((s.setQuote q ((s.quote q).set i (c - 1))).goto q (.modify (i + 1)))
    else some (s.goto q .sem_post)
  | .sem_post => some ((s.setSem q (s.sem q + 1)).goto q .sem_wait)
  | .sem_wait =>
    if s.sem q.other = 0 then none
    else some ((s.setSem q.other (s.sem q.other - 1)).goto q (.printf []))
  | .printf out =>
    let c := s.char q.other out.length
    if c ≠ 0 then some (s.goto q (.printf (out ++ [c])))
    else some ((s.print q.other out).goto q .finished)
  | .finished => none

def modifyA_printB : State → Option State := modify_print .A

def modifyB_printA : State → Option State := modify_print .B

/-- `main`, from the first `pthread_join` on. -/
def main (s : State) : Option State :=
  match s.main with
  | .pthread_join tid =>
    match s.pc tid with
    | .finished =>
      some { s with main := match tid with | .A => .pthread_join .B | .B => .free }
    | _ => none
  | .free => some { s with main := .finished }
  | .finished => none

def initial (quote : Quote → Str) : State where
  quote := quote
  pc _ := .modify 0
  sem _ := 0
  main := .pthread_join .A
  printed := []

/-- Which thread makes the next step is the label; `none` is the main thread. -/
def system (quote : Quote → Str) : Lts State (Option Quote) where
  init s := s = initial quote
  step s
    | none => main s
    | some .A => modifyA_printB s
    | some .B => modifyB_printA s

/-! ### What a step does -/

variable {s s' : State} {q r : Quote} {quote : Quote → Str} {i : ℕ}

/-- **Everything that a step of a thread can do.** -/
inductive Modifies (s : State) (q : Quote) : State → Prop
  | modify (i : ℕ) (h : s.pc q = .modify i) (hc : s.char q i ≠ 0) : Modifies s q
      ((s.setQuote q ((s.quote q).set i (s.char q i - 1))).goto q (.modify (i + 1)))
  | stop (i : ℕ) (h : s.pc q = .modify i) (hc : s.char q i = 0) :
      Modifies s q (s.goto q .sem_post)
  | post (h : s.pc q = .sem_post) : Modifies s q ((s.setSem q (s.sem q + 1)).goto q .sem_wait)
  | wait (h : s.pc q = .sem_wait) (hsem : s.sem q.other ≠ 0) :
      Modifies s q ((s.setSem q.other (s.sem q.other - 1)).goto q (.printf []))
  | char (out : Str) (h : s.pc q = .printf out) (hc : s.char q.other out.length ≠ 0) :
      Modifies s q (s.goto q (.printf (out ++ [s.char q.other out.length])))
  | print (out : Str) (h : s.pc q = .printf out) (hc : s.char q.other out.length = 0) :
      Modifies s q ((s.print q.other out).goto q .finished)

theorem modifies_of_step (h : modify_print q s = some s') : Modifies s q s' := by
  unfold modify_print at h
  obtain ⟨-, h⟩ := Option.ite_none_left_eq_some.mp h
  split at h
  · rename_i i hpc
    dsimp only at h
    split at h
    · rename_i hc
      obtain rfl := Option.some.inj h
      exact .modify i hpc hc
    · rename_i hc
      obtain rfl := Option.some.inj h
      exact .stop i hpc (not_not.mp hc)
  · rename_i hpc
    obtain rfl := Option.some.inj h
    exact .post hpc
  · rename_i hpc
    obtain ⟨hsem, h⟩ := Option.ite_none_left_eq_some.mp h
    obtain rfl := Option.some.inj h
    exact .wait hpc hsem
  · rename_i out hpc
    dsimp only at h
    split at h
    · rename_i hc
      obtain rfl := Option.some.inj h
      exact .char out hpc hc
    · rename_i hc
      obtain rfl := Option.some.inj h
      exact .print out hpc (not_not.mp hc)
  · cases h

/-- **Everything that a step of the main thread can do.** -/
inductive Joins (s : State) : State → Prop
  | joinA (h : s.main = .pthread_join .A) (hpc : s.pc .A = .finished) :
      Joins s { s with main := .pthread_join .B }
  | joinB (h : s.main = .pthread_join .B) (hpc : s.pc .B = .finished) :
      Joins s { s with main := .free }
  | free (h : s.main = .free) : Joins s { s with main := .finished }

theorem joins_of_step (h : main s = some s') : Joins s s' := by
  unfold main at h
  split at h
  · rename_i tid hmain
    split at h
    · rename_i hpc
      obtain rfl := Option.some.inj h
      cases tid with
      | A => exact .joinA hmain hpc
      | B => exact .joinB hmain hpc
    · cases h
  · rename_i hmain
    obtain rfl := Option.some.inj h
    exact .free hmain
  · cases h

/-! ### The invariant -/

/-- A quote as it should be printed. -/
def decode (str : Str) : Str := str.map (· - 1)

/-- `%s` prints up to the first null byte. -/
def shown (str : Str) : Str := (decode str).takeWhile (· ≠ 0)

namespace Pc

/-- How many bytes of a quote of `n` bytes have been modified. -/
def modified (n : ℕ) : Pc → ℕ
  | modify i => i
  | _ => n

def posted : Pc → Bool
  | modify _ => false
  | sem_post => false
  | _ => true

def waited : Pc → Bool
  | printf _ => true
  | finished => true
  | _ => false

def isFinished : Pc → Bool
  | finished => true
  | _ => false

end Pc

/-- Which threads the main thread has joined. -/
def Main.joined : Main → Quote → Bool
  | pthread_join .A, _ => false
  | pthread_join .B, .A => true
  | pthread_join .B, .B => false
  | _, _ => true

/-- **What holds in every state.** -/
structure Inv (quote : Quote → Str) (s : State) : Prop where
  modified_le : ∀ q, (s.pc q).modified (quote q).length ≤ (quote q).length
  quotes : ∀ q, s.quote q = (decode (quote q)).take ((s.pc q).modified (quote q).length) ++
    (quote q).drop ((s.pc q).modified (quote q).length)
  sem : ∀ q, s.sem q + (s.pc q.other).waited.toNat = (s.pc q).posted.toNat
  out : ∀ q out, s.pc q = .printf out → out <+: shown (quote q.other)
  printed : ∀ p ∈ s.printed, p.2 = shown (quote p.1)
  count : ∀ q, (s.printed.map Prod.fst).count q = (s.pc q.other).isFinished.toNat
  joined : ∀ q, s.main.joined q = true → s.pc q = .finished

theorem inv_initial (quote : Quote → Str) : Inv quote (initial quote) where
  modified_le _ := Nat.zero_le _
  quotes _ := rfl
  sem _ := rfl
  out _ _ := nofun
  printed := nofun
  count _ := rfl
  joined _ := nofun

@[simp] theorem other_other (q : Quote) : q.other.other = q := by cases q <;> rfl

theorem other_ne (q : Quote) : q.other ≠ q := by cases q <;> exact Quote.noConfusion

theorem eq_or_other (q r : Quote) : r = q ∨ r = q.other := by
  cases q <;> cases r <;> first | exact .inl rfl | exact .inr rfl

/-- A thread goes on. -/
theorem Inv.step {pc : Pc} (h : Inv quote s) (hfin : s.pc q ≠ .finished)
    (hpc : s'.pc = Function.update s.pc q pc) (hmain : s'.main = s.main)
    (hle : pc.modified (quote q).length ≤ (quote q).length)
    (hother : s'.quote q.other = s.quote q.other)
    (hself : s'.quote q = (decode (quote q)).take (pc.modified (quote q).length) ++
      (quote q).drop (pc.modified (quote q).length))
    (hsem : s'.sem q + (s.pc q.other).waited.toNat = pc.posted.toNat)
    (hsem' : s'.sem q.other + pc.waited.toNat = (s.pc q.other).posted.toNat)
    (hout : ∀ out, pc = .printf out → out <+: shown (quote q.other))
    (hprinted : ∀ p ∈ s'.printed, p.2 = shown (quote p.1))
    (hcount : (s'.printed.map Prod.fst).count q = (s.pc q.other).isFinished.toNat)
    (hcount' : (s'.printed.map Prod.fst).count q.other = pc.isFinished.toNat) :
    Inv quote s' := by
  have hq : s'.pc q = pc := by rw [hpc, Function.update_self]
  have hq' : s'.pc q.other = s.pc q.other := by rw [hpc, Function.update_of_ne (other_ne q)]
  refine ⟨fun r => ?_, fun r => ?_, fun r => ?_, fun r => ?_, hprinted, fun r => ?_, fun r hr => ?_⟩
  · obtain rfl | rfl := eq_or_other q r
    · rwa [hq]
    · rw [hq']
      exact h.modified_le _
  · obtain rfl | rfl := eq_or_other q r
    · rwa [hq]
    · rw [hq', hother]
      exact h.quotes _
  · obtain rfl | rfl := eq_or_other q r
    · rwa [hq, hq']
    · rwa [other_other, hq, hq']
  · obtain rfl | rfl := eq_or_other q r
    · rwa [hq]
    · rw [hq']
      exact h.out _
  · obtain rfl | rfl := eq_or_other q r
    · rwa [hq']
    · rwa [other_other, hq]
  · rw [hmain] at hr
    have hr' := h.joined r hr
    obtain rfl | rfl := eq_or_other q r
    · exact absurd hr' hfin
    · rwa [hq']

/-- A byte in front of the end. -/
theorem lt_of_char (h : s.char q i ≠ 0) : i < (s.quote q).length := by
  by_contra hle
  rw [State.char, List.getElem?_eq_none (Nat.le_of_not_lt hle)] at h
  exact h rfl

/-- One more byte is modified. -/
theorem set_decode {str : Str} (h : i < str.length) :
    ((decode str).take i ++ str.drop i).set i
      (((decode str).take i ++ str.drop i)[i]?.getD 0 - 1) =
    (decode str).take (i + 1) ++ str.drop (i + 1) := by
  have hlen : ((decode str).take i).length = i := by
    rw [List.length_take, decode, List.length_map, Nat.min_eq_left h.le]
  have hget : (decode str)[i]? = some (str[i] - 1) := by
    rw [decode, List.getElem?_map, List.getElem?_eq_getElem h, Option.map_some]
  rw [List.getElem?_append_right hlen.le, List.set_append_right _ _ hlen.le, hlen, Nat.sub_self,
    List.drop_eq_getElem_cons h, List.getElem?_cons_zero, Option.getD_some, List.set_cons_zero,
    List.take_add_one, hget, List.append_assoc]
  rfl

/-- A byte is printed, or it is the end. -/
theorem char_shown {str out : Str} (h : out <+: shown str) :
    ((decode str)[out.length]?.getD 0 ≠ 0 →
      out ++ [(decode str)[out.length]?.getD 0] <+: shown str) ∧
    ((decode str)[out.length]?.getD 0 = 0 → out = shown str) := by
  have hsplit : shown str ++ (decode str).dropWhile (· ≠ 0) = decode str :=
    List.takeWhile_append_dropWhile
  obtain ⟨rest, hrest⟩ := h
  cases rest with
  | nil =>
    -- behind what is shown there is a null byte, or nothing
    rw [List.append_nil] at hrest
    have hnull : (decode str)[out.length]?.getD 0 = 0 := by
      rw [← hsplit, ← hrest, List.getElem?_append_right le_rfl, Nat.sub_self]
      have hhead := List.head?_dropWhile_not (· ≠ 0) (decode str)
      cases hdrop : (decode str).dropWhile (· ≠ 0) with
      | nil => rfl
      | cons c cs =>
        rw [hdrop] at hhead
        simpa using hhead
    exact ⟨fun hne => absurd hnull hne, fun _ => hrest⟩
  | cons c cs =>
    have hget : (decode str)[out.length]?.getD 0 = c := by
      rw [← hsplit, ← hrest, List.append_assoc, List.getElem?_append_right le_rfl, Nat.sub_self]
      rfl
    have hc : c ≠ 0 := by
      have hmem : c ∈ shown str := hrest ▸ List.mem_append_right _ List.mem_cons_self
      simpa using List.mem_takeWhile_imp hmem
    rw [hget]
    refine ⟨fun _ => ⟨cs, ?_⟩, fun h => absurd h hc⟩
    rw [List.append_assoc]
    exact hrest

/-- A thread whose semaphore has been waited for is done with its quote. -/
theorem Inv.quote_of_waited (h : Inv quote s) (hwaited : (s.pc q).waited = true) :
    s.quote q.other = decode (quote q.other) := by
  have hsem := h.sem q.other
  rw [other_other, hwaited] at hsem
  have hposted : (s.pc q.other).posted = true := by
    cases hp : (s.pc q.other).posted with
    | true => rfl
    | false =>
      rw [hp] at hsem
      simp at hsem
  have hmodified : (s.pc q.other).modified (quote q.other).length = (quote q.other).length := by
    cases hpc : s.pc q.other with
    | modify i =>
      rw [hpc] at hposted
      cases hposted
    | _ => rfl
  rw [h.quotes, hmodified, List.drop_length, List.append_nil, List.take_of_length_le]
  rw [decode, List.length_map]

/-- **A step of a thread** keeps the invariant. -/
theorem Inv.modifies (h : Inv quote s) (hquote : ∀ q, 0 ∉ quote q) (hstep : Modifies s q s') :
    Inv quote s' := by
  have hle := h.modified_le q
  have hself := h.quotes q
  have hsem := h.sem q
  have hsem' := h.sem q.other
  have hcount := h.count q
  have hcount' := h.count q.other
  rw [other_other] at hsem' hcount'
  cases hstep with
  | modify i hpc hc =>
    have hfin : s.pc q ≠ .finished := by rw [hpc]; exact Pc.noConfusion
    have hlen : i < (quote q).length := by
      have hlt := lt_of_char hc
      have hlength := congrArg List.length hself
      rw [List.length_append, List.length_take, List.length_drop, decode, List.length_map]
        at hlength
      omega
    rw [hpc] at hself hsem hsem' hcount'
    refine h.step hfin rfl rfl hlen ?_ ?_ hsem hsem' nofun h.printed hcount hcount'
    · exact Function.update_of_ne (other_ne q) ..
    · show Function.update s.quote q _ q = _
      rw [Function.update_self, State.char, hself]
      exact set_decode hlen
  | stop i hpc hc =>
    have hfin : s.pc q ≠ .finished := by rw [hpc]; exact Pc.noConfusion
    rw [hpc] at hle hself hsem hsem' hcount'
    have hend : i = (quote q).length := by
      refine Nat.le_antisymm hle (Nat.le_of_not_lt fun hlt => hquote q ?_)
      rw [Pc.modified] at hle hself
      have hlen : ((decode (quote q)).take i).length = i := by
        rw [List.length_take, decode, List.length_map, Nat.min_eq_left hle]
      rw [State.char, hself, List.getElem?_append_right hlen.le, hlen, Nat.sub_self,
        List.drop_eq_getElem_cons hlt, List.getElem?_cons_zero, Option.getD_some] at hc
      exact hc ▸ List.getElem_mem hlt
    subst hend
    exact h.step hfin rfl rfl le_rfl rfl hself hsem hsem' nofun h.printed hcount hcount'
  | post hpc =>
    have hfin : s.pc q ≠ .finished := by rw [hpc]; exact Pc.noConfusion
    rw [hpc] at hself hsem hsem' hcount'
    refine h.step hfin rfl rfl le_rfl rfl hself ?_ ?_ nofun h.printed hcount hcount'
    · show Function.update s.sem q _ q + _ = _
      rw [Function.update_self, Nat.add_right_comm, hsem]
      rfl
    · show Function.update s.sem q _ q.other + _ = _
      rwa [Function.update_of_ne (other_ne q)]
  | wait hpc hne =>
    have hfin : s.pc q ≠ .finished := by rw [hpc]; exact Pc.noConfusion
    rw [hpc] at hself hsem hsem' hcount'
    refine h.step hfin rfl rfl le_rfl rfl hself ?_ ?_ ?_ h.printed hcount hcount'
    · show Function.update s.sem q.other _ q + _ = _
      rwa [Function.update_of_ne (other_ne q).symm]
    · show Function.update s.sem q.other _ q.other + 1 = _
      rw [Function.update_self, Nat.sub_add_cancel (Nat.pos_of_ne_zero hne), ← hsem']
      rfl
    · intro out hout
      obtain rfl := Pc.printf.inj hout
      exact List.nil_prefix
  | char out hpc hc =>
    have hfin : s.pc q ≠ .finished := by rw [hpc]; exact Pc.noConfusion
    have hout := h.out q out hpc
    have hread := h.quote_of_waited (q := q) (by rw [hpc]; rfl)
    rw [hpc] at hself hsem hsem' hcount'
    rw [State.char, hread] at hc
    refine h.step hfin rfl rfl le_rfl rfl hself hsem hsem' ?_ h.printed hcount hcount'
    intro out' hout'
    obtain rfl := Pc.printf.inj hout'
    rw [State.char, hread]
    exact (char_shown hout).1 hc
  | print out hpc hc =>
    have hfin : s.pc q ≠ .finished := by rw [hpc]; exact Pc.noConfusion
    have hout := h.out q out hpc
    have hread := h.quote_of_waited (q := q) (by rw [hpc]; rfl)
    rw [hpc] at hself hsem hsem' hcount'
    rw [State.char, hread] at hc
    refine h.step hfin rfl rfl le_rfl rfl hself hsem hsem' nofun ?_ ?_ ?_
    · intro p hp
      rw [State.goto, State.print, List.mem_append, List.mem_singleton] at hp
      obtain hp | rfl := hp
      · exact h.printed p hp
      · exact (char_shown hout).2 hc
    · show ((s.printed ++ [(q.other, out)]).map Prod.fst).count q = _
      rw [List.map_append, List.count_append, hcount, List.map_singleton,
        List.count_eq_zero_of_not_mem, Nat.add_zero]
      exact fun hmem => other_ne q (List.mem_singleton.mp hmem).symm
    · show ((s.printed ++ [(q.other, out)]).map Prod.fst).count q.other = _
      rw [List.map_append, List.count_append, hcount', List.map_singleton,
        List.count_singleton_self]
      rfl

theorem Inv.joins (h : Inv quote s) (hstep : Joins s s') : Inv quote s' := by
  obtain ⟨hle, hquotes, hsem, hout, hprinted, hcount, hjoined⟩ := h
  cases hstep with
  | joinA hmain hpc =>
    refine ⟨hle, hquotes, hsem, hout, hprinted, hcount, fun q hq => ?_⟩
    cases q with
    | A => exact hpc
    | B => cases hq
  | joinB hmain hpc =>
    refine ⟨hle, hquotes, hsem, hout, hprinted, hcount, fun q hq => ?_⟩
    cases q with
    | A => exact hjoined .A (by rw [hmain]; rfl)
    | B => exact hpc
  | free hmain =>
    exact ⟨hle, hquotes, hsem, hout, hprinted, hcount, fun q _ => hjoined q (by rw [hmain]; rfl)⟩

theorem system_step {e : Option Quote} (h : (system quote).step s e = some s') :
    Joins s s' ∨ ∃ q, Modifies s q s' := by
  cases e with
  | none => exact .inl (joins_of_step h)
  | some q =>
    cases q with
    | A => exact .inr ⟨.A, modifies_of_step h⟩
    | B => exact .inr ⟨.B, modifies_of_step h⟩

theorem inv_of_reach (hquote : ∀ q, 0 ∉ quote q)
    (hr : (system quote).Reach (fun _ _ => True) s) : Inv quote s := by
  refine hr.invariant ?_ fun s e s' h _ hstep => ?_
  · rintro s rfl
    exact inv_initial quote
  · obtain hstep | ⟨q, hstep⟩ := system_step hstep
    · exact h.joins hstep
    · exact h.modifies hquote hstep

/-! ### All threads end -/

/-- While a thread has not ended, some thread can go on. -/
theorem Inv.thread_step (h : Inv quote s) (hmain : s.main ≠ .finished) (hq : s.pc q ≠ .finished) :
    ∃ r s', modify_print r s = some s' := by
  have hgoes : ∀ r, s.pc r ≠ .sem_wait → s.pc r ≠ .finished →
      ∃ s', modify_print r s = some s' := by
    intro r hwait hfin
    rw [modify_print, if_neg hmain]
    cases hpc : s.pc r with
    | modify i | printf out =>
      dsimp only
      split <;> exact ⟨_, rfl⟩
    | sem_post => exact ⟨_, rfl⟩
    | sem_wait => exact absurd hpc hwait
    | finished => exact absurd hpc hfin
  by_cases hwait : s.pc q = .sem_wait
  · by_cases hsem : s.sem q.other = 0
    · -- the other thread has not posted yet
      have hposted := h.sem q.other
      rw [other_other, hsem, hwait] at hposted
      refine ⟨q.other, hgoes q.other (fun hpc => ?_) fun hpc => ?_⟩ <;>
      · rw [hpc] at hposted
        cases hposted
    · exact ⟨q, _, by rw [modify_print, if_neg hmain, hwait]; exact if_neg hsem⟩
  · exact ⟨q, hgoes q hwait hq⟩

/-- **No deadlock**: until the main thread has ended, some thread can go on. -/
theorem Inv.progress (h : Inv quote s) (hmain : s.main ≠ .finished) :
    ∃ e s', (system quote).step s e = some s' := by
  have hthread : (∃ q, s.pc q ≠ .finished) → ∃ e s', (system quote).step s e = some s' := by
    rintro ⟨q, hq⟩
    obtain ⟨r, s', hstep⟩ := h.thread_step hmain hq
    cases r with
    | A => exact ⟨some .A, s', hstep⟩
    | B => exact ⟨some .B, s', hstep⟩
  cases hm : s.main with
  | finished => exact absurd hm hmain
  | free =>
    refine ⟨none, Option.isSome_iff_exists.mp ?_⟩
    simp only [system, main, hm, Option.isSome_some]
  | pthread_join tid =>
    cases hpc : s.pc tid with
    | finished =>
      refine ⟨none, Option.isSome_iff_exists.mp ?_⟩
      simp only [system, main, hm, hpc, Option.isSome_some]
    | _ => exact hthread ⟨tid, by rw [hpc]; exact Pc.noConfusion⟩

namespace Pc

/-- What a thread has left to do, with quotes of `n` and `m` bytes. -/
def weight (n m : ℕ) : Pc → ℕ
  | modify i => n - i + m + 5
  | sem_post => m + 4
  | sem_wait => m + 3
  | printf out => m - out.length + 1
  | finished => 0

end Pc

def State.weight (quote : Quote → Str) (s : State) : ℕ :=
  (s.pc .A).weight (quote .A).length (quote .B).length +
    (s.pc .B).weight (quote .B).length (quote .A).length

def Main.rank : Main → ℕ
  | pthread_join .A => 3
  | pthread_join .B => 2
  | free => 1
  | finished => 0

/-- The weight, seen from one of the threads. -/
theorem State.weight_eq (q : Quote) : s.weight quote =
    (s.pc q).weight (quote q).length (quote q.other).length +
      (s.pc q.other).weight (quote q.other).length (quote q).length := by
  cases q with
  | A => rfl
  | B => exact Nat.add_comm _ _

/-- The weight when a thread goes on. -/
theorem State.weight_lt {pc : Pc} (hpc : s'.pc = Function.update s.pc q pc)
    (hlt : pc.weight (quote q).length (quote q.other).length <
      (s.pc q).weight (quote q).length (quote q.other).length) :
    s'.weight quote < s.weight quote := by
  rw [State.weight_eq q, State.weight_eq q, hpc, Function.update_self,
    Function.update_of_ne (other_ne q)]
  exact Nat.add_lt_add_right hlt _

theorem shown_length (str : Str) : (shown str).length ≤ str.length := by
  have hle := (List.takeWhile_prefix (l := decode str) (· ≠ 0)).length_le
  rwa [decode, List.length_map] at hle

/-- **Each step of a thread** leaves less to do. -/
theorem weight_lt (h' : Inv quote s') (hstep : Modifies s q s') :
    s'.weight quote < s.weight quote := by
  have hle := h'.modified_le q
  have hout := h'.out q
  cases hstep with
  | modify i hpc hc =>
    refine State.weight_lt rfl ?_
    simp only [State.goto, Function.update_self, Pc.modified] at hle
    simp only [hpc, Pc.weight]
    omega
  | stop i hpc hc =>
    refine State.weight_lt rfl ?_
    simp only [hpc, Pc.weight]
    omega
  | post hpc =>
    refine State.weight_lt rfl ?_
    simp only [hpc, Pc.weight]
    omega
  | wait hpc hne =>
    refine State.weight_lt rfl ?_
    simp only [hpc, Pc.weight, List.length_nil]
    omega
  | char out hpc hc =>
    refine State.weight_lt rfl ?_
    have hlen := (hout _ (Function.update_self ..)).length_le
    have hshown := shown_length (quote q.other)
    simp only [List.length_append, List.length_singleton] at hlen
    simp only [hpc, Pc.weight, List.length_append, List.length_singleton]
    omega
  | print out hpc hc =>
    refine State.weight_lt rfl ?_
    simp only [hpc, Pc.weight]
    omega

/-- **The rendezvous**: no run goes on for ever; whatever is printed is a whole quote with all its
    bytes lowered; the quotes are freed when both threads have ended; and a run that cannot go on
    has ended, with each quote printed once. -/
theorem rendezvous (hquote : ∀ q, 0 ∉ quote q) :
    (WellFounded fun s' s => (system quote).Reach (fun _ _ => True) s ∧
      ∃ e, True ∧ (system quote).step s e = some s') ∧
    ∀ s, (system quote).Reach (fun _ _ => True) s →
      (∀ p ∈ s.printed, p.2 = shown (quote p.1)) ∧
      (s.main = .finished → ∀ q, s.pc q = .finished) ∧
      ((∃ e s', (system quote).step s e = some s') ∨
        s.main = .finished ∧ (∀ q, (s.printed.map Prod.fst).count q = 1) ∧
          ∀ q, s.sem q = 0 ∧ s.quote q = decode (quote q)) := by
  refine ⟨Lts.wellFounded_of_lex (fun s => s.main.rank) (State.weight quote) ?_, fun s hr => ?_⟩
  · intro s e s' hr _ hstep
    have h' := inv_of_reach hquote (hr.step trivial hstep)
    obtain hstep | ⟨q, hstep⟩ := system_step hstep
    · left
      cases hstep with
      | joinA hmain | joinB hmain | free hmain =>
        rw [hmain]
        exact Nat.lt_succ_self _
    · exact .inr ⟨by cases hstep <;> rfl, weight_lt h' hstep⟩
  · have h := inv_of_reach hquote hr
    have hall : s.main = .finished → ∀ q, s.pc q = .finished :=
      fun hmain q => h.joined q (by rw [hmain]; rfl)
    refine ⟨h.printed, hall, ?_⟩
    by_cases hmain : s.main = .finished
    · have hfin := hall hmain
      refine .inr ⟨hmain, fun q => ?_, fun q => ⟨?_, ?_⟩⟩
      · rw [h.count, hfin]
        rfl
      · have hsem := h.sem q
        rw [hfin, hfin] at hsem
        exact Nat.add_right_cancel hsem
      · have hread := h.quote_of_waited (q := q.other) (by rw [hfin]; rfl)
        rwa [other_other] at hread
    · exact .inl (h.progress hmain)

/-- `"J!"` and `"Ui"`. -/
def beginnings : Quote → Str
  | .A => [74, 33]
  | .B => [85, 105]

theorem rendezvous_beginnings : ∃ s, (system beginnings).Reach (fun _ _ => True) s ∧
    s.main = .finished ∧ s.quote .A = [73, 32] ∧ s.quote .B = [84, 104] ∧
    ∀ q, (s.printed.map Prod.fst).count q = 1 := by
  have hrun : ((system beginnings).run (fun _ _ => True) (initial beginnings)
      [some .A, some .B, some .B, some .B, some .B, some .A, some .A, some .A, some .B, some .A,
        some .A, some .A, some .A, none, some .B, some .B, some .B, none, none]).any
      (fun s => decide (s.main = .finished)) = true := by
    decide +kernel
  obtain ⟨s, hs, hdone⟩ := (Option.any_eq_true _ _).mp hrun
  have hmain := of_decide_eq_true hdone
  have hr : (system beginnings).Reach (fun _ _ => True) s := .of_run (.init rfl) hs
  have hquote : ∀ q, 0 ∉ beginnings q := by
    intro q
    cases q <;> decide
  obtain ⟨-, hfin, hstep | ⟨-, hcount, hquotes⟩⟩ := (rendezvous hquote).2 s hr
  · -- no thread can go on
    obtain ⟨e, s', hstep⟩ := hstep
    obtain hstep | ⟨q, hstep⟩ := system_step hstep
    · cases hstep with
      | joinA h | joinB h | free h => exact absurd (hmain.symm.trans h) Main.noConfusion
    · cases hstep with
      | modify i h | stop i h | post h | wait h | char out h | print out h =>
        exact absurd ((hfin hmain q).symm.trans h) Pc.noConfusion
  · exact ⟨s, hr, hmain, (hquotes .A).2, (hquotes .B).2, hcount⟩

end SystemProgramming.CriticalConcurrency.Rendezvous
