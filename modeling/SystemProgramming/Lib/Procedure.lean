import Mathlib.Data.Set.Finite.List
import Mathlib.Logic.Relation
import Mathlib.Order.WellFounded

namespace SystemProgramming.Lib

open Relation

/-!
# Recursive procedures

A procedure is given by its body, a program for each argument.  A program may end the whole
process, ask something of the environment, whose answer may be any, and call the procedure.  It
runs with a stack of the calls that are in progress.

* `Prog` — programs, and their monad.
* `Prog.Terminates` — no run of a call is endless, whatever the answers.
* `Prog.Reenters` — a run comes to a call that is in progress already.
* `Prog.Meets` — the rule of contracts: what holds of the arguments of all calls.
* `Prog.not_endless_of_fresh` — with finitely many arguments, an endless run reenters.
* `Prog.terminates_iff` — then a call terminates just when it does not reenter.
-/

/-- Programs that call a procedure from `X` to `R` and get answers in `A`. -/
inductive Prog (X R A τ : Type) where
  | ret (r : τ)
  | stop
  | ask (k : A → Prog X R A τ)
  | call (x : X) (k : R → Prog X R A τ)

namespace Prog

variable {X R A τ τ' : Type}

def bind : Prog X R A τ → (τ → Prog X R A τ') → Prog X R A τ'
  | ret r, f => f r
  | stop, _ => stop
  | ask k, f => ask fun a => (k a).bind f
  | call x k, f => call x fun r => (k r).bind f

instance : Monad (Prog X R A) where
  pure := ret
  bind := bind

/-- Ask the environment. -/
def answer : Prog X R A A := ask ret

/-- Call the procedure. -/
def recurse (x : X) : Prog X R A R := call x ret

/-! ### Running -/

/-- A call in progress: its argument, and what its caller does with the result. -/
structure Frame (X R A : Type) where
  arg : X
  k : R → Prog X R A R

/-- What is left of the innermost call, and the calls in progress. -/
abbrev Config (X R A : Type) := Prog X R A R × List (Frame X R A)

inductive Step (body : X → Prog X R A R) : Config X R A → Config X R A → Prop
  | ask (k : A → Prog X R A R) (a : A) (fs : List (Frame X R A)) : Step body (ask k, fs) (k a, fs)
  | call (x : X) (k : R → Prog X R A R) (fs : List (Frame X R A)) :
    Step body (call x k, fs) (body x, ⟨x, k⟩ :: fs)
  | ret (r : R) (f : Frame X R A) (fs : List (Frame X R A)) : Step body (ret r, f :: fs) (f.k r, fs)

/-- A call from outside. -/
def start (x : X) : Config X R A := (call x ret, [])

/-- A run of the call without an end. -/
def Endless (body : X → Prog X R A R) (x : X) (run : ℕ → Config X R A) : Prop :=
  run 0 = start x ∧ ∀ n, Step body (run n) (run (n + 1))

/-- Every run of the call has an end. -/
def Terminates (body : X → Prog X R A R) (x : X) : Prop := ¬ ∃ run, Endless body x run

/-- What is called now is not in progress. -/
def Fresh (c : Config X R A) : Prop := ∀ y k, c.1 = call y k → y ∉ c.2.map Frame.arg

/-- A run of the call comes to a call with the argument of one in progress. -/
def Reenters (body : X → Prog X R A R) (x : X) : Prop :=
  ∃ c, ReflTransGen (Step body) (start x) c ∧ ¬ Fresh c

variable {body : X → Prog X R A R} {c c' : Config X R A} {p q : Prog X R A R} {x y : X}
  {fs gs : List (Frame X R A)} {k : R → Prog X R A R}

theorem terminates_iff_acc : Terminates body x ↔ Acc (flip (Step body)) (start x) := by
  rw [← not_iff_not, Terminates, not_not, not_acc_iff_exists_descending_chain]
  rfl

/-! ### The rule of contracts -/

/-- The calls of the program have arguments in `pre`; if they return what `post` allows, the
    result is in `Q`. -/
def Meets (pre : X → Prop) (post : X → R → Prop) (Q : τ → Prop) : Prog X R A τ → Prop
  | ret r => Q r
  | stop => True
  | ask k => ∀ a, Meets pre post Q (k a)
  | call x k => pre x ∧ ∀ r, post x r → Meets pre post Q (k r)

variable {pre : X → Prop} {post : X → R → Prop}

theorem Meets.bind {Q : τ → Prop} {Q' : τ' → Prop} {p : Prog X R A τ} {f : τ → Prog X R A τ'}
    (hp : Meets pre post Q p) (hf : ∀ r, Q r → Meets pre post Q' (f r)) :
    Meets pre post Q' (p.bind f) := by
  induction p with
  | ret r => exact hf r hp
  | stop => trivial
  | ask k ih => exact fun a => ih a (hp a)
  | call x k ih => exact ⟨hp.1, fun r hr => ih r (hp.2 r hr)⟩

theorem Meets.mono {Q Q' : τ → Prop} {p : Prog X R A τ} (hp : Meets pre post Q p)
    (h : ∀ r, Q r → Q' r) : Meets pre post Q' p := by
  induction p with
  | ret r => exact h r hp
  | stop => trivial
  | ask k ih => exact fun a => ih a (hp a)
  | call x k ih => exact ⟨hp.1, fun r hr => ih r (hp.2 r hr)⟩

/-- What is left of each call in progress keeps the contract of its argument. -/
def Keeps (pre : X → Prop) (post : X → R → Prop) :
    List (Frame X R A) → Prog X R A R → Prop
  | [], p => Meets pre post (fun _ => True) p
  | f :: fs, p =>
    Meets pre post (post f.arg) p ∧ ∀ r, post f.arg r → Keeps pre post fs (f.k r)

theorem Keeps.step (hbody : ∀ x, pre x → Meets pre post (post x) (body x))
    (h : Keeps pre post c.2 c.1) (hstep : Step body c c') : Keeps pre post c'.2 c'.1 := by
  cases hstep with
  | ask k a fs =>
    cases fs with
    | nil => exact h a
    | cons f fs => exact ⟨h.1 a, h.2⟩
  | call x k fs =>
    cases fs with
    | nil => exact ⟨hbody x h.1, h.2⟩
    | cons f fs => exact ⟨hbody x h.1.1, fun r hr => ⟨h.1.2 r hr, h.2⟩⟩
  | ret r f fs => exact h.2 r h.1

/-- **Contracts.**  If every body keeps its contract, all arguments are in `pre`. -/
theorem pre_of_reach (hbody : ∀ x, pre x → Meets pre post (post x) (body x)) (hx : pre x)
    (hreach : ReflTransGen (Step body) (start x) (call y k, fs)) : pre y := by
  have hkeeps : ∀ {c}, ReflTransGen (Step body) (start x) c → Keeps pre post c.2 c.1 := by
    intro c hreach
    induction hreach with
    | refl => exact ⟨hx, fun _ _ => trivial⟩
    | tail _ hstep ih => exact ih.step hbody hstep
  cases fs with
  | nil => exact (hkeeps hreach).1
  | cons f fs => exact (hkeeps hreach).1.1

/-! ### Reentering does not terminate -/

/-- What is below the stack does not matter. -/
theorem Step.append (h : Step body (p, fs) (q, gs)) (hs : List (Frame X R A)) :
    Step body (p, fs ++ hs) (q, gs ++ hs) := by
  cases h with
  | ask k a => exact .ask k a _
  | call x k => exact .call x k _
  | ret r f => exact .ret r f _

theorem reach_append (h : ReflTransGen (Step body) c c') (hs : List (Frame X R A)) :
    ReflTransGen (Step body) (c.1, c.2 ++ hs) (c'.1, c'.2 ++ hs) := by
  induction h with
  | refl => exact .refl
  | tail _ hstep ih => exact ih.tail (Step.append hstep hs)

/-- What has happened since a call in progress began is a run of its body. -/
theorem reach_body (h : ReflTransGen (Step body) (start x) c) :
    ∀ fs f gs, c.2 = fs ++ f :: gs → ReflTransGen (Step body) (body f.arg, []) (c.1, fs) := by
  induction h with
  | refl =>
    intro fs f gs hstack
    cases fs <;> cases hstack
  | tail _ hstep ih =>
    intro fs f gs hstack
    cases hstep with
    | ask k a => exact (ih fs f gs hstack).tail (.ask k a fs)
    | call y k hs =>
      cases fs with
      | nil =>
        obtain ⟨rfl, -⟩ := List.cons.inj hstack
        exact .refl
      | cons g fs =>
        obtain ⟨hg, hs⟩ := List.cons.inj hstack
        exact hg ▸ (ih fs f gs hs).tail (.call y k fs)
    | ret r g hs =>
      dsimp only at hstack
      exact (ih (g :: fs) f gs (hstack ▸ rfl)).tail (.ret r g fs)

/-- A body that comes to a call of its own argument comes to it again and again. -/
theorem not_acc_call (h : ReflTransGen (Step body) (body y, []) (call y k, fs)) :
    ∀ k' gs, ¬ Acc (flip (Step body)) (call y k', gs) := by
  intro k' gs hacc
  replace hacc := hacc.transGen
  generalize hc : (call y k', gs) = c at hacc
  induction hacc generalizing k' gs with
  | intro c _ ih =>
    subst hc
    have hagain : TransGen (Step body) (call y k', gs) (call y k, fs ++ ⟨y, k'⟩ :: gs) :=
      .head' (.call y k' gs) (reach_append h (⟨y, k'⟩ :: gs))
    exact ih _ (transGen_swap.mp hagain) k _ rfl

theorem acc_of_reach (h : Acc (flip (Step body)) c) (hreach : ReflTransGen (Step body) c c') :
    Acc (flip (Step body)) c' := by
  induction hreach with
  | refl => exact h
  | tail _ hstep ih => exact ih.inv hstep

theorem not_terminates_of_reenters (h : Reenters body x) : ¬ Terminates body x := by
  obtain ⟨⟨p, fs⟩, hreach, hfresh⟩ := h
  rw [Fresh] at hfresh
  push Not at hfresh
  obtain ⟨y, k, rfl, hmem⟩ := hfresh
  obtain ⟨f, hf, rfl⟩ := List.mem_map.mp hmem
  obtain ⟨gs, hs, rfl⟩ := List.append_of_mem hf
  rw [terminates_iff_acc]
  intro hacc
  exact not_acc_call (reach_body hreach gs f hs rfl) k _ (acc_of_reach hacc hreach)

/-! ### A bounded stack terminates -/

/-- The runs that keep to `S` have an end if the stack stays bounded in them, and what comes
    behind the program has an end. -/
theorem acc_of_bounded {S : Config X R A → Config X R A → Prop}
    (hS : ∀ {c c'}, S c c' → Step body c c') (n : ℕ) (p : Prog X R A R) (fs : List (Frame X R A))
    (hbound : ∀ c, ReflTransGen S (p, fs) c → c.2.length ≤ fs.length + n)
    (hret : ∀ r, ReflTransGen S (p, fs) (ret r, fs) → Acc (flip S) (ret r, fs)) :
    Acc (flip S) (p, fs) := by
  induction n using Nat.strong_induction_on generalizing p fs with
  | _ n ihn =>
    induction p with
    | ret r => exact hret r .refl
    | stop => exact .intro _ fun c hstep => nomatch hS hstep
    | ask k ih =>
      refine .intro _ fun c hstep => ?_
      cases hS hstep with
      | ask k a fs =>
        exact ih a (fun c h => hbound c (.head hstep h)) fun r h => hret r (.head hstep h)
    | call x k ih =>
      refine .intro _ fun c hstep => ?_
      cases hS hstep with
      | call x k fs =>
        -- the body has one place less on the stack
        have hlen := hbound _ (.single hstep)
        rw [List.length_cons] at hlen
        refine ihn (n - 1) (by omega) (body x) (⟨x, k⟩ :: fs) (fun c h => ?_) fun r h => ?_
        · have hlen' := hbound c (.head hstep h)
          rw [List.length_cons]
          omega
        · refine .intro _ fun c hback => ?_
          cases hS hback with
          | ret r f fs =>
            have hcall : ReflTransGen S (call x k, fs) (k r, fs) := .head hstep (h.tail hback)
            exact ih r (fun c h => hbound c (hcall.trans h)) fun r' h => hret r' (hcall.trans h)

section
variable {dom : Set X} (hfin : dom.Finite)
  (hdom : ∀ y k fs, ReflTransGen (Step body) (start x) (call y k, fs) → y ∈ dom)
include hdom

theorem nodup_args (hreach : ReflTransGen (fun c c' => Step body c c' ∧ Fresh c) (start x) c) :
    (c.2.map Frame.arg).Nodup ∧ ∀ y ∈ c.2.map Frame.arg, y ∈ dom := by
  induction hreach with
  | refl => exact ⟨List.nodup_nil, by simp [start]⟩
  | @tail c c' hreach hstep ih =>
    obtain ⟨hstep, hfresh⟩ := hstep
    obtain ⟨hnodup, hmem⟩ := ih
    cases hstep with
    | ask k a fs => exact ⟨hnodup, hmem⟩
    | call y k fs =>
      refine ⟨List.nodup_cons.mpr ⟨hfresh y k rfl, hnodup⟩, fun z hz => ?_⟩
      rcases List.mem_cons.mp hz with rfl | hz
      · exact hdom _ k fs (hreach.lift id fun _ _ h => h.1)
      · exact hmem z hz
    | ret r f fs =>
      exact ⟨(List.nodup_cons.mp hnodup).2, fun z hz => hmem z (List.mem_cons_of_mem _ hz)⟩

include hfin

theorem acc_fresh : Acc (flip fun c c' => Step body c c' ∧ Fresh c) (start x) := by
  refine acc_of_bounded (fun h => h.1) hfin.toFinset.card _ _ (fun c hreach => ?_) fun r _ => ?_
  · obtain ⟨hnodup, hmem⟩ := nodup_args hdom hreach
    have hsub : (c.2.map Frame.arg).Subperm hfin.toFinset.toList :=
      List.subperm_of_subset hnodup fun y hy => by simpa using hmem y (by simpa using hy)
    have hle := hsub.length_le
    rw [List.length_map, Finset.length_toList] at hle
    exact hle.trans (Nat.le_add_left _ _)
  · exact .intro _ fun c hstep => nomatch hstep.1

/-- A run in which nothing is called that is in progress has an end. -/
theorem not_endless_of_fresh : ¬ ∃ run, Endless body x run ∧ ∀ n, Fresh (run n) := by
  rintro ⟨run, ⟨h0, hrun⟩, hfresh⟩
  exact not_acc_iff_exists_descending_chain.mpr ⟨run, h0, fun n => ⟨hrun n, hfresh n⟩⟩
    (acc_fresh hfin hdom)

/-- **Termination.**  A call all of whose arguments are in a finite set terminates just when no
    run of it reenters a call in progress. -/
theorem terminates_iff : Terminates body x ↔ ¬ Reenters body x := by
  refine ⟨fun h hre => not_terminates_of_reenters hre h, ?_⟩
  rintro hno ⟨run, hrun⟩
  refine not_endless_of_fresh hfin hdom ⟨run, hrun, fun n => ?_⟩
  have hreach : ReflTransGen (Step body) (start x) (run n) := by
    induction n with
    | zero => exact hrun.1 ▸ .refl
    | succ n ih => exact ih.tail (hrun.2 n)
  by_contra hfresh
  exact hno ⟨_, hreach, hfresh⟩

end

end Prog

end SystemProgramming.Lib
