import GradualScript.Proofs.Evaluation.Steps
import GradualScript.Proofs.Grammar.Placement

/-!
# Returns stay in function bodies

A statement outside of all function bodies never ends with a return: a call takes up
the returns of the body that it runs, and nothing else returns.
-/
namespace GradualScript

/-- What is done with the value of a run that finished. -/
def Outcome.map {ε α β : Type} (f : α → β) : Outcome ε α → Outcome ε β
  | finished a => finished (f a)
  | failed e => failed e
  | unfinished => unfinished

namespace Eval

variable {α : Type} {run more : Eval Completion}

/-- The run does not end with a return. -/
def Proceeds (run : Eval Completion) : Prop :=
  ∀ m c last, run m = (.finished c, last) → c = .normal

theorem proceeds_normal : Proceeds (pure .normal) := by
  intro m c last h
  cases h
  rfl

theorem proceeds_unfinished : Proceeds Eval.unfinished := by
  intro m c last h
  cases h

theorem proceeds_bind {run : Eval α} {f : α → Eval Completion} (hf : ∀ a, Proceeds (f a)) :
    Proceeds (run >>= f) := by
  intro m c last h
  obtain ⟨a, mid, -, hrest⟩ := bind_finished_cases h
  exact hf a mid c last hrest

theorem Proceeds.andThen (h : Proceeds run) (hmore : Proceeds more) :
    Proceeds (run >>= fun c => c.andThen more) := by
  intro m c last hrun
  obtain ⟨k, mid, hk, hrest⟩ := bind_finished_cases hrun
  have hnormal := h m k mid hk
  subst hnormal
  exact hmore mid c last hrest

theorem Proceeds.inScope (h : Proceeds run) (name : String) : Proceeds (Eval.inScope name run) := by
  intro m c last hrun
  have houtcome : (run (m.opened name)).1 = .finished c := congrArg Prod.fst hrun
  exact h (m.opened name) c (run (m.opened name)).2 (Prod.ext houtcome rfl)

end Eval

open Eval

section

variable {limit : Option Nat} {n : Nat}

/-- A call that passes its checks ends as the body does, with the value of its return. -/
theorem call_function_eq {m : Machine} {f : Function} {args : List Value} {position : Position}
    (harity : args.length = f.arity) (hlimit : limitReached? limit m.calls = none) :
    Value.call limit (n + 1) (.function f) args position m =
      ((Stmt.execAll limit n f.body (m.enter f args)).1.map Completion.value,
        ((Stmt.execAll limit n f.body (m.enter f args)).2.closeFrom m.scopes.size).leave) := by
  rw [call_function harity hlimit]
  change Eval.bind (Eval.inFrame f args (Stmt.execAll limit n f.body)) _ m = _
  rw [Eval.bind, Eval.inFrame, Eval.closing]
  cases Stmt.execAll limit n f.body (m.enter f args) with
  | mk outcome last => cases outcome <;> rfl

/-- Well placed statements do not return. -/
structure Proceeding (limit : Option Nat) (n : Nat) : Prop where
  exec : ∀ s : Stmt, s.Placed false → Proceeds (s.exec limit n)
  execAll : ∀ ss, Stmt.PlacedIn false ss → Proceeds (Stmt.execAll limit n ss)
  rounds : ∀ cond body increment, Stmt.Placed false body →
    Proceeds (Stmt.rounds limit n cond body increment)

namespace Proceeding

theorem proceeds_exec (h : Proceeding limit n) (s : Stmt) (hs : s.Placed false) :
    Proceeds (s.exec limit (n + 1)) := by
  cases s with
  | expression p e | function p name params body result =>
    exact proceeds_bind fun _ => proceeds_normal
  | print p e | var p name e =>
    exact proceeds_bind fun _ => proceeds_bind fun _ => proceeds_normal
  | block p ss => exact (h.execAll ss hs).inScope "block"
  | ifElse p c yes no =>
    refine proceeds_bind fun v => ?_
    split
    · exact h.exec yes hs.2.1
    · cases no with
      | none => exact proceeds_normal
      | some no => exact h.exec no hs.2.2.1
  | whileLoop p c body => exact h.rounds (some c) body none hs.2
  | forLoop p init c increment body =>
    rw [exec_forLoop]
    refine Proceeds.inScope (Proceeds.andThen ?_ (h.rounds c body increment hs.2.2)) "for"
    cases init with
    | none => exact proceeds_normal
    | some init => exact h.exec init hs.1
  | ret p e => cases hs

theorem proceeds_execAll (h : Proceeding limit n) (ss : List Stmt) (hss : Stmt.PlacedIn false ss) :
    Proceeds (Stmt.execAll limit (n + 1) ss) := by
  cases ss with
  | nil => exact proceeds_normal
  | cons s ss =>
    rw [execAll_cons]
    exact (h.exec s hss.1).andThen (h.execAll ss hss.2)

theorem proceeds_rounds (h : Proceeding limit n) (cond : Option Expr) (body : Stmt)
    (increment : Option Expr) (hbody : body.Placed false) :
    Proceeds (Stmt.rounds limit (n + 1) cond body increment) := by
  rw [rounds_succ]
  refine proceeds_bind fun go => ?_
  cases go with
  | false => exact proceeds_normal
  | true =>
    exact (h.exec body hbody).andThen (proceeds_bind fun _ => h.rounds cond body increment hbody)

end Proceeding

/-- With no budget nothing happens; with one more step, the parts have run before. -/
theorem proceeding (limit : Option Nat) (n : Nat) : Proceeding limit n := by
  induction n with
  | zero => constructor <;> intros <;> exact proceeds_unfinished
  | succ n ih => exact ⟨ih.proceeds_exec, ih.proceeds_execAll, ih.proceeds_rounds⟩

end

end GradualScript
