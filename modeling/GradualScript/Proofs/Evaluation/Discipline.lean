import GradualScript.Proofs.Evaluation.Frames
import GradualScript.Proofs.Evaluation.Steps

/-!
# Every run restores its frames

However a run ends, the scopes that it opened are closed and the calls that it
began are over. Expressions add no names to scopes that were there before, and
statements add names to the active scope only. Both hold of the primitive steps and
survive sequencing, so an induction on the budget carries them to whole runs.
-/
namespace GradualScript

/-- Scopes extended as `Scopes.Extends` says, inside as many calls. -/
structure Machine.Extends (grown : Option Nat) (before after : Machine) : Prop where
  scopes : Scopes.Extends grown before.scopes after.scopes
  calls_eq : after.calls = before.calls

theorem Machine.Extends.refl (grown : Option Nat) (m : Machine) : m.Extends grown m :=
  ⟨.refl grown m.scopes, rfl⟩

theorem Machine.Extends.trans {grown : Option Nat} {before mid after : Machine}
    (h : before.Extends grown mid) (h' : mid.Extends grown after) : before.Extends grown after :=
  ⟨h.scopes.trans h'.scopes, h'.calls_eq.trans h.calls_eq⟩

theorem Machine.size_opened (m : Machine) (name : String) :
    (m.opened name).scopes.size = m.scopes.size + 1 := Scopes.size_pushAt ..

/-- The frame of a call with its parameters bound. -/
theorem Machine.extends_enter (m : Machine) (f : Function) (args : List Value) :
    Scopes.Extends (some m.scopes.size) (m.scopes.pushUnder f.name f.closure)
      (m.enter f args).scopes := by
  have hbind := Scopes.extends_foldl_set (f.params.zip args) (m.scopes.pushUnder f.name f.closure)
  rwa [Scopes.pushUnder, Scopes.active_pushAt] at hbind

theorem Machine.size_enter (m : Machine) (f : Function) (args : List Value) :
    (m.enter f args).scopes.size = m.scopes.size + 1 :=
  (m.extends_enter f args).size_eq.trans (Scopes.size_pushAt ..)

/-- Where a run may add names. -/
inductive Reach where
  | nowhere
  | activeScope

def Reach.place (reach : Reach) (s : Scopes Value) : Option Nat :=
  match reach with
  | nowhere => none
  | activeScope => some s.active

namespace Eval

variable {α β : Type} {reach : Reach}

/-- From every machine with a root scope, a run extends no other record than its
reach allows, however it ends. -/
def Within (reach : Reach) (run : Eval α) : Prop :=
  ∀ m : Machine, 0 < m.scopes.size → m.Extends (reach.place m.scopes) (run m).2

theorem Within.weaken {run : Eval α} (h : Within .nowhere run) : Within reach run := by
  intro m hm
  have hrun := h m hm
  exact ⟨hrun.scopes.weaken _, hrun.calls_eq⟩

/-- The machine in the middle has the active scope of the first. -/
theorem Within.bind {run : Eval α} {f : α → Eval β} (h : Within reach run)
    (hf : ∀ a, Within reach (f a)) : Within reach (run >>= f) := by
  intro m hm
  have hrun := h m hm
  change m.Extends _ (Eval.bind run f m).2
  unfold Eval.bind
  revert hrun
  cases run m with
  | mk outcome mid =>
    intro hrun
    cases outcome with
    | finished a =>
      have hmid : 0 < mid.scopes.size := by rw [hrun.scopes.size_eq]; exact hm
      have hplace : reach.place mid.scopes = reach.place m.scopes := by
        cases reach with
        | nowhere => rfl
        | activeScope => exact congrArg some hrun.scopes.active_eq
      have hrest := hf a mid hmid
      rw [hplace] at hrest
      exact hrun.trans hrest
    | failed e => exact hrun
    | unfinished => exact hrun

theorem within_pure (a : α) : Within reach (pure a) := fun m _ => .refl _ m

theorem within_unfinished : Within reach (Eval.unfinished : Eval α) := fun m _ => .refl _ m

theorem within_fail (fault : RuntimeFault) (position : Position) :
    Within reach (Eval.fail fault position : Eval α) := fun m _ => .refl _ m

theorem within_ofExcept (position : Position) (result : Except RuntimeFault α) :
    Within reach (Eval.ofExcept position result) := by
  cases result with
  | ok a => exact within_pure a
  | error fault => exact within_fail fault position

theorem within_lookup (name : String) (position : Position) :
    Within reach (Eval.lookup name position) := by
  intro m _
  unfold Eval.lookup
  cases m.scopes.get name with
  | some v => exact .refl _ m
  | none => exact .refl _ m

theorem within_assign (name : String) (value : Value) (position : Position) :
    Within reach (Eval.assign name value position) := by
  intro m _
  unfold Eval.assign
  cases h : m.scopes.assign name value with
  | some result => exact ⟨(Scopes.extends_assign h).weaken _, rfl⟩
  | none => exact .refl _ m

theorem within_print (value : Value) : Within reach (Eval.print value) :=
  fun m _ => ⟨.refl _ m.scopes, rfl⟩

theorem within_define (name : String) (value : Value) :
    Within .activeScope (Eval.define name value) :=
  fun m _ => ⟨Scopes.extends_setAt m.scopes m.scopes.active name value, rfl⟩

theorem within_declare (name : String) (params : List String) (body : List Stmt) :
    Within .activeScope (Eval.declare name params body) :=
  fun m _ => ⟨Scopes.extends_setAt m.scopes m.scopes.active name _, rfl⟩

/-- What happens inside a new scope is gone with it. -/
theorem Within.inScope {run : Eval α} (name : String) (h : Within .activeScope run) :
    Within reach (Eval.inScope name run) := by
  intro m hm
  have hrun := h (m.opened name) (by rw [m.size_opened]; omega)
  have hscopes := hrun.scopes
  rw [Reach.place, Machine.opened, Scopes.push, Scopes.active_pushAt] at hscopes
  exact ⟨(Scopes.extends_truncate hm hscopes).weaken _, hrun.calls_eq⟩

/-- The frame of a call is gone after it, and the call is over. -/
theorem Within.inFrame {run : Eval α} (f : Function) (args : List Value)
    (h : Within .activeScope run) : Within reach (Eval.inFrame f args run) := by
  intro m hm
  have hbind := m.extends_enter f args
  have hrun := h (m.enter f args) (by rw [m.size_enter]; omega)
  have hscopes := hrun.scopes
  rw [Reach.place, hbind.active_eq, Scopes.pushUnder, Scopes.active_pushAt] at hscopes
  refine ⟨(Scopes.extends_truncate hm (hbind.trans hscopes)).weaken _, ?_⟩
  have hcalls : (run (m.enter f args)).2.calls = m.calls + 1 := hrun.calls_eq
  change (run (m.enter f args)).2.calls - 1 = m.calls
  omega

theorem within_andThen (c : Completion) {more : Eval Completion} (h : Within reach more) :
    Within reach (c.andThen more) := by
  cases c with
  | normal => exact h
  | returned v => exact within_pure _

end Eval

open Eval

/-- All runs with a budget stay within their reach. -/
structure Disciplined (limit : Option Nat) (n : Nat) : Prop where
  eval : ∀ e : Expr, Within .nowhere (e.eval limit n)
  evalAll : ∀ es, Within .nowhere (Expr.evalAll limit n es)
  call : ∀ f args position, Within .nowhere (Value.call limit n f args position)
  exec : ∀ s : Stmt, Within .activeScope (s.exec limit n)
  execAll : ∀ ss, Within .activeScope (Stmt.execAll limit n ss)
  rounds : ∀ cond body increment, Within .activeScope (Stmt.rounds limit n cond body increment)

namespace Disciplined

variable {limit : Option Nat} {n : Nat}

theorem within_eval (h : Disciplined limit n) (e : Expr) :
    Within .nowhere (e.eval limit (n + 1)) := by
  cases e with
  | number | string | boolean | nil => exact within_pure _
  | unary m op operand => exact (h.eval operand).bind fun v => within_ofExcept _ _
  | binary m op left right =>
    refine (h.eval left).bind fun l => ?_
    split
    · split
      · exact h.eval right
      · exact within_pure l
    · split
      · exact within_pure l
      · exact h.eval right
    · exact (h.eval right).bind fun r => within_ofExcept _ _
  | grouping m inner => exact h.eval inner
  | name m name => exact within_lookup _ _
  | assign m name value =>
    exact (h.eval value).bind fun v => (within_assign _ _ _).bind fun _ => within_pure v
  | call m callee args =>
    exact (h.eval callee).bind fun f => (h.evalAll args).bind fun vs => h.call f vs m.position

theorem within_evalAll (h : Disciplined limit n) (es : List Expr) :
    Within .nowhere (Expr.evalAll limit (n + 1) es) := by
  cases es with
  | nil => exact within_pure []
  | cons e es => exact (h.eval e).bind fun v => (h.evalAll es).bind fun vs => within_pure (v :: vs)

theorem within_call (h : Disciplined limit n) (callee : Value) (args : List Value)
    (position : Position) : Within .nowhere (Value.call limit (n + 1) callee args position) := by
  cases callee with
  | function f =>
    by_cases harity : args.length = f.arity
    · intro m hm
      cases hlimit : limitReached? limit m.calls with
      | none =>
        have hbody : Within .nowhere (Eval.inFrame f args (Stmt.execAll limit n f.body)) :=
          (h.execAll f.body).inFrame f args
        rw [call_function harity hlimit]
        exact (hbody.bind fun c => within_pure c.value) m hm
      | some depth =>
        rw [call_limit harity hlimit]
        exact within_fail _ position m hm
    · rw [call_arity harity]
      exact within_fail _ position
  | _ => exact within_fail _ position

/-- The clause of a loop head that runs first. -/
theorem within_begin (h : Disciplined limit n) (init : Option Stmt) :
    Within .activeScope (Stmt.begin limit n init) := by
  cases init with
  | none => exact within_pure _
  | some s => exact h.exec s

/-- What a loop with clauses does inside its scope. -/
theorem within_loop (h : Disciplined limit n) (init : Option Stmt) (cond : Option Expr)
    (body : Stmt) (increment : Option Expr) : Within .activeScope (do
      let c ← Stmt.begin limit n init
      c.andThen (Stmt.rounds limit n cond body increment)) :=
  (h.within_begin init).bind fun c => within_andThen c (h.rounds cond body increment)

theorem within_exec (h : Disciplined limit n) (s : Stmt) :
    Within .activeScope (s.exec limit (n + 1)) := by
  cases s with
  | expression p e => exact (h.eval e).weaken.bind fun _ => within_pure _
  | print p e =>
    exact (h.eval e).weaken.bind fun v => (within_print v).bind fun _ => within_pure _
  | var p name init =>
    exact (h.eval init).weaken.bind fun v => (within_define name v).bind fun _ => within_pure _
  | block p body => exact (h.execAll body).inScope "block"
  | ifElse p cond yes no =>
    refine (h.eval cond).weaken.bind fun c => ?_
    split
    · exact h.exec yes
    · split
      · next s => exact h.exec s
      · exact within_pure _
  | whileLoop p cond body => exact h.rounds (some cond) body none
  | forLoop p init cond increment body =>
    rw [exec_forLoop]
    exact (h.within_loop init cond body increment).inScope "for"
  | function p name params body result =>
    exact (within_declare name params body).bind fun _ => within_pure _
  | ret p value =>
    cases value with
    | none => exact within_pure _
    | some e => exact (h.eval e).weaken.bind fun v => within_pure (Completion.returned v)

theorem within_execAll (h : Disciplined limit n) (ss : List Stmt) :
    Within .activeScope (Stmt.execAll limit (n + 1) ss) := by
  cases ss with
  | nil => exact within_pure _
  | cons s ss =>
    refine (h.exec s).bind fun c => ?_
    split
    · exact h.execAll ss
    · exact within_pure _

/-- The condition of a loop. -/
theorem within_test (h : Disciplined limit n) (cond : Option Expr) :
    Within .nowhere (Stmt.test limit n cond) := by
  cases cond with
  | none => exact within_pure true
  | some c => exact (h.eval c).bind fun v => within_pure v.isTruthy

/-- The clause of a loop head that runs after each round. -/
theorem within_advance (h : Disciplined limit n) (increment : Option Expr) :
    Within .nowhere (Stmt.advance limit n increment) := by
  cases increment with
  | none => exact within_pure ()
  | some e => exact (h.eval e).bind fun _ => within_pure ()

theorem within_rounds (h : Disciplined limit n) (cond : Option Expr) (body : Stmt)
    (increment : Option Expr) :
    Within .activeScope (Stmt.rounds limit (n + 1) cond body increment) := by
  rw [rounds_succ]
  refine (h.within_test cond).weaken.bind fun go => ?_
  cases go with
  | false => exact within_pure _
  | true =>
    refine (h.exec body).bind fun c => within_andThen c ?_
    exact (h.within_advance increment).weaken.bind fun _ => h.rounds cond body increment

end Disciplined

/-- With no budget nothing happens; with one more step, the parts have run before. -/
theorem disciplined (limit : Option Nat) (n : Nat) : Disciplined limit n := by
  induction n with
  | zero =>
    constructor <;> intros <;> exact within_unfinished
  | succ n ih =>
    exact ⟨ih.within_eval, ih.within_evalAll, ih.within_call, ih.within_exec, ih.within_execAll,
      ih.within_rounds⟩

/-- However evaluation or execution ends: the records of the scopes have the names,
parents and serial numbers that they had, and as many calls are in progress. No
name was removed from a record; an expression added none, and a statement added
names to the scope only that was active at its start. A machine always has its root
scope: it is made with one, and runs keep the number of scopes. -/
theorem run_restores_frames (limit : Option Nat) (budget : Nat) (m : Machine)
    (hroot : 0 < m.scopes.size) :
    (∀ e : Expr, m.Extends none (e.eval limit budget m).2) ∧
      ∀ s : Stmt, m.Extends (some m.scopes.active) (s.exec limit budget m).2 :=
  ⟨fun e => (disciplined limit budget).eval e m hroot,
    fun s => (disciplined limit budget).exec s m hroot⟩

theorem run_restores_frames_fresh :
    0 < (Machine.fresh "root" .silent).scopes.size ∧
      (∀ e : Expr, (Machine.fresh "root" .silent).Extends none
        (e.eval (some 2) 8 (.fresh "root" .silent)).2) ∧
      ∀ s : Stmt, (Machine.fresh "root" .silent).Extends (some 0)
        (s.exec (some 2) 8 (.fresh "root" .silent)).2 :=
  ⟨by decide, run_restores_frames (some 2) 8 (.fresh "root" .silent) (by decide)⟩

end GradualScript
