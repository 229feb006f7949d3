import GradualScript.Proofs.Evaluation.Failures
import GradualScript.Proofs.Scopes.Map
import GradualScript.Proofs.Typing.Moved

/-!
# Running moved trees

Execution looks neither at recorded types nor at positions, except to say where it
failed. A tree and the moved tree run in the same way, up to the bodies of function
values and the place of a failure.
-/
namespace GradualScript

variable {g : Position → Position}

/-- A function whose body has been moved. -/
def Function.moved (g : Position → Position) (f : Function) : Function :=
  { f with body := Stmt.movedAll g f.body }

/-- Only functions contain positions. -/
def Value.moved (g : Position → Position) : Value → Value
  | function f => .function (f.moved g)
  | v => v

namespace Value

@[simp] theorem isTruthy_moved (v : Value) : (v.moved g).isTruthy = v.isTruthy := by
  cases v <;> rfl

@[simp] theorem text_moved (v : Value) : (v.moved g).text = v.text := by cases v <;> rfl

@[simp] theorem same_moved (v w : Value) : (v.moved g).same (w.moved g) = v.same w := by
  cases v <;> cases w <;> rfl

end Value

namespace Operator

theorem applyUnary_moved (op : Operator) (v : Value) :
    op.applyUnary (v.moved g) = (op.applyUnary v).map (Value.moved g) := by
  cases op <;> cases v <;> rfl

theorem applyToNumbers_moved (op : Operator) (x y : Number) :
    op.applyToNumbers x y = (op.applyToNumbers x y).map (Value.moved g) := by
  cases op with
  | divide =>
    rw [applyToNumbers]
    split <;> rfl
  | _ => rfl

/-- No operator looks into a function, so it does the same with moved values. -/
theorem applyBinary_moved (op : Operator) (v w : Value) :
    op.applyBinary (v.moved g) (w.moved g) = (op.applyBinary v w).map (Value.moved g) := by
  cases op with
  | equal | notEqual => exact congrArg (fun b => Except.ok (Value.boolean b)) (by simp)
  | and | or =>
    simp only [applyBinary, Value.isTruthy_moved, Except.map]
    split <;> rfl
  | _ =>
    cases v with
    | number x =>
      cases w with
      | number y =>
        simp only [applyBinary, Value.moved]
        exact applyToNumbers_moved _ x y
      | _ => rfl
    | _ => cases w <;> rfl

end Operator

/-- The value that a statement returned, moved. -/
def Completion.moved (g : Position → Position) : Completion → Completion
  | normal => normal
  | returned v => returned (v.moved g)

@[simp] theorem Completion.value_moved (c : Completion) :
    (c.moved g).value = c.value.moved g := by cases c <;> rfl

/-- The machine with every bound value moved. -/
def Machine.moved (g : Position → Position) (m : Machine) : Machine :=
  { m with scopes := m.scopes.map (Value.moved g) }

theorem Machine.moved_fresh (g : Position → Position) (name : String) (sink : Sink) :
    (Machine.fresh name sink).moved g = .fresh name sink := by
  simp [Machine.moved, Machine.fresh]

/-- A result seen through `view`, with a failure at the place that its place is sent to. -/
def Outcome.moved {ε α β : Type} (g : Position → Position) (view : α → β) :
    Outcome (Located ε) α → Outcome (Located ε) β
  | finished a => finished (view a)
  | failed e => failed (e.moved g)
  | unfinished => unfinished

namespace Eval

variable {α β γ δ : Type} {view : α → γ} {sight : β → δ}

/-- One run does with moved trees what the other does with the trees, and its result has
the `view` of the other result. -/
def Mirrors (g : Position → Position) (view : α → γ) (run : Eval α) (bare : Eval γ) : Prop :=
  ∀ m : Machine, bare (m.moved g) = ((run m).1.moved g view, (run m).2.moved g)

theorem mirrors_pure {a : α} {c : γ} (hc : view a = c) : Mirrors g view (pure a) (pure c) := by
  subst hc
  exact fun _ => rfl

/-- The second part is mirrored for every result of the first. -/
theorem Mirrors.bind {run : Eval α} {bare : Eval γ} {f : α → Eval β} {k : γ → Eval δ}
    (hrun : Mirrors g view run bare) (hf : ∀ a, Mirrors g sight (f a) (k (view a))) :
    Mirrors g sight (run >>= f) (bare >>= k) := by
  intro m
  have hm := hrun m
  change Eval.bind bare k _ = ((Eval.bind run f m).1.moved g sight, (Eval.bind run f m).2.moved g)
  unfold Eval.bind
  cases hresult : run m with
  | mk outcome mid =>
    rw [hresult] at hm
    rw [hm]
    cases outcome with
    | finished a => exact hf a mid
    | failed e => rfl
    | unfinished => rfl

theorem mirrors_unfinished : Mirrors g view unfinished unfinished := fun _ => rfl

/-- A fault is reported where its expression has been moved. -/
theorem mirrors_fail (fault : RuntimeFault) (position : Position) :
    Mirrors g view (fail fault position) (fail fault (g position)) := fun _ => rfl

theorem mirrors_ofExcept (position : Position) (result : Except RuntimeFault α) :
    Mirrors g view (ofExcept position result) (ofExcept (g position) (result.map view)) := by
  cases result with
  | ok a => exact mirrors_pure rfl
  | error fault => exact mirrors_fail fault position

theorem mirrors_lookup (name : String) (position : Position) :
    Mirrors g (Value.moved g) (lookup name position) (lookup name (g position)) := by
  intro m
  simp only [lookup, Machine.moved, Scopes.get_map]
  cases m.scopes.get name <;> rfl

/-- The value that is assigned, and the place of the assignment, are moved. -/
theorem mirrors_assign (name : String) (value : Value) (position : Position) :
    Mirrors g id (assign name value position) (assign name (value.moved g) (g position)) := by
  intro m
  simp only [assign, Machine.moved, Scopes.assign_map]
  cases m.scopes.assign name value <;> rfl

theorem mirrors_define (name : String) (value : Value) :
    Mirrors g id (define name value) (define name (value.moved g)) := by
  intro m
  simp [define, Machine.moved, Outcome.moved]

theorem mirrors_print (value : Value) : Mirrors g id (print value) (print (value.moved g)) := by
  intro m
  simp [print, Machine.moved, Outcome.moved]

theorem mirrors_declare (name : String) (params : List String) (body : List Stmt) :
    Mirrors g id (declare name params body) (declare name params (Stmt.movedAll g body)) := by
  intro m
  simp [declare, Machine.declare, Machine.moved, Outcome.moved, Value.moved, Function.moved]

theorem Mirrors.closing {run : Eval α} {bare : Eval γ} (hrun : Mirrors g view run bare)
    (size : Nat) :
    Mirrors g view (closing size run) (closing size bare) := by
  intro m
  simp only [Eval.closing, hrun m]
  simp only [Machine.closeFrom, Machine.moved, Scopes.map_truncate]

theorem Mirrors.inScope {run : Eval α} {bare : Eval γ} (hrun : Mirrors g view run bare)
    (name : String) : Mirrors g view (inScope name run) (inScope name bare) := by
  intro m
  have hopen := hrun.closing m.scopes.size (m.opened name)
  simpa [Eval.inScope, Machine.moved, Machine.opened] using hopen

/-- The frame of a call has the same parameters for a moved function. -/
theorem moved_enter (m : Machine) (f : Function) (args : List Value) :
    (m.enter f args).moved g = (m.moved g).enter (f.moved g) (args.map (Value.moved g)) := by
  have hbound : ∀ (bindings : List (String × Value)) (s : Scopes Value),
      (bindings.foldl (fun s binding => s.set binding.1 binding.2) s).map (Value.moved g) =
        (bindings.map fun binding => (binding.1, binding.2.moved g)).foldl
          (fun s binding => s.set binding.1 binding.2) (s.map (Value.moved g)) := by
    intro bindings
    induction bindings with
    | nil => exact fun _ => rfl
    | cons binding rest ih =>
      intro s
      rw [List.foldl_cons, ih, Scopes.map_set]
      rfl
  have hzip : f.params.zip (args.map (Value.moved g)) =
      (f.params.zip args).map fun binding => (binding.1, binding.2.moved g) :=
    List.zip_map_right ..
  simp only [Machine.enter, Machine.moved, hbound, Scopes.map_pushUnder, Function.moved, hzip]

/-- A call binds the moved arguments, and comes back to the scopes of its caller. -/
theorem Mirrors.inFrame {run : Eval α} {bare : Eval γ} (hrun : Mirrors g view run bare)
    (f : Function) (args : List Value) :
    Mirrors g view (inFrame f args run) (inFrame (f.moved g) (args.map (Value.moved g)) bare) := by
  intro m
  have hframe := hrun.closing m.scopes.size (m.enter f args)
  rw [moved_enter] at hframe
  have hsize : (m.moved g).scopes.size = m.scopes.size := Scopes.size_map ..
  simp only [Eval.inFrame, hsize, hframe]
  rfl

end Eval

open Eval

section

variable {limit : Option Nat} {n : Nat}

/-- Runs with one budget mirror the runs of moved trees. -/
structure Mirrored (g : Position → Position) (limit : Option Nat) (n : Nat) : Prop where
  eval : ∀ e : Expr, Mirrors g (Value.moved g) (e.eval limit n) ((e.moved g).eval limit n)
  evalAll : ∀ es : List Expr, Mirrors g (List.map (Value.moved g)) (Expr.evalAll limit n es)
    (Expr.evalAll limit n (Expr.movedAll g es))
  call : ∀ (f : Value) (args : List Value) (position : Position),
    Mirrors g (Value.moved g) (Value.call limit n f args position)
      (Value.call limit n (f.moved g) (args.map (Value.moved g)) (g position))
  exec : ∀ s : Stmt, Mirrors g (Completion.moved g) (s.exec limit n) ((s.moved g).exec limit n)
  execAll : ∀ ss : List Stmt, Mirrors g (Completion.moved g) (Stmt.execAll limit n ss)
    (Stmt.execAll limit n (Stmt.movedAll g ss))
  rounds : ∀ (cond : Option Expr) (body : Stmt) (increment : Option Expr),
    Mirrors g (Completion.moved g) (Stmt.rounds limit n cond body increment)
      (Stmt.rounds limit n (cond.map (Expr.moved g)) (body.moved g) (increment.map (Expr.moved g)))

theorem mirrors_andThen (c : Completion) {more bare : Eval Completion}
    (h : Mirrors g (Completion.moved g) more bare) :
    Mirrors g (Completion.moved g) (c.andThen more) ((c.moved g).andThen bare) := by
  cases c with
  | normal => exact h
  | returned v => exact mirrors_pure rfl

namespace Mirrored

theorem mirrors_eval (h : Mirrored g limit n) (e : Expr) :
    Mirrors g (Value.moved g) (e.eval limit (n + 1)) ((e.moved g).eval limit (n + 1)) := by
  cases e with
  | number | string | boolean | nil => exact mirrors_pure rfl
  | unary k op x =>
    refine (h.eval x).bind fun v => ?_
    rw [Operator.applyUnary_moved]
    exact mirrors_ofExcept k.position (op.applyUnary v)
  | binary k op l r =>
    refine (h.eval l).bind fun v => ?_
    cases op with
    | and =>
      simp only [Value.isTruthy_moved]
      split
      · exact h.eval r
      · exact mirrors_pure rfl
    | or =>
      simp only [Value.isTruthy_moved]
      split
      · exact mirrors_pure rfl
      · exact h.eval r
    | _ =>
      refine (h.eval r).bind fun w => ?_
      rw [Operator.applyBinary_moved]
      exact mirrors_ofExcept k.position _
  | grouping k x => exact h.eval x
  | name k name => exact mirrors_lookup name k.position
  | assign k name x =>
    refine (h.eval x).bind fun v => ?_
    exact (mirrors_assign name v k.position).bind fun _ => mirrors_pure rfl
  | call k f args =>
    refine (h.eval f).bind fun v => ?_
    exact (h.evalAll args).bind fun vs => h.call v vs k.position

theorem mirrors_evalAll (h : Mirrored g limit n) (es : List Expr) :
    Mirrors g (List.map (Value.moved g)) (Expr.evalAll limit (n + 1) es)
      (Expr.evalAll limit (n + 1) (Expr.movedAll g es)) := by
  cases es with
  | nil => exact mirrors_pure rfl
  | cons e es =>
    refine (h.eval e).bind fun v => ?_
    exact (h.evalAll es).bind fun vs => mirrors_pure rfl

/-- Calls fail for the same reasons, since a moved function has the same parameters. -/
theorem mirrors_call (h : Mirrored g limit n) (callee : Value) (args : List Value)
    (position : Position) :
    Mirrors g (Value.moved g) (Value.call limit (n + 1) callee args position)
      (Value.call limit (n + 1) (callee.moved g) (args.map (Value.moved g)) (g position)) := by
  cases callee with
  | function f =>
    have hcall : Mirrors g (Value.moved g)
        (do return (← Eval.inFrame f args (Stmt.execAll limit n f.body)).value)
        (do return (← Eval.inFrame (f.moved g) (args.map (Value.moved g))
          (Stmt.execAll limit n (f.moved g).body)).value) :=
      ((h.execAll f.body).inFrame f args).bind fun c => mirrors_pure c.value_moved.symm
    have hlength : (args.map (Value.moved g)).length = args.length := List.length_map ..
    by_cases harity : args.length = f.arity
    · have hbare : (args.map (Value.moved g)).length = (f.moved g).arity := hlength.trans harity
      intro m
      cases hlimit : limitReached? limit m.calls with
      | none =>
        have hlimit' : limitReached? limit (m.moved g).calls = none := hlimit
        rw [Value.moved, call_function harity hlimit, call_function hbare hlimit']
        exact hcall m
      | some depth =>
        have hlimit' : limitReached? limit (m.moved g).calls = some depth := hlimit
        rw [Value.moved, call_limit harity hlimit, call_limit hbare hlimit']
        exact mirrors_fail _ position m
    · have hbare : (args.map (Value.moved g)).length ≠ (f.moved g).arity :=
        fun h => harity (hlength.symm.trans h)
      rw [Value.moved, call_arity harity, call_arity hbare, hlength]
      exact mirrors_fail _ position
  | _ => exact mirrors_fail _ position

/-- A statement is executed alike, whichever positions its parts have. -/
theorem mirrors_exec (h : Mirrored g limit n) (s : Stmt) :
    Mirrors g (Completion.moved g) (s.exec limit (n + 1)) ((s.moved g).exec limit (n + 1)) := by
  cases s with
  | expression p e => exact (h.eval e).bind fun _ => mirrors_pure rfl
  | print p e =>
    refine (h.eval e).bind fun v => ?_
    exact (mirrors_print v).bind fun _ => mirrors_pure rfl
  | var p name init =>
    refine (h.eval init).bind fun v => ?_
    exact (mirrors_define name v).bind fun _ => mirrors_pure rfl
  | block p body => exact (h.execAll body).inScope "block"
  | ifElse p c yes no =>
    refine (h.eval c).bind fun v => ?_
    rw [Value.isTruthy_moved]
    split
    · exact h.exec yes
    · cases no with
      | none => exact mirrors_pure rfl
      | some no => exact h.exec no
  | whileLoop p c body => exact h.rounds (some c) body none
  | forLoop p init c increment body =>
    rw [Stmt.moved, exec_forLoop, exec_forLoop]
    refine Mirrors.inScope ?_ "for"
    have hrest (k : Completion) := mirrors_andThen k (h.rounds c body increment)
    cases init with
    | none =>
      have hnormal : Mirrors g (Completion.moved g) (pure .normal) (pure .normal) :=
        mirrors_pure rfl
      exact hnormal.bind hrest
    | some s => exact (h.exec s).bind hrest
  | function p name params body result =>
    exact (mirrors_declare name params body).bind fun _ => mirrors_pure rfl
  | ret p value =>
    cases value with
    | none => exact mirrors_pure rfl
    | some e => exact (h.eval e).bind fun v => mirrors_pure rfl

theorem mirrors_execAll (h : Mirrored g limit n) (ss : List Stmt) :
    Mirrors g (Completion.moved g) (Stmt.execAll limit (n + 1) ss)
      (Stmt.execAll limit (n + 1) (Stmt.movedAll g ss)) := by
  cases ss with
  | nil => exact mirrors_pure rfl
  | cons s ss =>
    refine (h.exec s).bind fun c => ?_
    cases c with
    | normal => exact h.execAll ss
    | returned v => exact mirrors_pure rfl

theorem mirrors_rounds (h : Mirrored g limit n) (cond : Option Expr) (body : Stmt)
    (increment : Option Expr) :
    Mirrors g (Completion.moved g) (Stmt.rounds limit (n + 1) cond body increment)
      (Stmt.rounds limit (n + 1) (cond.map (Expr.moved g)) (body.moved g)
        (increment.map (Expr.moved g))) := by
  have htest : Mirrors g id (Stmt.test limit n cond) (Stmt.test limit n (cond.map (Expr.moved g))) := by
    cases cond with
    | none => exact mirrors_pure rfl
    | some c => exact (h.eval c).bind fun v => mirrors_pure v.isTruthy_moved.symm
  have hadvance : Mirrors g id (Stmt.advance limit n increment)
      (Stmt.advance limit n (increment.map (Expr.moved g))) := by
    cases increment with
    | none => exact mirrors_pure rfl
    | some e => exact (h.eval e).bind fun _ => mirrors_pure rfl
  rw [rounds_succ, rounds_succ]
  refine htest.bind fun go => ?_
  cases go with
  | false => exact mirrors_pure rfl
  | true =>
    refine (h.exec body).bind fun c => mirrors_andThen c ?_
    exact hadvance.bind fun _ => h.rounds cond body increment

end Mirrored

/-- With no budget nothing happens; with one more step, the parts have run before. -/
theorem mirrored (g : Position → Position) (limit : Option Nat) (n : Nat) : Mirrored g limit n := by
  induction n with
  | zero =>
    constructor <;> intros <;> exact mirrors_unfinished
  | succ n ih =>
    exact ⟨ih.mirrors_eval, ih.mirrors_evalAll, ih.mirrors_call, ih.mirrors_exec,
      ih.mirrors_execAll, ih.mirrors_rounds⟩

end

/-- A checked program runs as the program does. -/
theorem Program.execute_check (p : Program) (env : TypeEnv) (limit : Option Nat) (budget : Nat)
    (name : String) (sink : Sink) :
    ((Program.execute limit budget (p.check env).tree) (.fresh name sink)).1 =
      (p.execute limit budget (.fresh name sink)).1 := by
  have hsame : ∀ q : Program, (q.execute limit budget (.fresh name sink)).1 =
      (Program.execute limit budget (Stmt.movedAll id q) (.fresh name sink)).1 := by
    intro q
    have hrun : Mirrors id id (q.execute limit budget)
        (Program.execute limit budget (Stmt.movedAll id q)) :=
      ((mirrored id limit budget).execAll q).bind fun _ => mirrors_pure rfl
    have hfresh := hrun (.fresh name sink)
    rw [Machine.moved_fresh] at hfresh
    rw [hfresh]
    cases (q.execute limit budget (.fresh name sink)).1 with
    | _ => rfl
  rw [hsame, hsame p, p.moved_check id env]

end GradualScript
