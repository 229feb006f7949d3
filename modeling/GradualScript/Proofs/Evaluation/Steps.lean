import GradualScript.Evaluation.Evaluator

/-!
# One step of evaluation

Sequencing runs is associative. Binary operators, loops and calls take one step in a few
forms, each of which has its equation here.
-/
namespace GradualScript

/-- The left operand of a binary operator does not decide the result. -/
def Operator.needsRight (op : Operator) (left : Value) : Bool :=
  match op with
  | and => left.isTruthy
  | or => !left.isTruthy
  | _ => true

/-- Whether a loop goes on for another round. -/
def Stmt.test (limit : Option Nat) (n : Nat) (cond : Option Expr) : Eval Bool :=
  match cond with
  | some c => do
      let v ← c.eval limit n
      return v.isTruthy
  | none => return true

/-- The clause of a loop head that runs after each round. -/
def Stmt.advance (limit : Option Nat) (n : Nat) (increment : Option Expr) : Eval Unit :=
  match increment with
  | some e => do
      let _ ← e.eval limit n
      return ()
  | none => return ()

/-- The clause of a loop head that runs before the first round. -/
def Stmt.begin (limit : Option Nat) (n : Nat) (init : Option Stmt) : Eval Completion :=
  match init with
  | some s => s.exec limit n
  | none => return .normal

/-- What is left to do after a statement: `more`, unless it returned. -/
def Completion.andThen (c : Completion) (more : Eval Completion) : Eval Completion :=
  match c with
  | normal => more
  | returned v => return .returned v

/-- A machine with a new scope under its active scope. -/
def Machine.opened (m : Machine) (name : String) : Machine :=
  { m with scopes := m.scopes.push name }

namespace Eval

variable {α β γ : Type} {run : Eval α} {f : α → Eval β} {m mid : Machine} {a : α}

theorem bind_finished (h : run m = (.finished a, mid)) : (run >>= f) m = f a mid := by
  change Eval.bind run f m = _
  rw [Eval.bind, h]

theorem bind_fails {e : RuntimeError} (h : run m = (.failed e, mid)) :
    (run >>= f) m = (.failed e, mid) := by
  change Eval.bind run f m = _
  rw [Eval.bind, h]

theorem bind_unfinished (h : (run m).1 = .unfinished) : ((run >>= f) m).1 = .unfinished := by
  change (Eval.bind run f m).1 = _
  unfold Eval.bind
  split <;> simp_all

/-- The second part of a run starts if the first finished. -/
theorem bind_outcome (run : Eval α) (f : α → Eval β) (m : Machine) :
    (∃ a mid, run m = (.finished a, mid) ∧ (run >>= f) m = f a mid) ∨
      (∃ e mid, run m = (.failed e, mid) ∧ (run >>= f) m = (.failed e, mid)) ∨
      ∃ mid, run m = (.unfinished, mid) ∧ (run >>= f) m = (.unfinished, mid) := by
  change (∃ a mid, _ ∧ Eval.bind run f m = _) ∨ (∃ e mid, _ ∧ Eval.bind run f m = _) ∨
    ∃ mid, _ ∧ Eval.bind run f m = _
  unfold Eval.bind
  cases run m with
  | mk outcome mid =>
    cases outcome with
    | finished a => exact .inl ⟨a, mid, rfl, rfl⟩
    | failed e => exact .inr (.inl ⟨e, mid, rfl, rfl⟩)
    | unfinished => exact .inr (.inr ⟨mid, rfl, rfl⟩)

theorem bind_finished_cases {b : β} {last : Machine} (h : (run >>= f) m = (.finished b, last)) :
    ∃ a mid, run m = (.finished a, mid) ∧ f a mid = (.finished b, last) := by
  rcases bind_outcome run f m with ⟨a, mid, hrun, hbind⟩ | ⟨e, mid, -, hbind⟩ | ⟨mid, -, hbind⟩
  · exact ⟨a, mid, hrun, hbind ▸ h⟩
  · rw [hbind] at h
    cases h
  · rw [hbind] at h
    cases h

/-- A run that passes a failure on does so in whatever way its parts are grouped. -/
instance : LawfulMonad Eval := by
  refine LawfulMonad.mk' Eval (fun run => ?_) (fun _ _ => rfl) (fun run f g => ?_)
  · funext m
    change Eval.bind run (fun a m => (.finished a, m)) m = run m
    unfold Eval.bind
    cases run m with
    | mk outcome mid => cases outcome <;> rfl
  · funext m
    change Eval.bind (Eval.bind run f) g m = Eval.bind run (fun a => Eval.bind (f a) g) m
    unfold Eval.bind
    cases run m with
    | mk outcome mid => cases outcome <;> rfl

/-- A run in a scope of its own closes that scope. -/
theorem inScope_finished {name : String} {last : Machine}
    (h : Eval.inScope name run m = (.finished a, last)) :
    ∃ inner, run (m.opened name) = (.finished a, inner) ∧ last = inner.closeFrom m.scopes.size := by
  have houtcome : (run (m.opened name)).1 = .finished a := congrArg Prod.fst h
  exact ⟨(run (m.opened name)).2, Prod.ext houtcome rfl, (congrArg Prod.snd h).symm⟩

theorem ofExcept_finished {position : Position} {result : Except RuntimeFault α}
    (h : Eval.ofExcept position result m = (.finished a, mid)) : result = .ok a := by
  cases result with
  | ok found =>
    cases h
    rfl
  | error fault => cases h

/-- Applying an operator leaves the machine as it is. -/
theorem ofExcept_machine (position : Position) (result : Except RuntimeFault α) (m : Machine) :
    (Eval.ofExcept position result m).2 = m := by
  cases result <;> rfl

end Eval

section

variable {limit : Option Nat} {n : Nat}

open Eval

/-- Where the left operand does not decide, the right one is evaluated and the operator
is applied, also if it is `and` or `or`. -/
theorem eval_binary (k : Mark) (op : Operator) (l r : Expr) :
    (Expr.binary k op l r).eval limit (n + 1) = (do
      let v ← l.eval limit n
      if op.needsRight v then
        let w ← r.eval limit n
        Eval.ofExcept k.position (op.applyBinary v w)
      else return v) := by
  refine congrArg (l.eval limit n >>= ·) (funext fun v => ?_)
  cases op with
  | and =>
    cases htruthy : v.isTruthy with
    | true =>
      simp only [Operator.needsRight, Operator.applyBinary, htruthy, if_true]
      exact (bind_pure (r.eval limit n)).symm
    | false => simp only [Operator.needsRight, htruthy, Bool.false_eq_true, if_false]
  | or =>
    cases htruthy : v.isTruthy with
    | true =>
      simp only [Operator.needsRight, htruthy, Bool.not_true, Bool.false_eq_true, if_true, if_false]
    | false =>
      simp only [Operator.needsRight, Operator.applyBinary, htruthy, Bool.not_false,
        Bool.false_eq_true, if_true, if_false]
      exact (bind_pure (r.eval limit n)).symm
  | _ => rfl

theorem eval_binary_right {m mid : Machine} {k : Mark} {op : Operator} {l r : Expr} {v : Value}
    (hl : l.eval limit n m = (.finished v, mid)) (hneeds : op.needsRight v = true) :
    (Expr.binary k op l r).eval limit (n + 1) m =
      (r.eval limit n >>= fun w => Eval.ofExcept k.position (op.applyBinary v w)) mid := by
  rw [eval_binary, bind_finished hl]
  simp only [hneeds, if_true]

theorem eval_binary_left {m mid : Machine} {k : Mark} {op : Operator} {l r : Expr} {v : Value}
    (hl : l.eval limit n m = (.finished v, mid)) (hneeds : op.needsRight v = false) :
    (Expr.binary k op l r).eval limit (n + 1) m = (.finished v, mid) := by
  rw [eval_binary, bind_finished hl]
  simp only [hneeds, Bool.false_eq_true, if_false]
  rfl

theorem rounds_succ (cond : Option Expr) (body : Stmt) (increment : Option Expr) :
    Stmt.rounds limit (n + 1) cond body increment = (do
      let go ← Stmt.test limit n cond
      if go then
        let c ← body.exec limit n
        c.andThen (do
          let _ ← Stmt.advance limit n increment
          Stmt.rounds limit n cond body increment)
      else return .normal) := by
  cases increment with
  | none =>
    cases cond with
    | none => rfl
    | some c =>
      simp only [Stmt.test, bind_assoc, pure_bind]
      rfl
  | some e =>
    cases cond with
    | none =>
      simp only [Stmt.advance, bind_assoc, pure_bind]
      rfl
    | some c =>
      simp only [Stmt.test, Stmt.advance, bind_assoc, pure_bind]
      rfl

theorem execAll_cons (s : Stmt) (ss : List Stmt) :
    Stmt.execAll limit (n + 1) (s :: ss) = (do
      let c ← s.exec limit n
      c.andThen (Stmt.execAll limit n ss)) := by
  refine congrArg (s.exec limit n >>= ·) (funext fun c => ?_)
  cases c <;> rfl

theorem execAll_singleton (s : Stmt) :
    Stmt.execAll limit (n + 2) [s] = s.exec limit (n + 1) := by
  have hrest : (fun c : Completion => c.andThen (Stmt.execAll limit (n + 1) [])) = pure := by
    funext c
    cases c <;> rfl
  rw [execAll_cons, hrest, bind_pure]

theorem exec_forLoop (p : Position) (init : Option Stmt) (cond increment : Option Expr)
    (body : Stmt) :
    (Stmt.forLoop p init cond increment body).exec limit (n + 1) = Eval.inScope "for" (do
      let c ← Stmt.begin limit n init
      c.andThen (Stmt.rounds limit n cond body increment)) := by
  cases init <;> rfl

theorem call_arity {f : Function} {args : List Value} (harity : args.length ≠ f.arity)
    (position : Position) :
    Value.call limit (n + 1) (.function f) args position =
      Eval.fail (.arityMismatch f.name f.arity args.length) position := by
  funext m
  simp only [Value.call, ne_eq, harity, not_false_eq_true, if_true]

theorem call_limit {f : Function} {args : List Value} {position : Position} {m : Machine}
    {depth : Nat} (harity : args.length = f.arity)
    (hlimit : limitReached? limit m.calls = some depth) :
    Value.call limit (n + 1) (.function f) args position m =
      Eval.fail (.callLimitReached depth) position m := by
  simp only [Value.call, harity, hlimit, ne_eq, not_true_eq_false, if_false]

theorem call_function {f : Function} {args : List Value} {position : Position} {m : Machine}
    (harity : args.length = f.arity) (hlimit : limitReached? limit m.calls = none) :
    Value.call limit (n + 1) (.function f) args position m = (do
      let c ← Eval.inFrame f args (Stmt.execAll limit n f.body)
      return c.value) m := by
  simp only [Value.call, harity, hlimit, ne_eq, not_true_eq_false, if_false]

end

end GradualScript
