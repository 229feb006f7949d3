import GradualScript.Evaluation.Machine

/-!
# Running programs

Statements run in order, expressions from left to right. `and` and `or` skip their
right operand when the left one decides. A `return` ends the function body around
it; at top level it ends the program.

A program may run forever, so every run has a budget that bounds how deep it goes:
each part of a tree, each round of a loop and each statement after another takes
one. A run that ends does so with every larger budget, in the same way.
-/
namespace GradualScript

/-- How a statement ends. -/
inductive Completion where
  | normal
  | returned (value : Value)

/-- Calls nest no deeper than this unless a host says otherwise. -/
def defaultCallLimit : Nat := 10000

/-- A limit on nested calls forbids one more inside `calls` others. -/
def limitReached? (limit : Option Nat) (calls : Nat) : Option Nat :=
  limit.filter (· ≤ calls)

/-- The value of a call whose body ended. A body without `return` gives `nil`. -/
def Completion.value : Completion → Value
  | normal => .nil
  | returned v => v

mutual

def Expr.eval (limit : Option Nat) : Nat → Expr → Eval Value
  | 0, _ => .unfinished
  | n + 1, e =>
      match e with
      | .number _ v => return .number v
      | .string _ s => return .string s
      | .boolean _ b => return .boolean b
      | .nil _ => return .nil
      | .unary m op operand => do
          let v ← operand.eval limit n
          .ofExcept m.position (op.applyUnary v)
      | .binary m op left right => do
          let l ← left.eval limit n
          match op with
          | .and => if l.isTruthy then right.eval limit n else return l
          | .or => if l.isTruthy then return l else right.eval limit n
          | op => do
              let r ← right.eval limit n
              .ofExcept m.position (op.applyBinary l r)
      | .grouping _ inner => inner.eval limit n
      | .name m name => .lookup name m.position
      | .assign m name value => do
          let v ← value.eval limit n
          Eval.assign name v m.position
          return v
      | .call m callee args => do
          let f ← callee.eval limit n
          let vs ← Expr.evalAll limit n args
          Value.call limit n f vs m.position

/-- The values of expressions, from left to right. -/
def Expr.evalAll (limit : Option Nat) : Nat → List Expr → Eval (List Value)
  | 0, _ => .unfinished
  | n + 1, es =>
      match es with
      | [] => return []
      | e :: es => do
          let v ← e.eval limit n
          let vs ← Expr.evalAll limit n es
          return v :: vs

/-- Calls a value at a position. It must be a function, of as many parameters as
there are arguments, and the limit must allow one more call. -/
def Value.call (limit : Option Nat) : Nat → Value → List Value → Position → Eval Value
  | 0, _, _, _ => .unfinished
  | n + 1, callee, args, position => fun m =>
      match callee with
      | .function f =>
          if args.length ≠ f.arity then
            Eval.fail (.arityMismatch f.name f.arity args.length) position m
          else
            match limitReached? limit m.calls with
            | some depth => Eval.fail (.callLimitReached depth) position m
            | none => (do
                let c ← Eval.inFrame f args (Stmt.execAll limit n f.body)
                return c.value) m
      | other => Eval.fail (.notCallable other.kind) position m

def Stmt.exec (limit : Option Nat) : Nat → Stmt → Eval Completion
  | 0, _ => .unfinished
  | n + 1, s =>
      match s with
      | .expression _ e => do
          let _ ← e.eval limit n
          return .normal
      | .print _ e => do
          let v ← e.eval limit n
          Eval.print v
          return .normal
      | .var _ name init => do
          let v ← init.eval limit n
          Eval.define name v
          return .normal
      | .block _ body => Eval.inScope "block" (Stmt.execAll limit n body)
      | .ifElse _ cond yes no => do
          let c ← cond.eval limit n
          if c.isTruthy then yes.exec limit n
          else match no with
            | some s => s.exec limit n
            | none => return .normal
      | .whileLoop _ cond body => Stmt.rounds limit n (some cond) body none
      | .forLoop _ init cond increment body => Eval.inScope "for" do
          let c ← match init with
            | some s => s.exec limit n
            | none => pure .normal
          match c with
          | .normal => Stmt.rounds limit n cond body increment
          | .returned v => return .returned v
      | .function _ name params body _ => do
          Eval.declare name params body
          return .normal
      | .ret _ none => return .returned .nil
      | .ret _ (some e) => do
          let v ← e.eval limit n
          return .returned v

/-- Runs statements in the active scope until one returns. -/
def Stmt.execAll (limit : Option Nat) : Nat → List Stmt → Eval Completion
  | 0, _ => .unfinished
  | n + 1, ss =>
      match ss with
      | [] => return .normal
      | s :: ss => do
          match ← s.exec limit n with
          | .normal => Stmt.execAll limit n ss
          | .returned v => return .returned v

/-- The rounds of a loop. Without a condition it ends only by a `return`. -/
def Stmt.rounds (limit : Option Nat) :
    Nat → Option Expr → Stmt → Option Expr → Eval Completion
  | 0, _, _, _ => .unfinished
  | n + 1, cond, body, increment => do
      let go ← match cond with
        | some c => do
            let v ← c.eval limit n
            pure v.isTruthy
        | none => pure true
      if go then
        match ← body.exec limit n with
        | .normal => do
            match increment with
            | some e => do
                let _ ← e.eval limit n
                Stmt.rounds limit n cond body increment
            | none => Stmt.rounds limit n cond body increment
        | .returned v => return .returned v
      else return .normal

end

/-- Runs a program. A `return` at top level ends it. -/
def Program.execute (limit : Option Nat) (budget : Nat) (program : Program) : Eval Unit := do
  let _ ← Stmt.execAll limit budget program
  return ()

end GradualScript
