import GradualScript.Scopes
import GradualScript.Tree
import GradualScript.Typing.Rules

/-!
# Checking programs

Checking goes through a program once, from left to right, with the type of every
bound name in scopes. It stops at the first fault. An assignment gives its
variable the type of the assigned value; a function's parameters and every call
have the wildcard type.

The result holds the tree with the type of each expression that passed recorded
on it, also where a later part failed.
-/
namespace GradualScript

abbrev TypeEnv := Scopes TypeSet

/-- What the root scope of every environment is called. -/
def globalScope : String := "global"

def TypeEnv.fresh : TypeEnv := .new globalScope

/-- What checking leaves: the tree with its recorded types, the environment, and
the verdict. -/
structure Checked (τ : Type) (α : Type) where
  tree : τ
  env : TypeEnv
  verdict : Except TypeError α

namespace Checked

variable {τ α β : Type}

/-- Goes on after a part passed; otherwise leaves `tree` as it is. -/
@[inline]
def next (part : Except TypeError α) (tree : τ) (env : TypeEnv) (go : α → Checked τ β) :
    Checked τ β :=
  match part with
  | .ok a => go a
  | .error e => ⟨tree, env, .error e⟩

/-- The end of checking an expression: a type that was found is recorded. -/
def settle (tree : Expr) (env : TypeEnv) (verdict : Except TypeError TypeSet) :
    Checked Expr TypeSet :=
  match verdict with
  | .ok type => ⟨tree.record type, env, .ok type⟩
  | .error e => ⟨tree, env, .error e⟩

end Checked

/-- A verdict of the operator rules at a position. -/
def Located.atPosition {ε α : Type} (position : Position) (verdict : Except ε α) :
    Except (Located ε) α :=
  verdict.mapError (⟨·, position⟩)

open Checked

mutual

def Expr.check (e : Expr) (env : TypeEnv) : Checked Expr TypeSet :=
  match e with
  | .number _ _ => settle e env (.ok .numeric)
  | .string _ _ => settle e env (.ok .string)
  | .boolean _ _ => settle e env (.ok .boolean)
  | .nil _ => settle e env (.ok .nil)
  | .name m n =>
      settle e env (match env.get n with
        | some type => .ok type
        | none => .error ⟨.undefinedVariable n, m.position⟩)
  | .assign m n value =>
      let v := value.check env
      let tree := Expr.assign m n v.tree
      next v.verdict tree v.env fun type =>
        match v.env.assign n type with
        | some (_, env) => settle tree env (.ok type)
        | none => settle tree v.env (.error ⟨.undefinedVariable n, m.position⟩)
  | .unary m op operand =>
      let o := operand.check env
      settle (.unary m op o.tree) o.env
        (o.verdict.bind fun type => Located.atPosition m.position (op.unaryType type))
  | .binary m op left right =>
      let l := left.check env
      let r := next l.verdict right l.env fun _ => right.check l.env
      settle (.binary m op l.tree r.tree) r.env
        (l.verdict.bind fun lt => r.verdict.bind fun rt =>
          Located.atPosition m.position (op.binaryType lt rt))
  | .grouping m inner =>
      let i := inner.check env
      settle (.grouping m i.tree) i.env i.verdict
  | .call m callee args =>
      let c := callee.check env
      let a := next c.verdict args c.env fun _ => Expr.checkAll args c.env
      settle (.call m c.tree a.tree) a.env (a.verdict.map fun _ => .any)

def Expr.checkAll (es : List Expr) (env : TypeEnv) : Checked (List Expr) Unit :=
  match es with
  | [] => ⟨[], env, .ok ()⟩
  | e :: es =>
      let first := e.check env
      let rest := next first.verdict es first.env fun _ => Expr.checkAll es first.env
      ⟨first.tree :: rest.tree, rest.env, rest.verdict⟩

end

/-- Checks an expression if it is there. -/
def Expr.checkOption (e : Option Expr) (env : TypeEnv) : Checked (Option Expr) Unit :=
  match e with
  | none => ⟨none, env, .ok ()⟩
  | some e =>
      let c := e.check env
      ⟨some c.tree, c.env, c.verdict.map fun _ => ()⟩

/-- A returned value must fit the result type of the function around it. -/
def returnVerdict (expected found : TypeSet) (position : Position) : Except TypeError Unit :=
  if expected.contains found then .ok () else .error ⟨.mismatch expected found, position⟩

mutual

/-- Checks a statement inside a function of result type `expected`; outside of all
functions that is the wildcard. -/
def Stmt.check (expected : TypeSet) (s : Stmt) (env : TypeEnv) : Checked Stmt Unit :=
  match s with
  | .expression p e =>
      let c := e.check env
      ⟨.expression p c.tree, c.env, c.verdict.map fun _ => ()⟩
  | .print p e =>
      let c := e.check env
      ⟨.print p c.tree, c.env, c.verdict.map fun _ => ()⟩
  | .var p n init =>
      let c := init.check env
      let tree := Stmt.var p n c.tree
      next c.verdict tree c.env fun type => ⟨tree, c.env.set n type, .ok ()⟩
  | .block p body =>
      let b := Stmt.checkAll expected body (env.push "block")
      ⟨.block p b.tree, b.env.pop, b.verdict⟩
  | .ifElse p cond yes no =>
      let c := cond.check env
      let y := next c.verdict yes c.env fun _ => yes.check expected c.env
      let n := next y.verdict no y.env fun _ => Stmt.checkOption expected no y.env
      ⟨.ifElse p c.tree y.tree n.tree, n.env, n.verdict⟩
  | .whileLoop p cond body =>
      let c := cond.check env
      let b := next c.verdict body c.env fun _ => body.check expected c.env
      ⟨.whileLoop p c.tree b.tree, b.env, b.verdict⟩
  | .forLoop p init cond increment body =>
      let i := Stmt.checkOption expected init (env.push "for")
      let c := next i.verdict cond i.env fun _ => Expr.checkOption cond i.env
      let b := next c.verdict body c.env fun _ => body.check expected c.env
      let n := next b.verdict increment b.env fun _ => Expr.checkOption increment b.env
      ⟨.forLoop p i.tree c.tree n.tree b.tree, n.env.pop, n.verdict⟩
  | .function p n params body result =>
      let inside := params.foldl (fun env param => env.set param .any) ((env.set n .any).push n)
      let b := Stmt.checkAll result body inside
      ⟨.function p n params b.tree result, b.env.pop, b.verdict⟩
  | .ret p none => ⟨s, env, returnVerdict expected .nil p⟩
  | .ret p (some e) =>
      let c := e.check env
      ⟨.ret p (some c.tree), c.env, c.verdict.bind fun type => returnVerdict expected type p⟩

def Stmt.checkAll (expected : TypeSet) (ss : List Stmt) (env : TypeEnv) :
    Checked (List Stmt) Unit :=
  match ss with
  | [] => ⟨[], env, .ok ()⟩
  | s :: ss =>
      let first := s.check expected env
      let rest := next first.verdict ss first.env fun _ => Stmt.checkAll expected ss first.env
      ⟨first.tree :: rest.tree, rest.env, rest.verdict⟩

def Stmt.checkOption (expected : TypeSet) (s : Option Stmt) (env : TypeEnv) :
    Checked (Option Stmt) Unit :=
  match s with
  | none => ⟨none, env, .ok ()⟩
  | some s =>
      let c := s.check expected env
      ⟨some c.tree, c.env, c.verdict⟩

end

/-- Checks the statements of a program in order. Their bindings go into the active
scope, where later programs see them. -/
def Program.check (program : Program) (env : TypeEnv) : Checked Program Unit :=
  Stmt.checkAll .any program env

end GradualScript
