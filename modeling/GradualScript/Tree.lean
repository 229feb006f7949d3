import GradualScript.Number
import GradualScript.Operator
import GradualScript.TypeSet

/-!
# Program trees

Expressions and statements. Every node has a position; an expression also holds
the type that checking recorded on it, if it has been checked.
-/
namespace GradualScript

/-- What an expression carries beside its form. -/
structure Mark where
  position : Position
  type : Option TypeSet
  deriving DecidableEq

/-- The mark of an expression that has not been checked. -/
def Mark.unchecked (position : Position) : Mark := ⟨position, none⟩

/-- Expressions, each with a mark. -/
inductive Expr where
  | number (mark : Mark) (value : Number)
  /-- The text is without its quotes. -/
  | string (mark : Mark) (text : String)
  | boolean (mark : Mark) (value : Bool)
  | nil (mark : Mark)
  | unary (mark : Mark) (op : Operator) (operand : Expr)
  | binary (mark : Mark) (op : Operator) (left right : Expr)
  | grouping (mark : Mark) (inner : Expr)
  | name (mark : Mark) (name : String)
  | assign (mark : Mark) (name : String) (value : Expr)
  | call (mark : Mark) (callee : Expr) (args : List Expr)

namespace Expr

def mark : Expr → Mark
  | number m _ | string m _ | boolean m _ | nil m | unary m _ _ | binary m _ _ _ | grouping m _
  | name m _ | assign m _ _ | call m _ _ => m

def position (e : Expr) : Position := e.mark.position

/-- The type that checking has recorded, if the expression was reached. -/
def type (e : Expr) : Option TypeSet := e.mark.type

/-- The expression with its own mark exchanged; the marks of its parts stay. -/
def withMark (e : Expr) (mark : Mark) : Expr :=
  match e with
  | number _ v => number mark v
  | string _ s => string mark s
  | boolean _ b => boolean mark b
  | nil _ => nil mark
  | unary _ op e => unary mark op e
  | binary _ op l r => binary mark op l r
  | grouping _ e => grouping mark e
  | name _ n => name mark n
  | assign _ n e => assign mark n e
  | call _ f es => call mark f es

/-- The expression with `type` recorded on its own node. -/
def record (e : Expr) (type : TypeSet) : Expr := e.withMark ⟨e.position, some type⟩

@[simp] theorem mark_withMark (e : Expr) (m : Mark) : (e.withMark m).mark = m := by cases e <;> rfl

@[simp] theorem position_record (e : Expr) (t : TypeSet) : (e.record t).position = e.position := by
  simp [record, position]

@[simp] theorem type_record (e : Expr) (t : TypeSet) : (e.record t).type = some t := by
  simp [record, type]

end Expr

/-- Statements. They have positions but no types. -/
inductive Stmt where
  | expression (position : Position) (value : Expr)
  | print (position : Position) (value : Expr)
  | var (position : Position) (name : String) (init : Expr)
  | block (position : Position) (body : List Stmt)
  | ifElse (position : Position) (cond : Expr) (yes : Stmt) (no : Option Stmt)
  | whileLoop (position : Position) (cond : Expr) (body : Stmt)
  /-- A loop with a clause before it and one after each round. -/
  | forLoop (position : Position) (init : Option Stmt) (cond increment : Option Expr) (body : Stmt)
  /-- A function declaration with its declared result type. The declaration has no position
  of its own: the parser gives it that of its statement, and nothing reads it. -/
  | function (position : Position) (name : String) (params : List String) (body : List Stmt)
      (result : TypeSet)
  | ret (position : Position) (value : Option Expr)

def Stmt.position : Stmt → Position
  | expression p _ | print p _ | var p _ _ | block p _ | ifElse p _ _ _ | whileLoop p _ _
  | forLoop p _ _ _ _ | function p _ _ _ _ | ret p _ => p

/-- The top-level statements of a program, in order. -/
abbrev Program := List Stmt

end GradualScript
