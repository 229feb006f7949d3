import GradualScript.Number.Layout
import GradualScript.Scopes
import GradualScript.Tree

/-!
# Runtime values

A function value remembers the scope that it was declared in and the number of its
declaration: each time a declaration runs, its function gets a new number, and two
function values are equal when they have the same one.
-/
namespace GradualScript

structure Function where
  identity : Nat
  name : String
  params : List String
  body : List Stmt
  closure : ScopeId

def Function.arity (f : Function) : Nat := f.params.length

inductive Value where
  | string (text : String)
  | number (value : Number)
  | boolean (value : Bool)
  | nil
  | function (f : Function)

/-- The kinds of value that exist at run time. -/
inductive ValueKind where
  | string
  | numeric
  | boolean
  | nil
  | function
  deriving DecidableEq

def ValueKind.name : ValueKind → String
  | string => "String"
  | numeric => "Numeric"
  | boolean => "Boolean"
  | nil => "Nil"
  | function => "Function"

namespace Value

def kind : Value → ValueKind
  | string _ => .string
  | number _ => .numeric
  | boolean _ => .boolean
  | nil => .nil
  | function _ => .function

/-- Only `nil` and `false` count as false. -/
def isTruthy : Value → Bool
  | nil => false
  | boolean b => b
  | _ => true

/-- Equality of the language: values of different kinds differ. -/
def same : Value → Value → Bool
  | string a, string b => a = b
  | number a, number b => a.same b
  | boolean a, boolean b => a = b
  | nil, nil => true
  | function f, function g => f.identity = g.identity
  | _, _ => false

/-- What `print` writes. -/
def text : Value → String
  | string s => s
  | number n => NumberLayout.printed.write n
  | boolean b => if b then "true" else "false"
  | nil => "nil"
  | function f => "<fn " ++ f.name ++ ">"

end Value

end GradualScript
