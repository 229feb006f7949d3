import GradualScript.Operator
import GradualScript.TypeSet

/-!
# Operator types

Which operand types an operator accepts and the type of its result. The wildcard
passes every rule.
-/
namespace GradualScript

inductive TypeFault where
  | undefinedVariable (name : String)
  | invalidUnary (op : Operator) (operand : TypeSet)
  | invalidBinary (op : Operator) (left right : TypeSet)
  | mismatch (expected found : TypeSet)
  deriving DecidableEq

def TypeFault.text : TypeFault → String
  | undefinedVariable name => "undefined variable `" ++ name ++ "`"
  | invalidUnary op operand => "invalid operand type for " ++ op.name ++ ": " ++ operand.text
  | invalidBinary op left right =>
      "invalid operand types for " ++ op.name ++ ": " ++ left.text ++ " and " ++ right.text
  | mismatch expected found =>
      "type mismatch: expected " ++ expected.text ++ ", found " ++ found.text

abbrev TypeError := Located TypeFault

namespace Operator

/-- The type of a unary expression. Logical negation takes every operand; the
signs take numbers and keep the operand's type. -/
def unaryType (op : Operator) (operand : TypeSet) : Except TypeFault TypeSet :=
  match op with
  | negate => .ok .boolean
  | add | subtract =>
      if operand.within (.single .numeric) then .ok operand else .error (.invalidUnary op operand)
  | _ => .error (.invalidUnary op operand)

/-- Both types are numbers, as far as they are known. -/
def bothNumeric (left right : TypeSet) : Bool :=
  left.within (.single .numeric) && right.within (.single .numeric)

/-- Both types are strings, as far as they are known. -/
def bothStrings (left right : TypeSet) : Bool :=
  left.within (.single .string) && right.within (.single .string)

/-- The operand types that a binary operator accepts. -/
def accepts (op : Operator) (left right : TypeSet) : Bool :=
  match op with
  | add => (bothNumeric left right || bothStrings left right) && left.contains right
  | subtract | multiply | divide => bothNumeric left right && left.contains right
  | less | lessEqual | greater | greaterEqual =>
      bothNumeric left right && left.compatible right
  | equal | notEqual => left.compatible right
  | and | or => true
  | negate => false

/-- The type of a binary expression: a truth value for comparisons, else all that
either operand can be. -/
def binaryType (op : Operator) (left right : TypeSet) : Except TypeFault TypeSet :=
  if op.accepts left right then
    .ok (if op.isComparison || op.isEquality then .boolean else left.union right)
  else .error (.invalidBinary op left right)

end Operator

end GradualScript
