import GradualScript.Operator
import GradualScript.Value

/-!
# Operators on values

Equality and logical operators take every value. Arithmetic and comparison take
two numbers, and `+` also joins two strings. Division by either zero is a fault.
-/
namespace GradualScript

/-- What can go wrong while a program runs. -/
inductive RuntimeFault where
  | undefinedVariable (name : String)
  | divideByZero
  | arityMismatch (name : String) (expected got : Nat)
  /-- The operand kinds are not what the operator needs. -/
  | wrongOperands (op : Operator) (operands : List ValueKind)
  | notCallable (kind : ValueKind)
  | callLimitReached (limit : Nat)
  deriving DecidableEq

/-- The message of a fault, without its position. -/
def RuntimeFault.text : RuntimeFault → String
  | undefinedVariable name => "undefined variable `" ++ name ++ "`"
  | divideByZero => "division by zero"
  | arityMismatch name expected got =>
      "`" ++ name ++ "` expects " ++ toString expected ++ " argument(s), got " ++ toString got
  | wrongOperands op operands =>
      "cannot apply " ++ op.name ++ " to " ++ " and ".intercalate (operands.map ValueKind.name)
  | notCallable kind => kind.name ++ " value is not callable"
  | callLimitReached limit => "maximum call depth of " ++ toString limit ++ " exceeded"

abbrev RuntimeError := Located RuntimeFault

namespace Operator

/-- An operator in front of a value. Negation takes any value, a sign only a number. -/
def applyUnary (op : Operator) (operand : Value) : Except RuntimeFault Value :=
  match op, operand with
  | negate, v => .ok (.boolean !v.isTruthy)
  | subtract, .number n => .ok (.number (-n))
  | add, .number n => .ok (.number n)
  | op, v => .error (.wrongOperands op [v.kind])

/-- The arithmetic and comparison of two numbers. Division is the only one that can fail. -/
def applyToNumbers (op : Operator) (x y : Number) : Except RuntimeFault Value :=
  match op with
  | add => .ok (.number (x + y))
  | subtract => .ok (.number (x - y))
  | multiply => .ok (.number (x * y))
  | divide => if y.isZero then .error .divideByZero else .ok (.number (x / y))
  | less => .ok (.boolean (x.less y))
  | lessEqual => .ok (.boolean (x.lessOrEqual y))
  | greater => .ok (.boolean (y.less x))
  | greaterEqual => .ok (.boolean (y.lessOrEqual x))
  | op => .error (.wrongOperands op [.numeric, .numeric])

/-- An operator between two values, both of them computed. The evaluator decides `and` and `or`
itself, before their right operand. -/
def applyBinary (op : Operator) (left right : Value) : Except RuntimeFault Value :=
  match op with
  | equal => .ok (.boolean (left.same right))
  | notEqual => .ok (.boolean !left.same right)
  | and => .ok (if left.isTruthy then right else left)
  | or => .ok (if left.isTruthy then left else right)
  | op =>
      match left, right with
      | .number x, .number y => op.applyToNumbers x y
      | .string s, .string t =>
          if op = add then .ok (.string (s ++ t)) else .error (.wrongOperands op [.string, .string])
      | l, r => .error (.wrongOperands op [l.kind, r.kind])

end Operator

end GradualScript
