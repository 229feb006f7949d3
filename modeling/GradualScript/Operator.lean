import GradualScript.Token

/-!
# Operators

Unary and binary expressions share one set of operators. `subtract` is also
arithmetic negation before an operand; `negate` is logical negation.
-/
namespace GradualScript

inductive Operator where
  | negate
  | add
  | subtract
  | multiply
  | divide
  | and
  | or
  | equal
  | notEqual
  | less
  | lessEqual
  | greater
  | greaterEqual
  deriving DecidableEq

namespace Operator

/-- How the operator is written in source text. -/
def lexeme : Operator → String
  | negate => "!"
  | add => "+"
  | subtract => "-"
  | multiply => "*"
  | divide => "/"
  | and => "and"
  | or => "or"
  | equal => "=="
  | notEqual => "!="
  | less => "<"
  | lessEqual => "<="
  | greater => ">"
  | greaterEqual => ">="

/-- What messages call the operator. -/
def name : Operator → String
  | negate => "negate"
  | add => "add"
  | subtract => "subtract"
  | multiply => "multiply"
  | divide => "divide"
  | and => "and"
  | or => "or"
  | equal => "equal"
  | notEqual => "not-equal"
  | less => "less"
  | lessEqual => "less-or-equal"
  | greater => "greater"
  | greaterEqual => "greater-or-equal"

def isComparison : Operator → Bool
  | less | lessEqual | greater | greaterEqual => true
  | _ => false

def isEquality : Operator → Bool
  | equal | notEqual => true
  | _ => false

/-- The operator that a token kind stands for, if it stands for one. -/
def ofKind? : TokenKind → Option Operator
  | .bang => some negate
  | .plus => some add
  | .minus => some subtract
  | .star => some multiply
  | .slash => some divide
  | .andWord => some and
  | .orWord => some or
  | .equalEqual => some equal
  | .bangEqual => some notEqual
  | .less => some less
  | .lessEqual => some lessEqual
  | .greater => some greater
  | .greaterEqual => some greaterEqual
  | _ => none

/-- The message for a token kind that stands for no operator. -/
def refusal (kind : TokenKind) : String := kind.displayName ++ " is not an operator"

end Operator

end GradualScript
