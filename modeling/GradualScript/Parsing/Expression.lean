import GradualScript.Number.Reading
import GradualScript.Parsing.Cursor
import GradualScript.Tree

/-!
# Parsing expressions

Precedence from loose to tight: assignment, `or`, `and`, equality, comparison,
sums, products, unary operators, calls, primaries. Binary operators associate to
the left; assignment and unary operators nest to the right. A node has the
position of its leftmost token.

The grammar is recursive, so each production takes a budget of steps and passes
on one less. `GradualScript.parse` gives more than any list of tokens needs.
-/
namespace GradualScript

/-- The level of a binary operator, from 0 for the loosest to 5. -/
def Operator.level? : Operator → Option Nat
  | .or => some 0
  | .and => some 1
  | .equal | .notEqual => some 2
  | .less | .lessEqual | .greater | .greaterEqual => some 3
  | .add | .subtract => some 4
  | .multiply | .divide => some 5
  | .negate => none

/-- The number of levels of binary operators. -/
def Operator.levels : Nat := 6

namespace Parser

/-- The binary operator of a level that a token kind stands for. -/
def binaryOperator? (level : Nat) (kind : TokenKind) : Option Operator :=
  (Operator.ofKind? kind).filter (·.level? = some level)

/-- The operator that a token kind stands for in front of an operand. -/
def unaryOperator? : TokenKind → Option Operator
  | .bang => some .negate
  | .minus => some .subtract
  | _ => none

variable {σ : Type} [Feed σ]

/-- Takes the operator at the front, if there is one. -/
def takeOperator (operator? : TokenKind → Option Operator) : Parser σ (Option Operator) := fun s =>
  match operator? (Feed.current s).kind with
  | some op => .done (some op) (Feed.next s)
  | none => .done none s

/-- The text of a string token: without its quotes, if it has both. -/
def unquote (lexeme : String) : String :=
  match lexeme.toList with
  | '"' :: rest => if rest.getLast? = some '"' then String.ofList rest.dropLast else lexeme
  | _ => lexeme

/-- The token at the front as an expression of its own. -/
def literal (token : Token) : Parser σ Expr :=
  let mark := Mark.unchecked token.position
  match token.kind with
  | .number =>
      match Number.read? token.lexeme with
      | some value => do skip; return .number mark value
      | none => fail (.numberConversion token.lexeme) token.position
  | .string => do skip; return .string mark (unquote token.lexeme)
  | .trueWord => do skip; return .boolean mark true
  | .falseWord => do skip; return .boolean mark false
  | .nilWord => do skip; return .nil mark
  | .identifier => do skip; return .name mark token.lexeme
  | found => fail (.missingTerminal found) token.position

mutual

def expression : Nat → Parser σ Expr
  | 0 => spent
  | n + 1 => do
      let target ← binary n 0
      if ← accept .equal then
        let value ← expression n
        match target with
        | .name mark name => return .assign mark name value
        | _ => fail .invalidAssignmentTarget target.position
      else return target

/-- An expression whose outermost binary operators are at least as tight as a level. -/
def binary : Nat → Nat → Parser σ Expr
  | 0, _ => spent
  | n + 1, level =>
      if level < Operator.levels then do
        let left ← binary n (level + 1)
        binaryRest n level left
      else unary n

/-- The operators of a level that follow their first operand. -/
def binaryRest : Nat → Nat → Expr → Parser σ Expr
  | 0, _, _ => spent
  | n + 1, level, left => do
      match ← takeOperator (binaryOperator? level) with
      | some op =>
          let right ← binary n (level + 1)
          binaryRest n level (.binary (.unchecked left.position) op left right)
      | none => return left

def unary : Nat → Parser σ Expr
  | 0 => spent
  | n + 1 => do
      let first ← current
      match ← takeOperator unaryOperator? with
      | some op =>
          let operand ← unary n
          return .unary (.unchecked first.position) op operand
      | none => call n

def call : Nat → Parser σ Expr
  | 0 => spent
  | n + 1 => do
      let callee ← primary n
      callRest n callee

/-- The argument lists that follow what they call. -/
def callRest : Nat → Expr → Parser σ Expr
  | 0, _ => spent
  | n + 1, callee => do
      if ← accept .leftParen then
        let args ← arguments n
        callRest n (.call (.unchecked callee.position) callee args)
      else return callee

/-- The arguments after an opening parenthesis, through the closing one. -/
def arguments : Nat → Parser σ (List Expr)
  | 0 => spent
  | n + 1 => do
      if ← accept .rightParen then return []
      else
        let args ← argumentList n 0
        let _ ← expect .rightParen
        return args

/-- Expressions with commas between them, after `count` others. -/
def argumentList : Nat → Nat → Parser σ (List Expr)
  | 0, _ => spent
  | n + 1, count => do
      if maxArity ≤ count then
        fail .tooManyArguments (← current).position
      else
        let arg ← expression n
        if ← accept .comma then
          let rest ← argumentList n (count + 1)
          return arg :: rest
        else return [arg]

def primary : Nat → Parser σ Expr
  | 0 => spent
  | n + 1 => do
      let token ← current
      if token.kind = .leftParen then
        skip
        let inner ← expression n
        let _ ← expect .rightParen
        return .grouping (.unchecked token.position) inner
      else literal token

end

end Parser

end GradualScript
