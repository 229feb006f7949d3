import GradualScript.Parsing.Expression

/-!
# Parsing programs

A program is a list of declarations: functions, variables and statements. Bodies
of branches and loops are statements but no declarations, unless in braces.
`return` stands only in a function body.
-/
namespace GradualScript

namespace Parser

variable {σ : Type} [Feed σ]

/-- An expression, unless the token at the front is `stop`. -/
def optionalExpression (n : Nat) (stop : TokenKind) : Parser σ (Option Expr) := do
  if ← sees stop then return none
  else
    let e ← expression n
    return some e

/-- A variable declaration. One without a value has a `nil` at its name. -/
def varDeclaration (n : Nat) : Parser σ Stmt := do
  let first ← current
  skip
  let name ← expect .identifier
  let init ← if ← accept .equal then expression n else pure (.nil (.unchecked name.position))
  let _ ← expect .semicolon
  return .var first.position name.lexeme init

def expressionStatement (n : Nat) : Parser σ Stmt := do
  let value ← expression n
  let _ ← expect .semicolon
  return .expression value.position value

/-- An expression in parentheses. -/
def condition (n : Nat) : Parser σ Expr := do
  let _ ← expect .leftParen
  let cond ← expression n
  let _ ← expect .rightParen
  return cond

/-- The first clause of a loop head, with its semicolon. -/
def loopInit (n : Nat) : Parser σ (Option Stmt) := do
  match (← current).kind with
  | .semicolon => do
      skip
      return none
  | .varWord => do
      let init ← varDeclaration n
      return some init
  | _ => do
      let init ← expressionStatement n
      return some init

/-- Names with commas between them, after `count` others. -/
def parameterList : Nat → Nat → Parser σ (List String)
  | 0, _ => spent
  | n + 1, count => do
      if maxArity ≤ count then
        fail .tooManyParameters (← current).position
      else
        let param ← expect .identifier
        if ← accept .comma then
          let rest ← parameterList n (count + 1)
          return param.lexeme :: rest
        else return [param.lexeme]

/-- Parameters in parentheses. -/
def parameters (n : Nat) : Parser σ (List String) := do
  let _ ← expect .leftParen
  if ← accept .rightParen then return []
  else
    let params ← parameterList n 0
    let _ ← expect .rightParen
    return params

mutual

/-- A statement; `inFunction` tells whether a function body surrounds it. -/
def statement (inFunction : Bool) : Nat → Parser σ Stmt
  | 0 => spent
  | n + 1 => do
      let first ← current
      let position := first.position
      match first.kind with
      | .printWord => do
          skip
          let value ← expression n
          let _ ← expect .semicolon
          return .print position value
      | .leftBrace => do
          skip
          let body ← blockBody inFunction n
          return .block position body
      | .ifWord => do
          skip
          let cond ← condition n
          let yes ← statement inFunction n
          if ← accept .elseWord then
            let no ← statement inFunction n
            return .ifElse position cond yes (some no)
          else return .ifElse position cond yes none
      | .whileWord => do
          skip
          let cond ← condition n
          let body ← statement inFunction n
          return .whileLoop position cond body
      | .forWord => do
          skip
          let _ ← expect .leftParen
          let init ← loopInit n
          let cond ← optionalExpression n .semicolon
          let _ ← expect .semicolon
          let increment ← optionalExpression n .rightParen
          let _ ← expect .rightParen
          let body ← statement inFunction n
          return .forLoop position init cond increment body
      | .returnWord =>
          if inFunction then do
            skip
            let value ← optionalExpression n .semicolon
            let _ ← expect .semicolon
            return .ret position value
          else fail .returnOutsideFunction position
      | _ => expressionStatement n

def declaration (inFunction : Bool) : Nat → Parser σ Stmt
  | 0 => spent
  | n + 1 => do
      let first ← current
      match first.kind with
      | .funWord => do
          skip
          let name ← expect .identifier
          let params ← parameters n
          let _ ← expect .leftBrace
          let body ← blockBody true n
          return .function first.position name.lexeme params body .any
      | .varWord => varDeclaration n
      | _ => statement inFunction n

/-- Declarations through the closing brace. -/
def blockBody (inFunction : Bool) : Nat → Parser σ (List Stmt)
  | 0 => spent
  | n + 1 => do
      if ← accept .rightBrace then return []
      else
        let first ← current
        if first.kind = .endOfFile then
          fail (.unexpectedToken .rightBrace .endOfFile) first.position
        else
          let s ← declaration inFunction n
          let rest ← blockBody inFunction n
          return s :: rest

end

/-- Declarations through the end. -/
def program : Nat → Parser σ Program
  | 0 => spent
  | n + 1 => do
      if ← sees .endOfFile then return []
      else
        let s ← declaration false n
        let rest ← program n
        return s :: rest

/-- A budget of steps that suffices for a list of tokens. -/
def budget (tokens : List Token) : Nat := 16 * (tokens.length + 1)

end Parser

/-- The program that a list of tokens denotes. -/
def parse (tokens : List Token) : Except ParseError Program :=
  let cursor := Cursor.start tokens
  match Parser.program (Parser.budget tokens) cursor with
  | .done program _ => .ok program
  | .failed e => .error e
  | .spent => .error ⟨.missingTerminal .endOfFile, cursor.stop⟩

end GradualScript
