import GradualScript.Position

/-!
# Tokens

A token is a kind, the exact text it was written as, and the position of its
first character. Kinds have a display name for messages, and thirteen words are
keywords.
-/
namespace GradualScript

inductive TokenKind where
  | leftParen
  | rightParen
  | leftBrace
  | rightBrace
  | comma
  | dot
  | semicolon
  | minus
  | plus
  | slash
  | star
  | bang
  | bangEqual
  | equal
  | equalEqual
  | greater
  | greaterEqual
  | less
  | lessEqual
  | identifier
  | string
  | number
  | andWord
  | elseWord
  | falseWord
  | forWord
  | funWord
  | ifWord
  | nilWord
  | orWord
  | printWord
  | returnWord
  | trueWord
  | varWord
  | whileWord
  | comment
  | endOfFile
  deriving DecidableEq

namespace TokenKind

/-- The keyword of a spelling, if it is one. -/
def keyword? : String → Option TokenKind
  | "and" => some andWord
  | "else" => some elseWord
  | "false" => some falseWord
  | "for" => some forWord
  | "fun" => some funWord
  | "if" => some ifWord
  | "nil" => some nilWord
  | "or" => some orWord
  | "print" => some printWord
  | "return" => some returnWord
  | "true" => some trueWord
  | "var" => some varWord
  | "while" => some whileWord
  | _ => none

/-- What messages call a token of this kind. -/
def displayName : TokenKind → String
  | leftParen => "`(`"
  | rightParen => "`)`"
  | leftBrace => "`\x7b`"
  | rightBrace => "`\x7d`"
  | comma => "`,`"
  | dot => "`.`"
  | semicolon => "`;`"
  | minus => "`-`"
  | plus => "`+`"
  | slash => "`/`"
  | star => "`*`"
  | bang => "`!`"
  | bangEqual => "`!=`"
  | equal => "`=`"
  | equalEqual => "`==`"
  | greater => "`>`"
  | greaterEqual => "`>=`"
  | less => "`<`"
  | lessEqual => "`<=`"
  | identifier => "identifier"
  | string => "string literal"
  | number => "number literal"
  | andWord => "`and`"
  | elseWord => "`else`"
  | falseWord => "`false`"
  | forWord => "`for`"
  | funWord => "`fun`"
  | ifWord => "`if`"
  | nilWord => "`nil`"
  | orWord => "`or`"
  | printWord => "`print`"
  | returnWord => "`return`"
  | trueWord => "`true`"
  | varWord => "`var`"
  | whileWord => "`while`"
  | comment => "comment"
  | endOfFile => "end of file"

end TokenKind

structure Token where
  kind : TokenKind
  lexeme : String
  position : Position
  deriving DecidableEq

/-- The token that stands after all others. -/
def Token.endAt (position : Position) : Token := ⟨.endOfFile, "", position⟩

end GradualScript
