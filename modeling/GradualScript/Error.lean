import GradualScript.Evaluation.Operation
import GradualScript.Parsing.Cursor
import GradualScript.Token.Scanner
import GradualScript.Typing.Rules

/-!
# Errors

The first fault of whichever phase stopped, with its position and its message.
-/
namespace GradualScript

/-- The phases that text goes through, in order. -/
inductive Phase where
  | scan
  | parse
  | check
  | run
  deriving DecidableEq

def Phase.name : Phase → String
  | scan => "lex"
  | parse => "syntax"
  | check => "type"
  | run => "runtime"

inductive Error where
  | scan (error : ScanError)
  | parse (error : ParseError)
  | check (error : TypeError)
  | run (error : RuntimeError)
  deriving DecidableEq

namespace Error

def phase : Error → Phase
  | scan _ => .scan
  | parse _ => .parse
  | check _ => .check
  | run _ => .run

def position : Error → Position
  | scan e => e.position
  | parse e => e.position
  | check e => e.position
  | run e => e.position

/-- What went wrong, without place and phase. -/
def causeText : Error → String
  | scan e => e.cause.text
  | parse e => e.cause.text
  | check e => e.cause.text
  | run e => e.cause.text

/-- Place, phase and cause in one line. -/
def message (e : Error) : String :=
  "[" ++ e.position.text ++ "] " ++ e.phase.name ++ " error: " ++ e.causeText

end Error

end GradualScript
