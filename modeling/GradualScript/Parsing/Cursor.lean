import GradualScript.Token

/-!
# Cursors and parsers

A cursor stands at a token of a list. It steps over comments, and it does not pass an
end-of-file token; where there is none, the end stands at the last token of the list.
A parser goes from token to token in this way: it looks at one token at a time and
never goes back. How the tokens are kept does not matter to it, so parsers are defined
for everything that shows and hands out tokens.
-/
namespace GradualScript

inductive ParseFault where
  /-- Another token was required. -/
  | unexpectedToken (expected found : TokenKind)
  /-- An expression was required, and the token starts none. -/
  | missingTerminal (found : TokenKind)
  /-- A number token that denotes no number. -/
  | numberConversion (lexeme : String)
  | invalidAssignmentTarget
  | returnOutsideFunction
  | tooManyParameters
  | tooManyArguments
  deriving DecidableEq

/-- The most parameters of a function, and the most arguments of a call. -/
def maxArity : Nat := 255

def ParseFault.text : ParseFault → String
  | unexpectedToken expected found =>
      "expected " ++ expected.displayName ++ ", found " ++ found.displayName
  | missingTerminal found => "expected expression, found " ++ found.displayName
  | numberConversion lexeme => "invalid number literal `" ++ lexeme ++ "`"
  | invalidAssignmentTarget => "invalid assignment target"
  | returnOutsideFunction => "`return` outside of a function"
  | tooManyParameters => "a function cannot have more than " ++ toString maxArity ++ " parameters"
  | tooManyArguments => "a call cannot pass more than " ++ toString maxArity ++ " arguments"

abbrev ParseError := Located ParseFault

/-- A place in a list of tokens, which is never a comment: the tokens from there on, and
the last token of the whole list. -/
structure Cursor where
  ahead : List Token
  last? : Option Token
  settled : ∀ t ∈ ahead.head?, t.kind ≠ .comment

namespace Cursor

theorem head_dropWhile_comment (ahead : List Token) :
    ∀ t ∈ (ahead.dropWhile (·.kind = .comment)).head?, t.kind ≠ .comment := by
  intro t ht hcomment
  have hnot := List.head?_dropWhile_not (fun t : Token => decide (t.kind = .comment)) ahead
  rw [Option.mem_def.mp ht] at hnot
  simp [hcomment] at hnot

/-- Steps over comments. -/
def settle (ahead : List Token) (last? : Option Token) : Cursor :=
  ⟨ahead.dropWhile (·.kind = .comment), last?, head_dropWhile_comment ahead⟩

def start (tokens : List Token) : Cursor := settle tokens tokens.getLast?

/-- Where the list ends if no end-of-file token does. -/
def stop (c : Cursor) : Position := (c.last?.map Token.position).getD .start

/-- The token at the place; behind the list, an end-of-file token. -/
def current (c : Cursor) : Token := c.ahead.head?.getD (.endAt c.stop)

/-- The token that is handed out when the cursor goes on; behind the list, its last token
once more. -/
def taken (c : Cursor) : Token := c.ahead.head?.getD (c.last?.getD (.endAt .start))

/-- Goes on to the next token; the end is not passed. -/
def move (c : Cursor) : Cursor :=
  if c.current.kind = .endOfFile then c else settle c.ahead.tail c.last?

theorem taken_eq_current {c : Cursor} (h : c.current.kind ≠ .endOfFile) : c.taken = c.current := by
  obtain ⟨_ | ⟨t, ts⟩, last?, settled⟩ := c
  · exact absurd rfl h
  · rfl

/-- What is handed out stands where the shown token does, even behind the list. -/
theorem position_taken (c : Cursor) : c.taken.position = c.current.position := by
  obtain ⟨_ | ⟨t, ts⟩, last?, settled⟩ := c
  · cases last? with
    | none => rfl
    | some last => rfl
  · rfl

end Cursor

/-- What tokens are read from, one after the other. -/
class Feed (σ : Type) where
  /-- The token that is shown. -/
  current : σ → Token
  /-- The token that is handed out on the way to the next. -/
  taken : σ → Token
  next : σ → σ
  /-- Before the end, what is shown is handed out. -/
  taken_eq_current {s : σ} : (current s).kind ≠ .endOfFile → taken s = current s

instance : Feed Cursor where
  current := Cursor.current
  taken := Cursor.taken
  next := Cursor.move
  taken_eq_current := Cursor.taken_eq_current

/-- How a parser ends. `spent` is no verdict on the tokens: the budget of steps was
too small to reach one. -/
inductive Reply (σ α : Type) where
  | done (value : α) (rest : σ)
  | failed (error : ParseError)
  | spent

def Parser (σ α : Type) : Type := σ → Reply σ α

namespace Parser

variable {σ : Type}

@[always_inline, inline]
protected def bind {α β : Type} (p : Parser σ α) (f : α → Parser σ β) : Parser σ β := fun s =>
  match p s with
  | .done a rest => f a rest
  | .failed e => .failed e
  | .spent => .spent

@[always_inline]
instance : Monad (Parser σ) where
  pure a := fun s => .done a s
  bind := Parser.bind

def spent {α : Type} : Parser σ α := fun _ => .spent

def fail {α : Type} (cause : ParseFault) (position : Position) : Parser σ α :=
  fun _ => .failed ⟨cause, position⟩

variable [Feed σ]

/-- The token at the front, which stays there. -/
def current : Parser σ Token := fun s => .done (Feed.current s) s

/-- Drops the token at the front, which `current` has shown. -/
def skip : Parser σ Unit := fun s => .done () (Feed.next s)

/-- Whether the token at the front is of a kind. -/
def sees (kind : TokenKind) : Parser σ Bool := fun s => .done ((Feed.current s).kind = kind) s

/-- Drops the token at the front if it is of a kind, and says whether it was. -/
def accept (kind : TokenKind) : Parser σ Bool := fun s =>
  if (Feed.current s).kind = kind then .done true (Feed.next s) else .done false s

/-- Takes the token at the front, which must be of a kind. -/
def expect (kind : TokenKind) : Parser σ Token := fun s =>
  if (Feed.current s).kind = kind then .done (Feed.taken s) (Feed.next s)
  else .failed ⟨.unexpectedToken kind (Feed.current s).kind, (Feed.current s).position⟩

end Parser

end GradualScript
