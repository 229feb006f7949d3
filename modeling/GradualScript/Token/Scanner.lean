import GradualScript.Token

/-!
# From text to tokens

Scanning repeatedly takes the longest token at the head of the text. Blanks
between tokens are dropped; comments are tokens of their own until `scan` drops
them. The last token marks the end of the text.
-/
namespace GradualScript

inductive ScanFault where
  /-- A quote that no second quote follows. -/
  | unterminatedString
  /-- A character that begins no token. -/
  | unexpectedCharacter (c : Char)
  deriving DecidableEq

def ScanFault.text : ScanFault → String
  | unterminatedString => "unterminated string"
  | unexpectedCharacter c => "unexpected character `" ++ c.toString ++ "`"

abbrev ScanError := Located ScanFault

namespace Scanner

/-- The characters that may stand between tokens. -/
def isBlank (c : Char) : Bool :=
  c = ' ' || c = '\t' || c = '\r' || c = '\n' || c = '\x0c'

/-- The characters of words: ASCII letters and the underscore. -/
def isWordChar (c : Char) : Bool := c.isAlpha || c = '_'

/-- What stands at the head of a text that starts with no blank. -/
inductive Munch where
  /-- The longest token there, and the text after it. -/
  | token (kind : TokenKind) (lexeme rest : List Char)
  | fault (cause : ScanFault)

/-- A token of one character, or of two if `second` comes next. -/
def oneOrTwo (first second : Char) (one two : TokenKind) : List Char → Munch
  | [] => .token one [first] []
  | c :: rest => if c = second then .token two [first, second] rest else .token one [first] (c :: rest)

/-- The token that starts with the punctuation character `c`. -/
def punctuation (c : Char) (rest : List Char) : Munch :=
  match c with
  | '(' => .token .leftParen ['('] rest
  | ')' => .token .rightParen [')'] rest
  | '\x7b' => .token .leftBrace ['\x7b'] rest
  | '\x7d' => .token .rightBrace ['\x7d'] rest
  | ',' => .token .comma [','] rest
  | '.' => .token .dot ['.'] rest
  | ';' => .token .semicolon [';'] rest
  | '-' => .token .minus ['-'] rest
  | '+' => .token .plus ['+'] rest
  | '/' => .token .slash ['/'] rest
  | '*' => .token .star ['*'] rest
  | '!' => oneOrTwo '!' '=' .bang .bangEqual rest
  | '=' => oneOrTwo '=' '=' .equal .equalEqual rest
  | '>' => oneOrTwo '>' '=' .greater .greaterEqual rest
  | '<' => oneOrTwo '<' '=' .less .lessEqual rest
  | _ => .fault (.unexpectedCharacter c)

/-- A string literal runs to the next quote; the text here starts after the first. -/
def stringLiteral (text : List Char) : Munch :=
  match text.dropWhile (· ≠ '"') with
  | [] => .fault .unterminatedString
  | quote :: rest => .token .string ('"' :: text.takeWhile (· ≠ '"') ++ [quote]) rest

/-- Digits, then a point and more digits if both are there. -/
def numberLiteral (text : List Char) : Munch :=
  let whole := text.takeWhile Char.isDigit
  match text.dropWhile Char.isDigit with
  | '.' :: after =>
      let fraction := after.takeWhile Char.isDigit
      if fraction.isEmpty then .token .number whole ('.' :: after)
      else .token .number (whole ++ '.' :: fraction) (after.dropWhile Char.isDigit)
  | rest => .token .number whole rest

/-- A word is a keyword if it is spelled like one. -/
def word (text : List Char) : Munch :=
  let lexeme := text.takeWhile isWordChar
  let kind := (TokenKind.keyword? (String.ofList lexeme)).getD .identifier
  .token kind lexeme (text.dropWhile isWordChar)

/-- A comment runs to the end of its line. -/
def comment (text : List Char) : Munch :=
  .token .comment (text.takeWhile (· ≠ '\n')) (text.dropWhile (· ≠ '\n'))

/-- The longest token at the head of the text `c :: rest`. -/
def munch (c : Char) (rest : List Char) : Munch :=
  if c = '"' then stringLiteral rest
  else if c.isDigit then numberLiteral (c :: rest)
  else if isWordChar c then word (c :: rest)
  else if c = '/' && rest.head? = some '/' then comment (c :: rest)
  else punctuation c rest

theorem oneOrTwo_eq {first second : Char} {one two kind : TokenKind} {text lexeme rest : List Char}
    (h : oneOrTwo first second one two text = .token kind lexeme rest) :
    first :: text = lexeme ++ rest ∧ lexeme ≠ [] := by
  cases text with
  | nil => simp only [oneOrTwo, Munch.token.injEq] at h; simp [← h.2.1, ← h.2.2]
  | cons c text =>
    simp only [oneOrTwo] at h
    split at h <;> simp only [Munch.token.injEq] at h <;> simp_all [← h.2.1, ← h.2.2]

theorem punctuation_eq {c : Char} {text lexeme rest : List Char} {kind : TokenKind}
    (h : punctuation c text = .token kind lexeme rest) :
    c :: text = lexeme ++ rest ∧ lexeme ≠ [] := by
  unfold punctuation at h
  split at h
  all_goals first
    | exact oneOrTwo_eq h
    | (simp only [Munch.token.injEq, reduceCtorEq] at h; try simp [← h.2.1, ← h.2.2])

theorem stringLiteral_eq {text lexeme rest : List Char} {kind : TokenKind}
    (h : stringLiteral text = .token kind lexeme rest) :
    '"' :: text = lexeme ++ rest ∧ lexeme ≠ [] := by
  unfold stringLiteral at h
  split at h
  · simp at h
  · rename_i quote after hd
    simp only [Munch.token.injEq] at h
    obtain ⟨-, rfl, rfl⟩ := h
    refine ⟨?_, by simp⟩
    have := List.takeWhile_append_dropWhile (p := (· ≠ '"')) (l := text)
    rw [hd] at this
    simpa using this.symm

theorem numberLiteral_eq {text lexeme rest : List Char} {kind : TokenKind}
    (h : numberLiteral text = .token kind lexeme rest) : text = lexeme ++ rest := by
  unfold numberLiteral at h
  have hsplit := List.takeWhile_append_dropWhile (p := Char.isDigit) (l := text)
  split at h
  · rename_i after hd
    rw [hd] at hsplit
    dsimp only at h
    split at h <;> simp only [Munch.token.injEq] at h <;> obtain ⟨-, rfl, rfl⟩ := h
    · exact hsplit.symm
    · have := List.takeWhile_append_dropWhile (p := Char.isDigit) (l := after)
      rw [List.append_assoc, List.cons_append, this, hsplit]
  · simp only [Munch.token.injEq] at h
    obtain ⟨-, rfl, rfl⟩ := h
    exact hsplit.symm

/-- A token is a part of the text: nothing is lost, and it is not empty. -/
theorem munch_eq {c : Char} {text lexeme rest : List Char} {kind : TokenKind}
    (h : munch c text = .token kind lexeme rest) : c :: text = lexeme ++ rest ∧ lexeme ≠ [] := by
  unfold munch at h
  split at h
  · rename_i hc; subst hc; exact stringLiteral_eq h
  split at h
  · rename_i hc
    have he := numberLiteral_eq h
    refine ⟨he, ?_⟩
    rintro rfl
    unfold numberLiteral at h
    simp only [List.takeWhile_cons, hc] at h
    split at h
    · split at h <;> simp at h
    · simp at h
  split at h
  · rename_i hc
    simp only [word, Munch.token.injEq] at h
    obtain ⟨-, rfl, rfl⟩ := h
    exact ⟨(List.takeWhile_append_dropWhile).symm, by simp [hc]⟩
  split at h
  · rename_i hc
    simp only [comment, Munch.token.injEq] at h
    obtain ⟨-, rfl, rfl⟩ := h
    refine ⟨(List.takeWhile_append_dropWhile).symm, ?_⟩
    have : c = '/' := by simp_all
    simp [this]
  · exact punctuation_eq h

theorem munch_length {c : Char} {text lexeme rest : List Char} {kind : TokenKind}
    (h : munch c text = .token kind lexeme rest) : rest.length ≤ text.length := by
  obtain ⟨he, hne⟩ := munch_eq h
  have := congrArg List.length he
  have hpos := List.length_pos_iff.mpr hne
  simp only [List.length_cons, List.length_append] at this
  omega

/-- The tokens of a text that starts at `position`, after those already found,
which are listed last first. -/
def tokensFrom (position : Position) (found : List Token) :
    List Char → Except ScanError (List Token)
  | [] => .ok (Token.endAt position :: found).reverse
  | c :: text =>
      if isBlank c then tokensFrom (position.advance c) found text
      else
        match _h : munch c text with
        | .token kind lexeme rest =>
            tokensFrom (position.after lexeme) (⟨kind, String.ofList lexeme, position⟩ :: found) rest
        | .fault cause => .error ⟨cause, position⟩
termination_by text => text.length
decreasing_by
  · simp
  · have := munch_length _h; simp only [List.length_cons]; omega

end Scanner

/-- All tokens of a source text, comments included. -/
def scanWithComments (source : String) : Except ScanError (List Token) :=
  Scanner.tokensFrom .start [] source.toList

/-- The tokens of a source text without its comments. -/
def scan (source : String) : Except ScanError (List Token) :=
  (scanWithComments source).map (·.filter (·.kind ≠ .comment))

end GradualScript
