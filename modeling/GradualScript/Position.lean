/-!
# Places in a text

A position names a line and a column, both counted from one. A column counts
characters, never bytes. Both counts stop at `Position.largest`: a later place
keeps the largest count.
-/
namespace GradualScript

structure Position where
  line : Nat
  column : Nat
  deriving DecidableEq, Inhabited

namespace Position

/-- The largest line or column that a position holds. -/
def largest : Nat := 4294967295

/-- The position of the first character of a text. -/
def start : Position := ⟨1, 1⟩

/-- The position that has `lines` whole lines before it and `columns` characters
before it on its own line. -/
def ofCounts (lines columns : Nat) : Position :=
  ⟨min (lines + 1) largest, min (columns + 1) largest⟩

/-- Earlier line first; on one line, earlier column first. -/
protected def lt (p q : Position) : Prop :=
  p.line < q.line ∨ p.line = q.line ∧ p.column < q.column

instance : LT Position := ⟨Position.lt⟩

theorem lt_def (p q : Position) :
    p < q ↔ p.line < q.line ∨ p.line = q.line ∧ p.column < q.column := Iff.rfl

instance (p q : Position) : Decidable (p < q) :=
  inferInstanceAs (Decidable (p.line < q.line ∨ p.line = q.line ∧ p.column < q.column))

/-- The position after the character `c` at `p`: a newline opens the next line. -/
def advance (p : Position) (c : Char) : Position :=
  if c = '\n' then ⟨min (p.line + 1) largest, 1⟩ else ⟨p.line, min (p.column + 1) largest⟩

/-- The position after all of `text`, which starts at `p`. -/
def after (p : Position) (text : List Char) : Position := text.foldl advance p

@[simp] theorem after_nil (p : Position) : p.after [] = p := rfl

@[simp] theorem after_cons (p : Position) (c : Char) (text : List Char) :
    p.after (c :: text) = (p.advance c).after text := rfl

@[simp] theorem after_append (p : Position) (a b : List Char) :
    p.after (a ++ b) = (p.after a).after b := by simp [after]

/-- Line and column with a colon between them. -/
def text (p : Position) : String := toString p.line ++ ":" ++ toString p.column

end Position

/-- A cause found at a place of a text. -/
structure Located (ε : Type) where
  cause : ε
  position : Position
  deriving DecidableEq

end GradualScript
