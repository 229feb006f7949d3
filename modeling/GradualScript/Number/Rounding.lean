import GradualScript.Number

/-!
# Rounding to a number

Every finite number is a whole multiple of the smallest positive one, 2⁻¹⁰⁷⁴.
So a magnitude has a natural number of such units, and rounding a quotient of
units to the nearest magnitude is a matter of natural numbers alone. A tie goes
to the even magnitude.
-/
namespace GradualScript.Number

/-- The value of a finite magnitude, in units of 2⁻¹⁰⁷⁴. -/
def units (magnitude : Nat) : Nat :=
  if magnitude < Nat.pow 2 53 then magnitude
  else (Nat.pow 2 52 + magnitude % Nat.pow 2 52) * Nat.pow 2 (magnitude / Nat.pow 2 52 - 1)

/-- The whole number nearest to `a / b`; a tie goes to the even one. -/
def divideToEven (a b : Nat) : Nat :=
  let quotient := a / b
  let twice := 2 * (a % b)
  if b < twice ∨ (twice = b ∧ quotient % 2 = 1) then quotient + 1 else quotient

/-- The binary exponent of the last place that a value of `whole` units can keep. -/
def lastPlace (whole : Nat) : Nat :=
  if whole < Nat.pow 2 53 then 0 else whole.log2 - 52

/-- The magnitude nearest to `a / b` units; infinity where that is too large. -/
def nearest (a b : Nat) : Nat :=
  let place := lastPlace (a / b)
  min infinite (place * Nat.pow 2 52 + divideToEven a (b * Nat.pow 2 place))

/-- The number of units in one. -/
def one : Nat := Nat.pow 2 1074

end GradualScript.Number
