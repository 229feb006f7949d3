import GradualScript.Number.Rounding

/-!
# Decimals

A decimal is a whole number of digits and a power of ten. It denotes the nearest
number. Conversely `shortest` is the decimal with the fewest digits that denotes
a given finite magnitude: of the two neighbours of the value on the first grid of
decimals where one of them denotes it, the nearer one, and the upper one on a tie.
-/
namespace GradualScript

/-- The value `digits · 10 ^ exponent`. -/
structure Decimal where
  digits : Nat
  exponent : Int
  deriving DecidableEq

namespace Decimal

/-- The magnitude of the number nearest to a decimal. -/
def magnitude (d : Decimal) : Nat :=
  if 0 ≤ d.exponent then Number.nearest (d.digits * Nat.pow 10 d.exponent.toNat * Number.one) 1
  else Number.nearest (d.digits * Number.one) (Nat.pow 10 (-d.exponent).toNat)

/-- The value of `units` in steps of `10 ^ exponent`, as a quotient. -/
def onGrid (units : Nat) (exponent : Int) : Nat × Nat :=
  if 0 ≤ exponent then (units, Nat.pow 10 exponent.toNat * Number.one)
  else (units * Nat.pow 10 (-exponent).toNat, Number.one)

/-- Of the two neighbours of a magnitude's value on the grid `10 ^ exponent`, the
nearest one that denotes the magnitude. -/
def onGrid? (magnitude : Nat) (exponent : Int) : Option Decimal :=
  let (a, b) := onGrid (Number.units magnitude) exponent
  let below : Decimal := ⟨a / b, exponent⟩
  let above : Decimal := ⟨a / b + 1, exponent⟩
  if below.magnitude = magnitude then
    if above.magnitude = magnitude ∧ b ≤ 2 * (a % b) then some above else some below
  else if above.magnitude = magnitude then some above
  else none

/-- All digits of a magnitude's value. -/
def exact (magnitude : Nat) : Decimal := ⟨Number.units magnitude * Nat.pow 5 1074, -1074⟩

/-- Tries `count` grids, each ten times finer than the one before. -/
def search (magnitude : Nat) : Nat → Int → Decimal
  | 0, _ => exact magnitude
  | count + 1, exponent =>
      match onGrid? magnitude exponent with
      | some d => d
      | none => search magnitude count (exponent - 1)

/-- `10 ^ exponent` is at most the value of `units`. -/
def reaches (units : Nat) (exponent : Int) : Bool :=
  let (a, b) := onGrid units exponent
  b ≤ a

/-- The exponent of the leading digit of a positive value. The estimate from the
binary length is off by one at most. -/
def leadingExponent (units : Nat) : Int :=
  let estimate := ((units.log2 : Int) - 1074) * 30103 / 100000
  if reaches units (estimate + 1) then estimate + 1
  else if reaches units estimate then estimate
  else estimate - 1

/-- Drops the zeros at the end of the digits. -/
def normalize (d : Decimal) : Decimal :=
  if h : d.digits ≠ 0 ∧ d.digits % 10 = 0 then normalize ⟨d.digits / 10, d.exponent + 1⟩ else d
termination_by d.digits
decreasing_by omega

/-- The decimal of fewest digits that denotes a finite magnitude. -/
def shortest (magnitude : Nat) : Decimal :=
  if magnitude = 0 then ⟨0, 0⟩
  else (search magnitude 17 (leadingExponent (Number.units magnitude))).normalize

/-- The decimal digits of a whole number. -/
def digitsOf (n : Nat) : List Char :=
  if n < 10 then [Nat.digitChar n] else digitsOf (n / 10) ++ [Nat.digitChar (n % 10)]
termination_by n

/-- The whole number that decimal digits denote. -/
def valueOf (digits : List Char) : Nat :=
  digits.foldl (fun n c => 10 * n + (c.toNat - '0'.toNat)) 0

end Decimal

end GradualScript
