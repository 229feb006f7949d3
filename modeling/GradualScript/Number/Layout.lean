import GradualScript.Number.Decimal

/-!
# Writing numbers

All forms of a number write the same shortest digits. A layout says what else a
form decides: which exponents are written out positionally, what marks a whole
number, how an exponent looks, and the words for infinity and NaN. Here are the
layouts of printed output, of source literals and of structural dumps.
-/
namespace GradualScript

structure NumberLayout where
  nan : String
  infinity : String
  /-- The exponents of the leading digit for which all places are written out. -/
  positional : Int → Bool
  /-- Follows the digits of a whole number. -/
  wholeMark : String
  /-- Precedes an exponent that is not negative. -/
  plus : String
  /-- The least number of digits of an exponent. -/
  exponentWidth : Nat

namespace NumberLayout

/-- Printed output: exponents from -4 to 5 are written out, others have a sign
and at least two digits. -/
def printed : NumberLayout where
  nan := "nan"
  infinity := "inf"
  positional e := -4 ≤ e && e < 6
  wholeMark := ""
  plus := "+"
  exponentWidth := 2

/-- Source text has no exponents: all places are written out. -/
def literal : NumberLayout where
  nan := "NaN"
  infinity := "inf"
  positional _ := true
  wholeMark := ""
  plus := ""
  exponentWidth := 1

/-- Dumps write out exponents from -4 to 15 and mark whole numbers. -/
def dumped : NumberLayout where
  nan := "NaN"
  infinity := "inf"
  positional e := -4 ≤ e && e < 16
  wholeMark := ".0"
  plus := ""
  exponentWidth := 1

/-- All places of the digits, the first of which has exponent `leading`. -/
def writePositional (layout : NumberLayout) (digits : List Char) (leading : Int) : List Char :=
  if leading < 0 then '0' :: '.' :: List.replicate (-leading - 1).toNat '0' ++ digits
  else
    let wholePlaces := leading.toNat + 1
    if digits.length ≤ wholePlaces then
      digits ++ List.replicate (wholePlaces - digits.length) '0' ++ layout.wholeMark.toList
    else digits.take wholePlaces ++ '.' :: digits.drop wholePlaces

/-- An exponent with its sign and zeros up to the least width. -/
def writeExponent (layout : NumberLayout) (exponent : Int) : List Char :=
  let digits := Decimal.digitsOf exponent.natAbs
  let sign := if exponent < 0 then ['-'] else layout.plus.toList
  sign ++ List.replicate (layout.exponentWidth - digits.length) '0' ++ digits

/-- One digit, the others after a point, and the exponent of the first. -/
def writeScientific (layout : NumberLayout) (digits : List Char) (leading : Int) : List Char :=
  let mantissa := match digits with
    | [] => []
    | [digit] => [digit]
    | digit :: rest => digit :: '.' :: rest
  mantissa ++ 'e' :: layout.writeExponent leading

def writeDecimal (layout : NumberLayout) (d : Decimal) : List Char :=
  let digits := Decimal.digitsOf d.digits
  let leading := d.exponent + digits.length - 1
  if layout.positional leading then layout.writePositional digits leading
  else layout.writeScientific digits leading

/-- The text of a number. A NaN has no sign. -/
def write (layout : NumberLayout) (x : Number) : String :=
  if x.isNaN then layout.nan
  else
    let unsigned :=
      if x.magnitude = Number.infinite then layout.infinity
      else String.ofList (layout.writeDecimal (Decimal.shortest x.magnitude))
    if x.isNegative then "-" ++ unsigned else unsigned

end NumberLayout

end GradualScript
