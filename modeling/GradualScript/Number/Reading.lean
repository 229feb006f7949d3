import GradualScript.Number.Decimal

/-!
# Reading numbers

The text of a number is an optional sign and then a decimal, or one of the words
for infinity and NaN in any letter case. A decimal has digits with a point before,
among or after them, and may end in an exponent. Only ASCII digits count.
-/
namespace GradualScript.Number

/-- A sign and the text after it; no sign is a plus. -/
def readSign : List Char → Bool × List Char
  | '-' :: rest => (true, rest)
  | '+' :: rest => (false, rest)
  | rest => (false, rest)

/-- The exponent that `text` denotes; the empty text denotes zero. -/
def readExponent? : List Char → Option Int
  | [] => some 0
  | mark :: rest =>
      if mark = 'e' ∨ mark = 'E' then
        let (negative, digits) := readSign rest
        if digits.isEmpty ∨ digits.any (!Char.isDigit ·) then none
        else
          let size : Int := Decimal.valueOf digits
          some (if negative then -size else size)
      else none

/-- The digits before and after the point, and the text after them. -/
def readMantissa (text : List Char) : List Char × List Char × List Char :=
  let whole := text.takeWhile Char.isDigit
  match text.dropWhile Char.isDigit with
  | '.' :: rest => (whole, rest.takeWhile Char.isDigit, rest.dropWhile Char.isDigit)
  | rest => (whole, [], rest)

/-- The magnitude of `digits · 10 ^ exponent`. Past the outermost exponents the
answer needs no arithmetic. -/
def magnitudeOfDigits (digits : List Char) (exponent : Int) : Nat :=
  let value := Decimal.valueOf digits
  if value = 0 then 0
  else if 309 < exponent then infinite
  else if exponent + digits.length < -324 then 0
  else Decimal.magnitude ⟨value, exponent⟩

/-- The magnitude that an unsigned decimal denotes. -/
def readDecimal? (text : List Char) : Option Nat :=
  let (whole, fraction, rest) := readMantissa text
  if whole.isEmpty && fraction.isEmpty then none
  else (readExponent? rest).map fun exponent =>
    magnitudeOfDigits (whole ++ fraction) (exponent - fraction.length)

/-- The magnitude that a word denotes. -/
def readWord? (text : List Char) : Option Nat :=
  match String.ofList (text.map Char.toLower) with
  | "inf" | "infinity" => some infinite
  | "nan" => some quietNaN
  | _ => none

/-- The number that a text denotes. -/
def read? (text : String) : Option Number :=
  let (negative, unsigned) := readSign text.toList
  ((readDecimal? unsigned).or (readWord? unsigned)).map (ofMagnitude negative)

end GradualScript.Number
