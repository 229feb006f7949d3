/-!
# Numbers

A number is a binary64 value held as its bit pattern, so that two numbers are
equal as data exactly when their bits are. Arithmetic and comparison are those
of binary64: there zero equals negative zero, and a NaN equals nothing.
-/
namespace GradualScript

/-- A number of the language, as its 64 bits. -/
structure Number where
  bits : UInt64
  deriving DecidableEq

namespace Number

def ofFloat (x : Float) : Number := ⟨x.toBits⟩

def toFloat (x : Number) : Float := Float.ofBits x.bits

/-- The sign bit is set. -/
def isNegative (x : Number) : Bool := Nat.pow 2 63 ≤ x.bits.toNat

/-- The bit pattern without its sign bit. Among finite numbers and infinity it
grows with the absolute value. -/
def magnitude (x : Number) : Nat := x.bits.toNat % Nat.pow 2 63

/-- The number of a sign and a magnitude. -/
def ofMagnitude (negative : Bool) (magnitude : Nat) : Number :=
  ⟨UInt64.ofNat (if negative then Nat.pow 2 63 + magnitude else magnitude)⟩

/-- The magnitude of infinity: every finite magnitude is below it and that of
every NaN above. -/
def infinite : Nat := 2047 * Nat.pow 2 52

/-- The magnitude of the NaN that a literal denotes. -/
def quietNaN : Nat := 4095 * Nat.pow 2 51

/-- What lies beyond the infinities in magnitude is no number. -/
def isNaN (x : Number) : Bool := infinite < x.magnitude

protected def add (x y : Number) : Number := ofFloat (x.toFloat + y.toFloat)
protected def sub (x y : Number) : Number := ofFloat (x.toFloat - y.toFloat)
protected def mul (x y : Number) : Number := ofFloat (x.toFloat * y.toFloat)
protected def div (x y : Number) : Number := ofFloat (x.toFloat / y.toFloat)
protected def neg (x : Number) : Number := ofFloat (-x.toFloat)

instance : Add Number := ⟨Number.add⟩
instance : Sub Number := ⟨Number.sub⟩
instance : Mul Number := ⟨Number.mul⟩
instance : Div Number := ⟨Number.div⟩
instance : Neg Number := ⟨Number.neg⟩

/-- Equality of values. -/
def same (x y : Number) : Bool := x.toFloat == y.toFloat

/-- The order of floats, in which a NaN is neither less nor greater than anything. -/
def less (x y : Number) : Bool := x.toFloat < y.toFloat

def lessOrEqual (x y : Number) : Bool := x.toFloat ≤ y.toFloat

/-- Zero of either sign. -/
def isZero (x : Number) : Bool := x.toFloat == 0.0

end Number

end GradualScript
