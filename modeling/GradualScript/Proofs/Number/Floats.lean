import Mathlib
import GradualScript.Number

/-!
# Numbers and floats

A number is a bit pattern, and arithmetic is done on the float that it stands for. The
float keeps all bits of a number that is no NaN, and a number keeps all bits of a float.
-/
namespace GradualScript.Number

open Float.Model UnpackedFloat

/-- A float is not changed by being stored as its bits. -/
@[simp] theorem toFloat_ofFloat (x : Float) : (ofFloat x).toFloat = x := Float.ofBits_toBits x

@[simp] theorem neg_ofFloat (x : Float) : -ofFloat x = ofFloat (-x) := by
  change ofFloat (-(ofFloat x).toFloat) = _
  rw [toFloat_ofFloat]

/-- Numbers that come from floats are added as floats. -/
@[simp] theorem add_ofFloat (x y : Float) : ofFloat x + ofFloat y = ofFloat (x + y) := by
  change ofFloat ((ofFloat x).toFloat + (ofFloat y).toFloat) = _
  rw [toFloat_ofFloat, toFloat_ofFloat]

@[simp] theorem sub_ofFloat (x y : Float) : ofFloat x - ofFloat y = ofFloat (x - y) := by
  change ofFloat ((ofFloat x).toFloat - (ofFloat y).toFloat) = _
  rw [toFloat_ofFloat, toFloat_ofFloat]

@[simp] theorem mul_ofFloat (x y : Float) : ofFloat x * ofFloat y = ofFloat (x * y) := by
  change ofFloat ((ofFloat x).toFloat * (ofFloat y).toFloat) = _
  rw [toFloat_ofFloat, toFloat_ofFloat]

@[simp] theorem div_ofFloat (x y : Float) : ofFloat x / ofFloat y = ofFloat (x / y) := by
  change ofFloat ((ofFloat x).toFloat / (ofFloat y).toFloat) = _
  rw [toFloat_ofFloat, toFloat_ofFloat]

/-- Both zeros are zero. -/
@[simp] theorem isZero_ofFloat (x : Float) : (ofFloat x).isZero = (x == 0.0) := by
  rw [isZero, toFloat_ofFloat]

/-- A pattern with a full exponent and a mantissa is above infinity. -/
theorem isNaNBits_eq_false {x : Number} (h : x.isNaN = false) :
    @isNaNBits Format.binary64 x.bits.toBitVec = false := by
  have hle : x.bits.toNat % 2 ^ 63 ≤ 2047 * 2 ^ 52 := Nat.not_lt.mp (of_decide_eq_false h)
  refine decide_eq_false ?_
  rw [unpackExponent_def, unpackMantissa_def]
  rintro ⟨hexponent, hmantissa⟩
  have hfull : x.bits.toNat / 2 ^ 52 % 2 ^ 11 = 2047 := by
    simpa [Nat.shiftRight_eq_div_pow] using congrArg BitVec.toNat hexponent
  have hzero : x.bits.toNat % 2 ^ 52 = 0 := by omega
  apply hmantissa
  apply BitVec.eq_of_toNat_eq
  simpa using hzero

/-- A number that is no NaN is that of its float. -/
theorem ofFloat_toFloat {x : Number} (h : x.isNaN = false) : ofFloat x.toFloat = x := by
  have hbits := @pack_unpack Format.binary64 x.bits.toBitVec (by decide)
  rw [isNaNBits_eq_false h, if_neg (by decide)] at hbits
  exact congrArg (fun bits => Number.mk (UInt64.ofBitVec bits)) hbits

end GradualScript.Number
