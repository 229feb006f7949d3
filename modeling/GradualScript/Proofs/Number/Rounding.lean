import Mathlib
import GradualScript.Number.Decimal

/-!
# Rounding is exact on numbers

A quotient rounds the same way whatever common factor it is written with, and a
whole number of units that a number has rounds to that number. So every decimal
that the search for the shortest one returns denotes the magnitude searched for.
-/
namespace GradualScript

namespace Number

theorem infinite_eq : infinite = 2047 * 2 ^ 52 := rfl

/-- The number of smallest units in a magnitude, with powers that arithmetic knows. -/
theorem units_eq (m : Nat) :
    units m = if m < 2 ^ 53 then m else (2 ^ 52 + m % 2 ^ 52) * 2 ^ (m / 2 ^ 52 - 1) := rfl

theorem lastPlace_eq (whole : Nat) :
    lastPlace whole = if whole < 2 ^ 53 then 0 else whole.log2 - 52 := rfl

theorem nearest_eq (a b : Nat) :
    nearest a b = min infinite
      (lastPlace (a / b) * 2 ^ 52 + divideToEven a (b * 2 ^ lastPlace (a / b))) := rfl

theorem divideToEven_scale {k : Nat} (hk : 0 < k) (a b : Nat) :
    divideToEven (k * a) (k * b) = divideToEven a b := by
  have htwice : 2 * (k * (a % b)) = k * (2 * (a % b)) := Nat.mul_left_comm ..
  simp only [divideToEven, Nat.mul_div_mul_left a b hk, Nat.mul_mod_mul_left, htwice,
    Nat.mul_lt_mul_left hk, Nat.mul_right_inj (Nat.ne_of_gt hk)]

/-- A fraction may be extended before it is rounded. -/
theorem nearest_scale {k : Nat} (hk : 0 < k) (a b : Nat) :
    nearest (k * a) (k * b) = nearest a b := by
  rw [nearest_eq, Nat.mul_div_mul_left a b hk, Nat.mul_assoc, divideToEven_scale hk, nearest_eq]

/-- A fraction that is a whole number of units is rounded as that number. -/
theorem nearest_cancel {k : Nat} (hk : 0 < k) (a : Nat) : nearest (a * k) k = nearest a 1 := by
  have hscale := nearest_scale hk a 1
  rwa [Nat.mul_one, Nat.mul_comm] at hscale

theorem divideToEven_mul (a : Nat) {b : Nat} (hb : 0 < b) : divideToEven (a * b) b = a := by
  simp only [divideToEven, Nat.mul_div_cancel a hb, Nat.mul_mod_left, Nat.mul_zero]
  rw [if_neg (by omega)]

theorem nearest_le_infinite (a b : Nat) : nearest a b ≤ infinite := Nat.min_le_left ..

theorem nearest_zero (b : Nat) : nearest 0 b = 0 := by
  simp [nearest_eq, divideToEven, lastPlace_eq]

/-- The last place of a magnitude with a leading bit is that of its exponent. -/
theorem lastPlace_shifted {f e : Nat} (hf : f < 2 ^ 52) (he : 0 < e) :
    lastPlace ((2 ^ 52 + f) * 2 ^ e) = e := by
  have hlog : ((2 ^ 52 + f) * 2 ^ e).log2 = 52 + e := by
    have hpos := Nat.mul_pos (by omega : 0 < 2 ^ 52 + f) (Nat.two_pow_pos e)
    apply (Nat.log2_eq_iff (Nat.ne_of_gt hpos)).mpr
    constructor
    · rw [Nat.pow_add]
      exact Nat.mul_le_mul_right _ (by omega)
    · rw [Nat.add_right_comm, Nat.pow_add]
      exact Nat.mul_lt_mul_of_pos_right (by omega) (Nat.two_pow_pos e)
  have hlarge : 2 ^ 53 ≤ (2 ^ 52 + f) * 2 ^ e := by
    have htwo : 2 ^ 1 ≤ 2 ^ e := Nat.pow_le_pow_right (by decide) he
    calc 2 ^ 53 = 2 ^ 52 * 2 ^ 1 := by decide
      _ ≤ (2 ^ 52 + f) * 2 ^ e := Nat.mul_le_mul (by omega) htwo
  rw [lastPlace_eq, if_neg (by omega), hlog, Nat.add_sub_cancel_left]

/-- Rounding the value of a finite magnitude gives the magnitude. -/
theorem nearest_units {m : Nat} (hm : m < infinite) : nearest (units m) 1 = m := by
  rw [infinite_eq] at hm
  by_cases hsmall : m < 2 ^ 53
  · have hplace : lastPlace m = 0 := if_pos hsmall
    rw [units_eq, if_pos hsmall, nearest_eq, infinite_eq, Nat.div_one, hplace, Nat.pow_zero]
    have hdivide := divideToEven_mul m Nat.one_pos
    rw [Nat.mul_one] at hdivide ⊢
    rw [hdivide, Nat.zero_mul, Nat.zero_add, Nat.min_eq_right (by omega)]
  · have hfraction : m % 2 ^ 52 < 2 ^ 52 := Nat.mod_lt _ (by decide)
    have hexponent : 0 < m / 2 ^ 52 - 1 := by omega
    rw [units_eq, if_neg hsmall, nearest_eq, infinite_eq, Nat.div_one, lastPlace_shifted hfraction hexponent,
      Nat.one_mul, divideToEven_mul _ (Nat.two_pow_pos _), Nat.min_eq_right (by omega)]
    omega

end Number

namespace Decimal

open Number

theorem magnitude_eq (digits : Nat) (e : Int) :
    magnitude ⟨digits, e⟩ =
      if 0 ≤ e then nearest (digits * 10 ^ e.toNat * one) 1
      else nearest (digits * one) (10 ^ (-e).toNat) := rfl

theorem magnitude_of_zero (e : Int) : magnitude ⟨0, e⟩ = 0 := by
  simp [magnitude_eq, nearest_zero]

/-- Ten times the digits at the exponent before denote the same. -/
theorem magnitude_tenfold (digits : Nat) (e : Int) :
    magnitude ⟨10 * digits, e⟩ = magnitude ⟨digits, e + 1⟩ := by
  by_cases hpos : 0 ≤ e
  · have hsucc : (e + 1).toNat = e.toNat + 1 := by omega
    simp only [magnitude_eq, if_pos hpos, if_pos (by omega : 0 ≤ e + 1), hsucc]
    rw [Nat.pow_succ, Nat.mul_comm 10 digits, Nat.mul_assoc digits, Nat.mul_comm 10]
  · have hscale : 10 ^ (-e).toNat = 10 * 10 ^ (-(e + 1)).toNat := by
      rw [show (-e).toNat = (-(e + 1)).toNat + 1 by omega, Nat.pow_succ, Nat.mul_comm]
    by_cases hlast : 0 ≤ e + 1
    · have hzero : (-(e + 1)).toNat = 0 := by omega
      have hzero' : (e + 1).toNat = 0 := by omega
      rw [hzero, Nat.pow_zero] at hscale
      simp only [magnitude_eq, if_neg hpos, if_pos hlast, hzero', hscale, Nat.pow_zero, Nat.mul_one]
      rw [Nat.mul_assoc]
      exact nearest_scale (by decide) (digits * one) 1
    · simp only [magnitude_eq, if_neg hpos, if_neg hlast, hscale]
      rw [Nat.mul_assoc]
      exact nearest_scale (by decide) ..

/-- Trailing zeros of the digits do not matter. -/
theorem magnitude_normalize (d : Decimal) : d.normalize.magnitude = d.magnitude := by
  induction d using normalize.induct with
  | case1 d h ih =>
    have htens : 10 * (d.digits / 10) = d.digits := by omega
    rw [normalize, dif_pos h, ih, ← magnitude_tenfold, htens]
  | case2 d h => rw [normalize, dif_neg h]

/-- What the search finds on a grid denotes the magnitude: it is tested there. -/
theorem magnitude_of_onGrid? {m : Nat} {e : Int} {d : Decimal} (h : onGrid? m e = some d) :
    d.magnitude = m := by
  unfold onGrid? at h
  dsimp only at h
  split at h
  · next hbelow =>
    split at h
    · next habove =>
      cases h
      exact habove.1
    · cases h
      exact hbelow
  · split at h
    · next habove =>
      cases h
      exact habove
    · cases h

/-- Fives in the digits make up for the twos that a unit has in its denominator. -/
theorem nearest_fives (a k : Nat) :
    nearest (a * Nat.pow 5 k * Nat.pow 2 k) (Nat.pow 10 k) = nearest a 1 := by
  have htens : Nat.pow 5 k * Nat.pow 2 k = Nat.pow 10 k := (Nat.mul_pow 5 2 k).symm
  rw [Nat.mul_assoc, htens]
  exact nearest_cancel (Nat.pow_pos (by decide)) a

theorem magnitude_exact {m : Nat} (hm : m < infinite) : (exact m).magnitude = m := by
  have hplaces : (-(-1074) : Int).toNat = 1074 := rfl
  rw [exact, magnitude, if_neg (by decide : ¬ (0 : Int) ≤ -1074), hplaces]
  unfold one
  dsimp only
  -- The powers are too large to evaluate: the exponent goes out of sight.
  generalize 1074 = k
  rw [nearest_fives, nearest_units hm]

theorem magnitude_search {m : Nat} (hm : m < infinite) (count : Nat) (e : Int) :
    (search m count e).magnitude = m := by
  induction count generalizing e with
  | zero => exact magnitude_exact hm
  | succ count ih =>
    rw [search]
    split
    · next d h => exact magnitude_of_onGrid? h
    · exact ih (e - 1)

/-- The shortest decimal of a finite magnitude denotes it. -/
theorem magnitude_shortest {m : Nat} (hm : m < infinite) : (shortest m).magnitude = m := by
  rw [shortest]
  split
  · next hzero =>
    rw [magnitude_of_zero]
    exact hzero.symm
  · rw [magnitude_normalize, magnitude_search hm]

end Decimal

end GradualScript
