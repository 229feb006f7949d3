import Mathlib
import GradualScript.Proofs.Number.Rounding

/-!
# Rounding is monotone

A larger value never rounds to a smaller magnitude, and a value close enough to that of
a magnitude rounds to it. The numerators and denominators that rounding works on are left
behind at once: `Rounds` says what happens to their quotient, and the rest follows from
that. So a decimal denotes what its value rounds to, which is zero or infinity for very
small and very large ones.
-/
namespace GradualScript

namespace Number

theorem one_eq : (one : ℚ) = 2 ^ 1074 := by
  unfold one
  generalize 1074 = k
  exact Nat.cast_pow 2 k

/-- A whole number nearest to `x`, and the even one if there are two. -/
structure RoundsTo (x : ℚ) (n : ℕ) : Prop where
  le : x ≤ n + 1 / 2
  ge : n ≤ x + 1 / 2
  even : x = n + 1 / 2 ∨ n = x + 1 / 2 → n % 2 = 0

theorem roundsTo_divideToEven (a : ℕ) {b : ℕ} (hb : 0 < b) :
    RoundsTo (a / b : ℚ) (divideToEven a b) := by
  have hb' : (0 : ℚ) < b := by exact_mod_cast hb
  -- The part behind the point decides, and comparing it with a half is comparing whole numbers.
  have hvalue : (a / b : ℚ) = ↑(a / b) + ↑(a % b) / b := by
    field_simp
    exact_mod_cast (Nat.div_add_mod a b).symm
  have hpos : (0 : ℚ) ≤ ↑(a % b) / b := by positivity
  have hlt : (↑(a % b) / b : ℚ) < 1 := by
    rw [div_lt_one hb']
    exact_mod_cast Nat.mod_lt a hb
  have hhalf : (↑(a % b) / b : ℚ) ≤ 1 / 2 ↔ 2 * (a % b) ≤ b := by
    rw [div_le_div_iff₀ hb' two_pos, one_mul, mul_comm]
    exact_mod_cast Iff.rfl
  have hhalf' : (1 / 2 : ℚ) ≤ ↑(a % b) / b ↔ b ≤ 2 * (a % b) := by
    rw [div_le_div_iff₀ two_pos hb', one_mul, mul_comm]
    exact_mod_cast Iff.rfl
  rw [hvalue]
  generalize (↑(a % b) / b : ℚ) = part at *
  simp only [divideToEven]
  split
  · next hup =>
    have hge : 1 / 2 ≤ part := hhalf'.mpr (by omega)
    have hsucc : ((a / b + 1 : ℕ) : ℚ) = ↑(a / b) + 1 := Nat.cast_succ _
    refine ⟨by linarith, by linarith, ?_⟩
    rintro (h | h)
    · linarith
    · have hle := hhalf.mp (by linarith)
      omega
  · next hdown =>
    have hle : part ≤ 1 / 2 := hhalf.mpr (by omega)
    refine ⟨by linarith, by linarith, ?_⟩
    rintro (h | h)
    · have hge := hhalf'.mp (by linarith)
      omega
    · linarith

theorem RoundsTo.mono {x y : ℚ} {n k : ℕ} (hx : RoundsTo x n) (hy : RoundsTo y k) (h : x ≤ y) :
    n ≤ k := by
  by_contra hlt
  have hsucc : ((k + 1 : ℕ) : ℚ) ≤ n := by exact_mod_cast Nat.lt_of_not_le hlt
  push_cast at hsucc
  have hnext : (n : ℚ) = k + 1 := by linarith [hx.ge, hy.le]
  -- Both lie in the middle of `k` and `k + 1`, of which only one is even.
  have hk := hy.even (.inl (by linarith [hx.ge, hy.le]))
  have hn := hx.even (.inr (by linarith [hx.ge, hy.le]))
  have hnat : n = k + 1 := by exact_mod_cast hnext
  omega

theorem RoundsTo.eq_of_close {x : ℚ} {n k : ℕ} (h : RoundsTo x n) (hlow : (k : ℚ) < x + 1 / 2)
    (hhigh : x < k + 1 / 2) : n = k := by
  have hle : (n : ℚ) < ((k + 1 : ℕ) : ℚ) := by
    push_cast
    linarith [h.ge]
  have hge : (k : ℚ) < ((n + 1 : ℕ) : ℚ) := by
    push_cast
    linarith [h.le]
  have hle' : n < k + 1 := by exact_mod_cast hle
  have hge' : k < n + 1 := by exact_mod_cast hge
  omega

/-- The leading bit of `x` lets it keep the places from `2 ^ p` on. -/
structure PlacedAt (x : ℚ) (p : ℕ) : Prop where
  lt : x < 2 ^ (53 + p)
  leading : p = 0 ∨ 2 ^ (52 + p) ≤ x

theorem placedAt_lastPlace (a : ℕ) {b : ℕ} (hb : 0 < b) :
    PlacedAt (a / b : ℚ) (lastPlace (a / b)) := by
  have hb' : (0 : ℚ) < b := by exact_mod_cast hb
  have hbelow {p : ℕ} (h : a / b < 2 ^ p) : (a / b : ℚ) < 2 ^ p := by
    rw [div_lt_iff₀ hb']
    exact_mod_cast (Nat.div_lt_iff_lt_mul hb).mp h
  have habove {p : ℕ} (h : 2 ^ p ≤ a / b) : 2 ^ p ≤ (a / b : ℚ) := by
    rw [le_div_iff₀ hb']
    exact_mod_cast (Nat.le_div_iff_mul_le hb).mp h
  rw [lastPlace_eq]
  split
  · next hsmall => exact ⟨hbelow hsmall, .inl rfl⟩
  · next hlarge =>
    have hne : a / b ≠ 0 := by omega
    have hlog : 53 ≤ (a / b).log2 := (Nat.le_log2 hne).mpr (Nat.not_lt.mp hlarge)
    refine ⟨hbelow ?_, .inr (habove ?_)⟩
    · rw [show 53 + ((a / b).log2 - 52) = (a / b).log2 + 1 by omega]
      exact Nat.lt_log2_self
    · rw [show 52 + ((a / b).log2 - 52) = (a / b).log2 by omega]
      exact Nat.log2_self_le hne

theorem PlacedAt.mono {x y : ℚ} {p q : ℕ} (hx : PlacedAt x p) (hy : PlacedAt y q) (h : x ≤ y) :
    p ≤ q := by
  rcases hx.leading with rfl | hlead
  · exact Nat.zero_le q
  · have hpow : (2 : ℚ) ^ (52 + p) < 2 ^ (53 + q) := lt_of_le_of_lt (hlead.trans h) hy.lt
    have hlt := (pow_lt_pow_iff_right₀ (one_lt_two (α := ℚ))).mp hpow
    omega

/-- The magnitude that the value `x`, in units, rounds to. -/
inductive Rounds (x : ℚ) : ℕ → Prop
  | intro {p n : ℕ} : PlacedAt x p → RoundsTo (x / 2 ^ p) n →
      Rounds x (min infinite (p * 2 ^ 52 + n))

theorem rounds_nearest (a : ℕ) {b : ℕ} (hb : 0 < b) : Rounds (a / b : ℚ) (nearest a b) := by
  have hround := roundsTo_divideToEven a (Nat.mul_pos hb (Nat.two_pow_pos (lastPlace (a / b))))
  push_cast at hround
  rw [← div_div] at hround
  rw [nearest_eq]
  exact .intro (placedAt_lastPlace a hb) hround

/-- Counted in its last place, a value needs at most 53 bits. -/
theorem PlacedAt.rounded_le {x : ℚ} {p n : ℕ} (hx : PlacedAt x p) (hn : RoundsTo (x / 2 ^ p) n) :
    n ≤ 2 ^ 53 := by
  have hlt : x / 2 ^ p < 2 ^ 53 := by
    rw [div_lt_iff₀ (by positivity), ← pow_add]
    exact hx.lt
  have htop : RoundsTo (2 ^ 53) (2 ^ 53) := by constructor <;> norm_num
  exact hn.mono htop hlt.le

/-- Counted in its last place, a value that does not keep all places needs 53 bits. -/
theorem PlacedAt.le_rounded {x : ℚ} {p n : ℕ} (hx : PlacedAt x p) (hn : RoundsTo (x / 2 ^ p) n)
    (hp : p ≠ 0) : 2 ^ 52 ≤ n := by
  have hge : 2 ^ 52 ≤ x / 2 ^ p := by
    rw [le_div_iff₀ (by positivity), ← pow_add]
    exact hx.leading.resolve_left hp
  have hbottom : RoundsTo (2 ^ 52) (2 ^ 52) := by constructor <;> norm_num
  exact hbottom.mono hn hge

/-- A larger value does not round to a smaller magnitude. -/
theorem Rounds.mono {x y : ℚ} {m k : ℕ} (hx : Rounds x m) (hy : Rounds y k) (h : x ≤ y) :
    m ≤ k := by
  obtain @⟨p, n, hplace, hround⟩ := hx
  obtain @⟨q, l, hplace', hround'⟩ := hy
  refine min_le_min_left _ ?_
  rcases Nat.eq_or_lt_of_le (hplace.mono hplace' h) with rfl | hlt
  · have hle := hround.mono hround' (div_le_div_of_nonneg_right h (by positivity))
    omega
  · have hle := hplace.rounded_le hround
    have hge := hplace'.le_rounded hround' (by omega)
    omega

/-- The place of a value and a whole number of it that is less than half of it away. -/
theorem Rounds.eq_of_placedAt {x : ℚ} {k p n : ℕ} (h : Rounds x k) (hplace : PlacedAt x p)
    (hlow : (n - 1 / 2) * 2 ^ p < x) (hhigh : x < (n + 1 / 2) * 2 ^ p) :
    k = min infinite (p * 2 ^ 52 + n) := by
  obtain @⟨q, l, hplace', hround⟩ := h
  have hpos : (0 : ℚ) < 2 ^ p := by positivity
  obtain rfl := Nat.le_antisymm (hplace'.mono hplace le_rfl) (hplace.mono hplace' le_rfl)
  rw [← lt_div_iff₀ hpos] at hlow
  rw [← div_lt_iff₀ hpos] at hhigh
  rw [hround.eq_of_close (by linarith) hhigh]

/-- A magnitude as its place and what it counts there. -/
theorem exists_place (m : ℕ) : ∃ p n : ℕ, m = p * 2 ^ 52 + n ∧ (units m : ℚ) = n * 2 ^ p ∧
    n < 2 ^ 53 ∧ (p = 0 ∨ 2 ^ 52 ≤ n) := by
  rw [units_eq]
  split
  · next hsmall => exact ⟨0, m, by omega, by simp, hsmall, .inl rfl⟩
  · next hlarge =>
    exact ⟨m / 2 ^ 52 - 1, 2 ^ 52 + m % 2 ^ 52, by omega, by push_cast; rfl, by omega, by omega⟩

/-- Less than a part in `2 ^ 54` away from a magnitude's value is nearer to it than to
that of any other magnitude. -/
theorem Rounds.eq_of_close {x : ℚ} {m k : ℕ} (h : Rounds x k) (hm : m < infinite)
    (hlow : (units m : ℚ) - units m / 2 ^ 54 < x) (hhigh : x < units m + units m / 2 ^ 54) :
    k = m := by
  obtain ⟨p, n, hmag, hunits, hn, hnormal⟩ := exists_place m
  rw [hunits] at hlow hhigh
  have hpos : (0 : ℚ) < 2 ^ p := by positivity
  have hn' : (n : ℚ) ≤ 2 ^ 53 - 1 := by
    have hcast : ((n + 1 : ℕ) : ℚ) ≤ ((2 ^ 53 : ℕ) : ℚ) := by exact_mod_cast hn
    push_cast at hcast
    linarith
  have htop : x < 2 ^ (53 + p) := by
    rw [pow_add]
    nlinarith
  by_cases hlead : p = 0 ∨ 2 ^ (52 + p) ≤ x
  · rw [h.eq_of_placedAt (n := n) ⟨htop, hlead⟩ (by nlinarith) (by nlinarith), ← hmag,
      Nat.min_eq_right hm.le]
  · -- Below a power of two the places are half as far apart: the value is `2 ^ 53` of those.
    push Not at hlead
    obtain ⟨q, rfl⟩ := Nat.exists_eq_succ_of_ne_zero hlead.1
    obtain ⟨-, hbelow⟩ := hlead
    have hsplit : (2 : ℚ) ^ (52 + q.succ) = 2 ^ 52 * 2 ^ q.succ := pow_add ..
    have hdouble : (2 : ℚ) ^ q.succ = 2 * 2 ^ q := pow_succ' ..
    obtain rfl : n = 2 ^ 52 := by
      have hge : 2 ^ 52 ≤ n := hnormal.resolve_left (Nat.succ_ne_zero q)
      have hlt : (n : ℚ) < ((2 ^ 52 + 1 : ℕ) : ℚ) := by
        push_cast
        nlinarith
      have hlt' : n < 2 ^ 52 + 1 := by exact_mod_cast hlt
      omega
    have hpos' : (0 : ℚ) < 2 ^ q := by positivity
    rw [hsplit, hdouble] at hbelow
    push_cast at hlow
    rw [hdouble] at hlow
    have hplace : PlacedAt x q := by
      refine ⟨?_, .inr ?_⟩
      · rw [pow_add]
        linarith
      · rw [pow_add]
        linarith
    rw [h.eq_of_placedAt (n := 2 ^ 53) hplace (by push_cast; linarith) (by push_cast; linarith),
      Nat.min_eq_right (by omega)]
    omega

/-- Less than half a unit rounds to zero. -/
theorem Rounds.eq_zero {x : ℚ} {m : ℕ} (h : Rounds x m) (hpos : 0 ≤ x) (hx : x < 1 / 2) :
    m = 0 := by
  have hplace : PlacedAt x 0 := ⟨hx.trans (by norm_num), .inl rfl⟩
  rw [h.eq_of_placedAt (n := 0) hplace (by norm_num; linarith) (by norm_num; linarith)]
  exact Nat.min_eq_right (Nat.zero_le infinite)

/-- From `2 ^ 1024` on everything rounds to infinity. -/
theorem Rounds.eq_infinite {x : ℚ} {m : ℕ} (h : Rounds x m) (hx : 2 ^ 1024 * (one : ℚ) ≤ x) :
    m = infinite := by
  obtain @⟨p, n, hplace, hround⟩ := h
  rw [one_eq, ← pow_add] at hx
  have hlt := (pow_lt_pow_iff_right₀ (one_lt_two (α := ℚ))).mp (hx.trans_lt hplace.lt)
  have hge := hplace.le_rounded hround (by omega)
  rw [infinite_eq]
  omega

end Number

namespace Decimal

open Number

/-- The value of a decimal in the units that magnitudes are counted in. -/
def amount (d : Decimal) : ℚ := d.digits * 10 ^ d.exponent * one

theorem one_pos : 0 < one := by
  unfold one
  generalize 1074 = k
  exact Nat.two_pow_pos k

theorem one_pos' : (0 : ℚ) < one := by exact_mod_cast one_pos

theorem step_pos (e : ℤ) : (0 : ℚ) < 10 ^ e * one := mul_pos (by positivity) one_pos'

theorem amount_le_amount {n k : ℕ} (e : ℤ) (h : n ≤ k) : amount ⟨n, e⟩ ≤ amount ⟨k, e⟩ := by
  have hcast : (n : ℚ) ≤ k := by exact_mod_cast h
  rw [amount, amount, mul_assoc, mul_assoc]
  exact mul_le_mul_of_nonneg_right hcast (step_pos e).le

theorem amount_nonneg (d : Decimal) : 0 ≤ d.amount := mul_nonneg (by positivity) one_pos'.le

theorem rounds_magnitude (d : Decimal) : Rounds d.amount d.magnitude := by
  obtain ⟨n, e⟩ := d
  rw [magnitude_eq, amount]
  split
  · next hpos =>
    obtain ⟨k, rfl⟩ := Int.eq_ofNat_of_zero_le hpos
    have hround := rounds_nearest (n * 10 ^ k * one) Nat.one_pos
    push_cast at hround
    rw [div_one] at hround
    exact hround
  · next hneg =>
    obtain ⟨k, rfl⟩ := Int.exists_eq_neg_ofNat (by omega : e ≤ 0)
    have hround := rounds_nearest (n * one) (Nat.pow_pos (n := k) (by decide : 0 < 10))
    push_cast at hround
    rw [neg_neg, Int.toNat_natCast, zpow_neg, zpow_natCast]
    rwa [mul_right_comm, ← div_eq_mul_inv]

theorem magnitude_mono {d d' : Decimal} (h : d.amount ≤ d'.amount) : d.magnitude ≤ d'.magnitude :=
  (rounds_magnitude d).mono (rounds_magnitude d') h

/-- The value of a finite magnitude denotes it. -/
theorem rounds_units {m : ℕ} (hm : m < infinite) : Rounds (units m) m := by
  have hround := rounds_nearest (units m) Nat.one_pos
  rwa [nearest_units hm, Nat.cast_one, div_one] at hround

/-- What is at least the power of two after the largest finite number is infinite. -/
theorem magnitude_eq_infinite {d : Decimal} (h : 0 < d.digits) (he : 310 ≤ d.exponent) :
    d.magnitude = infinite := by
  refine (rounds_magnitude d).eq_infinite (mul_le_mul_of_nonneg_right ?_ one_pos'.le)
  have hdigits : (1 : ℚ) ≤ d.digits := by exact_mod_cast h
  calc (2 : ℚ) ^ 1024 ≤ 2 ^ (205 * 5) := pow_le_pow_right₀ one_le_two (by decide)
    _ = (2 ^ 205) ^ 5 := pow_mul ..
    _ ≤ (10 ^ 62) ^ 5 := pow_le_pow_left₀ (by positivity) (by norm_num) 5
    _ = 10 ^ ((310 : ℕ) : ℤ) := by rw [← pow_mul, zpow_natCast]
    _ ≤ 10 ^ d.exponent := zpow_le_zpow_right₀ (by norm_num) he
    _ ≤ d.digits * 10 ^ d.exponent := le_mul_of_one_le_left (by positivity) hdigits

/-- What is less than half of the smallest positive number is zero. -/
theorem magnitude_eq_zero {d : Decimal} {k : ℕ} (h : d.digits < 10 ^ k)
    (he : d.exponent + k ≤ -325) : d.magnitude = 0 := by
  refine (rounds_magnitude d).eq_zero (amount_nonneg d) ?_
  have hdigits : (d.digits : ℚ) ≤ 10 ^ k := by exact_mod_cast h.le
  have hvalue : d.digits * (10 : ℚ) ^ d.exponent ≤ (10 ^ 325)⁻¹ :=
    calc d.digits * (10 : ℚ) ^ d.exponent
        ≤ 10 ^ k * 10 ^ d.exponent := mul_le_mul_of_nonneg_right hdigits (by positivity)
      _ = 10 ^ (d.exponent + k) := by rw [zpow_add₀ (by norm_num), zpow_natCast, mul_comm]
      _ ≤ 10 ^ (-(325 : ℕ) : ℤ) := zpow_le_zpow_right₀ (by norm_num) he
      _ = (10 ^ 325)⁻¹ := by rw [zpow_neg, zpow_natCast]
  have htiny : (one : ℚ) * 2 < 10 ^ 325 := by
    rw [one_eq, ← pow_succ, show 1074 + 1 = 43 * 25 from rfl, show 325 = 13 * 25 from rfl,
      pow_mul, pow_mul]
    exact pow_lt_pow_left₀ (by norm_num) (by positivity) (by decide)
  refine (mul_le_mul_of_nonneg_right hvalue one_pos'.le).trans_lt ?_
  rw [inv_mul_lt_iff₀ (by positivity), mul_one_div, lt_div_iff₀ two_pos]
  exact htiny

end Decimal

end GradualScript
