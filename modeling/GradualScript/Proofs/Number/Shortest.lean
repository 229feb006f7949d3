import Mathlib
import GradualScript.Proofs.Number.Literal
import GradualScript.Proofs.Number.Nearest

/-!
# The shortest decimal is the shortest

The search goes from coarse grids to fine ones and starts at the leading digit, so the
first grid where it finds something decides how many digits there are. A decimal with
fewer digits would lie on a coarser grid, or be below the leading digit altogether and
then have a power of ten between itself and the value. Rounding is monotone, so the
search would have found a neighbour of the value on that grid.
-/
namespace GradualScript.Decimal

open Number

theorem onGrid_pos (units : ℕ) (e : ℤ) : 0 < (onGrid units e).2 := by
  rw [onGrid]
  split
  · exact Nat.mul_pos (Nat.pow_pos (by decide)) one_pos
  · dsimp only
    exact one_pos

/-- The quotient counts the steps of the grid. -/
theorem onGrid_eq (units : ℕ) (e : ℤ) :
    (units : ℚ) / (10 ^ e * one) = (onGrid units e).1 / (onGrid units e).2 := by
  have hone := one_pos'.ne'
  simp only [onGrid]
  split
  · next hpos =>
    obtain ⟨k, rfl⟩ := Int.eq_ofNat_of_zero_le hpos
    have hstep : ((Nat.pow 10 (Int.toNat k) * one : ℕ) : ℚ) = 10 ^ (k : ℤ) * one := by
      rw [Int.toNat_natCast, zpow_natCast, Nat.cast_mul]
      exact congrArg (· * (one : ℚ)) (Nat.cast_pow 10 k)
    rw [hstep]
  · next hneg =>
    obtain ⟨k, rfl⟩ := Int.exists_eq_neg_ofNat (by omega : e ≤ 0)
    have hcount : ((units * Nat.pow 10 (- -(k : ℤ)).toNat : ℕ) : ℚ) = units * 10 ^ k := by
      rw [neg_neg, Int.toNat_natCast, Nat.cast_mul]
      exact congrArg ((units : ℚ) * ·) (Nat.cast_pow 10 k)
    rw [hcount, zpow_neg, zpow_natCast]
    field_simp

theorem reaches_iff (units : ℕ) (e : ℤ) : reaches units e = true ↔ 10 ^ e * (one : ℚ) ≤ units := by
  have hpos : (0 : ℚ) < (onGrid units e).2 := by exact_mod_cast onGrid_pos units e
  rw [← one_le_div₀ (step_pos e), onGrid_eq, one_le_div₀ hpos, Nat.cast_le]
  exact decide_eq_true_iff

/-- How many steps of the grid `10 ^ e` the value of a magnitude contains. -/
def gridFloor (m : ℕ) (e : ℤ) : ℕ := (onGrid (units m) e).1 / (onGrid (units m) e).2

theorem gridFloor_eq (m : ℕ) (e : ℤ) : gridFloor m e = ⌊(units m : ℚ) / (10 ^ e * one)⌋₊ := by
  rw [onGrid_eq, Nat.floor_div_eq_div]
  rfl

theorem amount_gridFloor_le (m : ℕ) (e : ℤ) : amount ⟨gridFloor m e, e⟩ ≤ units m := by
  rw [amount, mul_assoc, ← le_div_iff₀ (step_pos e), gridFloor_eq]
  exact Nat.floor_le (div_nonneg (Nat.cast_nonneg _) (step_pos e).le)

theorem lt_amount_gridFloor (m : ℕ) (e : ℤ) : units m < amount ⟨gridFloor m e + 1, e⟩ := by
  rw [amount, mul_assoc, ← div_lt_iff₀ (step_pos e), gridFloor_eq, Nat.cast_succ]
  exact Nat.lt_floor_add_one _

/-- The search tries the two neighbours on a grid, and no other decimals. -/
theorem onGrid?_cases (m : ℕ) (e : ℤ) :
    onGrid? m e = some ⟨gridFloor m e, e⟩ ∨ onGrid? m e = some ⟨gridFloor m e + 1, e⟩ ∨
      onGrid? m e = none ∧ magnitude ⟨gridFloor m e, e⟩ ≠ m ∧
        magnitude ⟨gridFloor m e + 1, e⟩ ≠ m := by
  simp only [onGrid?, gridFloor]
  grind

theorem digits_le_of_onGrid? {m : ℕ} {e : ℤ} {d : Decimal} (h : onGrid? m e = some d) :
    d.digits ≤ gridFloor m e + 1 := by
  rcases onGrid?_cases m e with hsome | hsome | ⟨hnone, -⟩
  · cases hsome.symm.trans h
    exact Nat.le_succ _
  · cases hsome.symm.trans h
    exact le_rfl
  · cases hnone.symm.trans h

/-- Whatever decimal on a grid denotes a magnitude, a neighbour does so as well. -/
theorem isSome_onGrid? {m n : ℕ} {e : ℤ} (hm : m < infinite) (h : magnitude ⟨n, e⟩ = m) :
    (onGrid? m e).isSome := by
  rcases onGrid?_cases m e with hsome | hsome | ⟨-, hbelow, habove⟩
  · rw [hsome]
    rfl
  · rw [hsome]
    rfl
  · exfalso
    rcases Nat.lt_or_ge (gridFloor m e) n with hlt | hle
    · have hge := (rounds_units hm).mono (rounds_magnitude _) (lt_amount_gridFloor m e).le
      have hle := magnitude_mono (amount_le_amount e (Nat.succ_le_of_lt hlt))
      rw [Nat.succ_eq_add_one] at hle
      omega
    · have hle' := (rounds_magnitude _).mono (rounds_units hm) (amount_gridFloor_le m e)
      have hge := magnitude_mono (amount_le_amount e hle)
      omega

/-- A decimal lies on every finer grid. -/
theorem exists_finer (d : Decimal) {e : ℤ} (he : e ≤ d.exponent) :
    ∃ n, amount ⟨n, e⟩ = d.amount := by
  obtain ⟨k, hk⟩ := Int.le.dest he
  refine ⟨d.digits * 10 ^ k, ?_⟩
  rw [amount, amount, ← hk, zpow_add₀ (by norm_num), zpow_natCast]
  push_cast
  ring

theorem isSome_onGrid?_of_le {m : ℕ} {d : Decimal} {e : ℤ} (hm : m < infinite)
    (h : d.magnitude = m) (he : e ≤ d.exponent) : (onGrid? m e).isSome := by
  obtain ⟨n, hn⟩ := exists_finer d he
  refine isSome_onGrid? hm (n := n) ?_
  rw [← h]
  exact Nat.le_antisymm (magnitude_mono hn.le) (magnitude_mono hn.ge)

/-- The first estimate is never off by more than the search for the leading digit allows. -/
theorem reaches_estimate : ∀ k : ℕ, k < 2098 →
    reaches (2 ^ k) (((k : ℤ) - 1074) * 30103 / 100000 - 1) = true ∧
      reaches (2 ^ (k + 1)) (((k : ℤ) - 1074) * 30103 / 100000 + 2) = false := by
  decide +kernel

theorem reaches_mono {u v : ℕ} {e : ℤ} (h : u ≤ v) (hu : reaches u e = true) :
    reaches v e = true := by
  rw [reaches_iff] at hu ⊢
  exact hu.trans (by exact_mod_cast h)

theorem leadingExponent_spec {u : ℕ} (hpos : 0 < u) (hlog : u.log2 < 2098) :
    reaches u (leadingExponent u) = true ∧ reaches u (leadingExponent u + 1) = false := by
  obtain ⟨hlow, hhigh⟩ := reaches_estimate _ hlog
  have hlow' := reaches_mono (Nat.log2_self_le hpos.ne') hlow
  have hhigh' : reaches u (((u.log2 : ℤ) - 1074) * 30103 / 100000 + 2) = false := by
    rw [Bool.eq_false_iff] at hhigh ⊢
    exact mt (reaches_mono Nat.lt_log2_self.le) hhigh
  simp only [leadingExponent]
  split_ifs with hnext hthis
  · exact ⟨hnext, by rwa [add_assoc]⟩
  · exact ⟨hthis, by simpa using hnext⟩
  · exact ⟨hlow', by simpa using hthis⟩

theorem units_pos {m : ℕ} (h0 : 0 < m) : 0 < units m := by
  rw [units_eq]
  split
  · exact h0
  · positivity

theorem log2_units_lt {m : ℕ} (h0 : 0 < m) (hm : m < infinite) : (units m).log2 < 2098 := by
  rw [infinite_eq] at hm
  have hunits : units m < 2 ^ (53 + (m / 2 ^ 52 - 1)) := by
    rw [units_eq, Nat.pow_add]
    split
    · next hsmall => exact hsmall.trans_le (Nat.le_mul_of_pos_right _ (Nat.two_pow_pos _))
    · exact Nat.mul_lt_mul_of_pos_right (by omega) (Nat.two_pow_pos _)
  have hlog := (Nat.log2_lt (units_pos h0).ne').mpr hunits
  omega

/-- The exponent of the leading digit of a magnitude's value. -/
def leading (m : ℕ) : ℤ := leadingExponent (units m)

section Positive

variable {m : ℕ} (h0 : 0 < m) (hm : m < infinite)
include h0 hm

theorem leading_le : 10 ^ leading m * (one : ℚ) ≤ units m :=
  (reaches_iff ..).mp (leadingExponent_spec (units_pos h0) (log2_units_lt h0 hm)).1

theorem lt_leading : (units m : ℚ) < 10 ^ (leading m + 1) * one := by
  have hnot := (leadingExponent_spec (units_pos h0) (log2_units_lt h0 hm)).2
  rw [Bool.eq_false_iff, ne_eq, reaches_iff] at hnot
  exact not_le.mp hnot

/-- A magnitude contains fewer than `10 ^ k` steps of the grid that gives it `k` places. -/
theorem gridFloor_lt (k : ℕ) : gridFloor m (leading m + 1 - k) < 10 ^ k := by
  have hstep := step_pos (leading m + 1 - k)
  have hle := amount_gridFloor_le m (leading m + 1 - k)
  have hlt := lt_leading h0 hm
  have hsplit : (10 : ℚ) ^ (leading m + 1) = 10 ^ k * 10 ^ (leading m + 1 - k) := by
    rw [← zpow_natCast, ← zpow_add₀ (by norm_num)]
    congr 1
    omega
  rw [hsplit, mul_assoc] at hlt
  rw [amount, mul_assoc] at hle
  have hcast := lt_of_mul_lt_mul_right (hle.trans_lt hlt) hstep.le
  exact_mod_cast hcast

/-- On the grid that gives a magnitude 17 places, the nearer neighbour denotes it. -/
theorem isSome_onGrid?_seventeen : (onGrid? m (leading m + 1 - (17 : ℕ))).isSome := by
  have hle := amount_gridFloor_le m (leading m + 1 - (17 : ℕ))
  have hlt := lt_amount_gridFloor m (leading m + 1 - (17 : ℕ))
  have hlead := leading_le h0 hm
  have hsplit : (10 : ℚ) ^ leading m = 10 ^ 16 * 10 ^ (leading m + 1 - (17 : ℕ)) := by
    rw [← zpow_natCast, ← zpow_add₀ (by norm_num)]
    congr 1
    omega
  have hstep := step_pos (leading m + 1 - (17 : ℕ))
  rw [hsplit, mul_assoc] at hlead
  generalize leading m + 1 - (17 : ℕ) = e at *
  have hsucc : amount ⟨gridFloor m e + 1, e⟩ = amount ⟨gridFloor m e, e⟩ + 10 ^ e * one := by
    rw [amount, amount]
    push_cast
    ring
  rcases le_total (units m - amount ⟨gridFloor m e, e⟩) (10 ^ e * one / 2) with hhalf | hhalf
  · exact isSome_onGrid? hm
      ((rounds_magnitude ⟨gridFloor m e, e⟩).eq_of_close hm (by linarith) (by linarith))
  · exact isSome_onGrid? hm
      ((rounds_magnitude ⟨gridFloor m e + 1, e⟩).eq_of_close hm (by linarith) (by linarith))

/-- A decimal of `k` digits that denotes a magnitude has one beside it on the grid that
gives the magnitude `k` places. -/
theorem isSome_onGrid?_of_lt {d : Decimal} {k : ℕ} (h : d.magnitude = m) (hk : 0 < k)
    (hd : d.digits < 10 ^ k) : (onGrid? m (leading m + 1 - k)).isSome := by
  rcases le_or_gt (leading m + 1 - k) d.exponent with hle | hlt
  · exact isSome_onGrid?_of_le hm h hle
  · -- The decimal is below the leading power of ten, which is not above the value.
    have hpower : magnitude ⟨1, leading m⟩ = m := by
      apply Nat.le_antisymm
      · refine (rounds_magnitude _).mono (rounds_units hm) ?_
        rw [amount, Nat.cast_one, one_mul]
        exact leading_le h0 hm
      · subst h
        refine magnitude_mono ?_
        rw [amount, amount, Nat.cast_one, one_mul, mul_le_mul_iff_left₀ one_pos']
        calc (d.digits : ℚ) * 10 ^ d.exponent
            ≤ 10 ^ k * 10 ^ d.exponent := by
              refine mul_le_mul_of_nonneg_right ?_ (by positivity)
              exact_mod_cast hd.le
          _ = 10 ^ (k + d.exponent) := by rw [zpow_add₀ (by norm_num), zpow_natCast]
          _ ≤ 10 ^ leading d.magnitude := zpow_le_zpow_right₀ (by norm_num) (by omega)
    exact isSome_onGrid?_of_le hm hpower (by dsimp only; omega)

end Positive

theorem length_digitsOf_le_iff {n k : ℕ} (hk : 0 < k) : (digitsOf n).length ≤ k ↔ n < 10 ^ k := by
  induction n using digitsOf.induct generalizing k with
  | case1 n h =>
    have hten : 10 ^ 1 ≤ 10 ^ k := Nat.pow_le_pow_right (by decide) hk
    rw [digitsOf, if_pos h, List.length_singleton]
    omega
  | case2 n h ih =>
    obtain ⟨k, rfl⟩ := Nat.exists_eq_succ_of_ne_zero hk.ne'
    rw [digitsOf, if_neg h, List.length_append, List.length_singleton, Nat.succ_eq_add_one,
      Nat.add_le_add_iff_right]
    rcases Nat.eq_zero_or_pos k with rfl | hpos
    · have hne := List.length_pos_iff.mpr (digitsOf_ne_nil (n / 10))
      omega
    · rw [ih hpos, Nat.pow_succ, Nat.div_lt_iff_lt_mul (by decide)]

theorem normalize_digits_le (d : Decimal) : d.normalize.digits ≤ d.digits := by
  induction d using normalize.induct with
  | case1 d h ih =>
    rw [normalize, dif_pos h]
    exact ih.trans (Nat.div_le_self ..)
  | case2 d h => rw [normalize, dif_neg h]

/-- A power of ten loses its zeros. -/
theorem normalize_digits_lt {d : Decimal} {k : ℕ} (hk : 0 < k) (h : d.digits ≤ 10 ^ k) :
    d.normalize.digits < 10 ^ k := by
  rcases Nat.lt_or_eq_of_le h with hlt | heq
  · exact (normalize_digits_le d).trans_lt hlt
  · have hne : d.digits ≠ 0 := by
      rw [heq]
      positivity
    obtain ⟨k, rfl⟩ := Nat.exists_eq_succ_of_ne_zero hk.ne'
    rw [Nat.pow_succ] at heq
    rw [normalize, dif_pos ⟨hne, by omega⟩]
    refine (normalize_digits_le _).trans_lt ?_
    dsimp only
    omega

/-- The search returns what the first grid gives on which there is something. -/
theorem exists_search {m : ℕ} {count i : ℕ} {e : ℤ} (hi : i < count)
    (h : (onGrid? m (e - i)).isSome) : ∃ j ≤ i, onGrid? m (e - j) = some (search m count e) := by
  induction count generalizing i e with
  | zero => exact absurd hi (Nat.not_lt_zero i)
  | succ count ih =>
    rw [search]
    split
    · next d hd => exact ⟨0, Nat.zero_le i, by simpa using hd⟩
    · next hnone =>
      cases i with
      | zero =>
        rw [Nat.cast_zero, sub_zero, hnone] at h
        cases h
      | succ i =>
        rw [Nat.cast_succ, add_comm, ← sub_sub] at h
        obtain ⟨j, hj, heq⟩ := ih (Nat.lt_of_succ_lt_succ hi) h
        refine ⟨j + 1, by omega, ?_⟩
        rw [Nat.cast_succ, add_comm, ← sub_sub]
        exact heq

/-- A decimal that denotes a magnitude has no fewer digits than the shortest one. -/
theorem length_shortest_le {m : ℕ} (hm : m < infinite) {d : Decimal} (h : d.magnitude = m) :
    (digitsOf (shortest m).digits).length ≤ (digitsOf d.digits).length := by
  have hlength := List.length_pos_iff.mpr (digitsOf_ne_nil d.digits)
  rcases Nat.eq_zero_or_pos m with rfl | h0
  · have hzero : (digitsOf (shortest 0).digits).length ≤ 1 :=
      (length_digitsOf_le_iff Nat.one_pos).mpr (by decide)
    omega
  · rw [shortest, if_neg h0.ne', length_digitsOf_le_iff hlength]
    -- The grid of 17 places stops the search for longer decimals.
    obtain ⟨k, hle, hk, hlast, hgrid⟩ : ∃ k, k ≤ (digitsOf d.digits).length ∧ 0 < k ∧ k ≤ 17 ∧
        (onGrid? m (leading m + 1 - k)).isSome := by
      rcases le_total (digitsOf d.digits).length 17 with hle | hle
      · exact ⟨_, le_rfl, hlength, hle, isSome_onGrid?_of_lt h0 hm h hlength
          ((length_digitsOf_le_iff hlength).mp le_rfl)⟩
      · exact ⟨17, hle, by decide, le_rfl, isSome_onGrid?_seventeen h0 hm⟩
    refine lt_of_lt_of_le ?_ (Nat.pow_le_pow_right (by decide) hle)
    have hplace : leading m + 1 - k = leading m - (k - 1 : ℕ) := by omega
    rw [hplace] at hgrid
    obtain ⟨j, hj, hfound⟩ := exists_search (by omega : k - 1 < 17) hgrid
    have hcount : leading m - j = leading m + 1 - (j + 1 : ℕ) := by omega
    have hfloor := gridFloor_lt h0 hm (j + 1)
    rw [hcount] at hfound
    have hdigits := (digits_le_of_onGrid? hfound).trans hfloor
    exact (normalize_digits_lt (Nat.succ_pos j) hdigits).trans_le
      (Nat.pow_le_pow_right (by decide) (by omega))

/-- A decimal that denotes a magnitude with as few digits as possible. -/
structure IsShortest (m : ℕ) (d : Decimal) : Prop where
  denotes : d.magnitude = m
  least : ∀ d' : Decimal, d'.magnitude = m →
    (digitsOf d.digits).length ≤ (digitsOf d'.digits).length

theorem isShortest_shortest {m : ℕ} (hm : m < infinite) : IsShortest m (shortest m) :=
  ⟨magnitude_shortest hm, fun _ => length_shortest_le hm⟩

end GradualScript.Decimal
