import Mathlib
import GradualScript.Proofs.Number.Shortest

/-!
# Printed numbers are read back

Printed output writes the shortest digits of a number in one of two forms. The form with an
exponent is for numbers whose first digit is below the place 10⁻⁴ or from the place 10⁶ on,
all others are numerals. Either way the decimal that is read is the one that was written, so
every number but a NaN is read back with all its bits.
-/
namespace GradualScript

namespace Decimal

theorem value_isDigit {c : Char} (h : c.isDigit = true) : c.toNat - '0'.toNat < 10 := by
  have hle : c.toNat ≤ 57 := (Char.isDigit_iff_toNat.mp h).2
  change c.toNat - 48 < 10
  omega

theorem valueOf_lt {digits : List Char} (h : ∀ c ∈ digits, c.isDigit = true) :
    valueOf digits < 10 ^ digits.length := by
  induction digits using List.reverseRecOn with
  | nil => exact Nat.one_pos
  | append_singleton digits c ih =>
    obtain ⟨hdigits, hc⟩ := List.forall_mem_append.mp h
    have hlast := value_isDigit (hc c List.mem_cons_self)
    have hlt := ih hdigits
    rw [valueOf_concat, List.length_append, List.length_singleton, Nat.pow_succ]
    omega

end Decimal

/-- A sign and at least two digits that denote the exponent. -/
inductive IsExponent (e : ℤ) : List Char → Prop
  | intro {digits : List Char} : (∀ c ∈ digits, c.isDigit = true) → 2 ≤ digits.length →
      Decimal.valueOf digits = e.natAbs → IsExponent e ((if e < 0 then '-' else '+') :: digits)

/-- One digit, the others after a point, and the exponent of the first digit. -/
inductive IsScientific : List Char → ℤ → List Char → Prop
  | single {digit : Char} {e : ℤ} {size : List Char} : IsExponent e size →
      IsScientific [digit] e (digit :: 'e' :: size)
  | pointed {digit : Char} {fraction : List Char} {e : ℤ} {size : List Char} : fraction ≠ [] →
      IsExponent e size →
      IsScientific (digit :: fraction) e (digit :: '.' :: (fraction ++ 'e' :: size))

namespace IsScientific

variable {digits text : List Char} {e : ℤ}

theorem mem_mark (h : IsScientific digits e text) : 'e' ∈ text := by
  cases h with
  | single | pointed => simp

theorem head (h : IsScientific digits e text) (hdigits : ∀ c ∈ digits, c.isDigit = true) :
    ∃ c rest, text = c :: rest ∧ c.isDigit = true := by
  cases h with
  | single | pointed => exact ⟨_, _, rfl, hdigits _ List.mem_cons_self⟩

end IsScientific

theorem IsNumeral.not_mem_mark {text : List Char} (h : IsNumeral text) : 'e' ∉ text := by
  have hdigits {digits : List Char} (h : ∀ c ∈ digits, c.isDigit = true) : 'e' ∉ digits :=
    fun hmem => absurd (h 'e' hmem) (by decide)
  cases h with
  | whole _ h => exact hdigits h
  | pointed _ h _ h' => simp [hdigits h, hdigits h']

namespace Number

open Decimal

theorem readSign_of_isDigit {c : Char} (h : c.isDigit = true) (rest : List Char) :
    readSign (c :: rest) = (false, c :: rest) := by
  unfold readSign
  split
  · next heq =>
    cases heq
    cases h
  · next heq =>
    cases heq
    cases h
  · rfl

/-- The shortcuts for large and small exponents are right. -/
theorem magnitudeOfDigits_eq_magnitude {digits : List Char} (h : ∀ c ∈ digits, c.isDigit = true)
    (e : ℤ) : magnitudeOfDigits digits e = Decimal.magnitude ⟨valueOf digits, e⟩ := by
  simp only [magnitudeOfDigits]
  split_ifs with hzero hhigh hlow
  · rw [hzero, magnitude_of_zero]
  · exact (magnitude_eq_infinite (Nat.pos_of_ne_zero hzero) (by dsimp only; omega)).symm
  · exact (magnitude_eq_zero (valueOf_lt h) (by dsimp only; omega)).symm
  · rfl

theorem readExponent?_of_isExponent {e : ℤ} {size : List Char} (h : IsExponent e size) :
    readExponent? ('e' :: size) = some e := by
  obtain @⟨digits, hdigits, hlength, hvalue⟩ := h
  have hsign : readSign ((if e < 0 then '-' else '+') :: digits) = (decide (e < 0), digits) := by
    split <;> simp_all [readSign]
  have hall : (digits.isEmpty = true ∨ digits.any (!Char.isDigit ·) = true) ↔ False := by
    have hne : digits ≠ [] := List.length_pos_iff.mp (by omega)
    simpa [hne] using hdigits
  simp only [readExponent?, hsign, hvalue, hall, true_or, if_true, if_false, decide_eq_true_eq]
  congr 1
  split <;> omega

/-- The exponent form denotes its digits with the point after the first one. -/
theorem readDecimal?_of_isScientific {digits text : List Char} {e : ℤ}
    (h : IsScientific digits e text) (hdigits : ∀ c ∈ digits, c.isDigit = true) :
    readDecimal? text = some (Decimal.magnitude ⟨valueOf digits, e + 1 - digits.length⟩) := by
  have hpoint : ('.' : Char).isDigit = false := by decide
  have hmark : ('e' : Char).isDigit = false := by decide
  cases h with
  | @single digit _ size hsize =>
    have hdigit := hdigits digit List.mem_cons_self
    have hmantissa : readMantissa (digit :: 'e' :: size) = ([digit], [], 'e' :: size) := by
      simp [readMantissa, hdigit, hmark]
    simp only [readDecimal?, hmantissa, readExponent?_of_isExponent hsize]
    simp [magnitudeOfDigits_eq_magnitude hdigits]
  | @pointed digit fraction _ size hne hsize =>
    obtain ⟨hdigit, hfraction⟩ := List.forall_mem_cons.mp hdigits
    have htake := takeWhile_isDigit hfraction ('e' :: size)
    have hdrop := dropWhile_isDigit hfraction ('e' :: size)
    rw [List.takeWhile_cons_of_neg (by simp [hmark]), List.append_nil] at htake
    rw [List.dropWhile_cons_of_neg (by simp [hmark])] at hdrop
    have hmantissa : readMantissa (digit :: '.' :: (fraction ++ 'e' :: size)) =
        ([digit], fraction, 'e' :: size) := by
      simp [readMantissa, hdigit, hpoint, htake, hdrop]
    simp only [readDecimal?, hmantissa, readExponent?_of_isExponent hsize]
    simp [magnitudeOfDigits_eq_magnitude hdigits]

/-- The sign in front of a number's text. -/
def sign (x : Number) : List Char := if x.isNegative then ['-'] else []

theorem ofMagnitude_isNegative (x : Number) : ofMagnitude x.isNegative x.magnitude = x := by
  cases h : x.isNegative with
  | false => exact ofMagnitude_magnitude h
  | true =>
    have hlarge : ¬ x.bits.toNat < 2 ^ 63 := by
      rw [← isNegative_eq_false_iff, h]
      decide
    have hbound := x.bits.toNat_lt
    have hbits : Nat.pow 2 63 + x.magnitude = x.bits.toNat := by
      change 2 ^ 63 + x.bits.toNat % 2 ^ 63 = _
      omega
    rw [ofMagnitude, if_pos rfl, hbits, UInt64.ofNat_toNat]

/-- A sign and digits with the magnitude of a number are read as the number. -/
theorem read?_sign {x : Number} {body : List Char}
    (hhead : ∃ c rest, body = c :: rest ∧ c.isDigit = true)
    (hread : readDecimal? body = some x.magnitude) :
    read? (String.ofList (x.sign ++ body)) = some x := by
  obtain ⟨c, rest, rfl, hc⟩ := hhead
  have hsign : readSign (x.sign ++ c :: rest) = (x.isNegative, c :: rest) := by
    cases h : x.isNegative with
    | true =>
      rw [sign, h]
      rfl
    | false =>
      rw [sign, h]
      exact readSign_of_isDigit hc rest
  rw [read?, String.toList_ofList, hsign]
  simp only [hread, Option.some_or, Option.map_some, ofMagnitude_isNegative]

end Number

/-- The exponent of the first digit. -/
def Decimal.firstExponent (d : Decimal) : ℤ := d.exponent + (digitsOf d.digits).length - 1

namespace NumberLayout

open Decimal Number

theorem isExponent_writeExponent (e : ℤ) : IsExponent e (printed.writeExponent e) := by
  have hdigits : ∀ c ∈ List.replicate (2 - (digitsOf e.natAbs).length) '0' ++ digitsOf e.natAbs,
      c.isDigit = true := by
    refine List.forall_mem_append.mpr ⟨fun c hc => ?_, fun c => isDigit_of_mem_digitsOf⟩
    rw [List.eq_of_mem_replicate hc]
    decide
  have hlength : 2 ≤ (List.replicate (2 - (digitsOf e.natAbs).length) '0' ++
      digitsOf e.natAbs).length := by
    rw [List.length_append, List.length_replicate]
    omega
  have hvalue := valueOf_zeros (2 - (digitsOf e.natAbs).length) (digitsOf e.natAbs)
  rw [valueOf_digitsOf] at hvalue
  have hsign : (if e < 0 then ['-'] else printed.plus.toList) = [if e < 0 then '-' else '+'] := by
    split <;> rfl
  rw [writeExponent]
  simp only [hsign]
  exact .intro hdigits hlength hvalue

theorem isScientific_writeScientific {digits : List Char} (hne : digits ≠ []) (e : ℤ) :
    IsScientific digits e (printed.writeScientific digits e) := by
  match digits with
  | [digit] => exact .single (isExponent_writeExponent e)
  | digit :: next :: rest =>
    exact .pointed (List.cons_ne_nil next rest) (isExponent_writeExponent e)

/-- The exponent of the first digit chooses the form. -/
theorem writeDecimal_eq (d : Decimal) : printed.writeDecimal d =
    if -4 ≤ d.firstExponent ∧ d.firstExponent < 6 then
      literal.writePositional (digitsOf d.digits) d.firstExponent
    else printed.writeScientific (digitsOf d.digits) d.firstExponent := by
  have hpositional : printed.positional d.firstExponent = true ↔
      -4 ≤ d.firstExponent ∧ d.firstExponent < 6 := by
    rw [printed, Bool.and_eq_true, decide_eq_true_iff, decide_eq_true_iff]
  simp only [← hpositional]
  rfl

/-- How the shortest decimal of a magnitude is printed. -/
structure PrintsAs (m : ℕ) (d : Decimal) (body : List Char) : Prop where
  shortest : IsShortest m d
  scientific : IsScientific (digitsOf d.digits) d.firstExponent body ↔
    d.firstExponent < -4 ∨ 6 ≤ d.firstExponent
  numeral : IsNumeral body ↔ -4 ≤ d.firstExponent ∧ d.firstExponent < 6
  head : ∃ c rest, body = c :: rest ∧ c.isDigit = true
  read : readDecimal? body = some m

theorem printsAs_writeDecimal {m : ℕ} (hm : m < infinite) :
    PrintsAs m (shortest m) (printed.writeDecimal (shortest m)) := by
  have hshortest := isShortest_shortest hm
  generalize shortest m = d at *
  have hne := digitsOf_ne_nil d.digits
  have hdigits : ∀ c ∈ digitsOf d.digits, c.isDigit = true := fun c => isDigit_of_mem_digitsOf
  by_cases hrange : -4 ≤ d.firstExponent ∧ d.firstExponent < 6
  · rw [writeDecimal_eq, if_pos hrange]
    obtain ⟨d', hd', hwrites⟩ := writes_writePositional hne hdigits d.exponent
    rw [valueOf_digitsOf] at hd'
    rw [← firstExponent] at hwrites
    refine ⟨hshortest, ?_, iff_of_true hwrites.isNumeral hrange, hwrites.isNumeral.head, ?_⟩
    · refine iff_of_false (fun h => hwrites.isNumeral.not_mem_mark h.mem_mark) ?_
      omega
    · rw [hwrites.read, hd']
      exact congrArg some hshortest.denotes
  · rw [writeDecimal_eq, if_neg hrange]
    have hscientific := isScientific_writeScientific hne d.firstExponent
    refine ⟨hshortest, iff_of_true hscientific (by omega), ?_, hscientific.head hdigits, ?_⟩
    · exact iff_of_false (fun h => h.not_mem_mark hscientific.mem_mark) hrange
    · rw [readDecimal?_of_isScientific hscientific hdigits, valueOf_digitsOf, firstExponent,
        sub_add_cancel, add_sub_cancel_right]
      exact congrArg some hshortest.denotes

theorem write_of_finite {x : Number} (hx : x.magnitude < infinite) :
    printed.write x = String.ofList (x.sign ++ printed.writeDecimal (shortest x.magnitude)) := by
  have hnan : x.isNaN = false := decide_eq_false (by omega)
  simp only [write, hnan, hx.ne, Bool.false_eq_true, if_false, sign, String.ofList_append]
  split <;> simp

/-- Every number but a NaN is read back from its printed form. -/
theorem read?_printed {x : Number} (hx : x.isNaN = false) : read? (printed.write x) = some x := by
  rcases Nat.lt_or_ge x.magnitude infinite with hfinite | hinfinite
  · have hprints := printsAs_writeDecimal hfinite
    rw [write_of_finite hfinite]
    exact read?_sign hprints.head hprints.read
  · have hmagnitude : x.magnitude = infinite :=
      Nat.le_antisymm (Nat.not_lt.mp (of_decide_eq_false hx)) hinfinite
    have hself := ofMagnitude_isNegative x
    rw [hmagnitude] at hself
    rw [← hself]
    cases x.isNegative <;> decide

/-- Printed output loses nothing: every number but a NaN is read back from it, so no two
print alike. A finite number prints its shortest digits, in the form with an exponent exactly
when the exponent of the first digit is below -4 or at least 6 and as a numeral otherwise,
and what follows the sign denotes its magnitude. -/
theorem printed_lossless :
    (∀ x : Number, x.isNaN = false → read? (printed.write x) = some x) ∧
    (∀ x y : Number, x.isNaN = false → y.isNaN = false →
      printed.write x = printed.write y → x = y) ∧
    ∀ x : Number, x.magnitude < infinite → ∃ d body,
      printed.write x = String.ofList (x.sign ++ body) ∧ PrintsAs x.magnitude d body := by
  refine ⟨fun x => read?_printed, fun x y hx hy heq => ?_, fun x hfinite => ?_⟩
  · have hread := read?_printed hx
    rw [heq, read?_printed hy] at hread
    exact (Option.some.inj hread).symm
  · exact ⟨_, _, write_of_finite hfinite, printsAs_writeDecimal hfinite⟩

example : printed.write ⟨0xBE8421F5F40D8376⟩ = "-1.5e-07" := by decide +kernel

end NumberLayout

end GradualScript
