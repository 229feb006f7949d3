import Mathlib
import GradualScript.Number.Layout
import GradualScript.Number.Reading
import GradualScript.Proofs.Number.Rounding

/-!
# Number literals are read back

The literal of a finite number without sign is a numeral: digits, and perhaps a
point and more digits. Reading it gives the number that was written.
-/
namespace GradualScript

namespace Decimal

theorem isDigit_digitChar {n : Nat} (h : n < 10) : (Nat.digitChar n).isDigit = true :=
  (by decide : ∀ n < 10, (Nat.digitChar n).isDigit = true) n h

theorem value_digitChar {n : Nat} (h : n < 10) : (Nat.digitChar n).toNat - '0'.toNat = n :=
  (by decide : ∀ n < 10, (Nat.digitChar n).toNat - '0'.toNat = n) n h

theorem isDigit_of_mem_digitsOf {n : Nat} {c : Char} (hc : c ∈ digitsOf n) : c.isDigit = true := by
  induction n using digitsOf.induct with
  | case1 n h =>
    rw [digitsOf, if_pos h, List.mem_singleton] at hc
    rw [hc]
    exact isDigit_digitChar h
  | case2 n h ih =>
    rw [digitsOf, if_neg h, List.mem_append, List.mem_singleton] at hc
    rcases hc with hc | rfl
    · exact ih hc
    · exact isDigit_digitChar (Nat.mod_lt n (by decide))

theorem digitsOf_ne_nil (n : Nat) : digitsOf n ≠ [] := by
  rw [digitsOf]
  split <;> simp

theorem valueOf_concat (digits : List Char) (c : Char) :
    valueOf (digits ++ [c]) = 10 * valueOf digits + (c.toNat - '0'.toNat) := by
  rw [valueOf, List.foldl_append, List.foldl_cons, List.foldl_nil, valueOf]

theorem valueOf_digitsOf (n : Nat) : valueOf (digitsOf n) = n := by
  induction n using digitsOf.induct with
  | case1 n h =>
    have hone := valueOf_concat [] (Nat.digitChar n)
    rw [value_digitChar h] at hone
    rw [digitsOf, if_pos h]
    exact hone.trans (Nat.zero_add n)
  | case2 n h ih =>
    rw [digitsOf, if_neg h, valueOf_concat, ih, value_digitChar (Nat.mod_lt n (by decide))]
    omega

/-- Zeros in front change nothing. -/
theorem valueOf_zeros (k : Nat) (digits : List Char) :
    valueOf (List.replicate k '0' ++ digits) = valueOf digits := by
  induction k with
  | zero => rfl
  | succ k ih =>
    rw [List.replicate_succ, List.cons_append]
    exact ih

/-- Zeros at the end are factors of ten, or a larger exponent. -/
theorem magnitude_zeros (digits : List Char) (k : Nat) (e : Int) :
    magnitude ⟨valueOf (digits ++ List.replicate k '0'), e⟩ =
      magnitude ⟨valueOf digits, e + k⟩ := by
  induction k generalizing e with
  | zero => rw [List.replicate_zero, List.append_nil, Int.natCast_zero, Int.add_zero]
  | succ k ih =>
    rw [List.replicate_succ', ← List.append_assoc, valueOf_concat, Nat.sub_self, Nat.add_zero,
      magnitude_tenfold, ih, Int.add_right_comm, Int.add_assoc]
    rfl

end Decimal

/-- Digits, or digits on both sides of a point. -/
inductive IsNumeral : List Char → Prop
  | whole {digits : List Char} : digits ≠ [] → (∀ c ∈ digits, c.isDigit = true) → IsNumeral digits
  | pointed {digits fraction : List Char} : digits ≠ [] → (∀ c ∈ digits, c.isDigit = true) →
      fraction ≠ [] → (∀ c ∈ fraction, c.isDigit = true) → IsNumeral (digits ++ '.' :: fraction)

theorem IsNumeral.head {text : List Char} (h : IsNumeral text) :
    ∃ c rest, text = c :: rest ∧ c.isDigit = true := by
  cases h with
  | whole hne hdigits | pointed hne hdigits =>
    obtain ⟨c, rest, rfl⟩ := List.exists_cons_of_ne_nil hne
    exact ⟨c, _, rfl, hdigits c List.mem_cons_self⟩

namespace Number

open Decimal

theorem takeWhile_isDigit {digits : List Char} (h : ∀ c ∈ digits, c.isDigit = true)
    (rest : List Char) :
    (digits ++ rest).takeWhile Char.isDigit = digits ++ rest.takeWhile Char.isDigit :=
  List.takeWhile_append_of_pos h

theorem dropWhile_isDigit {digits : List Char} (h : ∀ c ∈ digits, c.isDigit = true)
    (rest : List Char) :
    (digits ++ rest).dropWhile Char.isDigit = rest.dropWhile Char.isDigit :=
  List.dropWhile_append_of_pos h

theorem readDecimal?_whole {digits : List Char} (hne : digits ≠ [])
    (h : ∀ c ∈ digits, c.isDigit = true) :
    readDecimal? digits = some (magnitudeOfDigits digits 0) := by
  have htake := takeWhile_isDigit h []
  have hdrop := dropWhile_isDigit h []
  rw [List.append_nil, List.takeWhile_nil, List.append_nil] at htake
  rw [List.append_nil, List.dropWhile_nil] at hdrop
  have hempty : digits.isEmpty = false := List.isEmpty_eq_false_iff.mpr hne
  simp only [readDecimal?, readMantissa, htake, hdrop, hempty, Bool.false_and]
  rw [List.append_nil]
  rfl

theorem readDecimal?_pointed {digits fraction : List Char} (hne : digits ≠ [])
    (h : ∀ c ∈ digits, c.isDigit = true) (h' : ∀ c ∈ fraction, c.isDigit = true) :
    readDecimal? (digits ++ '.' :: fraction) =
      some (magnitudeOfDigits (digits ++ fraction) (-fraction.length)) := by
  have hpoint : ('.' : Char).isDigit = false := by decide
  have htake := takeWhile_isDigit h ('.' :: fraction)
  have hdrop := dropWhile_isDigit h ('.' :: fraction)
  have htake' := takeWhile_isDigit h' []
  have hdrop' := dropWhile_isDigit h' []
  rw [List.takeWhile_cons_of_neg (by simp [hpoint]), List.append_nil] at htake
  rw [List.dropWhile_cons_of_neg (by simp [hpoint])] at hdrop
  rw [List.append_nil, List.takeWhile_nil, List.append_nil] at htake'
  rw [List.append_nil, List.dropWhile_nil] at hdrop'
  have hempty : digits.isEmpty = false := List.isEmpty_eq_false_iff.mpr hne
  simp only [readDecimal?, readMantissa, htake, hdrop, htake', hdrop', hempty, Bool.false_and]
  simp [readExponent?]

theorem magnitudeOfDigits_le (digits : List Char) (e : Int) :
    magnitudeOfDigits digits e ≤ infinite := by
  have hnearest := nearest_le_infinite
  simp only [magnitudeOfDigits, Decimal.magnitude]
  grind

/-- With an exponent that no shortcut is taken for, digits denote what the decimal does. -/
theorem magnitudeOfDigits_eq {digits : List Char} {e : Int} (hlow : 0 ≤ e + digits.length)
    (hhigh : e ≤ 0) : magnitudeOfDigits digits e = Decimal.magnitude ⟨valueOf digits, e⟩ := by
  rw [magnitudeOfDigits]
  split
  · next hzero => rw [hzero, magnitude_of_zero]
  · rw [if_neg (by omega), if_neg (by omega)]

/-- A numeral denotes a magnitude up to that of infinity. -/
theorem readDecimal?_of_isNumeral {text : List Char} (h : IsNumeral text) :
    ∃ m, m ≤ infinite ∧ readDecimal? text = some m := by
  cases h with
  | whole hne hdigits =>
    exact ⟨_, magnitudeOfDigits_le .., readDecimal?_whole hne hdigits⟩
  | pointed hne hdigits _ hfraction =>
    exact ⟨_, magnitudeOfDigits_le .., readDecimal?_pointed hne hdigits hfraction⟩

/-- A numeral that is read as what a decimal denotes. -/
structure Writes (text : List Char) (d : Decimal) : Prop where
  isNumeral : IsNumeral text
  read : readDecimal? text = some d.magnitude

theorem writes_whole {digits : List Char} (hne : digits ≠ [])
    (h : ∀ c ∈ digits, c.isDigit = true) : Writes digits ⟨valueOf digits, 0⟩ := by
  refine ⟨.whole hne h, ?_⟩
  rw [readDecimal?_whole hne h, magnitudeOfDigits_eq (by omega) (by omega)]

theorem writes_pointed (digits fraction : List Char) (hne : digits ≠ [])
    (h : ∀ c ∈ digits, c.isDigit = true) (hne' : fraction ≠ [])
    (h' : ∀ c ∈ fraction, c.isDigit = true) :
    Writes (digits ++ '.' :: fraction) ⟨valueOf (digits ++ fraction), -fraction.length⟩ := by
  refine ⟨.pointed hne h hne' h', ?_⟩
  rw [readDecimal?_pointed hne h h', magnitudeOfDigits_eq (by rw [List.length_append]; omega)
    (by omega)]

/-- A numeral has no sign. -/
theorem read?_of_isNumeral {text : List Char} {m : Nat} (h : IsNumeral text)
    (hm : readDecimal? text = some m) :
    read? (String.ofList text) = some (ofMagnitude false m) := by
  have hsign : readSign text = (false, text) := by
    obtain ⟨c, rest, rfl, hc⟩ := h.head
    unfold readSign
    split
    · next heq =>
      cases heq
      cases hc
    · next heq =>
      cases heq
      cases hc
    · rfl
  rw [read?, String.toList_ofList, hsign]
  simp only [hm, Option.some_or, Option.map_some]

/-- The numbers that numerals denote: neither negative nor a NaN. -/
structure IsUnsigned (x : Number) : Prop where
  positive : x.isNegative = false
  magnitude_le : x.magnitude ≤ infinite

theorem isNegative_eq_false_iff (x : Number) :
    x.isNegative = false ↔ x.bits.toNat < 2 ^ 63 := by
  simp [isNegative]

theorem magnitude_eq (x : Number) : x.magnitude = x.bits.toNat % 2 ^ 63 := rfl

theorem ofMagnitude_magnitude {x : Number} (h : x.isNegative = false) :
    ofMagnitude false x.magnitude = x := by
  have hsmall := (isNegative_eq_false_iff x).mp h
  rw [ofMagnitude, if_neg (by decide), magnitude_eq, Nat.mod_eq_of_lt hsmall, UInt64.ofNat_toNat]

theorem isUnsigned_ofMagnitude {m : Nat} (hm : m ≤ infinite) :
    IsUnsigned (ofMagnitude false m) := by
  have hsmall : m < 2 ^ 63 := Nat.lt_of_le_of_lt hm (by decide)
  have hbits : (ofMagnitude false m).bits.toNat = m := by
    rw [ofMagnitude, if_neg (by decide), UInt64.toNat_ofNat']
    exact Nat.mod_eq_of_lt (by omega)
  refine ⟨?_, ?_⟩
  · rw [isNegative_eq_false_iff, hbits]
    exact hsmall
  · rw [magnitude_eq, hbits, Nat.mod_eq_of_lt hsmall]
    exact hm

/-- What a literal denotes that is too large for a finite number. -/
def infinity : Number := ⟨0x7FF0000000000000⟩

theorem ofMagnitude_infinite : ofMagnitude false infinite = infinity := by decide

/-- A numeral denotes infinity or a finite number without sign. -/
theorem read?_cases {lexeme : String} {x : Number} (h : IsNumeral lexeme.toList)
    (hx : read? lexeme = some x) :
    x = infinity ∨ x ≠ infinity ∧ x.isNegative = false ∧ x.magnitude < infinite := by
  obtain ⟨m, hm, hread⟩ := readDecimal?_of_isNumeral h
  have hvalue := read?_of_isNumeral h hread
  rw [String.ofList_toList, hx] at hvalue
  cases hvalue
  have hunsigned := isUnsigned_ofMagnitude hm
  by_cases hinf : (ofMagnitude false m).magnitude = infinite
  · rw [← ofMagnitude_magnitude hunsigned.positive, hinf]
    exact .inl ofMagnitude_infinite
  · refine .inr ⟨?_, hunsigned.positive, ?_⟩
    · intro he
      rw [he] at hinf
      exact hinf (by decide)
    · have hle := hunsigned.magnitude_le
      omega

end Number

namespace NumberLayout

open Decimal Number

/-- All places of a decimal are a numeral for it. -/
theorem writes_writePositional {digits : List Char} (hne : digits ≠ [])
    (h : ∀ c ∈ digits, c.isDigit = true) (e : Int) :
    ∃ d : Decimal, d.magnitude = Decimal.magnitude ⟨valueOf digits, e⟩ ∧
      Writes (literal.writePositional digits (e + digits.length - 1)) d := by
  have hpos := List.length_pos_iff.mpr hne
  have hzeros : ∀ k, ∀ c ∈ List.replicate k '0', c.isDigit = true := by
    intro k c hc
    rw [List.eq_of_mem_replicate hc]
    decide
  rw [writePositional]
  by_cases hlead : e + digits.length - 1 < 0
  · rw [if_pos hlead]
    generalize hk : (-(e + digits.length - 1) - 1).toNat = k
    have hall : ∀ c ∈ List.replicate k '0' ++ digits, c.isDigit = true :=
      List.forall_mem_append.mpr ⟨hzeros k, h⟩
    have hwrites := writes_pointed ['0'] _ (by simp) (hzeros 1) (by simp [hne]) hall
    have hvalue : valueOf (['0'] ++ (List.replicate k '0' ++ digits)) = valueOf digits :=
      valueOf_zeros (k + 1) digits
    have hexponent : -((List.replicate k '0' ++ digits).length : Int) = e := by
      rw [List.length_append, List.length_replicate]
      omega
    rw [hvalue, hexponent] at hwrites
    exact ⟨_, rfl, hwrites⟩
  · rw [if_neg hlead]
    by_cases hwhole : digits.length ≤ (e + digits.length - 1).toNat + 1
    · rw [if_pos hwhole]
      generalize hk : (e + digits.length - 1).toNat + 1 - digits.length = k
      have hall : ∀ c ∈ digits ++ List.replicate k '0', c.isDigit = true :=
        List.forall_mem_append.mpr ⟨h, hzeros k⟩
      have hwrites := writes_whole (by simp [hne]) hall
      have hexponent : (0 : Int) + k = e := by omega
      refine ⟨⟨valueOf (digits ++ List.replicate k '0'), 0⟩, ?_, ?_⟩
      · rw [magnitude_zeros, hexponent]
      · change Writes (digits ++ List.replicate k '0' ++ []) _
        rwa [List.append_nil]
    · rw [if_neg hwhole]
      generalize hk : (e + digits.length - 1).toNat + 1 = k at *
      have hwrites := writes_pointed (digits.take k) (digits.drop k)
        (by simp [hne]; omega) (fun c hc => h c (List.mem_of_mem_take hc))
        (by simp; omega) (fun c hc => h c (List.mem_of_mem_drop hc))
      have hexponent : -((digits.drop k).length : Int) = e := by
        rw [List.length_drop]
        omega
      rw [List.take_append_drop, hexponent] at hwrites
      exact ⟨_, rfl, hwrites⟩

/-- The literal of a finite number without sign is a numeral that is read as the number. -/
theorem read?_write {x : Number} (hpos : x.isNegative = false) (hfinite : x.magnitude < infinite) :
    ∃ text, literal.write x = String.ofList text ∧ IsNumeral text ∧
      read? (literal.write x) = some x := by
  have hnan : x.isNaN = false := decide_eq_false (by omega)
  obtain ⟨d, hd, hwrites⟩ := writes_writePositional (digitsOf_ne_nil (shortest x.magnitude).digits)
    (fun c => isDigit_of_mem_digitsOf) (shortest x.magnitude).exponent
  rw [valueOf_digitsOf, magnitude_shortest hfinite] at hd
  have hwrite : literal.write x = String.ofList (literal.writeDecimal (shortest x.magnitude)) := by
    simp only [write, hnan, hpos, Bool.false_eq_true, if_false]
    rw [if_neg (by omega)]
  refine ⟨_, hwrite, hwrites.isNumeral, ?_⟩
  rw [hwrite]
  exact (read?_of_isNumeral hwrites.isNumeral hwrites.read).trans (by
    rw [hd, ofMagnitude_magnitude hpos])

/-- Infinity is written as a word. -/
theorem write_infinity : literal.write Number.infinity = "inf" := by decide

end NumberLayout

end GradualScript
