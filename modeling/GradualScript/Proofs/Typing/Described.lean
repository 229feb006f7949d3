import GradualScript.Proofs.Evaluation.Steps
import GradualScript.Proofs.Typing.Recorded

/-!
# Types and the values of operators

A type describes the values of the kinds among its tags. For operand types that a rule
accepts, the operator takes all operands that the types describe; and it takes others
only where `+` finds two operands of one kind.
-/
namespace GradualScript

/-- Functions have no tag: only the wildcard describes them. -/
def Value.tag? : Value → Option Tag
  | string _ => some .string
  | number _ => some .numeric
  | boolean _ => some .boolean
  | nil => some .nil
  | function _ => none

def TypeSet.describes : TypeSet → Value → Bool
  | any, _ => true
  | tags s _, v => v.tag?.any s.has

namespace TypeSet

theorem describes_congr (t : TypeSet) {v w : Value} (h : v.kind = w.kind) :
    t.describes v = t.describes w := by
  have htag : v.tag? = w.tag? := by
    cases v <;> cases w <;> first | rfl | cases h
  cases t with
  | any => rfl
  | tags s _ => rw [describes, describes, htag]

theorem describes_single (tag : Tag) (v : Value) :
    (tags (.single tag)).describes v = true ↔ v.tag? = some tag := by
  rw [describes]
  cases v.tag? <;> simp

theorem describes_boolean (b : Bool) : boolean.describes (.boolean b) = true := rfl

theorem describes_union {t u : TypeSet} {v : Value}
    (h : t.describes v = true ∨ u.describes v = true) : (t.union u).describes v = true := by
  cases t with
  | any => rfl
  | tags s _ =>
    cases u with
    | any => rfl
    | tags r _ =>
      rw [union, describes]
      simp only [describes] at h
      cases hv : v.tag? with
      | none => simp [hv] at h
      | some tag => simpa [hv] using h

theorem tags_congr {s r : TagSet} (hs : ∃ t, s.has t = true) (hr : ∃ t, r.has t = true)
    (h : s = r) : tags s hs = tags r hr := by
  subst h
  rfl

/-- A set of tags within a single one is that one. -/
theorem eq_single_of_within {t : TypeSet} {tag : Tag} (hknown : t ≠ .any)
    (h : t.within (.single tag) = true) : t = .tags (.single tag) := by
  cases t with
  | any => exact absurd rfl hknown
  | tags s hs =>
    have hsub := (TagSet.subset_iff s (.single tag)).mp h
    obtain ⟨found, hfound⟩ := hs
    have heq : found = tag := by simpa using hsub found hfound
    subst heq
    refine tags_congr _ _ (TagSet.ext_has fun u => ?_)
    rw [TagSet.has_single, Bool.eq_iff_iff, decide_eq_true_iff]
    constructor
    · intro hu
      simpa using hsub u hu
    · intro hu
      rw [hu]
      exact hfound

end TypeSet

namespace Value

theorem tag?_numeric_iff (v : Value) : v.tag? = some .numeric ↔ v.kind = .numeric := by
  cases v <;> simp [tag?, kind]

theorem tag?_string_iff (v : Value) : v.tag? = some .string ↔ v.kind = .string := by
  cases v <;> simp [tag?, kind]

end Value

namespace Operator

/-- The operator does not take every value. -/
def restricts : Operator → Bool
  | equal | notEqual | and | or => false
  | _ => true

/-- The binary operator takes the operands: two numbers, or for `+` also two strings. -/
def Takes (op : Operator) (v w : Value) : Prop :=
  (v.kind = .numeric ∧ w.kind = .numeric) ∨ (op = .add ∧ v.kind = .string ∧ w.kind = .string)

/-- Two operands that `+` takes because they are of one kind, whatever their types say. -/
def Joins (op : Operator) (v w : Value) : Prop :=
  op = .add ∧ v.kind = w.kind ∧ (v.kind = .numeric ∨ v.kind = .string)

theorem applyUnary_wrongOperands (op op' : Operator) (v : Value) (kinds : List ValueKind) :
    op.applyUnary v = .error (.wrongOperands op' kinds) ↔
      op ≠ .negate ∧ ¬((op = .add ∨ op = .subtract) ∧ v.kind = .numeric) ∧
        op' = op ∧ kinds = [v.kind] := by
  cases op <;> cases v <;> simp [applyUnary, Value.kind, eq_comm]

/-- Operators have two faults. -/
theorem applyUnary_fault {op : Operator} {v : Value} {fault : RuntimeFault}
    (h : op.applyUnary v = .error fault) : fault = .wrongOperands op [v.kind] := by
  unfold applyUnary at h
  split at h <;> cases h
  rfl

theorem applyBinary_fault {op : Operator} {v w : Value} {fault : RuntimeFault}
    (h : op.applyBinary v w = .error fault) :
    fault = .divideByZero ∨ ∃ op' kinds, fault = .wrongOperands op' kinds := by
  unfold applyBinary at h
  split at h
  case h_5 =>
    split at h
    · unfold applyToNumbers at h
      split at h
      case h_4 => split at h <;> cases h; exact .inl rfl
      case h_9 => cases h; exact .inr ⟨_, _, rfl⟩
      all_goals cases h
    · split at h <;> cases h
      exact .inr ⟨_, _, rfl⟩
    · cases h
      exact .inr ⟨_, _, rfl⟩
  all_goals cases h

/-- Two numbers are never the wrong operands. -/
theorem applyToNumbers_ne_wrongOperands {op : Operator} (hrestricts : op.restricts = true)
    (hop : op ≠ .negate) (x y : Number) (op' : Operator) (kinds : List ValueKind) :
    op.applyToNumbers x y ≠ .error (.wrongOperands op' kinds) := by
  cases op with
  | negate => exact absurd rfl hop
  | equal | notEqual | and | or => cases hrestricts
  | divide =>
    rw [applyToNumbers]
    split <;> simp
  | _ => simp [applyToNumbers]

theorem applyBinary_wrongOperands {op : Operator} (hop : op ≠ .negate) (v w : Value)
    (op' : Operator) (kinds : List ValueKind) :
    op.applyBinary v w = .error (.wrongOperands op' kinds) ↔
      op.restricts = true ∧ ¬op.Takes v w ∧ op' = op ∧ kinds = [v.kind, w.kind] := by
  by_cases hrestricts : op.restricts = true
  · by_cases hnumbers : v.kind = .numeric ∧ w.kind = .numeric
    · have htakes : op.Takes v w := .inl hnumbers
      cases v with
      | number x =>
        cases w with
        | number y =>
          have hne := applyToNumbers_ne_wrongOperands hrestricts hop x y op' kinds
          cases op <;> simp_all [applyBinary, restricts]
        | _ => cases hnumbers.2
      | _ => cases hnumbers.1
    · cases op <;> cases v <;> cases w <;>
        simp_all [applyBinary, restricts, Takes, Value.kind, eq_comm]
  · cases op <;> simp_all [applyBinary, restricts]

theorem applyUnary_kind {op : Operator} {v u : Value} (h : op.applyUnary v = .ok u) :
    (op = .negate ∧ ∃ b, u = .boolean b) ∨ (op ≠ .negate ∧ u.kind = v.kind) := by
  cases op with
  | negate =>
    cases h
    exact .inl ⟨rfl, _, rfl⟩
  | add | subtract =>
    cases v with
    | number x =>
      cases h
      exact .inr ⟨nofun, rfl⟩
    | _ => cases h
  | _ => cases h

theorem applyToNumbers_kind {op : Operator} {x y : Number} {u : Value}
    (h : op.applyToNumbers x y = .ok u) :
    (op.isComparison = true ∧ ∃ b, u = .boolean b) ∨
      (op.isComparison = false ∧ u.kind = .numeric) := by
  cases op with
  | less | lessEqual | greater | greaterEqual =>
    cases h
    exact .inl ⟨rfl, _, rfl⟩
  | add | subtract | multiply =>
    cases h
    exact .inr ⟨rfl, rfl⟩
  | divide =>
    rw [applyToNumbers] at h
    split at h
    · cases h
    · cases h
      exact .inr ⟨rfl, rfl⟩
  | _ => cases h

/-- Apart from equality and logic, only numbers are combined, and strings joined. -/
theorem applyBinary_values {op : Operator} {v w u : Value} (hequality : op.isEquality = false)
    (hand : op ≠ .and) (hor : op ≠ .or) (h : op.applyBinary v w = .ok u) :
    (∃ x y, v = .number x ∧ w = .number y ∧ op.applyToNumbers x y = .ok u) ∨
      (op = .add ∧ ∃ s t, v = .string s ∧ u = .string t) := by
  cases op with
  | equal | notEqual => cases hequality
  | and => exact absurd rfl hand
  | or => exact absurd rfl hor
  | add =>
    cases v with
    | number x =>
      cases w with
      | number y => exact .inl ⟨x, y, rfl, rfl, h⟩
      | _ => cases h
    | string s =>
      cases w with
      | string t =>
        cases h
        exact .inr ⟨rfl, s, _, rfl, rfl⟩
      | _ => cases h
    | _ => cases w <;> cases h
  | _ =>
    cases v with
    | number x =>
      cases w with
      | number y => exact .inl ⟨x, y, rfl, rfl, h⟩
      | _ => cases h
    | _ => cases w <;> cases h

/-- Comparisons give a truth value, arithmetic and joining a value of the operands' kind. -/
theorem applyBinary_kind {op : Operator} {v w u : Value} (hand : op ≠ .and) (hor : op ≠ .or)
    (h : op.applyBinary v w = .ok u) :
    ((op.isComparison || op.isEquality) = true ∧ ∃ b, u = .boolean b) ∨
      ((op.isComparison || op.isEquality) = false ∧ u.kind = v.kind) := by
  cases hequality : op.isEquality with
  | true =>
    have hboolean : ∃ b, u = .boolean b := by
      cases op with
      | equal | notEqual =>
        cases h
        exact ⟨_, rfl⟩
      | _ => cases hequality
    exact .inl ⟨by simp, hboolean⟩
  | false =>
    rcases applyBinary_values hequality hand hor h with
      ⟨x, y, rfl, rfl, hnumbers⟩ | ⟨rfl, s, t, rfl, rfl⟩
    · rcases applyToNumbers_kind hnumbers with ⟨hcomparison, hboolean⟩ | ⟨hnot, hkind⟩
      · exact .inl ⟨by simp [hcomparison], hboolean⟩
      · exact .inr ⟨by simp [hnot], hkind⟩
    · exact .inr ⟨rfl, rfl⟩

/-- Operators make no functions, but for `and` and `or`, which give an operand back. -/
theorem applyUnary_plain {op : Operator} {v u : Value} (h : op.applyUnary v = .ok u) :
    u.kind ≠ .function := by
  rcases applyUnary_kind h with ⟨-, b, rfl⟩ | ⟨hop, hkind⟩
  · simp [Value.kind]
  · rw [hkind]
    cases v with
    | function f =>
      cases op with
      | negate => exact absurd rfl hop
      | _ => cases h
    | _ => simp [Value.kind]

theorem applyBinary_plain {op : Operator} {v w u : Value} (hand : op ≠ .and) (hor : op ≠ .or)
    (h : op.applyBinary v w = .ok u) : u.kind ≠ .function := by
  cases hequality : op.isEquality with
  | true =>
    cases op with
    | equal | notEqual =>
      cases h
      simp [Value.kind]
    | _ => cases hequality
  | false =>
    rcases applyBinary_values hequality hand hor h with ⟨x, y, -, -, hnumbers⟩ | ⟨-, a, b, -, rfl⟩
    · rcases applyToNumbers_kind hnumbers with ⟨-, b, rfl⟩ | ⟨-, hkind⟩
      · simp [Value.kind]
      · simp [hkind]
    · simp [Value.kind]

/-- The rules let an operator that restricts its operands through for two numbers, and
`+` also for two strings, as long as no type is the wildcard. -/
theorem accepts_cases {op : Operator} {t u : TypeSet} (hrestricts : op.restricts = true)
    (haccepts : op.accepts t u = true) (ht : t ≠ .any) (hu : u ≠ .any) :
    (t = .numeric ∧ u = .numeric) ∨ (op = .add ∧ t = .string ∧ u = .string) := by
  have hnumbers (h : bothNumeric t u = true) : t = .numeric ∧ u = .numeric := by
    obtain ⟨hl, hr⟩ := Bool.and_eq_true_iff.mp h
    exact ⟨TypeSet.eq_single_of_within ht hl, TypeSet.eq_single_of_within hu hr⟩
  have hstrings (h : bothStrings t u = true) : t = .string ∧ u = .string := by
    obtain ⟨hl, hr⟩ := Bool.and_eq_true_iff.mp h
    exact ⟨TypeSet.eq_single_of_within ht hl, TypeSet.eq_single_of_within hu hr⟩
  cases op with
  | equal | notEqual | and | or => cases hrestricts
  | negate => cases haccepts
  | add =>
    rcases Bool.or_eq_true_iff.mp (Bool.and_eq_true_iff.mp haccepts).1 with h | h
    · exact .inl (hnumbers h)
    · exact .inr ⟨rfl, hstrings h⟩
  | _ => exact .inl (hnumbers (Bool.and_eq_true_iff.mp haccepts).1)

/-- An accepted operator takes the operands that the types describe, and those that it
joins. -/
theorem takes_iff {op : Operator} {t u : TypeSet} (hrestricts : op.restricts = true)
    (haccepts : op.accepts t u = true) (ht : t ≠ .any) (hu : u ≠ .any) (v w : Value) :
    op.Takes v w ↔ (t.describes v = true ∧ u.describes w = true) ∨ op.Joins v w := by
  have hnumeric (v : Value) : TypeSet.numeric.describes v = true ↔ v.kind = .numeric := by
    rw [TypeSet.numeric, TypeSet.describes_single, v.tag?_numeric_iff]
  have hstring (v : Value) : TypeSet.string.describes v = true ↔ v.kind = .string := by
    rw [TypeSet.string, TypeSet.describes_single, v.tag?_string_iff]
  rcases accepts_cases hrestricts haccepts ht hu with ⟨rfl, rfl⟩ | ⟨rfl, rfl, rfl⟩
  · rw [hnumeric, hnumeric, Takes, Joins]
    grind
  · rw [hstring, hstring, Takes, Joins]
    grind

/-- A unary operator whose rule accepts the operand's type faults on the values only that
the type does not describe. -/
theorem applyUnary_fault_iff {op : Operator} {t u : TypeSet} (hop : op.unaryType t = .ok u)
    (ht : t ≠ .any) (v : Value) (op' : Operator) (kinds : List ValueKind) :
    op.applyUnary v = .error (.wrongOperands op' kinds) ↔
      op ≠ .negate ∧ ¬t.describes v = true ∧ op' = op ∧ kinds = [v.kind] := by
  rw [applyUnary_wrongOperands]
  rcases unaryType_ok hop with ⟨rfl, -⟩ | ⟨hsign, hwithin, -⟩
  · simp
  · have hnumeric : t.describes v = true ↔ v.kind = .numeric := by
      rw [TypeSet.eq_single_of_within ht hwithin, TypeSet.describes_single, v.tag?_numeric_iff]
    rw [hnumeric]
    simp [hsign]

/-- A binary operator whose rule accepts the operands' types faults where the types do not
describe the operands, unless it joins them. -/
theorem applyBinary_fault_iff {op : Operator} {t u result : TypeSet}
    (hop : op.binaryType t u = .ok result) (ht : t ≠ .any) (hu : u ≠ .any) (v w : Value)
    (op' : Operator) (kinds : List ValueKind) :
    op.applyBinary v w = .error (.wrongOperands op' kinds) ↔
      op.restricts = true ∧ ¬(t.describes v = true ∧ u.describes w = true) ∧ ¬op.Joins v w ∧
        op' = op ∧ kinds = [v.kind, w.kind] := by
  obtain ⟨haccepts, -⟩ := binaryType_ok hop
  have hnegate : op ≠ .negate := by
    rintro rfl
    cases haccepts
  rw [applyBinary_wrongOperands hnegate]
  constructor
  · rintro ⟨hrestricts, htakes, hrest⟩
    rw [takes_iff hrestricts haccepts ht hu, not_or] at htakes
    exact ⟨hrestricts, htakes.1, htakes.2, hrest⟩
  · rintro ⟨hrestricts, hdescribed, hjoins, hrest⟩
    refine ⟨hrestricts, ?_, hrest⟩
    rw [takes_iff hrestricts haccepts ht hu, not_or]
    exact ⟨hdescribed, hjoins⟩

/-- The result of a unary operator on a described operand is described. -/
theorem describes_unary {op : Operator} {t u : TypeSet} {v x : Value}
    (hop : op.unaryType t = .ok u) (happly : op.applyUnary v = .ok x)
    (hv : t.describes v = true) : u.describes x = true := by
  rcases applyUnary_kind happly with ⟨rfl, b, rfl⟩ | ⟨hnegate, hkind⟩
  · cases hop
    exact TypeSet.describes_boolean b
  · rcases unaryType_ok hop with ⟨heq, -⟩ | ⟨-, -, rfl⟩
    · exact absurd heq hnegate
    · rw [u.describes_congr hkind]
      exact hv

/-- The result of a binary operator on described operands is described. -/
theorem describes_binary {op : Operator} {t u result : TypeSet} {v w x : Value}
    (hop : op.binaryType t u = .ok result) (happly : op.applyBinary v w = .ok x)
    (hv : t.describes v = true) (hw : u.describes w = true) : result.describes x = true := by
  obtain ⟨-, rfl⟩ := binaryType_ok hop
  by_cases hlogical : op = .and ∨ op = .or
  · have heither : x = v ∨ x = w := by
      rcases hlogical with rfl | rfl
      · cases happly
        split <;> simp
      · cases happly
        split <;> simp
    have hnone : (op.isComparison || op.isEquality) = false := by
      rcases hlogical with rfl | rfl <;> rfl
    rw [hnone]
    rcases heither with rfl | rfl
    · exact TypeSet.describes_union (.inl hv)
    · exact TypeSet.describes_union (.inr hw)
  · rw [not_or] at hlogical
    rcases applyBinary_kind hlogical.1 hlogical.2 happly with ⟨hboolean, b, rfl⟩ | ⟨hnone, hkind⟩
    · rw [hboolean]
      exact TypeSet.describes_boolean b
    · rw [hnone]
      refine TypeSet.describes_union (.inl ?_)
      rw [t.describes_congr hkind]
      exact hv

/-- Where the left operand decides, it is the result, and it is described as such. -/
theorem describes_left {op : Operator} {t u result : TypeSet} {v : Value}
    (hop : op.binaryType t u = .ok result) (hneeds : op.needsRight v = false)
    (hv : t.describes v = true) : result.describes v = true := by
  obtain ⟨-, rfl⟩ := binaryType_ok hop
  cases op with
  | and | or => exact TypeSet.describes_union (.inl hv)
  | _ => cases hneeds

end Operator

end GradualScript
