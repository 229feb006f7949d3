import Mathlib
import GradualScript.Proofs.Evaluation.Steps
import GradualScript.Proofs.Number.Floats
import GradualScript.Proofs.RoundTrip.Exact
import GradualScript.Proofs.Scopes.Surroundings

/-!
# Arithmetic from source text to value

Arithmetic over number literals is written with parentheses around each binary
operation. Declared as a variable, it is scanned, parsed, checked and run, and the
variable gets the number that folding the tree with floats gives, bit for bit. A
division by zero in the fold is the only way to fail.
-/
namespace GradualScript

open Scanner Grammar

/-- A number as source text has it: digits, or digits on both sides of a point. -/
structure Numeral where
  text : List Char
  isNumeral : IsNumeral text

namespace Numeral

theorem isSome_read? (n : Numeral) : (Number.read? (String.ofList n.text)).isSome := by
  obtain ⟨m, -, hm⟩ := Number.readDecimal?_of_isNumeral n.isNumeral
  rw [Number.read?_of_isNumeral n.isNumeral hm]
  rfl

/-- The number that it denotes. -/
def number (n : Numeral) : Number := (Number.read? (String.ofList n.text)).get n.isSome_read?

theorem read?_eq (n : Numeral) : Number.read? (String.ofList n.text) = some n.number :=
  (Option.some_get _).symm

/-- A numeral may denote infinity, but no NaN. -/
theorem number_isNaN (n : Numeral) : n.number.isNaN = false := by
  have hnumeral : IsNumeral (String.ofList n.text).toList := by
    rw [String.toList_ofList]
    exact n.isNumeral
  rcases Number.read?_cases hnumeral n.read?_eq with hinf | ⟨-, -, hfinite⟩
  · rw [hinf]
    decide
  · exact decide_eq_false (Nat.not_lt_of_gt hfinite)

def value (n : Numeral) : Float := n.number.toFloat

theorem number_eq (n : Numeral) : n.number = .ofFloat n.value :=
  (Number.ofFloat_toFloat n.number_isNaN).symm

end Numeral

/-- The binary operations of arithmetic. -/
inductive Operation where
  | add
  | subtract
  | multiply
  | divide

namespace Operation

/-- The operator that is written for it. -/
def operator : Operation → Operator
  | add => .add
  | subtract => .subtract
  | multiply => .multiply
  | divide => .divide

/-- The operation on floats. There is no result for a divisor that equals zero. -/
def compute? (op : Operation) (x y : Float) : Option Float :=
  match op with
  | add => some (x + y)
  | subtract => some (x - y)
  | multiply => some (x * y)
  | divide => if y == 0.0 then none else some (x / y)

theorem level?_operator (op : Operation) : ∃ level, op.operator.level? = some level := by
  cases op <;> exact ⟨_, rfl⟩

theorem binaryType_operator (op : Operation) :
    op.operator.binaryType .numeric .numeric = .ok .numeric := by
  cases op <;> decide

theorem needsRight_operator (op : Operation) (v : Value) : op.operator.needsRight v = true := by
  cases op <;> rfl

theorem applyBinary_operator (op : Operation) (x y : Float) :
    op.operator.applyBinary (.number (.ofFloat x)) (.number (.ofFloat y)) =
      match op.compute? x y with
      | some z => .ok (.number (.ofFloat z))
      | none => .error .divideByZero := by
  cases op with
  | divide =>
    simp only [operator, Operator.applyBinary, Operator.applyToNumbers, Number.isZero_ofFloat,
      compute?]
    split <;> simp
  | _ => simp [operator, Operator.applyBinary, Operator.applyToNumbers, compute?]

end Operation

/-- Arithmetic over number literals. -/
inductive Arith where
  | literal (n : Numeral)
  | negated (operand : Arith)
  | applied (op : Operation) (left right : Arith)

namespace Arith

/-- The text, with parentheses around each binary operation. -/
def source : Arith → String
  | literal n => String.ofList n.text
  | negated a => "-" ++ a.source
  | applied op l r => "(" ++ l.source ++ " " ++ op.operator.lexeme ++ " " ++ r.source ++ ")"

/-- The text that declares a variable with the value. -/
def declaration (a : Arith) : String := "var result = " ++ a.source ++ ";"

/-- The value that folding the tree with floats gives, unless a divisor equals zero on
the way. -/
def fold? : Arith → Option Float
  | literal n => some n.value
  | negated a => do
      let x ← a.fold?
      return -x
  | applied op l r => do
      let x ← l.fold?
      let y ← r.fold?
      op.compute? x y

/-- The budget that running the tree takes. -/
def height : Arith → Nat
  | literal _ => 1
  | negated a => a.height + 1
  | applied _ l r => max l.height r.height + 2

/-- The program trees of the text, wherever their nodes stand. -/
inductive IsTree : Arith → Expr → Prop
  | literal (n : Numeral) (mark : Mark) : IsTree (.literal n) (.number mark n.number)
  | negated {a : Arith} {e : Expr} (mark : Mark) : IsTree a e →
      IsTree (.negated a) (.unary mark .subtract e)
  | applied {op : Operation} {l r : Arith} {left right : Expr} (outer inner : Mark) :
      IsTree l left → IsTree r right →
      IsTree (.applied op l r) (.grouping outer (.binary inner op.operator left right))

/-- The text is read as an operand, so it may follow a minus sign. -/
theorem reads (a : Arith) : ∀ p, ∃ ts e, Yields Apart p a.source.toList ts ∧
    IsExpr .unary ts e ∧ a.IsTree e := by
  induction a with
  | literal n =>
    intro p
    have hyields := yields_numeral n.isNumeral p
    rw [← String.toList_ofList (l := n.text)] at hyields
    refine ⟨_, _, hyields, .callee (.atom (.literal (.number rfl ?_))), .literal n _⟩
    simpa using n.read?_eq
  | negated a ih =>
    intro p
    obtain ⟨ts, e, hts, he, htree⟩ := ih (p.advance '-')
    have htext : (negated a).source.toList = '-' :: a.source.toList := by simp [source]
    rw [htext]
    exact ⟨_, _, hts.mark_before rfl, .unary .subtract he, .negated _ htree⟩
  | applied op l r ihl ihr =>
    intro p
    obtain ⟨level, hlevel⟩ := op.level?_operator
    obtain ⟨kind, hkind, hyields⟩ := yields_operator hlevel
    obtain ⟨ts, left, hts, hleft, hltree⟩ := ihl (p.advance '(')
    obtain ⟨sign, hop, hsign⟩ : ∃ sign : Token, IsBinarySign level sign.kind op.operator ∧
        Yields Free ((p.advance '(').after l.source.toList)
          (' ' :: (op.operator.lexeme.toList ++ [' '])) [sign] :=
      ⟨_, isBinarySign_iff.mpr ⟨hkind, hlevel⟩, yields_between _ hyields _⟩
    obtain ⟨us, right, hus, hright, hrtree⟩ := ihr _
    have hinner := (hts.before hsign (by decide)).then hus
    rw [List.append_assoc ts, List.singleton_append] at hinner
    have hwhole := (hinner.mark_after (c := ')') rfl).mark_before (c := '(') rfl
    have htext : (applied op l r).source.toList = '(' :: (l.source.toList ++
        ' ' :: (op.operator.lexeme.toList ++ [' ']) ++ r.source.toList ++ [')']) := by
      simp [source]
    rw [htext]
    have hbinary := IsExpr.binary hop (hleft.binary_of_unary hop.lt.le)
      (hright.binary_of_unary hop.lt)
    have hvalue := IsExpr.value (hbinary.looser (Nat.zero_le level) hop.lt.le)
    exact ⟨_, _, hwhole.weaken, .callee (.atom (.grouping rfl rfl hvalue)),
      .applied _ _ hltree hrtree⟩

variable {a : Arith} {e : Expr}

/-- Arithmetic is well typed wherever it stands. -/
theorem IsTree.check (h : a.IsTree e) (env : TypeEnv) :
    (e.check env).verdict = .ok .numeric ∧ (e.check env).env = env := by
  have hnegated : Operator.subtract.unaryType .numeric = .ok .numeric := by decide
  induction h with
  | literal => exact ⟨rfl, rfl⟩
  | negated mark h ih =>
    simp [Expr.check, Checked.settle, ih, Except.bind, Located.atPosition, Except.mapError,
      hnegated]
  | @applied op l r left right outer inner hl hr ihl ihr =>
    simp [Expr.check, Checked.settle, Checked.next, ihl, ihr, Except.bind, Located.atPosition,
      Except.mapError, op.binaryType_operator]

/-- The result of a run that computes the value and leaves the machine as it is: the
value, or a division by zero if there is none. -/
def Computes (value : Option Float) (m : Machine)
    (result : Outcome RuntimeError Value × Machine) : Prop :=
  match value with
  | some x => result = (.finished (.number (.ofFloat x)), m)
  | none => ∃ position, result = (.failed ⟨.divideByZero, position⟩, m)

/-- Steps that compute values one after the other stop together at the first without. -/
theorem Computes.bind {value : Option Float} {next : Float → Option Float} {m : Machine}
    {run : Eval Value} {f : Value → Eval Value} (h : Computes value m (run m))
    (hf : ∀ x, Computes (next x) m (f (.number (.ofFloat x)) m)) :
    Computes (value.bind next) m ((run >>= f) m) := by
  cases value with
  | none =>
    obtain ⟨position, hrun⟩ := h
    exact ⟨position, Eval.bind_fails hrun⟩
  | some x =>
    rw [Eval.bind_finished h]
    exact hf x

variable {limit : Option Nat} {m : Machine} {n : Nat}

theorem computes_operator (op : Operation) (x y : Float) (position : Position) :
    Computes (op.compute? x y) m (Eval.ofExcept position
      (op.operator.applyBinary (.number (.ofFloat x)) (.number (.ofFloat y))) m) := by
  rw [op.applyBinary_operator]
  cases op.compute? x y with
  | none => exact ⟨position, rfl⟩
  | some z => rfl

/-- Running the tree computes the fold. -/
theorem IsTree.eval (h : a.IsTree e) (hn : a.height ≤ n) :
    Computes a.fold? m (e.eval limit n m) := by
  induction h generalizing n with
  | literal numeral mark =>
    obtain ⟨n, rfl⟩ := Nat.exists_eq_add_of_le' hn
    change (_, _) = (_, _)
    rw [← numeral.number_eq]
  | @negated a e mark h ih =>
    rw [height] at hn
    obtain ⟨n, rfl⟩ : ∃ k, n = k + 1 := ⟨n - 1, by omega⟩
    refine (ih (by omega)).bind fun x => ?_
    change (_, _) = (_, _)
    rw [Number.neg_ofFloat]
  | @applied op l r left right outer inner hl hr ihl ihr =>
    rw [height] at hn
    obtain ⟨n, rfl⟩ : ∃ k, n = k + 2 := ⟨n - 2, by omega⟩
    change Computes _ m ((Expr.binary inner op.operator left right).eval limit (n + 1) m)
    rw [eval_binary]
    refine (ihl (by omega)).bind fun x => ?_
    rw [if_pos (op.needsRight_operator _)]
    exact (ihr (by omega)).bind fun y => computes_operator op x y inner.position

theorem isName_result : IsName "result" :=
  ⟨by decide, List.all_eq_true.mp (by decide), rfl⟩

/-- The declaration is a program of one statement. -/
theorem parse_declaration (a : Arith) : ∃ tokens e, scan a.declaration = .ok tokens ∧
    parse tokens = .ok [.var .start "result" e] ∧ a.IsTree e := by
  obtain ⟨ts, e, hts, hvar, htree⟩ := reads_var isName_result (P := a.IsTree) (fun p => by
    obtain ⟨ts, e, hts, he, htree⟩ := a.reads p
    exact ⟨ts, e, hts, he.assignment_of_unary, htree⟩) .start
  have htext : a.declaration.toList = "var".toList ++ ' ' ::
      (("result".toList ++ ' ' :: ("=".toList ++ [' ']) ++ a.source.toList) ++ [';']) := by
    simp [declaration]
  rw [← htext] at hts
  obtain ⟨stop, hscan, hsignificant⟩ := scan_of_yields hts
  refine ⟨_, e, hscan, parse_of_isProgram ?_, htree⟩
  rw [hsignificant]
  exact ⟨[(ts, _)], List.forall_mem_singleton.mpr (.var hvar), by simp, rfl⟩

/-- Running the declaration binds the variable, or stops inside the expression. -/
theorem IsTree.execute (h : a.IsTree e) (p : Position) (hn : a.height + 2 ≤ n) :
    (∀ x, a.fold? = some x → Program.execute limit n [.var p "result" e] m =
      (.finished (), { m with scopes := m.scopes.set "result" (.number (.ofFloat x)) })) ∧
    (a.fold? = none → ∃ position, Program.execute limit n [.var p "result" e] m =
      (.failed ⟨.divideByZero, position⟩, m)) := by
  obtain ⟨n, rfl⟩ : ∃ k, n = k + 2 := ⟨n - 2, by omega⟩
  have heval : Computes a.fold? m (e.eval limit n m) := h.eval (by omega)
  rw [Program.execute, execAll_singleton]
  refine ⟨fun x hx => ?_, fun hnone => ?_⟩
  · rw [hx] at heval
    have hexec : (Stmt.var p "result" e).exec limit (n + 1) m =
        (.finished .normal, { m with scopes := m.scopes.set "result" (.number (.ofFloat x)) }) :=
      Eval.bind_finished heval
    exact Eval.bind_finished hexec
  · rw [hnone] at heval
    obtain ⟨position, hfails⟩ := heval
    have hexec : (Stmt.var p "result" e).exec limit (n + 1) m =
        (.failed ⟨.divideByZero, position⟩, m) := Eval.bind_fails hfails
    exact ⟨position, Eval.bind_fails hexec⟩

/-- The declaration of any arithmetic is scanned and parsed, and it is well typed in every
environment. Run in any machine with any limit on calls, it ends with the variable bound to
the bits of the float that the fold gives; where a divisor of the fold equals zero, it
fails with a division by zero instead, and the machine is as it was. -/
theorem declaration_computes (a : Arith) :
    ∃ tokens program, scan a.declaration = .ok tokens ∧ parse tokens = .ok program ∧
      (∀ env, (Program.check program env).verdict = .ok ()) ∧
      ∀ (limit : Option Nat) (m : Machine) (n : Nat), 0 < m.scopes.size → a.height + 2 ≤ n →
        (∀ x, a.fold? = some x → ∃ scopes,
          program.execute limit n m = (.finished (), { m with scopes := scopes }) ∧
            ∀ name, scopes.get name =
              if "result" = name then some (.number ⟨x.toBits⟩) else m.scopes.get name) ∧
        (a.fold? = none → ∃ position,
          program.execute limit n m = (.failed ⟨.divideByZero, position⟩, m)) := by
  obtain ⟨tokens, e, hscan, hparse, htree⟩ := a.parse_declaration
  refine ⟨tokens, _, hscan, hparse, fun env => ?_, fun limit m n hroot hn => ?_⟩
  · simp [Program.check, Stmt.checkAll, Stmt.check, Checked.next, htree.check env]
  · obtain ⟨hfinishes, hfails⟩ := @IsTree.execute a e limit m n htree .start hn
    refine ⟨fun x hx => ⟨_, hfinishes x hx, fun name => ?_⟩, hfails⟩
    exact Scopes.get_set hroot "result" _ name

/-- The numeral of one digit. -/
def digit (c : Char) (h : c.isDigit = true) : Arith :=
  .literal ⟨[c], .whole (by simp) (by simpa using h)⟩

/-- The text is `-(1 / 4)`. -/
def negativeQuarter : Arith := .negated (.applied .divide (digit '1' rfl) (digit '4' rfl))

/-- The text is `(1 / -0)`. -/
def overNegativeZero : Arith := .applied .divide (digit '1' rfl) (.negated (digit '0' rfl))

theorem declaration_computes_quotients :
    (∃ tokens program, scan "var result = -(1 / 4);" = .ok tokens ∧ parse tokens = .ok program ∧
      0 < (Machine.fresh globalScope .silent).scopes.size ∧ negativeQuarter.height + 2 ≤ 6 ∧
      negativeQuarter.fold? = some (Float.ofBits 0xBFD0000000000000) ∧
      ∃ last, program.execute none 6 (.fresh globalScope .silent) = (.finished (), last) ∧
        last.scopes.get "result" = some (.number ⟨0xBFD0000000000000⟩)) ∧
    ∃ tokens program, scan "var result = (1 / -0);" = .ok tokens ∧ parse tokens = .ok program ∧
      overNegativeZero.height + 2 ≤ 6 ∧ overNegativeZero.fold? = none ∧
      ∃ position, program.execute none 6 (.fresh globalScope .silent) =
        (.failed ⟨.divideByZero, position⟩, .fresh globalScope .silent) := by
  have hquarter : negativeQuarter.fold? = some (Float.ofBits 0xBFD0000000000000) := by
    decide +kernel
  have hbits : (Float.ofBits 0xBFD0000000000000).toBits = 0xBFD0000000000000 := by
    decide +kernel
  have hzero : overNegativeZero.fold? = none := by decide +kernel
  obtain ⟨tokens, program, hscan, hparse, -, hruns⟩ := declaration_computes negativeQuarter
  obtain ⟨tokens', program', hscan', hparse', -, hruns'⟩ := declaration_computes overNegativeZero
  obtain ⟨scopes, hfinished, hget⟩ :=
    (hruns none (.fresh globalScope .silent) 6 (by decide) (by decide)).1 _ hquarter
  obtain ⟨position, hfails⟩ :=
    (hruns' none (.fresh globalScope .silent) 6 (by decide) (by decide)).2 hzero
  refine ⟨⟨tokens, program, hscan, hparse, by decide, by decide, hquarter, _, hfinished, ?_⟩,
    tokens', program', hscan', hparse', by decide, hzero, position, hfails⟩
  rw [hget, if_pos rfl, hbits]

end Arith

end GradualScript
