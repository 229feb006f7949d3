import GradualScript.Proofs.Grammar

/-!
# The first token of a derivation

Every derived list of tokens starts with a token, whose kind tells which rules can
apply. The node of an expression stands at that token.
-/
namespace GradualScript.Grammar

/-- The kinds of token that an expression may start with. -/
def startsExpression : TokenKind → Bool
  | .number | .string | .trueWord | .falseWord | .nilWord | .identifier | .leftParen | .bang
  | .minus => true
  | _ => false

/-- The kinds of token that stand after a declaration and start none. -/
def neverStarts : TokenKind → Bool
  | .rightBrace | .endOfFile | .elseWord => true
  | _ => false

theorem CommaSeparated.head {part ts : List Token} {parts : List (List Token)}
    (h : CommaSeparated (part :: parts) ts) : ∃ us, ts = part ++ us := by
  cases h with
  | single => exact ⟨[], by simp⟩
  | cons => exact ⟨_, rfl⟩

theorem IsLiteral.starts {t : Token} {e : Expr} (h : IsLiteral t e) :
    startsExpression t.kind = true := by
  cases h <;> simp_all [startsExpression]

theorem IsLiteral.position_eq {t : Token} {e : Expr} (h : IsLiteral t e) :
    e.position = t.position := by
  cases h <;> rfl

theorem IsUnarySign.starts {kind : TokenKind} {op : Operator} (h : IsUnarySign kind op) :
    startsExpression kind = true := by
  cases h <;> rfl

/-- An expression has a first token, and its kind tells that an expression begins. -/
theorem IsExpr.head {tier : Tier} {ts : List Token} {e : Expr} (h : IsExpr tier ts e) :
    ∃ t us, ts = t :: us ∧ startsExpression t.kind = true := by
  induction h with
  | assign hname _ _ _ => exact ⟨_, _, rfl, by rw [hname]; rfl⟩
  | value _ ih | tighter _ _ ih | operand _ ih | callee _ ih | atom _ ih => exact ih
  | binary _ _ _ ih _ =>
    obtain ⟨t, us, rfl, ht⟩ := ih
    exact ⟨t, _, rfl, ht⟩
  | unary hop _ _ => exact ⟨_, _, rfl, hop.starts⟩
  | call _ _ _ _ _ _ ih _ =>
    obtain ⟨t, us, rfl, ht⟩ := ih
    exact ⟨t, _, rfl, ht⟩
  | literal ht => exact ⟨_, _, rfl, ht.starts⟩
  | grouping ho _ _ _ => exact ⟨_, _, rfl, by rw [ho]; rfl⟩

/-- Calls and primaries start with no operator. -/
theorem IsExpr.head_of_call {tier : Tier} {ts : List Token} {e : Expr} (h : IsExpr tier ts e)
    (htier : tier = .call ∨ tier = .primary) :
    ∃ t us, ts = t :: us ∧ Parser.unaryOperator? t.kind = none := by
  induction h with
  | assign | value | binary | tighter | operand | unary | callee => simp at htier
  | call _ _ _ _ _ _ ih _ =>
    obtain ⟨t, us, rfl, ht⟩ := ih (.inl rfl)
    exact ⟨t, _, rfl, ht⟩
  | atom _ ih => exact ih (.inr rfl)
  | literal ht => exact ⟨_, _, rfl, by cases ht <;> simp_all [Parser.unaryOperator?]⟩
  | grouping ho _ _ _ => exact ⟨_, _, rfl, by rw [ho]; rfl⟩

/-- An expression stands where its tokens begin. -/
theorem IsExpr.position_eq {tier : Tier} {ts : List Token} {e : Expr} (h : IsExpr tier ts e) :
    e.position = leftmost ts := by
  induction h with
  | assign | binary | unary | call | grouping => rfl
  | value _ ih | tighter _ _ ih | operand _ ih | callee _ ih | atom _ ih => exact ih
  | literal ht => exact ht.position_eq

/-- What is derived from more tokens on the right stands where its left part does. -/
theorem IsExpr.markOf_append {tier : Tier} {ts : List Token} {e : Expr} (h : IsExpr tier ts e)
    (us : List Token) : markOf (ts ++ us) = .unchecked e.position := by
  rw [h.position_eq]
  obtain ⟨t, vs, rfl, -⟩ := h.head
  rfl

theorem IsExprStmt.head {ts : List Token} {s : Stmt} (h : IsExprStmt ts s) :
    ∃ t us, ts = t :: us ∧ startsExpression t.kind = true := by
  obtain ⟨-, he⟩ := h
  obtain ⟨t, us, rfl, ht⟩ := he.head
  exact ⟨t, _, rfl, ht⟩

theorem IsVar.head {ts : List Token} {s : Stmt} (h : IsVar ts s) :
    ∃ t us, ts = t :: us ∧ t.kind = .varWord := by
  cases h with
  | bare hw | valued hw => exact ⟨_, _, rfl, hw⟩

theorem neverStarts_of_starts {kind : TokenKind} (h : startsExpression kind = true) :
    neverStarts kind = false := by
  cases kind <;> simp_all [startsExpression, neverStarts]

theorem ne_of_neverStarts {kind other : TokenKind} (h : neverStarts kind = false)
    (hother : neverStarts other = true) : kind ≠ other := by
  rintro rfl
  rw [h] at hother
  cases hother

/-- A declaration never starts with what may stand after one. -/
theorem IsStmt.head {inFunction : Bool} {form : Form} {ts : List Token} {s : Stmt}
    (h : IsStmt inFunction form ts s) : ∃ t us, ts = t :: us ∧ neverStarts t.kind = false := by
  induction h with
  | expression he =>
    obtain ⟨t, us, rfl, ht⟩ := he.head
    exact ⟨t, us, rfl, neverStarts_of_starts ht⟩
  | print hw | block hw | ifThen hw | ifElse hw | whileLoop hw | forLoop hw | ret hw
  | function hw => exact ⟨_, _, rfl, by rw [hw]; rfl⟩
  | statement _ ih => exact ih
  | var hv =>
    obtain ⟨t, us, rfl, ht⟩ := hv.head
    exact ⟨t, us, rfl, by rw [ht]; rfl⟩

end GradualScript.Grammar
