import GradualScript.Parsing.Program

/-!
# The grammar

What the tokens of a program may be, said without a parser. A rule relates a list
of tokens to the tree that they denote, so the tree of a derivation is part of it.
Each node stands at the leftmost of the tokens that it is derived from.

Two things that a plain list of productions leaves open are part of the rules:
operators of one level associate to the left, and an `else` belongs to the nearest
`if` before it that has none.
-/
namespace GradualScript.Grammar

/-- The tokens that the grammar sees of a list of tokens. -/
def significant (tokens : List Token) : List Token :=
  (tokens.takeWhile (·.kind ≠ .endOfFile)).filter (·.kind ≠ .comment)

/-- The position of the first token. -/
def leftmost : List Token → Position
  | [] => .start
  | t :: _ => t.position

/-- The mark of the node that the tokens denote. -/
def markOf (ts : List Token) : Mark := .unchecked (leftmost ts)

/-- Parts with one comma token between neighbours. -/
inductive CommaSeparated : List (List Token) → List Token → Prop
  | nil : CommaSeparated [] []
  | single (part : List Token) : CommaSeparated [part] part
  | cons {part next : List Token} {parts : List (List Token)} {ts : List Token} {comma : Token} :
      comma.kind = .comma → CommaSeparated (next :: parts) ts →
      CommaSeparated (part :: next :: parts) (part ++ comma :: ts)

/-- The tokens that are expressions of their own. A number must be readable. -/
inductive IsLiteral : Token → Expr → Prop
  | number {t : Token} {v : Number} : t.kind = .number → Number.read? t.lexeme = some v →
      IsLiteral t (.number (.unchecked t.position) v)
  | string {t : Token} : t.kind = .string →
      IsLiteral t (.string (.unchecked t.position) (Parser.unquote t.lexeme))
  | trueWord {t : Token} : t.kind = .trueWord → IsLiteral t (.boolean (.unchecked t.position) true)
  | falseWord {t : Token} : t.kind = .falseWord → IsLiteral t (.boolean (.unchecked t.position) false)
  | nilWord {t : Token} : t.kind = .nilWord → IsLiteral t (.nil (.unchecked t.position))
  | name {t : Token} : t.kind = .identifier →
      IsLiteral t (.name (.unchecked t.position) t.lexeme)

/-- The operator of a level that a kind of token is between operands, with 0 for the
loosest level. -/
inductive IsBinarySign : Nat → TokenKind → Operator → Prop
  | or : IsBinarySign 0 .orWord .or
  | and : IsBinarySign 1 .andWord .and
  | equal : IsBinarySign 2 .equalEqual .equal
  | notEqual : IsBinarySign 2 .bangEqual .notEqual
  | less : IsBinarySign 3 .less .less
  | lessEqual : IsBinarySign 3 .lessEqual .lessEqual
  | greater : IsBinarySign 3 .greater .greater
  | greaterEqual : IsBinarySign 3 .greaterEqual .greaterEqual
  | add : IsBinarySign 4 .plus .add
  | subtract : IsBinarySign 4 .minus .subtract
  | multiply : IsBinarySign 5 .star .multiply
  | divide : IsBinarySign 5 .slash .divide

/-- The operator that a kind of token is in front of an operand. -/
inductive IsUnarySign : TokenKind → Operator → Prop
  | negate : IsUnarySign .bang .negate
  | subtract : IsUnarySign .minus .subtract

/-- The level that follows those of binary operators. -/
def operandLevel : Nat := 6

section Agreement

variable {level : Nat} {kind : TokenKind} {op : Operator}

theorem isBinarySign_iff :
    IsBinarySign level kind op ↔ Operator.ofKind? kind = some op ∧ op.level? = some level := by
  constructor
  · rintro ⟨⟩ <;> exact ⟨rfl, rfl⟩
  · rintro ⟨hkind, hlevel⟩
    cases kind <;> cases hkind <;> cases hlevel <;> constructor

/-- The parser looks for the binary operators of the grammar, level by level. -/
theorem binaryOperator?_eq_some_iff :
    Parser.binaryOperator? level kind = some op ↔ IsBinarySign level kind op := by
  rw [isBinarySign_iff, Parser.binaryOperator?, Option.filter_eq_some_iff, decide_eq_true_eq]

/-- The parser looks for the unary operators of the grammar. -/
theorem unaryOperator?_eq_some_iff :
    Parser.unaryOperator? kind = some op ↔ IsUnarySign kind op := by
  constructor
  · intro h
    cases kind <;> cases h <;> constructor
  · rintro ⟨⟩ <;> rfl

theorem operandLevel_eq : operandLevel = Operator.levels := rfl

theorem IsBinarySign.lt (h : IsBinarySign level kind op) : level < operandLevel := by
  cases h <;> decide

theorem IsBinarySign.ofKind?_eq (h : IsBinarySign level kind op) :
    Operator.ofKind? kind = some op := (isBinarySign_iff.mp h).1

theorem IsUnarySign.ofKind?_eq (h : IsUnarySign kind op) : Operator.ofKind? kind = some op := by
  cases h <;> rfl

/-- An operator is no token of a kind that stands for none. -/
theorem ne_of_ofKind? {other : TokenKind} (h : Operator.ofKind? kind = some op)
    (hother : Operator.ofKind? other = none) : kind ≠ other := by
  rintro rfl
  rw [h] at hother
  cases hother

end Agreement

/-- How tightly the outermost form of an expression binds, loosest first. A binary operator
binds as its level says; after the last level come single operands. -/
inductive Tier where
  | assignment
  | binary (level : Nat)
  | unary
  | call
  | primary

inductive IsExpr : Tier → List Token → Expr → Prop
  /-- A target of an assignment is a bare name. -/
  | assign {name eq : Token} {ts : List Token} {value : Expr} :
      name.kind = .identifier → eq.kind = .equal → IsExpr .assignment ts value →
      IsExpr .assignment (name :: eq :: ts)
        (.assign (markOf (name :: eq :: ts)) name.lexeme value)
  | value {ts : List Token} {e : Expr} : IsExpr (.binary 0) ts e → IsExpr .assignment ts e
  /-- The right operand has no operators of the same level: they associate to the left. -/
  | binary {level : Nat} {op : Operator} {left right : List Token} {sign : Token} {l r : Expr} :
      IsBinarySign level sign.kind op → IsExpr (.binary level) left l →
      IsExpr (.binary (level + 1)) right r →
      IsExpr (.binary level) (left ++ sign :: right)
        (.binary (markOf (left ++ sign :: right)) op l r)
  | tighter {level : Nat} {ts : List Token} {e : Expr} : level < operandLevel →
      IsExpr (.binary (level + 1)) ts e → IsExpr (.binary level) ts e
  | operand {ts : List Token} {e : Expr} :
      IsExpr .unary ts e → IsExpr (.binary operandLevel) ts e
  | unary {op : Operator} {sign : Token} {ts : List Token} {e : Expr} :
      IsUnarySign sign.kind op → IsExpr .unary ts e →
      IsExpr .unary (sign :: ts) (.unary (markOf (sign :: ts)) op e)
  | callee {ts : List Token} {e : Expr} : IsExpr .call ts e → IsExpr .unary ts e
  | call {fs ts : List Token} {opening closing : Token} {f : Expr}
      {args : List (List Token × Expr)} :
      IsExpr .call fs f → opening.kind = .leftParen → closing.kind = .rightParen →
      (∀ arg ∈ args, IsExpr .assignment arg.1 arg.2) → args.length ≤ maxArity →
      CommaSeparated (args.map Prod.fst) ts →
      IsExpr .call (fs ++ opening :: (ts ++ [closing]))
        (.call (markOf (fs ++ opening :: (ts ++ [closing]))) f (args.map Prod.snd))
  | atom {ts : List Token} {e : Expr} : IsExpr .primary ts e → IsExpr .call ts e
  | literal {t : Token} {e : Expr} : IsLiteral t e → IsExpr .primary [t] e
  | grouping {opening closing : Token} {ts : List Token} {e : Expr} :
      opening.kind = .leftParen → closing.kind = .rightParen → IsExpr .assignment ts e →
      IsExpr .primary (opening :: (ts ++ [closing]))
        (.grouping (markOf (opening :: (ts ++ [closing]))) e)

/-- What binds tightly stands wherever something looser may. -/
theorem IsExpr.looser {ts : List Token} {e : Expr} {level looser : Nat}
    (h : IsExpr (.binary level) ts e) (hle : looser ≤ level) (hlevel : level ≤ operandLevel) :
    IsExpr (.binary looser) ts e := by
  induction hle with
  | refl => exact h
  | @step level _ ih => exact ih (.tighter hlevel h) (Nat.le_of_succ_le hlevel)

theorem IsExpr.binary_of_unary {ts : List Token} {e : Expr} (h : IsExpr .unary ts e) {level : Nat}
    (hlevel : level ≤ operandLevel) : IsExpr (.binary level) ts e :=
  (IsExpr.operand h).looser hlevel (Nat.le_refl _)

theorem IsExpr.assignment_of_unary {ts : List Token} {e : Expr} (h : IsExpr .unary ts e) :
    IsExpr .assignment ts e := .value (h.binary_of_unary (Nat.zero_le _))

/-- An expression that stands alone passes through all tiers. -/
theorem IsExpr.assignment_of_primary {ts : List Token} {e : Expr} (h : IsExpr .primary ts e) :
    IsExpr .assignment ts e := IsExpr.assignment_of_unary (.callee (.atom h))

/-- An expression, or nothing. -/
inductive IsClause : List Token → Option Expr → Prop
  | absent : IsClause [] none
  | present {ts : List Token} {e : Expr} : IsExpr .assignment ts e → IsClause ts (some e)

/-- The statement ends with an `if` that has no `else`: an `else` after it would be
the `else` of that `if`. -/
def endsOpen : Stmt → Bool
  | .ifElse _ _ _ none => true
  | .ifElse _ _ _ (some no) => endsOpen no
  | .whileLoop _ _ body | .forLoop _ _ _ _ body => endsOpen body
  | _ => false

/-- A variable without a value gets a `nil` that stands at its name. -/
inductive IsVar : List Token → Stmt → Prop
  | bare {word name semicolon : Token} : word.kind = .varWord → name.kind = .identifier →
      semicolon.kind = .semicolon →
      IsVar [word, name, semicolon]
        (.var word.position name.lexeme (.nil (.unchecked name.position)))
  | valued {word name eq semicolon : Token} {ts : List Token} {e : Expr} : word.kind = .varWord →
      name.kind = .identifier → eq.kind = .equal → semicolon.kind = .semicolon →
      IsExpr .assignment ts e →
      IsVar (word :: name :: eq :: (ts ++ [semicolon])) (.var word.position name.lexeme e)

inductive IsExprStmt : List Token → Stmt → Prop
  | mk {ts : List Token} {semicolon : Token} {e : Expr} : semicolon.kind = .semicolon →
      IsExpr .assignment ts e → IsExprStmt (ts ++ [semicolon]) (.expression (leftmost ts) e)

/-- The first clause of a loop head, with its semicolon. -/
inductive IsInit : List Token → Option Stmt → Prop
  | absent {semicolon : Token} : semicolon.kind = .semicolon → IsInit [semicolon] none
  | var {ts : List Token} {s : Stmt} : IsVar ts s → IsInit ts (some s)
  | expression {ts : List Token} {s : Stmt} : IsExprStmt ts s → IsInit ts (some s)

/-- The bodies of branches and loops are statements; blocks and programs hold
declarations, of which statements are a part. -/
inductive Form where
  | statement
  | declaration

/-- Statements and declarations; the first argument tells whether a function body
surrounds them. -/
inductive IsStmt : Bool → Form → List Token → Stmt → Prop
  | expression {inFunction : Bool} {ts : List Token} {s : Stmt} : IsExprStmt ts s →
      IsStmt inFunction .statement ts s
  | print {inFunction : Bool} {word semicolon : Token} {ts : List Token} {e : Expr} :
      word.kind = .printWord → semicolon.kind = .semicolon → IsExpr .assignment ts e →
      IsStmt inFunction .statement (word :: (ts ++ [semicolon])) (.print word.position e)
  | block {inFunction : Bool} {opening closing : Token} {parts : List (List Token × Stmt)} :
      opening.kind = .leftBrace → closing.kind = .rightBrace →
      (∀ part ∈ parts, IsStmt inFunction .declaration part.1 part.2) →
      IsStmt inFunction .statement (opening :: ((parts.map Prod.fst).flatten ++ [closing]))
        (.block opening.position (parts.map Prod.snd))
  | ifThen {inFunction : Bool} {word opening closing : Token} {cs ys : List Token} {c : Expr}
      {yes : Stmt} :
      word.kind = .ifWord → opening.kind = .leftParen → closing.kind = .rightParen →
      IsExpr .assignment cs c → IsStmt inFunction .statement ys yes →
      IsStmt inFunction .statement (word :: opening :: (cs ++ closing :: ys))
        (.ifElse word.position c yes none)
  | ifElse {inFunction : Bool} {word opening closing other : Token} {cs ys ns : List Token}
      {c : Expr} {yes no : Stmt} :
      word.kind = .ifWord → opening.kind = .leftParen → closing.kind = .rightParen →
      other.kind = .elseWord → IsExpr .assignment cs c →
      IsStmt inFunction .statement ys yes → endsOpen yes = false →
      IsStmt inFunction .statement ns no →
      IsStmt inFunction .statement (word :: opening :: (cs ++ closing :: (ys ++ other :: ns)))
        (.ifElse word.position c yes (some no))
  | whileLoop {inFunction : Bool} {word opening closing : Token} {cs bs : List Token} {c : Expr}
      {body : Stmt} :
      word.kind = .whileWord → opening.kind = .leftParen → closing.kind = .rightParen →
      IsExpr .assignment cs c → IsStmt inFunction .statement bs body →
      IsStmt inFunction .statement (word :: opening :: (cs ++ closing :: bs))
        (.whileLoop word.position c body)
  | forLoop {inFunction : Bool} {word opening semicolon closing : Token} {is cs ns bs : List Token}
      {init : Option Stmt} {cond increment : Option Expr} {body : Stmt} :
      word.kind = .forWord → opening.kind = .leftParen → semicolon.kind = .semicolon →
      closing.kind = .rightParen → IsInit is init → IsClause cs cond → IsClause ns increment →
      IsStmt inFunction .statement bs body →
      IsStmt inFunction .statement
        (word :: opening :: (is ++ (cs ++ semicolon :: (ns ++ closing :: bs))))
        (.forLoop word.position init cond increment body)
  /-- Only a function body returns. -/
  | ret {word semicolon : Token} {ts : List Token} {value : Option Expr} :
      word.kind = .returnWord → semicolon.kind = .semicolon → IsClause ts value →
      IsStmt true .statement (word :: (ts ++ [semicolon])) (.ret word.position value)
  | statement {inFunction : Bool} {ts : List Token} {s : Stmt} :
      IsStmt inFunction .statement ts s → IsStmt inFunction .declaration ts s
  | var {inFunction : Bool} {ts : List Token} {s : Stmt} : IsVar ts s →
      IsStmt inFunction .declaration ts s
  | function {inFunction : Bool} {word name opening closing openBody closeBody : Token}
      {params ts : List Token} {parts : List (List Token × Stmt)} :
      word.kind = .funWord → name.kind = .identifier → opening.kind = .leftParen →
      closing.kind = .rightParen → openBody.kind = .leftBrace → closeBody.kind = .rightBrace →
      (∀ param ∈ params, param.kind = .identifier) → params.length ≤ maxArity →
      CommaSeparated (params.map ([·])) ts →
      (∀ part ∈ parts, IsStmt true .declaration part.1 part.2) →
      IsStmt inFunction .declaration
        (word :: name :: opening :: (ts ++
          closing :: openBody :: ((parts.map Prod.fst).flatten ++ [closeBody])))
        (.function word.position name.lexeme (params.map Token.lexeme) (parts.map Prod.snd) .any)

/-- A list of declarations, one after the other. -/
def IsBody (inFunction : Bool) (ts : List Token) (ss : List Stmt) : Prop :=
  ∃ parts : List (List Token × Stmt),
    (∀ part ∈ parts, IsStmt inFunction .declaration part.1 part.2) ∧
      ts = (parts.map Prod.fst).flatten ∧ ss = parts.map Prod.snd

/-- A program is a list of declarations outside of all functions. -/
def IsProgram (ts : List Token) (program : Program) : Prop := IsBody false ts program

end GradualScript.Grammar
