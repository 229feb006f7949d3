import GradualScript.Proofs.Grammar.Steps

/-!
# The budget suffices

Between one token and the next a production passes through at most fifteen others, so
sixteen steps for each token that is left, and a few for the production itself, are enough
to come to a verdict. Parsing never ends because its budget is spent.
-/
namespace GradualScript

namespace Parser

variable {α β : Type} {s : Stream} {taken : Nat}

/-- A verdict, and if it is a result, then it took at least `taken` tokens of the stream. -/
def Settled (taken : Nat) (s : Stream) : Reply Stream α → Prop
  | .done _ rest => rest.tokens.length + taken ≤ s.tokens.length
  | .failed _ => True
  | .spent => False

/-- A parser that takes nothing leaves everything. -/
theorem settled_pure (a : α) : Settled 0 s ((pure a : Parser Stream α) s) := Nat.le_refl _

theorem settled_fail (cause : ParseFault) (position : Position) :
    Settled taken s ((fail cause position : Parser Stream α) s) := trivial

/-- A token that is not the end is one of those that are left. -/
theorem length_next (h : s.current.kind ≠ .endOfFile) :
    s.next.tokens.length + 1 = s.tokens.length :=
  (congrArg (·.tokens.length) (Stream.eq_prepend_current h)).symm

theorem settled_skip (h : s.current.kind ≠ .endOfFile) : Settled 1 s (skip s) :=
  Nat.le_of_eq (length_next h)

/-- An expected token is taken or missed; in neither case does the budget run out. -/
theorem settled_expect {kind : TokenKind} (hk : kind ≠ .endOfFile) :
    Settled 1 s (expect kind s) := by
  rw [expect_eq]
  split
  · next h => exact Nat.le_of_eq (length_next (h ▸ hk))
  · trivial

/-- Two parts together take what each of them takes. -/
theorem Settled.bind {p : Parser Stream α} {f : α → Parser Stream β} {first more : Nat}
    (h : Settled first s (p s))
    (hf : ∀ a rest, rest.tokens.length + first ≤ s.tokens.length → Settled more rest (f a rest))
    (hle : taken ≤ first + more) : Settled taken s ((p >>= f) s) := by
  change Settled _ s (Parser.bind p f s)
  unfold Parser.bind
  generalize p s = reply at h
  cases reply with
  | spent => exact h
  | failed e => trivial
  | done a mid =>
    have hmid := hf a mid h
    dsimp only
    generalize f a mid = reply at hmid
    cases reply with
    | spent => exact hmid
    | failed e => trivial
    | done b rest =>
      dsimp only [Settled] at h hmid ⊢
      omega

/-- The first parser takes the tokens. -/
theorem Settled.takes {p : Parser Stream α} {f : α → Parser Stream β} (h : Settled taken s (p s))
    (hf : ∀ a rest, rest.tokens.length + taken ≤ s.tokens.length → Settled 0 rest (f a rest)) :
    Settled taken s ((p >>= f) s) :=
  h.bind hf (Nat.le_refl _)

/-- However many tokens the first parser takes, none are asked for. -/
theorem Settled.onward {p : Parser Stream α} {f : α → Parser Stream β} {first : Nat}
    (h : Settled first s (p s))
    (hf : ∀ a rest, rest.tokens.length + first ≤ s.tokens.length → Settled 0 rest (f a rest)) :
    Settled 0 s ((p >>= f) s) :=
  h.bind hf (Nat.zero_le _)

/-- The parsers after the first take the tokens. -/
theorem Settled.leaves {p : Parser Stream α} {f : α → Parser Stream β} (h : Settled 0 s (p s))
    (hf : ∀ a rest, rest.tokens.length ≤ s.tokens.length → Settled taken rest (f a rest)) :
    Settled taken s ((p >>= f) s) :=
  h.bind hf (Nat.le_add_left ..)

theorem Settled.current {f : Token → Parser Stream α} (h : Settled taken s (f s.current s)) :
    Settled taken s ((Parser.current >>= f) s) := h

/-- A parser that settles on what is left of a stream settles on the stream. -/
theorem Settled.widen {rest : Stream} {reply : Reply Stream α} (h : Settled taken rest reply)
    (hle : rest.tokens.length ≤ s.tokens.length) : Settled taken s reply := by
  cases reply with
  | done a last => exact Nat.le_trans h hle
  | failed e => trivial
  | spent => exact h

/-- A token that is accepted is one token less for what follows. -/
theorem Settled.accept {kind : TokenKind} {p q : Parser Stream α} (hk : kind ≠ .endOfFile)
    (hp : s.next.tokens.length + 1 = s.tokens.length → Settled taken s.next (p s.next))
    (hq : Settled taken s (q s)) :
    Settled taken s ((do if ← Parser.accept kind then p else q) s) := by
  by_cases h : s.current.kind = kind
  · have hnext := length_next (h ▸ hk)
    have haccept : Parser.accept kind s = .done true s.next := if_pos h
    rw [bind_done haccept]
    exact (hp hnext).widen (by omega)
  · rw [bind_done (accept_not_done h)]
    exact hq

theorem Settled.sees {kind : TokenKind} {p q : Parser Stream α} (hp : Settled taken s (p s))
    (hq : Settled taken s (q s)) :
    Settled taken s ((do if ← Parser.sees kind then p else q) s) := by
  have hsees : Parser.sees kind s = .done (decide (s.current.kind = kind)) s := rfl
  rw [bind_done hsees]
  cases decide (s.current.kind = kind) with
  | true => exact hp
  | false => exact hq

theorem Settled.takeOperator {operator? : TokenKind → Option Operator}
    {f : Option Operator → Parser Stream α} (hend : operator? .endOfFile = none)
    (hsome : ∀ op, operator? s.current.kind = some op → s.next.tokens.length + 1 = s.tokens.length →
      Settled taken s.next (f (some op) s.next))
    (hnone : Settled taken s (f none s)) :
    Settled taken s ((Parser.takeOperator operator? >>= f) s) := by
  cases hop : operator? s.current.kind with
  | none =>
    rw [bind_done (takeOperator_not_done hop)]
    exact hnone
  | some op =>
    have hk : s.current.kind ≠ .endOfFile := by
      intro hk
      rw [hk, hend] at hop
      cases hop
    have htake : Parser.takeOperator operator? s = .done (some op) s.next := by
      rw [takeOperator_eq, hop]
    rw [bind_done htake]
    exact (hsome op hop (length_next hk)).widen (by have := length_next hk; omega)

theorem settled_literal : Settled 0 s (literal s.current s) := by
  have hskip : ∀ {e : Expr}, s.current.kind ≠ .endOfFile →
      Settled 0 s ((do skip; return e : Parser Stream Expr) s) := fun hk =>
    (settled_skip hk).onward fun _ _ _ => settled_pure _
  cases hk : s.current.kind with
  | number =>
    simp only [literal, hk]
    cases Number.read? s.current.lexeme with
    | some value => exact hskip (by rw [hk]; decide)
    | none => exact settled_fail _ _
  | string | trueWord | falseWord | nilWord | identifier =>
    simp only [literal, hk]
    exact hskip (by rw [hk]; decide)
  | _ =>
    simp only [literal, hk]
    exact settled_fail _ _

/-- The productions of expressions settle with `n` steps, if the stream is short enough. -/
structure SettlesExpr (n : Nat) : Prop where
  expression : ∀ s : Stream, 16 * s.tokens.length + 11 ≤ n → Settled 0 s (expression n s)
  binary : ∀ level ≤ Operator.levels, ∀ s : Stream, 16 * s.tokens.length + 10 ≤ n + level →
    Settled 0 s (binary n level s)
  binaryRest : ∀ level left, ∀ s : Stream, 16 * s.tokens.length + 1 ≤ n →
    Settled 0 s (binaryRest n level left s)
  unary : ∀ s : Stream, 16 * s.tokens.length + 3 ≤ n → Settled 0 s (unary n s)
  call : ∀ s : Stream, 16 * s.tokens.length + 2 ≤ n → Settled 0 s (call n s)
  callRest : ∀ callee, ∀ s : Stream, 16 * s.tokens.length + 1 ≤ n →
    Settled 0 s (callRest n callee s)
  arguments : ∀ s : Stream, 16 * s.tokens.length + 13 ≤ n → Settled 0 s (arguments n s)
  argumentList : ∀ count, ∀ s : Stream, 16 * s.tokens.length + 12 ≤ n →
    Settled 0 s (argumentList n count s)
  primary : ∀ s : Stream, 16 * s.tokens.length + 1 ≤ n → Settled 0 s (primary n s)

namespace SettlesExpr

variable {n : Nat} (ih : SettlesExpr n)
include ih

theorem settled_expression (s : Stream) (hn : 16 * s.tokens.length + 11 ≤ n + 1) :
    Settled 0 s (Parser.expression (n + 1) s) := by
  refine (ih.binary 0 (by decide) s (by omega)).leaves fun target rest hrest => ?_
  refine .accept (by decide) (fun hnext => ?_) (settled_pure target)
  refine (ih.expression _ (by omega)).leaves fun value last _ => ?_
  cases target with
  | name => exact settled_pure _
  | _ => exact settled_fail _ _

/-- Each level takes a step before it comes to an operand, so looser levels need more of
them. -/
theorem settled_binary (level : Nat) (hlevel : level ≤ Operator.levels) (s : Stream)
    (hn : 16 * s.tokens.length + 10 ≤ n + 1 + level) :
    Settled 0 s (Parser.binary (n + 1) level s) := by
  have hlevels : Operator.levels = 6 := rfl
  unfold Parser.binary
  split
  · next hlt =>
    exact (ih.binary (level + 1) hlt s (by omega)).leaves fun left rest hrest =>
      ih.binaryRest level left rest (by omega)
  · exact ih.unary s (by omega)

/-- Each operator is a token less, which pays for the levels of its operand. -/
theorem settled_binaryRest (level : Nat) (left : Expr) (s : Stream)
    (hn : 16 * s.tokens.length + 1 ≤ n + 1) :
    Settled 0 s (Parser.binaryRest (n + 1) level left s) := by
  refine .takeOperator rfl (fun op hop hnext => ?_) (settled_pure left)
  have hlt : level + 1 ≤ Operator.levels := (Grammar.binaryOperator?_eq_some_iff.mp hop).lt
  exact (ih.binary (level + 1) hlt _ (by omega)).leaves fun right rest hrest =>
    ih.binaryRest level _ rest (by omega)

theorem settled_unary (s : Stream) (hn : 16 * s.tokens.length + 3 ≤ n + 1) :
    Settled 0 s (Parser.unary (n + 1) s) := by
  refine .current (.takeOperator rfl (fun op _ hnext => ?_) (ih.call s (by omega)))
  exact (ih.unary _ (by omega)).leaves fun operand _ _ => settled_pure _

theorem settled_call (s : Stream) (hn : 16 * s.tokens.length + 2 ≤ n + 1) :
    Settled 0 s (Parser.call (n + 1) s) :=
  (ih.primary s (by omega)).leaves fun callee rest hrest => ih.callRest callee rest (by omega)

theorem settled_callRest (callee : Expr) (s : Stream) (hn : 16 * s.tokens.length + 1 ≤ n + 1) :
    Settled 0 s (Parser.callRest (n + 1) callee s) := by
  refine .accept (by decide) (fun hnext => ?_) (settled_pure callee)
  exact (ih.arguments _ (by omega)).leaves fun args rest hrest => ih.callRest _ rest (by omega)

theorem settled_arguments (s : Stream) (hn : 16 * s.tokens.length + 13 ≤ n + 1) :
    Settled 0 s (Parser.arguments (n + 1) s) := by
  refine .accept (by decide) (fun _ => settled_pure []) ?_
  refine (ih.argumentList 0 s (by omega)).leaves fun args rest _ => ?_
  exact (settled_expect (by decide)).onward fun _ _ _ => settled_pure args

theorem settled_argumentList (count : Nat) (s : Stream) (hn : 16 * s.tokens.length + 12 ≤ n + 1) :
    Settled 0 s (Parser.argumentList (n + 1) count s) := by
  unfold Parser.argumentList
  split
  · exact .current (settled_fail _ _)
  · refine (ih.expression s (by omega)).leaves fun arg rest hrest => ?_
    refine .accept (by decide) (fun hnext => ?_) (settled_pure [arg])
    exact (ih.argumentList (count + 1) _ (by omega)).leaves fun more _ _ =>
      settled_pure (arg :: more)

theorem settled_primary (s : Stream) (hn : 16 * s.tokens.length + 1 ≤ n + 1) :
    Settled 0 s (Parser.primary (n + 1) s) := by
  refine .current ?_
  split
  · next hk =>
    have hne : s.current.kind ≠ .endOfFile := by rw [hk]; decide
    refine (settled_skip hne).onward fun _ rest hrest => ?_
    refine (ih.expression rest (by omega)).leaves fun inner _ _ => ?_
    exact (settled_expect (by decide)).onward fun _ _ _ => settled_pure _
  · exact settled_literal

end SettlesExpr

/-- By induction on the budget. The tokens left decrease wherever a production calls one
that needs more. -/
theorem settlesExpr (n : Nat) : SettlesExpr n := by
  induction n with
  | zero =>
    have hlevels : Operator.levels = 6 := rfl
    constructor <;> intros <;> omega
  | succ n ih =>
    exact ⟨ih.settled_expression, ih.settled_binary, ih.settled_binaryRest, ih.settled_unary,
      ih.settled_call, ih.settled_callRest, ih.settled_arguments, ih.settled_argumentList,
      ih.settled_primary⟩

section

variable {n : Nat} {s : Stream}

theorem settled_optionalExpression (hn : 16 * s.tokens.length + 11 ≤ n) (stop : TokenKind) :
    Settled 0 s (optionalExpression n stop s) :=
  .sees (settled_pure none) <|
    ((settlesExpr n).expression s hn).leaves fun e _ _ => settled_pure (some e)

theorem settled_varDeclaration (hn : 16 * s.tokens.length + 11 ≤ n)
    (hk : s.current.kind ≠ .endOfFile) : Settled 1 s (varDeclaration n s) := by
  refine .current ((settled_skip hk).takes fun _ s₁ h₁ => ?_)
  refine (settled_expect (by decide)).onward fun name s₂ h₂ => ?_
  have hfinish : ∀ (init : Expr) (rest : Stream), Settled 0 rest
      ((do let _ ← expect .semicolon; return .var s.current.position name.lexeme init : Parser Stream Stmt)
        rest) := fun init rest =>
    (settled_expect (by decide)).onward fun _ _ _ => settled_pure _
  refine .accept (by decide) (fun hnext => ?_) ?_
  · exact ((settlesExpr n).expression _ (by omega)).leaves fun init rest _ => hfinish init rest
  · exact (settled_pure _).leaves fun init rest _ => hfinish init rest

theorem settled_expressionStatement (hn : 16 * s.tokens.length + 11 ≤ n) :
    Settled 1 s (expressionStatement n s) :=
  ((settlesExpr n).expression s hn).leaves fun _ _ _ =>
    (settled_expect (by decide)).takes fun _ _ _ => settled_pure _

theorem settled_condition (hn : 16 * s.tokens.length + 11 ≤ n) :
    Settled 0 s (condition n s) := by
  refine (settled_expect (by decide)).onward fun _ s₁ h₁ => ?_
  refine ((settlesExpr n).expression s₁ (by omega)).leaves fun cond s₂ _ => ?_
  exact (settled_expect (by decide)).onward fun _ _ _ => settled_pure cond

theorem settled_loopInit (hn : 16 * s.tokens.length + 11 ≤ n) : Settled 0 s (loopInit n s) := by
  refine .current ?_
  generalize hfirst : s.current = first
  obtain ⟨kind, lexeme, position⟩ := first
  have hkind : s.current.kind = kind := congrArg Token.kind hfirst
  cases kind with
  | semicolon =>
    have hk : s.current.kind ≠ .endOfFile := by rw [hkind]; decide
    exact (settled_skip hk).onward fun _ _ _ => settled_pure none
  | varWord =>
    have hk : s.current.kind ≠ .endOfFile := by rw [hkind]; decide
    exact (settled_varDeclaration hn hk).onward fun init _ _ => settled_pure (some init)
  | _ =>
    exact (settled_expressionStatement hn).onward fun init _ _ => settled_pure (some init)

theorem settled_parameterList (n count : Nat) (s : Stream) (hn : 16 * s.tokens.length + 1 ≤ n) :
    Settled 0 s (parameterList n count s) := by
  induction n generalizing count s with
  | zero => omega
  | succ n ih =>
    unfold parameterList
    split
    · exact .current (settled_fail _ _)
    · refine (settled_expect (by decide)).onward fun param s₁ h₁ => ?_
      refine .accept (by decide) (fun hnext => ?_) (settled_pure [param.lexeme])
      exact (ih (count + 1) _ (by omega)).leaves fun more _ _ => settled_pure (param.lexeme :: more)

theorem settled_parameters (hn : 16 * s.tokens.length + 1 ≤ n) :
    Settled 0 s (parameters n s) := by
  refine (settled_expect (by decide)).onward fun _ s₁ h₁ => ?_
  refine .accept (by decide) (fun _ => settled_pure []) ?_
  refine (settled_parameterList n 0 s₁ (by omega)).leaves fun params s₂ _ => ?_
  exact (settled_expect (by decide)).onward fun _ _ _ => settled_pure params

end

/-- The productions of statements settle with `n` steps, if the stream is short enough. -/
structure SettlesStmt (n : Nat) : Prop where
  statement : ∀ inFunction, ∀ s : Stream, 16 * s.tokens.length + 12 ≤ n →
    Settled 1 s (statement inFunction n s)
  declaration : ∀ inFunction, ∀ s : Stream, 16 * s.tokens.length + 13 ≤ n →
    Settled 1 s (declaration inFunction n s)
  blockBody : ∀ inFunction, ∀ s : Stream, 16 * s.tokens.length + 14 ≤ n →
    Settled 0 s (blockBody inFunction n s)

namespace SettlesStmt

variable {n : Nat} (ih : SettlesStmt n) (inFunction : Bool) (s : Stream)
include ih

/-- A statement takes a token, so a body of many statements ends. -/
theorem settled_statement (hn : 16 * s.tokens.length + 12 ≤ n + 1) :
    Settled 1 s (Parser.statement inFunction (n + 1) s) := by
  refine .current ?_
  generalize hfirst : s.current = first
  obtain ⟨kind, lexeme, position⟩ := first
  have hkind : s.current.kind = kind := congrArg Token.kind hfirst
  have hskip : kind ≠ .endOfFile → Settled 1 s (skip s) := fun hk =>
    settled_skip (by rwa [hkind])
  cases kind with
  | printWord =>
    refine (hskip nofun).takes fun _ s₁ h₁ => ?_
    refine ((settlesExpr n).expression s₁ (by omega)).leaves fun value s₂ _ => ?_
    exact (settled_expect (by decide)).onward fun _ _ _ => settled_pure _
  | leftBrace =>
    refine (hskip nofun).takes fun _ s₁ h₁ => ?_
    exact (ih.blockBody inFunction s₁ (by omega)).leaves fun body _ _ => settled_pure _
  | ifWord =>
    refine (hskip nofun).takes fun _ s₁ h₁ => ?_
    refine (settled_condition (by omega)).leaves fun cond s₂ h₂ => ?_
    refine (ih.statement inFunction s₂ (by omega)).onward fun yes s₃ h₃ => ?_
    refine .accept (by decide) (fun hnext => ?_) (settled_pure _)
    exact (ih.statement inFunction _ (by omega)).onward fun no _ _ => settled_pure _
  | whileWord =>
    refine (hskip nofun).takes fun _ s₁ h₁ => ?_
    refine (settled_condition (by omega)).leaves fun cond s₂ h₂ => ?_
    exact (ih.statement inFunction s₂ (by omega)).onward fun body _ _ => settled_pure _
  | forWord =>
    refine (hskip nofun).takes fun _ s₁ h₁ => ?_
    refine (settled_expect (by decide)).onward fun _ s₂ h₂ => ?_
    refine (settled_loopInit (by omega)).leaves fun init s₃ h₃ => ?_
    refine (settled_optionalExpression (by omega) .semicolon).leaves fun cond s₄ h₄ => ?_
    refine (settled_expect (by decide)).onward fun _ s₅ h₅ => ?_
    refine (settled_optionalExpression (by omega) .rightParen).leaves fun increment s₆ h₆ => ?_
    refine (settled_expect (by decide)).onward fun _ s₇ h₇ => ?_
    exact (ih.statement inFunction s₇ (by omega)).onward fun body _ _ => settled_pure _
  | returnWord =>
    cases inFunction with
    | true =>
      refine (hskip nofun).takes fun _ s₁ h₁ => ?_
      refine (settled_optionalExpression (by omega) .semicolon).leaves fun value s₂ _ => ?_
      exact (settled_expect (by decide)).onward fun _ _ _ => settled_pure _
    | false => exact settled_fail _ _
  | _ => exact settled_expressionStatement (by omega)

theorem settled_declaration (hn : 16 * s.tokens.length + 13 ≤ n + 1) :
    Settled 1 s (Parser.declaration inFunction (n + 1) s) := by
  refine .current ?_
  generalize hfirst : s.current = first
  obtain ⟨kind, lexeme, position⟩ := first
  have hkind : s.current.kind = kind := congrArg Token.kind hfirst
  cases kind with
  | funWord =>
    refine (settled_skip (by rw [hkind]; decide)).takes fun _ s₁ h₁ => ?_
    refine (settled_expect (by decide)).onward fun name s₂ h₂ => ?_
    refine (settled_parameters (by omega)).leaves fun params s₃ h₃ => ?_
    refine (settled_expect (by decide)).onward fun _ s₄ h₄ => ?_
    exact (ih.blockBody true s₄ (by omega)).leaves fun body _ _ => settled_pure _
  | varWord => exact settled_varDeclaration (by omega) (by rw [hkind]; decide)
  | _ => exact ih.statement inFunction s (by omega)

theorem settled_blockBody (hn : 16 * s.tokens.length + 14 ≤ n + 1) :
    Settled 0 s (Parser.blockBody inFunction (n + 1) s) := by
  refine .accept (by decide) (fun _ => settled_pure []) (.current ?_)
  split
  · exact settled_fail _ _
  · refine (ih.declaration inFunction s (by omega)).onward fun first s₁ h₁ => ?_
    exact (ih.blockBody inFunction s₁ (by omega)).leaves fun more _ _ =>
      settled_pure (first :: more)

end SettlesStmt

/-- By induction on the budget. -/
theorem settlesStmt (n : Nat) : SettlesStmt n := by
  induction n with
  | zero => constructor <;> intros <;> omega
  | succ n ih => exact ⟨ih.settled_statement, ih.settled_declaration, ih.settled_blockBody⟩

/-- Sixteen steps for each token suffice. -/
theorem settled_program (n : Nat) (s : Stream) (hn : 16 * s.tokens.length + 14 ≤ n) :
    Settled 0 s (program n s) := by
  induction n generalizing s with
  | zero => omega
  | succ n ih =>
    refine .sees (settled_pure []) ?_
    refine ((settlesStmt n).declaration false s (by omega)).onward fun first s₁ h₁ => ?_
    exact (ih s₁ (by omega)).leaves fun more _ _ => settled_pure (first :: more)

/-- The budget of a stream suffices, and so does every larger one. -/
theorem program_ne_spent {n : Nat} {s : Stream} (hn : s.budget ≤ n) : program n s ≠ .spent := by
  intro h
  have hsettled := settled_program n s (by rw [Stream.budget] at hn; omega)
  rw [h] at hsettled
  exact hsettled

end Parser

namespace Stream

variable {s : Stream} {p : Program} {e : ParseError}

/-- A stream is parsed if the productions read a program; running out of budget is no third
case. -/
theorem parse_eq_ok_iff : s.parse = .ok p ↔ ∃ rest, Parser.program s.budget s = .done p rest := by
  unfold parse
  cases Parser.program s.budget s with
  | _ => simp

/-- An error is what the grammar fails with. -/
theorem parse_eq_error_iff : s.parse = .error e ↔ Parser.program s.budget s = .failed e := by
  have hspent := Parser.program_ne_spent (Nat.le_refl s.budget)
  unfold parse
  cases hreply : Parser.program s.budget s with
  | done p rest => simp
  | failed e' => simp
  | spent => exact absurd hreply hspent

end Stream

end GradualScript
