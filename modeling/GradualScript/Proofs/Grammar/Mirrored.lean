import GradualScript.Proofs.Grammar.Steps
import GradualScript.Proofs.Tree.Moved

/-!
# One parser on two feeds

The parser looks at the kinds and spellings of tokens, and at their places only to give
them to nodes and errors. So where one feed shows the tokens of another at other places,
it makes the same tree with these places, or fails for the same cause at the other place.
-/
namespace GradualScript

/-- The token stands for the other one at the place that its place is sent to. What an end
is written as does not count. -/
structure Token.SeenAs (g : Position → Position) (t t' : Token) : Prop where
  kind_eq : t'.kind = t.kind
  position_eq : t'.position = g t.position
  lexeme_eq : t.kind ≠ .endOfFile → t'.lexeme = t.lexeme

/-- Only ends of input may have been exchanged; any other token is seen as itself, moved. -/
theorem Token.SeenAs.eq_moved {g : Position → Position} {t t' : Token} (h : t.SeenAs g t')
    (hkind : t.kind ≠ .endOfFile) : t' = t.moved g := by
  obtain ⟨kind', lexeme', position'⟩ := t'
  obtain ⟨rfl, rfl, hlexeme⟩ := h
  obtain rfl := hlexeme hkind
  rfl

/-- A feed seen as another one, which shows its tokens at the places that theirs are sent
to. -/
structure View (g : Position → Position) (σ τ : Type) [Feed σ] [Feed τ] where
  state : σ → τ
  current (s : σ) : (Feed.current s).SeenAs g (Feed.current (state s))
  next (s : σ) : Feed.next (state s) = state (Feed.next s)

namespace View

variable {g : Position → Position} {σ τ : Type} [Feed σ] [Feed τ]

/-- Each feed as it is. -/
def refl (σ : Type) [Feed σ] : View id σ σ := ⟨id, fun _ => ⟨rfl, rfl, fun _ => rfl⟩, fun _ => rfl⟩

/-- Both states decide alike, since a parser asks for nothing but the kind of a token. -/
theorem kind_current (v : View g σ τ) (s : σ) :
    (Feed.current (v.state s)).kind = (Feed.current s).kind := (v.current s).kind_eq

/-- Before the end the same token is handed out. -/
theorem taken (v : View g σ τ) {s : σ} (h : (Feed.current s).kind ≠ .endOfFile) :
    Feed.taken (v.state s) = (Feed.taken s).moved g := by
  have h' : (Feed.current (v.state s)).kind ≠ .endOfFile := v.kind_current s ▸ h
  rw [Feed.taken_eq_current h', Feed.taken_eq_current h, (v.current s).eq_moved h]

end View

/-- A reply seen through `view`, with its state and all places sent elsewhere. -/
def Reply.moved {σ τ α β : Type} (g : Position → Position) (state : σ → τ) (view : α → β) :
    Reply σ α → Reply τ β
  | done a rest => done (view a) (state rest)
  | failed e => failed (e.moved g)
  | spent => spent

namespace Parser

variable {g : Position → Position} {σ τ : Type} [Feed σ] [Feed τ] {v : View g σ τ}
  {α β γ δ : Type} {view : α → γ} {sight : β → δ}

/-- One parser does with what the view shows what the other does with the feed itself, and
its result has the `view` of the other result. -/
def Mirrors (v : View g σ τ) (view : α → γ) (p : Parser σ α) (bare : Parser τ γ) : Prop :=
  ∀ s, bare (v.state s) = (p s).moved g v.state view

theorem mirrors_pure {a : α} {c : γ} (h : view a = c) : Mirrors v view (pure a) (pure c) := by
  subst h
  exact fun _ => rfl

theorem mirrors_spent : Mirrors v view spent spent := fun _ => rfl

/-- A failure is reported where the view moves it. -/
theorem mirrors_fail (cause : ParseFault) (position : Position) :
    Mirrors v view (fail cause position) (fail cause (g position)) := fun _ => rfl

/-- The second part is mirrored for every result of the first, as the view shows it. -/
theorem Mirrors.bind {p : Parser σ α} {bare : Parser τ γ} {f : α → Parser σ β} {k : γ → Parser τ δ}
    (hp : Mirrors v view p bare) (hf : ∀ a, Mirrors v sight (f a) (k (view a))) :
    Mirrors v sight (p >>= f) (bare >>= k) := by
  intro s
  have hs := hp s
  change Parser.bind bare k _ = (Parser.bind p f s).moved g v.state sight
  unfold Parser.bind
  rw [hs]
  cases p s with
  | done a rest => exact hf a rest
  | failed e => rfl
  | spent => rfl

/-- The token at the front, which the rest of the parser goes by. -/
theorem Mirrors.current {f : Token → Parser σ α} {k : Token → Parser τ γ}
    (h : ∀ t lexeme, (t.kind ≠ .endOfFile → lexeme = t.lexeme) →
      Mirrors v view (f t) (k ⟨t.kind, lexeme, g t.position⟩)) :
    Mirrors v view (Parser.current >>= f) (Parser.current >>= k) := by
  intro s
  obtain ⟨hkind, hposition, hlexeme⟩ := v.current s
  change k (Feed.current (v.state s)) (v.state s) = (f (Feed.current s) s).moved g v.state view
  rw [← h _ _ hlexeme s, ← hkind, ← hposition]

theorem mirrors_skip : Mirrors v id skip skip := by
  intro s
  rw [skip, v.next]
  rfl

theorem mirrors_sees (kind : TokenKind) : Mirrors v id (sees kind) (sees kind) := by
  intro s
  rw [sees, v.kind_current]
  rfl

theorem mirrors_accept (kind : TokenKind) : Mirrors v id (accept kind) (accept kind) := by
  intro s
  simp only [accept, v.kind_current, v.next]
  split <;> rfl

/-- An expected token that is no end was really there, so it is seen as itself, moved. -/
theorem mirrors_expect {kind : TokenKind} (hk : kind ≠ .endOfFile) :
    Mirrors v (Token.moved g) (expect kind) (expect kind) := by
  intro s
  simp only [expect, v.kind_current, v.next, (v.current s).position_eq]
  split
  · next hkind =>
    rw [v.taken (hkind ▸ hk)]
    rfl
  · rfl

theorem mirrors_takeOperator (operator? : TokenKind → Option Operator) :
    Mirrors v id (takeOperator operator?) (takeOperator operator?) := by
  intro s
  simp only [takeOperator, v.kind_current, v.next]
  split <;> rfl

/-- A parser that looks which way to go. -/
theorem Mirrors.branch {p q : Parser σ α} {p' q' : Parser τ γ} {test : Parser σ Bool}
    {test' : Parser τ Bool} (htest : Mirrors v id test test') (hp : Mirrors v view p p')
    (hq : Mirrors v view q q') :
    Mirrors v view (do if ← test then p else q) (do if ← test' then p' else q') := by
  refine htest.bind fun b => ?_
  cases b with
  | true => exact hp
  | false => exact hq

/-- A literal is read from its lexeme, and its node stands at the token. -/
theorem mirrors_literal (token : Token) (lexeme : String)
    (hlexeme : token.kind ≠ .endOfFile → lexeme = token.lexeme) :
    Mirrors v (Expr.moved g) (literal token) (literal ⟨token.kind, lexeme, g token.position⟩) := by
  obtain ⟨kind, text, position⟩ := token
  have hskip : ∀ {e : Expr}, Mirrors v (Expr.moved g) (do skip; return e) (do skip; return e.moved g) :=
    mirrors_skip.bind fun _ => mirrors_pure rfl
  by_cases hend : kind = .endOfFile
  · subst hend
    exact mirrors_fail _ _
  obtain rfl : lexeme = text := hlexeme hend
  cases kind with
  | number =>
    simp only [literal]
    cases Number.read? lexeme with
    | some value => exact hskip
    | none => exact mirrors_fail _ _
  | string | trueWord | falseWord | nilWord | identifier => exact hskip
  | _ => exact mirrors_fail _ _

/-- What the productions of expressions do with a budget of `n` steps. -/
structure MirroredExpr (v : View g σ τ) (n : Nat) : Prop where
  expression : Mirrors v (Expr.moved g) (expression n) (expression n)
  binary : ∀ level, Mirrors v (Expr.moved g) (binary n level) (binary n level)
  binaryRest : ∀ level left,
    Mirrors v (Expr.moved g) (binaryRest n level left) (binaryRest n level (left.moved g))
  unary : Mirrors v (Expr.moved g) (unary n) (unary n)
  call : Mirrors v (Expr.moved g) (call n) (call n)
  callRest : ∀ callee, Mirrors v (Expr.moved g) (callRest n callee) (callRest n (callee.moved g))
  arguments : Mirrors v (Expr.movedAll g) (arguments n) (arguments n)
  argumentList : ∀ count, Mirrors v (Expr.movedAll g) (argumentList n count) (argumentList n count)
  primary : Mirrors v (Expr.moved g) (primary n) (primary n)

namespace MirroredExpr

variable {n : Nat}

theorem mirrors_expression (h : MirroredExpr v n) :
    Mirrors v (Expr.moved g) (Parser.expression (n + 1)) (Parser.expression (n + 1)) := by
  refine (h.binary 0).bind fun target => (mirrors_accept .equal).branch ?_ (mirrors_pure rfl)
  refine h.expression.bind fun value => ?_
  cases target with
  | name => exact mirrors_pure rfl
  | _ => exact mirrors_fail _ _

theorem mirrors_binary (h : MirroredExpr v n) (level : Nat) :
    Mirrors v (Expr.moved g) (Parser.binary (n + 1) level) (Parser.binary (n + 1) level) := by
  unfold Parser.binary
  split
  · exact (h.binary (level + 1)).bind fun left => h.binaryRest level left
  · exact h.unary

/-- The operand on the left has been moved with the tokens that it was read from. -/
theorem mirrors_binaryRest (h : MirroredExpr v n) (level : Nat) (left : Expr) :
    Mirrors v (Expr.moved g) (Parser.binaryRest (n + 1) level left)
      (Parser.binaryRest (n + 1) level (left.moved g)) := by
  refine (mirrors_takeOperator _).bind fun op => ?_
  cases op with
  | none => exact mirrors_pure rfl
  | some op =>
    refine (h.binary (level + 1)).bind fun right => ?_
    rw [Expr.position_moved]
    exact h.binaryRest level _

theorem mirrors_unary (h : MirroredExpr v n) :
    Mirrors v (Expr.moved g) (Parser.unary (n + 1)) (Parser.unary (n + 1)) := by
  refine .current fun first lexeme _ => (mirrors_takeOperator _).bind fun op => ?_
  cases op with
  | none => exact h.call
  | some op => exact h.unary.bind fun operand => mirrors_pure rfl

theorem mirrors_call (h : MirroredExpr v n) :
    Mirrors v (Expr.moved g) (Parser.call (n + 1)) (Parser.call (n + 1)) :=
  h.primary.bind fun callee => h.callRest callee

theorem mirrors_callRest (h : MirroredExpr v n) (callee : Expr) :
    Mirrors v (Expr.moved g) (Parser.callRest (n + 1) callee)
      (Parser.callRest (n + 1) (callee.moved g)) := by
  refine (mirrors_accept .leftParen).branch ?_ (mirrors_pure rfl)
  refine h.arguments.bind fun args => ?_
  rw [Expr.position_moved]
  exact h.callRest _

theorem mirrors_arguments (h : MirroredExpr v n) :
    Mirrors v (Expr.movedAll g) (Parser.arguments (n + 1)) (Parser.arguments (n + 1)) :=
  (mirrors_accept .rightParen).branch (mirrors_pure rfl) <|
    (h.argumentList 0).bind fun _ => (mirrors_expect (by decide)).bind fun _ => mirrors_pure rfl

theorem mirrors_argumentList (h : MirroredExpr v n) (count : Nat) :
    Mirrors v (Expr.movedAll g) (Parser.argumentList (n + 1) count)
      (Parser.argumentList (n + 1) count) := by
  unfold Parser.argumentList
  split
  · exact .current fun t lexeme _ => mirrors_fail _ _
  · refine h.expression.bind fun arg => (mirrors_accept .comma).branch ?_ (mirrors_pure rfl)
    exact (h.argumentList (count + 1)).bind fun rest => mirrors_pure rfl

theorem mirrors_primary (h : MirroredExpr v n) :
    Mirrors v (Expr.moved g) (Parser.primary (n + 1)) (Parser.primary (n + 1)) := by
  refine .current fun token lexeme hlexeme => ?_
  change Mirrors v _ _ (if token.kind = .leftParen then _ else _)
  split
  · refine mirrors_skip.bind fun _ => h.expression.bind fun inner => ?_
    exact (mirrors_expect (by decide)).bind fun _ => mirrors_pure rfl
  · exact mirrors_literal token lexeme hlexeme

end MirroredExpr

/-- By induction on the budget: a production calls others with one step less. -/
theorem mirroredExpr (v : View g σ τ) (n : Nat) : MirroredExpr v n := by
  induction n with
  | zero => constructor <;> intros <;> exact mirrors_spent
  | succ n ih =>
    exact ⟨ih.mirrors_expression, ih.mirrors_binary, ih.mirrors_binaryRest, ih.mirrors_unary,
      ih.mirrors_call, ih.mirrors_callRest, ih.mirrors_arguments, ih.mirrors_argumentList,
      ih.mirrors_primary⟩

section

variable (n : Nat)

theorem mirrors_optionalExpression (stop : TokenKind) :
    Mirrors v (Option.map (Expr.moved g)) (optionalExpression n stop)
      (optionalExpression n stop) :=
  (mirrors_sees stop).branch (mirrors_pure rfl) <|
    (mirroredExpr v n).expression.bind fun _ => mirrors_pure rfl

theorem mirrors_varDeclaration :
    Mirrors v (Stmt.moved g) (varDeclaration n) (varDeclaration n) := by
  refine .current fun first lexeme _ => mirrors_skip.bind fun _ => ?_
  refine (mirrors_expect (by decide)).bind fun name => (mirrors_accept .equal).bind fun valued => ?_
  have hrest : ∀ init : Expr, Mirrors v (Stmt.moved g)
      (do let _ ← expect .semicolon; return .var first.position name.lexeme init)
      (do let _ ← expect .semicolon
          return .var (g first.position) (name.moved g).lexeme (init.moved g)) :=
    fun init => (mirrors_expect (by decide)).bind fun _ => mirrors_pure rfl
  cases valued with
  | true => exact (mirroredExpr v n).expression.bind hrest
  | false =>
    have hnil : Mirrors v (Expr.moved g) (pure (.nil (.unchecked name.position)))
      (pure (.nil (.unchecked (name.moved g).position))) := mirrors_pure rfl
    exact hnil.bind hrest

theorem mirrors_expressionStatement :
    Mirrors v (Stmt.moved g) (expressionStatement n) (expressionStatement n) := by
  refine (mirroredExpr v n).expression.bind fun value => (mirrors_expect (by decide)).bind fun _ => ?_
  exact mirrors_pure (by rw [Stmt.moved, Expr.position_moved])

theorem mirrors_condition : Mirrors v (Expr.moved g) (condition n) (condition n) :=
  (mirrors_expect (by decide)).bind fun _ => (mirroredExpr v n).expression.bind fun _ =>
    (mirrors_expect (by decide)).bind fun _ => mirrors_pure rfl

/-- The clause before a loop is absent, a variable or an expression, on both sides. -/
theorem mirrors_loopInit : Mirrors v (Stmt.movedOption g) (loopInit n) (loopInit n) := by
  refine .current fun first lexeme _ => ?_
  obtain ⟨kind, -, position⟩ := first
  cases kind with
  | semicolon => exact mirrors_skip.bind fun _ => mirrors_pure rfl
  | varWord => exact (mirrors_varDeclaration n).bind fun _ => mirrors_pure rfl
  | _ => exact (mirrors_expressionStatement n).bind fun _ => mirrors_pure rfl

theorem mirrors_parameterList (count : Nat) :
    Mirrors v id (parameterList n count) (parameterList n count) := by
  induction n generalizing count with
  | zero => exact mirrors_spent
  | succ n ih =>
    unfold parameterList
    split
    · exact .current fun t lexeme _ => mirrors_fail _ _
    · refine (mirrors_expect (by decide)).bind fun param => ?_
      refine (mirrors_accept .comma).branch ?_ (mirrors_pure rfl)
      exact (ih (count + 1)).bind fun rest => mirrors_pure rfl

theorem mirrors_parameters : Mirrors v id (parameters n) (parameters n) := by
  refine (mirrors_expect (by decide)).bind fun _ => ?_
  refine (mirrors_accept .rightParen).branch (mirrors_pure rfl) ?_
  exact (mirrors_parameterList n 0).bind fun _ => (mirrors_expect (by decide)).bind fun _ =>
    mirrors_pure rfl

/-- What the productions of statements do with a budget of `n` steps. -/
structure MirroredStmt (v : View g σ τ) (n : Nat) : Prop where
  statement : ∀ inFunction,
    Mirrors v (Stmt.moved g) (statement inFunction n) (statement inFunction n)
  declaration : ∀ inFunction,
    Mirrors v (Stmt.moved g) (declaration inFunction n) (declaration inFunction n)
  blockBody : ∀ inFunction,
    Mirrors v (Stmt.movedAll g) (blockBody inFunction n) (blockBody inFunction n)

end

namespace MirroredStmt

variable {n : Nat}

theorem mirrors_statement (h : MirroredStmt v n) (inFunction : Bool) :
    Mirrors v (Stmt.moved g) (Parser.statement inFunction (n + 1))
      (Parser.statement inFunction (n + 1)) := by
  have hexpr := (mirroredExpr v n).expression
  refine .current fun first lexeme _ => ?_
  obtain ⟨kind, -, position⟩ := first
  cases kind with
  | printWord =>
    refine mirrors_skip.bind fun _ => hexpr.bind fun value => ?_
    exact (mirrors_expect (by decide)).bind fun _ => mirrors_pure rfl
  | leftBrace =>
    exact mirrors_skip.bind fun _ => (h.blockBody inFunction).bind fun body => mirrors_pure rfl
  | ifWord =>
    refine mirrors_skip.bind fun _ => (mirrors_condition n).bind fun cond => ?_
    refine (h.statement inFunction).bind fun yes => ?_
    refine (mirrors_accept .elseWord).branch ?_ (mirrors_pure rfl)
    exact (h.statement inFunction).bind fun no => mirrors_pure rfl
  | whileWord =>
    refine mirrors_skip.bind fun _ => (mirrors_condition n).bind fun cond => ?_
    exact (h.statement inFunction).bind fun body => mirrors_pure rfl
  | forWord =>
    refine mirrors_skip.bind fun _ => (mirrors_expect (by decide)).bind fun _ => ?_
    refine (mirrors_loopInit n).bind fun init => ?_
    refine (mirrors_optionalExpression n .semicolon).bind fun cond => ?_
    refine (mirrors_expect (by decide)).bind fun _ => ?_
    refine (mirrors_optionalExpression n .rightParen).bind fun increment => ?_
    refine (mirrors_expect (by decide)).bind fun _ => ?_
    exact (h.statement inFunction).bind fun body => mirrors_pure rfl
  | returnWord =>
    cases inFunction with
    | true =>
      refine mirrors_skip.bind fun _ => ?_
      refine (mirrors_optionalExpression n .semicolon).bind fun value => ?_
      exact (mirrors_expect (by decide)).bind fun _ => mirrors_pure rfl
    | false => exact mirrors_fail _ _
  | _ => exact mirrors_expressionStatement n

theorem mirrors_declaration (h : MirroredStmt v n) (inFunction : Bool) :
    Mirrors v (Stmt.moved g) (Parser.declaration inFunction (n + 1))
      (Parser.declaration inFunction (n + 1)) := by
  refine .current fun first lexeme _ => ?_
  obtain ⟨kind, -, position⟩ := first
  cases kind with
  | funWord =>
    refine mirrors_skip.bind fun _ => (mirrors_expect (by decide)).bind fun name => ?_
    refine (mirrors_parameters n).bind fun params => (mirrors_expect (by decide)).bind fun _ => ?_
    exact (h.blockBody true).bind fun body => mirrors_pure rfl
  | varWord => exact mirrors_varDeclaration n
  | _ => exact h.statement inFunction

theorem mirrors_blockBody (h : MirroredStmt v n) (inFunction : Bool) :
    Mirrors v (Stmt.movedAll g) (Parser.blockBody inFunction (n + 1))
      (Parser.blockBody inFunction (n + 1)) := by
  refine (mirrors_accept .rightBrace).branch (mirrors_pure rfl) ?_
  refine .current fun first lexeme _ => ?_
  change Mirrors v _ _ (if first.kind = .endOfFile then _ else _)
  split
  · exact mirrors_fail _ _
  · refine (h.declaration inFunction).bind fun s => ?_
    exact (h.blockBody inFunction).bind fun rest => mirrors_pure rfl

end MirroredStmt

/-- Statements nest in statements with one step less. -/
theorem mirroredStmt (v : View g σ τ) (n : Nat) : MirroredStmt v n := by
  induction n with
  | zero => constructor <;> intros <;> exact mirrors_spent
  | succ n ih => exact ⟨ih.mirrors_statement, ih.mirrors_declaration, ih.mirrors_blockBody⟩

/-- A whole program is read alike through a view. -/
theorem mirrors_program (v : View g σ τ) (n : Nat) :
    Mirrors v (Stmt.movedAll g) (program n) (program n) := by
  induction n with
  | zero => exact mirrors_spent
  | succ n ih =>
    refine (mirrors_sees .endOfFile).branch (mirrors_pure rfl) ?_
    exact ((mirroredStmt v n).declaration false).bind fun s => ih.bind fun rest => mirrors_pure rfl

end Parser

end GradualScript
