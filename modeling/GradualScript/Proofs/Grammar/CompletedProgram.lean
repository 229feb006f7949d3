import GradualScript.Proofs.Grammar.CompletedExpression
import GradualScript.Proofs.Grammar.ParsedProgram

/-!
# Completed programs

The productions of statements, on top of those of expressions. A statement that is still
awaited is completed with an empty block, which leaves no `if` open.
-/
namespace GradualScript

namespace Grammar

variable {inFunction : Bool} {ts : List Token}

/-- The tokens of a statement or declaration. -/
def Forms (inFunction : Bool) (form : Form) (ts : List Token) : Prop :=
  ∃ s, IsStmt inFunction form ts s

/-- An expression in parentheses. -/
def IsCondition (ts : List Token) : Prop :=
  ∃ opening us closing e, ts = opening :: (us ++ [closing]) ∧ opening.kind = .leftParen ∧
    closing.kind = .rightParen ∧ IsExpr .assignment us e

/-- Names that may follow `count` others. -/
def IsParameterList (count : Nat) (ts : List Token) : Prop :=
  ∃ names, names ≠ [] ∧ count + names.length ≤ maxArity ∧ IsParameters ts names

/-- Names in parentheses. -/
def IsParametersClosed (ts : List Token) : Prop :=
  ∃ names opening us closing, ts = opening :: (us ++ [closing]) ∧ opening.kind = .leftParen ∧
    closing.kind = .rightParen ∧ names.length ≤ maxArity ∧ IsParameters us names

/-- Declarations and the brace after them. -/
def IsBlockRest (inFunction : Bool) (ts : List Token) : Prop :=
  ∃ us closing ss, ts = us ++ [closing] ∧ closing.kind = .rightBrace ∧ IsBody inFunction us ss

/-- The condition `(nil)`, for a head that was left without one. -/
theorem isCondition_nil {opening closing : Token} (hopening : opening.kind = .leftParen)
    (hclosing : closing.kind = .rightParen) :
    IsCondition (opening :: (fill [.nilWord] ++ [closing])) :=
  ⟨opening, _, closing, _, rfl, hopening, hclosing,
    .assignment_of_primary (.literal (.nilWord rfl))⟩

/-- The shortest statement. -/
theorem isStmt_emptyBlock (inFunction : Bool) :
    IsStmt inFunction .statement (fill [.leftBrace, .rightBrace]) (.block .start []) :=
  @IsStmt.block _ _ _ [] (filler_kind .leftBrace) (filler_kind .rightBrace) nofun

theorem IsParameterList.single {count : Nat} {t : Token} (hcount : count < maxArity)
    (ht : t.kind = .identifier) : IsParameterList count [t] :=
  ⟨[t.lexeme], nofun, hcount, [t], by simpa using ht, .single [t], rfl⟩

/-- A name and a comma in front leave room for one parameter less. -/
theorem IsParameterList.cons {count : Nat} {t comma : Token} {us : List Token}
    (ht : t.kind = .identifier) (hcomma : comma.kind = .comma)
    (hus : IsParameterList (count + 1) us) :
    IsParameterList count (t :: comma :: us) := by
  obtain ⟨names, hne, hlength, params, hall, hsep, rfl⟩ := hus
  obtain ⟨next, params, rfl⟩ := List.exists_cons_of_ne_nil (by simpa using hne : params ≠ [])
  refine ⟨(t :: next :: params).map Token.lexeme, nofun, ?_, t :: next :: params,
    List.forall_mem_cons.mpr ⟨ht, hall⟩, .cons hcomma hsep, rfl⟩
  simp only [List.length_map, List.length_cons] at hlength ⊢
  omega

theorem IsParameterList.closed {opening closing : Token} (h : IsParameterList 0 ts)
    (hopening : opening.kind = .leftParen) (hclosing : closing.kind = .rightParen) :
    IsParametersClosed (opening :: (ts ++ [closing])) := by
  obtain ⟨names, -, hlength, hnames⟩ := h
  exact ⟨names, opening, ts, closing, rfl, hopening, hclosing, by omega, hnames⟩

theorem isParametersClosed_none {opening closing : Token} (hopening : opening.kind = .leftParen)
    (hclosing : closing.kind = .rightParen) : IsParametersClosed [opening, closing] :=
  ⟨[], opening, [], closing, rfl, hopening, hclosing, Nat.zero_le _, [], nofun, .nil, rfl⟩

/-- A declaration before what finishes a block. -/
theorem IsBlockRest.cons {us : List Token} (hts : Forms inFunction .declaration ts)
    (hus : IsBlockRest inFunction us) : IsBlockRest inFunction (ts ++ us) := by
  obtain ⟨s, hs⟩ := hts
  obtain ⟨vs, closing, ss, rfl, hclosing, hss⟩ := hus
  exact ⟨ts ++ vs, closing, s :: ss, by simp, hclosing, .cons hs hss⟩

theorem isBlockRest_empty {closing : Token} (h : closing.kind = .rightBrace) :
    IsBlockRest inFunction [closing] := ⟨[], closing, [], rfl, h, .nil inFunction⟩

/-- An opening brace makes a statement of what finishes its block. -/
theorem IsBlockRest.block {opening : Token} (h : opening.kind = .leftBrace)
    (hts : IsBlockRest inFunction ts) : Forms inFunction .statement (opening :: ts) := by
  obtain ⟨us, closing, ss, rfl, hclosing, parts, hall, rfl, rfl⟩ := hts
  exact ⟨_, .block h hclosing hall⟩

theorem IsCondition.ifThen {word : Token} {ys : List Token} (hword : word.kind = .ifWord)
    (hts : IsCondition ts) (hys : Forms inFunction .statement ys) :
    Forms inFunction .statement (word :: (ts ++ ys)) := by
  obtain ⟨opening, us, closing, e, rfl, hopening, hclosing, he⟩ := hts
  obtain ⟨yes, hyes⟩ := hys
  exact ⟨_, by simpa using IsStmt.ifThen hword hopening hclosing he hyes⟩

theorem IsCondition.whileLoop {word : Token} {bs : List Token} (hword : word.kind = .whileWord)
    (hts : IsCondition ts) (hbs : Forms inFunction .statement bs) :
    Forms inFunction .statement (word :: (ts ++ bs)) := by
  obtain ⟨opening, us, closing, e, rfl, hopening, hclosing, he⟩ := hts
  obtain ⟨body, hbody⟩ := hbs
  exact ⟨_, by simpa using IsStmt.whileLoop hword hopening hclosing he hbody⟩

/-- The clauses of a loop head, each of which may have been completed. -/
theorem forms_forLoop {word opening semicolon closing : Token} {is cs ns bs : List Token}
    (hword : word.kind = .forWord) (hopening : opening.kind = .leftParen)
    (hsemicolon : semicolon.kind = .semicolon) (hclosing : closing.kind = .rightParen)
    (hi : ∃ init, IsInit is init) (hc : ∃ cond, IsClause cs cond)
    (hn : ∃ increment, IsClause ns increment) (hb : Forms inFunction .statement bs) :
    Forms inFunction .statement
      (word :: opening :: (is ++ (cs ++ semicolon :: (ns ++ closing :: bs)))) := by
  obtain ⟨init, hi⟩ := hi
  obtain ⟨cond, hc⟩ := hc
  obtain ⟨increment, hn⟩ := hn
  obtain ⟨body, hb⟩ := hb
  exact ⟨_, .forLoop hword hopening hsemicolon hclosing hi hc hn hb⟩

theorem IsParametersClosed.function {word name brace : Token} {us : List Token}
    (hword : word.kind = .funWord) (hname : name.kind = .identifier) (hts : IsParametersClosed ts)
    (hbrace : brace.kind = .leftBrace) (hus : IsBlockRest true us) :
    Forms inFunction .declaration (word :: name :: (ts ++ brace :: us)) := by
  obtain ⟨names, opening, ps, closing, rfl, hopening, hclosing, hlength, hnames⟩ := hts
  obtain ⟨params, hparams, hsep, rfl⟩ := hnames
  obtain ⟨vs, last, ss, rfl, hlast, parts, hall, rfl, rfl⟩ := hus
  have h := @IsStmt.function inFunction _ _ _ _ _ _ _ _ _ hword hname hopening hclosing hbrace hlast
    hparams (by simpa using hlength) hsep hall
  exact ⟨_, by simpa using h⟩

end Grammar

namespace Parser

open Grammar

variable {β : Type} {H : List Token → Prop} {before : List Token}

/-- An expression and the token after it. -/
theorem completable_closed {n : Nat} {kind : TokenKind} {f : Expr → Token → β} {s : Stream}
    (kinds : List TokenKind) (hkinds : Seen (kind :: kinds))
    (hH : ∀ ts e, IsExpr .assignment ts e → H (before ++ (ts ++ fill (kind :: kinds)))) :
    Completable H before s
      ((do let e ← expression n; let t ← expect kind; return f e t : Parser Stream β) s) := by
  have hvalue : Completable H before s (expression n s) :=
    ((completesExpr n).expression s).within (kind :: kinds) hkinds fun ts ⟨e, he⟩ => hH ts e he
  refine hvalue.reads (readsExpr n).expression fun e s₁ ts hts => ?_
  have hkind := (hkinds kind List.mem_cons_self).1
  refine .expect hkind (viable_of (kind :: kinds) hkinds ?_) fun _ _ _ => completable_pure _
  simpa using hH ts e hts

variable (n : Nat) (s : Stream)

theorem completable_optionalExpression (stop : TokenKind) :
    Completable (fun ts => ∃ e, IsClause ts e) [] s (optionalExpression n stop s) := by
  refine .sees (completable_pure none) ?_
  have hvalue : Completable (fun ts => ∃ e, IsClause ts e) [] s (expression n s) :=
    ((completesExpr n).expression s).imp fun _ ⟨e, he⟩ => ⟨some e, .present he⟩
  exact hvalue.reads (readsExpr n).expression fun e _ _ _ => completable_pure (some e)

theorem completable_varDeclaration (hk : s.current.kind = .varWord) :
    Completable (fun ts => ∃ st, IsVar ts st) [] s (varDeclaration n s) := by
  refine .current (.skip (by rw [hk]; decide) ?_)
  refine .expect (by decide) (viable_of [.identifier, .semicolon] (by decide) ?_)
    fun name s₂ hname => ?_
  · exact ⟨_, .bare hk rfl rfl⟩
  refine .accept (by decide) (fun heq => ?_) ?_
  · exact completable_closed [] (by decide) fun ts e he =>
      ⟨_, by simpa using IsVar.valued hk hname heq (filler_kind .semicolon) he⟩
  · refine .bind (completable_pure _) fun init s₃ hinit => ?_
    obtain ⟨-, rfl⟩ := pure_eq_done.mp hinit
    refine ⟨[], rfl, .expect (by decide) (viable_of [.semicolon] (by decide) ?_) ?_⟩
    · exact ⟨_, .bare hk hname rfl⟩
    · exact fun _ _ _ => completable_pure _

theorem completable_expressionStatement :
    Completable (fun ts => ∃ st, IsExprStmt ts st) [] s (expressionStatement n s) :=
  completable_closed [] (by decide) fun _ _ he => ⟨_, .mk rfl he⟩

/-- A condition is completed by an expression and its closing parenthesis. -/
theorem completable_condition : Completable IsCondition [] s (condition n s) := by
  refine .expect (by decide) (viable_of [.leftParen, .nilWord, .rightParen] (by decide)
    (isCondition_nil rfl rfl)) fun opening s₁ hopening => ?_
  exact completable_closed [] (by decide) fun ts e he => ⟨opening, ts, _, e, rfl, hopening, rfl, he⟩

theorem completable_loopInit :
    Completable (fun ts => ∃ init, IsInit ts init) [] s (loopInit n s) := by
  refine .current ?_
  generalize hfirst : s.current = first
  obtain ⟨kind, lexeme, position⟩ := first
  have hkind : s.current.kind = kind := congrArg Token.kind hfirst
  have hexpression : Completable (fun ts => ∃ init, IsInit ts init) [] s
      ((do let init ← expressionStatement n; return some init : Parser Stream (Option Stmt)) s) := by
    have hinit : Completable (fun ts => ∃ init, IsInit ts init) [] s (expressionStatement n s) :=
      (completable_expressionStatement n s).imp fun _ ⟨st, hst⟩ => ⟨some st, .expression hst⟩
    exact hinit.reads (reads_expressionStatement n) fun init _ _ _ => completable_pure (some init)
  cases kind with
  | semicolon => exact .skip (by rw [hkind]; decide) (completable_pure none)
  | varWord =>
    have hinit : Completable (fun ts => ∃ init, IsInit ts init) [] s (varDeclaration n s) :=
      (completable_varDeclaration n s hkind).imp fun _ ⟨st, hst⟩ => ⟨some st, .var hst⟩
    exact hinit.bind fun init rest hdone =>
      let ⟨ts, hts, _⟩ := reads_varDeclaration hkind hdone
      ⟨ts, hts, completable_pure (some init)⟩
  | _ => exact hexpression

theorem completable_parameterList (count : Nat) :
    Completable (IsParameterList count) [] s (parameterList n count s) := by
  induction n generalizing count s with
  | zero => exact completable_spent
  | succ n ih =>
    unfold parameterList
    split
    · exact .current (completable_fail rfl)
    next hcount =>
    have hcount := Nat.lt_of_not_le hcount
    refine .expect (by decide) (viable_of [.identifier] (by decide) (.single hcount rfl))
      fun param s₁ hparam => ?_
    refine .accept (by decide) (fun hcomma => ?_) (completable_pure [param.lexeme])
    have hmore : Completable (IsParameterList count) ([] ++ [param] ++ [s₁.current]) s₁.next
        (parameterList n (count + 1) s₁.next) :=
      (ih _ (count + 1)).within [] (by decide) fun us hus => by
        simpa using IsParameterList.cons hparam hcomma hus
    exact hmore.reads (reads_parameterList n (count + 1)) fun more _ _ _ =>
      completable_pure (param.lexeme :: more)

theorem completable_parameters : Completable IsParametersClosed [] s (parameters n s) := by
  refine .expect (by decide) (viable_of [.leftParen, .rightParen] (by decide)
    (isParametersClosed_none rfl rfl)) fun opening s₁ hopening => ?_
  refine .accept (by decide) (fun _ => completable_pure []) ?_
  have hparams : Completable IsParametersClosed ([] ++ [opening]) s₁ (parameterList n 0 s₁) :=
    (completable_parameterList n s₁ 0).within [.rightParen] (by decide) fun ts hts =>
      hts.closed hopening rfl
  refine hparams.reads (reads_parameterList n 0) fun params s₂ ts hts => ?_
  refine .expect (by decide) (viable_of [.rightParen] (by decide) ?_)
    fun _ _ _ => completable_pure params
  simpa using IsParameterList.closed ⟨params, hts⟩ hopening rfl

/-- The productions of statements complete what they read, with `n` steps. -/
structure CompletesStmt (n : Nat) : Prop where
  statement : ∀ inFunction s,
    Completable (Forms inFunction .statement) [] s (statement inFunction n s)
  declaration : ∀ inFunction s,
    Completable (Forms inFunction .declaration) [] s (declaration inFunction n s)
  blockBody : ∀ inFunction s, Completable (IsBlockRest inFunction) [] s (blockBody inFunction n s)

namespace CompletesStmt

variable {n : Nat} (ih : CompletesStmt n) (inFunction : Bool) (s : Stream)
include ih

/-- A head without a branch is completed by an empty block. -/
theorem completable_ifElse (hk : s.current.kind = .ifWord) (position : Position) :
    Completable (Forms inFunction .statement) [] s ((do
      skip
      let cond ← condition n
      let yes ← Parser.statement inFunction n
      if ← accept .elseWord then
        let no ← Parser.statement inFunction n
        return .ifElse position cond yes (some no)
      else return .ifElse position cond yes none : Parser Stream Stmt) s) := by
  refine .skip (by rw [hk]; decide) ?_
  have hcond : Completable (Forms inFunction .statement) ([] ++ [s.current]) s.next
      (condition n s.next) :=
    (completable_condition n _).within [.leftBrace, .rightBrace] (by decide) fun ts hts => by
      simpa using hts.ifThen hk ⟨_, isStmt_emptyBlock inFunction⟩
  refine hcond.reads (reads_condition n) fun c s₁ _ hc => ?_
  obtain ⟨opening, cs, closing, rfl, hopening, hclosing, hc⟩ := hc
  have hyes : Completable (Forms inFunction .statement)
      ([] ++ [s.current] ++ opening :: (cs ++ [closing])) s₁ (Parser.statement inFunction n s₁) :=
    (ih.statement inFunction s₁).within [] (by decide) fun ys ⟨yes, hyes⟩ =>
      ⟨_, by simpa using IsStmt.ifThen hk hopening hclosing hc hyes⟩
  refine hyes.bind fun yes s₂ hdone => ?_
  obtain ⟨ys, rfl, hy, hopen⟩ := (readsStmt n).statement inFunction hdone
  refine ⟨ys, rfl, .accept (by decide) (fun hother => ?_) (completable_pure _)⟩
  -- an `if` that is open would have taken the `else`
  have hclosed : endsOpen yes = false := Bool.eq_false_iff.mpr fun htrue => hopen htrue hother
  have hno : Completable (Forms inFunction .statement)
      ([] ++ [s.current] ++ opening :: (cs ++ [closing]) ++ ys ++ [s₂.current]) s₂.next
      (Parser.statement inFunction n s₂.next) :=
    (ih.statement inFunction _).within [] (by decide) fun ns ⟨no, hno⟩ =>
      ⟨_, by simpa using IsStmt.ifElse hk hopening hclosing hother hc hy hclosed hno⟩
  exact hno.bind fun no s₃ hdone =>
    let ⟨ns, hns, _⟩ := (readsStmt n).statement inFunction hdone
    ⟨ns, hns, completable_pure _⟩

theorem completable_whileLoop (hk : s.current.kind = .whileWord) (position : Position) :
    Completable (Forms inFunction .statement) [] s ((do
      skip
      let cond ← condition n
      let body ← Parser.statement inFunction n
      return .whileLoop position cond body : Parser Stream Stmt) s) := by
  refine .skip (by rw [hk]; decide) ?_
  have hcond : Completable (Forms inFunction .statement) ([] ++ [s.current]) s.next
      (condition n s.next) :=
    (completable_condition n _).within [.leftBrace, .rightBrace] (by decide) fun ts hts => by
      simpa using hts.whileLoop hk ⟨_, isStmt_emptyBlock inFunction⟩
  refine hcond.reads (reads_condition n) fun c s₁ _ hc => ?_
  obtain ⟨opening, cs, closing, rfl, hopening, hclosing, hc⟩ := hc
  have hbody : Completable (Forms inFunction .statement)
      ([] ++ [s.current] ++ opening :: (cs ++ [closing])) s₁ (Parser.statement inFunction n s₁) :=
    (ih.statement inFunction s₁).within [] (by decide) fun bs ⟨body, hbody⟩ =>
      ⟨_, by simpa using IsStmt.whileLoop hk hopening hclosing hc hbody⟩
  exact hbody.bind fun body s₂ hdone =>
    let ⟨bs, hbs, _⟩ := (readsStmt n).statement inFunction hdone
    ⟨bs, hbs, completable_pure _⟩

/-- Clause by clause, with the shortest rest of a loop after each. -/
theorem completable_forLoop (hk : s.current.kind = .forWord) (position : Position) :
    Completable (Forms inFunction .statement) [] s ((do
      skip
      let _ ← expect .leftParen
      let init ← loopInit n
      let cond ← optionalExpression n .semicolon
      let _ ← expect .semicolon
      let increment ← optionalExpression n .rightParen
      let _ ← expect .rightParen
      let body ← Parser.statement inFunction n
      return .forLoop position init cond increment body : Parser Stream Stmt) s) := by
  refine .skip (by rw [hk]; decide) ?_
  have hsemi := filler_kind .semicolon
  have hclose := filler_kind .rightParen
  have hnone : ∃ e, IsClause [] e := ⟨none, .absent⟩
  have hempty : Forms inFunction .statement (fill [.leftBrace, .rightBrace]) :=
    ⟨_, isStmt_emptyBlock inFunction⟩
  refine .expect (by decide) (viable_of [.leftParen, .semicolon, .semicolon, .rightParen,
    .leftBrace, .rightBrace] (by decide) ?_) fun opening s₁ hopening => ?_
  · exact forms_forLoop hk rfl hsemi hclose ⟨none, .absent hsemi⟩ hnone hnone hempty
  have hinit : Completable (Forms inFunction .statement) ([] ++ [s.current] ++ [opening]) s₁
      (loopInit n s₁) :=
    (completable_loopInit n s₁).within [.semicolon, .rightParen, .leftBrace, .rightBrace]
      (by decide) fun is hi => by simpa using forms_forLoop hk hopening hsemi hclose hi hnone hnone hempty
  refine hinit.reads (reads_loopInit n) fun init s₂ is hi => ?_
  have hi : ∃ init, IsInit is init := ⟨init, hi⟩
  have hcond : Completable (Forms inFunction .statement) ([] ++ [s.current] ++ [opening] ++ is) s₂
      (optionalExpression n .semicolon s₂) :=
    (completable_optionalExpression n s₂ _).within
      [.semicolon, .rightParen, .leftBrace, .rightBrace] (by decide) fun cs hc => by
        simpa using forms_forLoop hk hopening hsemi hclose hi hc hnone hempty
  refine hcond.reads (reads_optionalExpression n _) fun cond s₃ cs hc => ?_
  have hc : ∃ cond, IsClause cs cond := ⟨cond, hc⟩
  refine .expect (by decide) (viable_of [.semicolon, .rightParen, .leftBrace, .rightBrace]
    (by decide) ?_) fun semicolon s₄ hsemicolon => ?_
  · simpa using forms_forLoop hk hopening hsemi hclose hi hc hnone hempty
  have hincrement : Completable (Forms inFunction .statement)
      ([] ++ [s.current] ++ [opening] ++ is ++ cs ++ [semicolon]) s₄
      (optionalExpression n .rightParen s₄) :=
    (completable_optionalExpression n s₄ _).within [.rightParen, .leftBrace, .rightBrace]
      (by decide) fun ns hn => by
        simpa using forms_forLoop hk hopening hsemicolon hclose hi hc hn hempty
  refine hincrement.reads (reads_optionalExpression n _) fun increment s₅ ns hn => ?_
  have hn : ∃ increment, IsClause ns increment := ⟨increment, hn⟩
  refine .expect (by decide) (viable_of [.rightParen, .leftBrace, .rightBrace] (by decide) ?_)
    fun closing s₆ hclosing => ?_
  · simpa using forms_forLoop hk hopening hsemicolon hclose hi hc hn hempty
  have hbody : Completable (Forms inFunction .statement)
      ([] ++ [s.current] ++ [opening] ++ is ++ cs ++ [semicolon] ++ ns ++ [closing]) s₆
      (Parser.statement inFunction n s₆) :=
    (ih.statement inFunction s₆).within [] (by decide) fun bs hb => by
      simpa using forms_forLoop hk hopening hsemicolon hclosing hi hc hn hb
  exact hbody.bind fun body s₇ hdone =>
    let ⟨bs, hbs, _⟩ := (readsStmt n).statement inFunction hdone
    ⟨bs, hbs, completable_pure _⟩

theorem completable_statement :
    Completable (Forms inFunction .statement) [] s (Parser.statement inFunction (n + 1) s) := by
  refine .current ?_
  generalize hfirst : s.current = first
  obtain ⟨kind, lexeme, position⟩ := first
  have hkind : s.current.kind = kind := congrArg Token.kind hfirst
  have hexpression : Completable (Forms inFunction .statement) [] s (expressionStatement n s) :=
    (completable_expressionStatement n s).imp fun _ => Exists.imp fun _ => .expression
  cases kind with
  | printWord =>
    refine .skip (by rw [hkind]; decide) (completable_closed [] (by decide) fun ts e he => ?_)
    exact ⟨_, .print hkind rfl he⟩
  | leftBrace =>
    refine .skip (by rw [hkind]; decide) ?_
    have hbody : Completable (Forms inFunction .statement) [s.current] s.next
        (Parser.blockBody inFunction n s.next) :=
      (ih.blockBody inFunction _).within [] (by decide) fun ts hts => by
        simpa using hts.block hkind
    exact hbody.reads ((readsStmt n).blockBody inFunction) fun body _ _ _ => completable_pure _
  | ifWord => exact ih.completable_ifElse inFunction s hkind position
  | whileWord => exact ih.completable_whileLoop inFunction s hkind position
  | forWord => exact ih.completable_forLoop inFunction s hkind position
  | returnWord =>
    cases inFunction with
    | false => exact completable_fail rfl
    | true =>
      refine .skip (by rw [hkind]; decide) ?_
      have hvalue : Completable (Forms true .statement) [s.current] s.next
          (optionalExpression n .semicolon s.next) :=
        (completable_optionalExpression n _ _).within [.semicolon] (by decide) fun ts ⟨e, he⟩ =>
          ⟨_, .ret hkind rfl he⟩
      refine hvalue.reads (reads_optionalExpression n _) fun value s₁ ts hts => ?_
      refine .expect (by decide) (viable_of [.semicolon] (by decide) ?_)
        fun _ _ _ => completable_pure _
      exact ⟨_, by simpa using IsStmt.ret hkind rfl hts⟩
  | _ => exact hexpression

theorem completable_declaration :
    Completable (Forms inFunction .declaration) [] s (Parser.declaration inFunction (n + 1) s) := by
  refine .current ?_
  generalize hfirst : s.current = first
  obtain ⟨kind, lexeme, position⟩ := first
  have hkind : s.current.kind = kind := congrArg Token.kind hfirst
  have hstatement : Completable (Forms inFunction .declaration) [] s
      (Parser.statement inFunction n s) :=
    (ih.statement inFunction s).imp fun _ => Exists.imp fun _ => .statement
  cases kind with
  | funWord =>
    refine .skip (by rw [hkind]; decide) ?_
    have hempty : IsBlockRest true (fill [.rightBrace]) := isBlockRest_empty rfl
    refine .expect (by decide) (viable_of [.identifier, .leftParen, .rightParen, .leftBrace,
      .rightBrace] (by decide) ?_) fun name s₁ hname => ?_
    · exact (isParametersClosed_none rfl rfl).function hkind rfl rfl hempty
    have hparams : Completable (Forms inFunction .declaration) ([] ++ [s.current] ++ [name]) s₁
        (parameters n s₁) :=
      (completable_parameters n s₁).within [.leftBrace, .rightBrace] (by decide) fun ts hts => by
        simpa using hts.function hkind hname rfl hempty
    refine hparams.reads (reads_parameters n) fun names s₂ ts hts => ?_
    have hts : IsParametersClosed ts := ⟨names, hts⟩
    refine .expect (by decide) (viable_of [.leftBrace, .rightBrace] (by decide) ?_)
      fun brace s₃ hbrace => ?_
    · simpa using hts.function hkind hname rfl hempty
    have hbody : Completable (Forms inFunction .declaration)
        ([] ++ [s.current] ++ [name] ++ ts ++ [brace]) s₃ (Parser.blockBody true n s₃) :=
      (ih.blockBody true s₃).within [] (by decide) fun us hus => by
        simpa using hts.function hkind hname hbrace hus
    exact hbody.reads ((readsStmt n).blockBody true) fun body _ _ _ => completable_pure _
  | varWord =>
    exact (completable_varDeclaration n s hkind).imp fun _ => Exists.imp fun _ => .var
  | _ => exact hstatement

theorem completable_blockBody :
    Completable (IsBlockRest inFunction) [] s (Parser.blockBody inFunction (n + 1) s) := by
  refine .accept (by decide) (fun _ => completable_pure []) (.current ?_)
  have hempty : IsBlockRest inFunction (fill [.rightBrace]) := isBlockRest_empty rfl
  split
  · exact completable_here (viable_of [.rightBrace] (by decide) hempty)
  have hfirst : Completable (IsBlockRest inFunction) [] s (Parser.declaration inFunction n s) :=
    (ih.declaration inFunction s).within [.rightBrace] (by decide) fun ts hts => by
      simpa using hempty.cons hts
  refine hfirst.reads ((readsStmt n).declaration inFunction) fun first s₁ ts hts => ?_
  have hmore : Completable (IsBlockRest inFunction) ([] ++ ts) s₁
      (Parser.blockBody inFunction n s₁) :=
    (ih.blockBody inFunction s₁).within [] (by decide) fun us hus => by
      simpa using hus.cons ⟨first, hts⟩
  exact hmore.reads ((readsStmt n).blockBody inFunction) fun more _ _ _ =>
    completable_pure (first :: more)

end CompletesStmt

/-- By induction on the budget. -/
theorem completesStmt (n : Nat) : CompletesStmt n := by
  induction n with
  | zero => constructor <;> intros <;> exact completable_spent
  | succ n ih =>
    exact ⟨ih.completable_statement, ih.completable_declaration, ih.completable_blockBody⟩

/-- A program that fails for want of a token can be completed after those that it took. -/
theorem completable_program (n : Nat) (s : Stream) :
    Completable (fun ts => ∃ p, IsProgram ts p) [] s (program n s) := by
  induction n generalizing s with
  | zero => exact completable_spent
  | succ n ih =>
    refine .sees (completable_pure []) ?_
    have hfirst : Completable (fun ts => ∃ p, IsProgram ts p) [] s (declaration false n s) :=
      ((completesStmt n).declaration false s).imp fun ts ⟨st, hst⟩ =>
        ⟨[st], [(ts, st)], by simpa using hst, by simp, rfl⟩
    refine hfirst.reads ((readsStmt n).declaration false) fun first s₁ ts hts => ?_
    have hmore : Completable (fun ts => ∃ p, IsProgram ts p) ([] ++ ts) s₁ (program n s₁) :=
      (ih s₁).within [] (by decide) fun us ⟨p, hp⟩ =>
        ⟨first :: p, by simpa [IsProgram] using IsBody.cons hts hp⟩
    exact hmore.bind fun more s₂ hdone =>
      let ⟨us, hus, _⟩ := reads_program n hdone
      ⟨us, hus, completable_pure (first :: more)⟩

end Parser

end GradualScript
