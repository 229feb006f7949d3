import GradualScript.Proofs.Grammar.ParsedExpression

/-!
# Parsed programs are derived

The productions of statements, on top of those of expressions. A statement that ends
with an `if` without `else` is only done where no `else` follows: that is what makes
an `else` belong to the nearest `if`.
-/
namespace GradualScript.Grammar

open GradualScript.Parser

theorem IsBody.nil (inFunction : Bool) : IsBody inFunction [] [] := ⟨[], by simp, rfl, rfl⟩

/-- A statement in front of a body makes a longer body. -/
theorem IsBody.cons {inFunction : Bool} {ts us : List Token} {s : Stmt} {ss : List Stmt}
    (hs : IsStmt inFunction .declaration ts s) (hss : IsBody inFunction us ss) :
    IsBody inFunction (ts ++ us) (s :: ss) := by
  obtain ⟨parts, hall, rfl, rfl⟩ := hss
  exact ⟨(ts, s) :: parts, List.forall_mem_cons.mpr ⟨hs, hall⟩, rfl, rfl⟩

theorem reads_optionalExpression (n : Nat) (stop : TokenKind) :
    Reads (optionalExpression n stop) IsClause := by
  intro s e rest h
  obtain ⟨_, s₁, hsees, h₁⟩ := bind_eq_done.mp h
  obtain ⟨rfl, rfl⟩ := sees_eq_done.mp hsees
  split at h₁
  · obtain ⟨rfl, rfl⟩ := pure_eq_done.mp h₁
    exact ⟨[], rfl, .absent⟩
  · obtain ⟨value, s₂, hvalue, h₂⟩ := bind_eq_done.mp h₁
    obtain ⟨ts, rfl, hv⟩ := (readsExpr n).expression hvalue
    obtain ⟨rfl, rfl⟩ := pure_eq_done.mp h₂
    exact ⟨ts, rfl, .present hv⟩

/-- An expression and the token after it, which must be of a kind. -/
theorem reads_closed {n : Nat} {kind : TokenKind} {β : Type} {f : Expr → Token → β}
    {s rest : Stream} {b : β} (hkind : kind ≠ .endOfFile)
    (h : (do let e ← expression n; let t ← expect kind; return f e t : Parser Stream β) s = .done b rest) :
    ∃ ts t e, s = rest.prepend (ts ++ [t]) ∧ t.kind = kind ∧ IsExpr .assignment ts e ∧ b = f e t := by
  obtain ⟨e, s₁, he, h₁⟩ := bind_eq_done.mp h
  obtain ⟨ts, rfl, hts⟩ := (readsExpr n).expression he
  obtain ⟨t, s₂, ht, h₂⟩ := bind_eq_done.mp h₁
  obtain ⟨hk, rfl, rfl⟩ := expect_eq_done.mp ht
  obtain ⟨rfl, rfl⟩ := pure_eq_done.mp h₂
  refine ⟨ts, s₁.current, e, ?_, hk, hts, rfl⟩
  rw [← Stream.prepend_prepend, ← front hk hkind]

/-- An expression and a semicolon. -/
theorem reads_expressionStatement (n : Nat) : Reads (expressionStatement n) IsExprStmt := by
  intro s st rest h
  obtain ⟨ts, t, e, rfl, hk, he, rfl⟩ := reads_closed (by decide) h
  rw [he.position_eq]
  exact ⟨_, rfl, .mk hk he⟩

theorem reads_condition (n : Nat) : Reads (condition n) fun ts e =>
    ∃ opening us closing, ts = opening :: (us ++ [closing]) ∧ opening.kind = .leftParen ∧
      closing.kind = .rightParen ∧ IsExpr .assignment us e := by
  intro s e rest h
  obtain ⟨opening, s₁, hopen, h₁⟩ := bind_eq_done.mp h
  obtain ⟨hk, rfl, rfl⟩ := expect_eq_done.mp hopen
  obtain ⟨us, closing, e, hs, hc, he, rfl⟩ := reads_closed (by decide) h₁
  refine ⟨s.current :: (us ++ [closing]), ?_, _, us, closing, rfl, hk, hc, he⟩
  rw [front hk, hs]
  simp

/-- A variable declaration, once its word is known to stand in front. -/
theorem reads_varDeclaration {n : Nat} {s rest : Stream} {st : Stmt}
    (hk : s.current.kind = .varWord) (h : varDeclaration n s = .done st rest) :
    ∃ ts, s = rest.prepend ts ∧ IsVar ts st := by
  obtain ⟨_, _, hfirst, h₁⟩ := bind_eq_done.mp h
  obtain ⟨rfl, rfl⟩ := current_eq_done.mp hfirst
  obtain ⟨_, s₁, hskip, h₂⟩ := bind_eq_done.mp h₁
  obtain rfl := skip_eq_done.mp hskip
  obtain ⟨name, s₂, hname, h₃⟩ := bind_eq_done.mp h₂
  obtain ⟨hn, rfl, rfl⟩ := expect_eq_done.mp hname
  obtain ⟨_, s₃, haccept, h₄⟩ := bind_eq_done.mp h₃
  obtain ⟨rfl, he, rfl⟩ | ⟨rfl, -, rfl⟩ := accept_eq_done.mp haccept
  · obtain ⟨ts, t, e, hs, ht, hts, rfl⟩ := reads_closed (by decide) h₄
    refine ⟨_, ?_, .valued hk hn he ht hts⟩
    rw [front hk, front hn, front he, hs]
    simp
  · obtain ⟨_, s₄, hinit, h₅⟩ := bind_eq_done.mp h₄
    obtain ⟨rfl, rfl⟩ := pure_eq_done.mp hinit
    obtain ⟨t, s₅, hsemi, h₆⟩ := bind_eq_done.mp h₅
    obtain ⟨ht, rfl, rfl⟩ := expect_eq_done.mp hsemi
    obtain ⟨rfl, rfl⟩ := pure_eq_done.mp h₆
    refine ⟨_, ?_, .bare hk hn ht⟩
    rw [front hk, front hn, front ht]
    simp

/-- The first clause of a loop takes its semicolon along. -/
theorem reads_loopInit (n : Nat) : Reads (loopInit n) IsInit := by
  intro s init rest h
  obtain ⟨first, _, hfirst, h₁⟩ := bind_eq_done.mp h
  obtain ⟨hcur, rfl⟩ := current_eq_done.mp hfirst
  obtain ⟨kind, lexeme, position⟩ := first
  have hcur : s.current.kind = kind := by rw [hcur]
  dsimp only at h₁
  split at h₁
  · obtain ⟨_, s₁, hskip, h₂⟩ := bind_eq_done.mp h₁
    obtain rfl := skip_eq_done.mp hskip
    obtain ⟨rfl, rfl⟩ := pure_eq_done.mp h₂
    exact ⟨_, front hcur, .absent hcur⟩
  · obtain ⟨st, s₁, hvar, h₂⟩ := bind_eq_done.mp h₁
    obtain ⟨ts, rfl, hts⟩ := reads_varDeclaration hcur hvar
    obtain ⟨rfl, rfl⟩ := pure_eq_done.mp h₂
    exact ⟨ts, rfl, .var hts⟩
  · obtain ⟨st, s₁, hst, h₂⟩ := bind_eq_done.mp h₁
    obtain ⟨ts, rfl, hts⟩ := reads_expressionStatement n hst
    obtain ⟨rfl, rfl⟩ := pure_eq_done.mp h₂
    exact ⟨ts, rfl, .expression hts⟩

/-- Names with commas between them. -/
def IsParameters (ts : List Token) (names : List String) : Prop :=
  ∃ params : List Token, (∀ param ∈ params, param.kind = .identifier) ∧
    CommaSeparated (params.map ([·])) ts ∧ names = params.map Token.lexeme

/-- Together with the `count` parameters that have been read before, they are not too many. -/
theorem reads_parameterList (n count : Nat) : Reads (parameterList n count) fun ts names =>
    names ≠ [] ∧ count + names.length ≤ maxArity ∧ IsParameters ts names := by
  induction n generalizing count with
  | zero => exact reads_spent
  | succ n ih =>
    intro s names rest h
    unfold parameterList at h
    split at h
    · obtain ⟨_, _, -, h₁⟩ := bind_eq_done.mp h
      exact absurd h₁ fail_ne_done
    next hlt =>
    obtain ⟨param, s₁, hparam, h₁⟩ := bind_eq_done.mp h
    obtain ⟨hp, rfl, rfl⟩ := expect_eq_done.mp hparam
    obtain ⟨_, s₂, haccept, h₂⟩ := bind_eq_done.mp h₁
    obtain ⟨rfl, hk, rfl⟩ | ⟨rfl, -, rfl⟩ := accept_eq_done.mp haccept
    · obtain ⟨more, s₃, hmore, h₃⟩ := bind_eq_done.mp h₂
      obtain ⟨us, hs, hne, hlen, params, hall, hsep, rfl⟩ := ih (count + 1) hmore
      obtain ⟨rfl, rfl⟩ := pure_eq_done.mp h₃
      obtain ⟨next, params, rfl⟩ := List.exists_cons_of_ne_nil (by simpa using hne : params ≠ [])
      refine ⟨s.current :: s.next.current :: us, ?_, by simp, ?_, s.current :: next :: params,
        List.forall_mem_cons.mpr ⟨hp, hall⟩, .cons hk hsep, rfl⟩
      · rw [front hp, front hk, hs]
        simp
      · simp only [List.length_map, List.length_cons] at hlen ⊢
        omega
    · obtain ⟨rfl, rfl⟩ := pure_eq_done.mp h₂
      refine ⟨[s.current], front hp, by simp, ?_, [s.current], by simpa using hp, .single _, rfl⟩
      simp only [List.length_singleton]
      omega

theorem reads_parameters (n : Nat) : Reads (parameters n) fun ts names =>
    ∃ opening us closing, ts = opening :: (us ++ [closing]) ∧ opening.kind = .leftParen ∧
      closing.kind = .rightParen ∧ names.length ≤ maxArity ∧ IsParameters us names := by
  intro s names rest h
  obtain ⟨opening, s₁, hopen, h₁⟩ := bind_eq_done.mp h
  obtain ⟨ho, rfl, rfl⟩ := expect_eq_done.mp hopen
  obtain ⟨_, s₂, haccept, h₂⟩ := bind_eq_done.mp h₁
  obtain ⟨rfl, hk, rfl⟩ | ⟨rfl, -, rfl⟩ := accept_eq_done.mp haccept
  · obtain ⟨rfl, rfl⟩ := pure_eq_done.mp h₂
    refine ⟨_, ?_, s.current, [], s.next.current, rfl, ho, hk, by simp, [], by simp, .nil, rfl⟩
    rw [front ho, front hk]
    simp
  · obtain ⟨params, s₃, hparams, h₃⟩ := bind_eq_done.mp h₂
    obtain ⟨us, hs, -, hlen, hus⟩ := reads_parameterList n 0 hparams
    obtain ⟨closing, s₄, hclosing, h₄⟩ := bind_eq_done.mp h₃
    obtain ⟨hc, rfl, rfl⟩ := expect_eq_done.mp hclosing
    obtain ⟨rfl, rfl⟩ := pure_eq_done.mp h₄
    refine ⟨_, ?_, s.current, us, s₃.current, rfl, ho, hc, by simpa using hlen, hus⟩
    rw [front ho, hs, front hc]
    simp

/-- What the productions of statements read with a budget of `n` steps. -/
structure ReadsStmt (n : Nat) : Prop where
  statement : ∀ inFunction ⦃s : Stream⦄ ⦃st rest⦄, Parser.statement inFunction n s = .done st rest →
    ∃ ts, s = rest.prepend ts ∧ IsStmt inFunction .statement ts st ∧
      (endsOpen st = true → rest.current.kind ≠ .elseWord)
  declaration : ∀ inFunction,
    Reads (Parser.declaration inFunction n) (IsStmt inFunction .declaration)
  blockBody : ∀ inFunction, Reads (Parser.blockBody inFunction n) fun ts ss =>
    ∃ us closing, ts = us ++ [closing] ∧ closing.kind = .rightBrace ∧ IsBody inFunction us ss

theorem readsStmt_zero : ReadsStmt 0 where
  statement _ _ _ _ h := absurd h spent_ne_done
  declaration _ := reads_spent
  blockBody _ := reads_spent

section

variable {n : Nat} (ih : ReadsStmt n) (inFunction : Bool)
include ih

/-- After a statement that ends with an `if` without `else`, no `else` follows: it would
have been taken. -/
theorem reads_ifElse {s rest : Stream} {st : Stmt} (hk : s.current.kind = .ifWord)
    (h : (do
      skip
      let cond ← condition n
      let yes ← statement inFunction n
      if ← accept .elseWord then
        let no ← statement inFunction n
        return .ifElse s.current.position cond yes (some no)
      else return .ifElse s.current.position cond yes none : Parser Stream Stmt) s = .done st rest) :
    ∃ ts, s = rest.prepend ts ∧ IsStmt inFunction .statement ts st ∧
      (endsOpen st = true → rest.current.kind ≠ .elseWord) := by
  obtain ⟨_, s₁, hskip, h₁⟩ := bind_eq_done.mp h
  obtain rfl := skip_eq_done.mp hskip
  obtain ⟨c, s₂, hcond, h₂⟩ := bind_eq_done.mp h₁
  obtain ⟨_, hs, opening, cs, closing, rfl, ho, hcl, hc⟩ := reads_condition n hcond
  obtain ⟨yes, s₃, hyes, h₃⟩ := bind_eq_done.mp h₂
  obtain ⟨ys, rfl, hy, hopen⟩ := ih.statement inFunction hyes
  obtain ⟨_, s₄, haccept, h₄⟩ := bind_eq_done.mp h₃
  obtain ⟨rfl, hother, rfl⟩ | ⟨rfl, hother, rfl⟩ := accept_eq_done.mp haccept
  · obtain ⟨no, s₅, hno, h₅⟩ := bind_eq_done.mp h₄
    obtain ⟨ns, hs', hn, hopen'⟩ := ih.statement inFunction hno
    obtain ⟨rfl, rfl⟩ := pure_eq_done.mp h₅
    have hclosed : endsOpen yes = false :=
      Bool.eq_false_iff.mpr fun htrue => hopen htrue hother
    refine ⟨_, ?_, .ifElse hk ho hcl hother hc hy hclosed hn, hopen'⟩
    rw [front hk, hs, front hother, hs']
    simp
  · obtain ⟨rfl, rfl⟩ := pure_eq_done.mp h₄
    refine ⟨_, ?_, .ifThen hk ho hcl hc hy, fun _ => hother⟩
    rw [front hk, hs]
    simp

theorem reads_forLoop {s rest : Stream} {st : Stmt} (hk : s.current.kind = .forWord)
    (h : (do
      skip
      let _ ← expect .leftParen
      let init ← loopInit n
      let cond ← optionalExpression n .semicolon
      let _ ← expect .semicolon
      let increment ← optionalExpression n .rightParen
      let _ ← expect .rightParen
      let body ← statement inFunction n
      return .forLoop s.current.position init cond increment body : Parser Stream Stmt) s =
        .done st rest) :
    ∃ ts, s = rest.prepend ts ∧ IsStmt inFunction .statement ts st ∧
      (endsOpen st = true → rest.current.kind ≠ .elseWord) := by
  obtain ⟨_, s₁, hskip, h₁⟩ := bind_eq_done.mp h
  obtain rfl := skip_eq_done.mp hskip
  obtain ⟨_, s₂, hopen, h₂⟩ := bind_eq_done.mp h₁
  obtain ⟨ho, rfl, rfl⟩ := expect_eq_done.mp hopen
  obtain ⟨init, s₃, hinit, h₃⟩ := bind_eq_done.mp h₂
  obtain ⟨is, hs, hi⟩ := reads_loopInit n hinit
  obtain ⟨cond, s₄, hcond, h₄⟩ := bind_eq_done.mp h₃
  obtain ⟨cs, rfl, hc⟩ := reads_optionalExpression n _ hcond
  obtain ⟨_, s₅, hsemi, h₅⟩ := bind_eq_done.mp h₄
  obtain ⟨hse, rfl, rfl⟩ := expect_eq_done.mp hsemi
  obtain ⟨increment, s₆, hincr, h₆⟩ := bind_eq_done.mp h₅
  obtain ⟨ns, hs', hn⟩ := reads_optionalExpression n _ hincr
  obtain ⟨_, s₇, hclose, h₇⟩ := bind_eq_done.mp h₆
  obtain ⟨hcl, rfl, rfl⟩ := expect_eq_done.mp hclose
  obtain ⟨body, s₈, hbody, h₈⟩ := bind_eq_done.mp h₇
  obtain ⟨bs, hs'', hb, hlast⟩ := ih.statement inFunction hbody
  obtain ⟨rfl, rfl⟩ := pure_eq_done.mp h₈
  refine ⟨_, ?_, .forLoop hk ho hse hcl hi hc hn hb, hlast⟩
  rw [front hk, front ho, hs, front hse, hs', front hcl, hs'']
  simp

/-- By the word in front; what begins with none is an expression. -/
theorem reads_statement ⦃s : Stream⦄ ⦃st : Stmt⦄ ⦃rest : Stream⦄
    (h : statement inFunction (n + 1) s = .done st rest) :
    ∃ ts, s = rest.prepend ts ∧ IsStmt inFunction .statement ts st ∧
      (endsOpen st = true → rest.current.kind ≠ .elseWord) := by
  obtain ⟨first, _, hfirst, h₁⟩ := bind_eq_done.mp h
  obtain ⟨rfl, rfl⟩ := current_eq_done.mp hfirst
  generalize hcur : s.current = first at h₁
  obtain ⟨kind, lexeme, position⟩ := first
  have hk : s.current.kind = kind := by rw [hcur]
  have hp : s.current.position = position := by rw [hcur]
  subst hp
  dsimp only at h₁
  split at h₁
  · obtain ⟨_, s₁, hskip, h₂⟩ := bind_eq_done.mp h₁
    obtain rfl := skip_eq_done.mp hskip
    obtain ⟨ts, t, e, hs, ht, he, rfl⟩ := reads_closed (by decide) h₂
    refine ⟨_, ?_, .print hk ht he, by simp [endsOpen]⟩
    rw [front hk, hs]
    simp
  · obtain ⟨_, s₁, hskip, h₂⟩ := bind_eq_done.mp h₁
    obtain rfl := skip_eq_done.mp hskip
    obtain ⟨body, s₂, hbody, h₃⟩ := bind_eq_done.mp h₂
    obtain ⟨_, hs, us, closing, rfl, hc, parts, hall, rfl, rfl⟩ := ih.blockBody inFunction hbody
    obtain ⟨rfl, rfl⟩ := pure_eq_done.mp h₃
    refine ⟨_, ?_, .block hk hc hall, by simp [endsOpen]⟩
    rw [front hk, hs]
    simp
  · exact reads_ifElse ih inFunction hk h₁
  · obtain ⟨_, s₁, hskip, h₂⟩ := bind_eq_done.mp h₁
    obtain rfl := skip_eq_done.mp hskip
    obtain ⟨c, s₂, hcond, h₃⟩ := bind_eq_done.mp h₂
    obtain ⟨_, hs, opening, cs, closing, rfl, ho, hcl, hc⟩ := reads_condition n hcond
    obtain ⟨body, s₃, hbody, h₄⟩ := bind_eq_done.mp h₃
    obtain ⟨bs, rfl, hb, hopen⟩ := ih.statement inFunction hbody
    obtain ⟨rfl, rfl⟩ := pure_eq_done.mp h₄
    refine ⟨_, ?_, .whileLoop hk ho hcl hc hb, hopen⟩
    rw [front hk, hs]
    simp
  · exact reads_forLoop ih inFunction hk h₁
  · split at h₁
    · next hin =>
      obtain ⟨_, s₁, hskip, h₂⟩ := bind_eq_done.mp h₁
      obtain rfl := skip_eq_done.mp hskip
      obtain ⟨value, s₂, hvalue, h₃⟩ := bind_eq_done.mp h₂
      obtain ⟨ts, hs, hv⟩ := reads_optionalExpression n _ hvalue
      obtain ⟨_, s₃, hsemi, h₄⟩ := bind_eq_done.mp h₃
      obtain ⟨hse, rfl, rfl⟩ := expect_eq_done.mp hsemi
      obtain ⟨rfl, rfl⟩ := pure_eq_done.mp h₄
      subst hin
      refine ⟨_, ?_, .ret hk hse hv, by simp [endsOpen]⟩
      rw [front hk, hs, front hse]
      simp
    · exact absurd h₁ fail_ne_done
  · obtain ⟨ts, rfl, hst⟩ := reads_expressionStatement n h₁
    refine ⟨ts, rfl, .expression hst, ?_⟩
    cases hst
    simp [endsOpen]

theorem reads_declaration :
    Reads (declaration inFunction (n + 1)) (IsStmt inFunction .declaration) := by
  intro s st rest h
  obtain ⟨first, _, hfirst, h₁⟩ := bind_eq_done.mp h
  obtain ⟨rfl, rfl⟩ := current_eq_done.mp hfirst
  generalize hcur : s.current = first at h₁
  obtain ⟨kind, lexeme, position⟩ := first
  have hk : s.current.kind = kind := by rw [hcur]
  have hp : s.current.position = position := by rw [hcur]
  subst hp
  dsimp only at h₁
  split at h₁
  · obtain ⟨_, s₁, hskip, h₂⟩ := bind_eq_done.mp h₁
    obtain rfl := skip_eq_done.mp hskip
    obtain ⟨name, s₂, hname, h₃⟩ := bind_eq_done.mp h₂
    obtain ⟨hn, rfl, rfl⟩ := expect_eq_done.mp hname
    obtain ⟨names, s₃, hnames, h₄⟩ := bind_eq_done.mp h₃
    obtain ⟨_, hs, opening, us, closing, rfl, ho, hcl, hlen, params, hparams, hsep, rfl⟩ :=
      reads_parameters n hnames
    obtain ⟨_, s₄, hbrace, h₅⟩ := bind_eq_done.mp h₄
    obtain ⟨hob, rfl, rfl⟩ := expect_eq_done.mp hbrace
    obtain ⟨body, s₅, hbody, h₆⟩ := bind_eq_done.mp h₅
    obtain ⟨_, hs', vs, closeBody, rfl, hcb, parts, hall, rfl, rfl⟩ := ih.blockBody true hbody
    obtain ⟨rfl, rfl⟩ := pure_eq_done.mp h₆
    refine ⟨_, ?_, .function hk hn ho hcl hob hcb hparams (by simpa using hlen) hsep hall⟩
    rw [front hk, front hn, hs, front hob, hs']
    simp
  · obtain ⟨ts, rfl, hv⟩ := reads_varDeclaration hk h₁
    exact ⟨ts, rfl, .var hv⟩
  · obtain ⟨ts, rfl, hst, -⟩ := ih.statement inFunction h₁
    exact ⟨ts, rfl, .statement hst⟩

theorem reads_blockBody : Reads (blockBody inFunction (n + 1)) fun ts ss =>
    ∃ us closing, ts = us ++ [closing] ∧ closing.kind = .rightBrace ∧ IsBody inFunction us ss := by
  intro s ss rest h
  obtain ⟨_, s₁, haccept, h₁⟩ := bind_eq_done.mp h
  obtain ⟨rfl, hk, rfl⟩ | ⟨rfl, -, rfl⟩ := accept_eq_done.mp haccept
  · obtain ⟨rfl, rfl⟩ := pure_eq_done.mp h₁
    exact ⟨_, front hk, [], _, rfl, hk, .nil inFunction⟩
  · obtain ⟨first, _, hfirst, h₂⟩ := bind_eq_done.mp h₁
    obtain ⟨rfl, rfl⟩ := current_eq_done.mp hfirst
    split at h₂
    · exact absurd h₂ fail_ne_done
    · obtain ⟨st, s₂, hst, h₃⟩ := bind_eq_done.mp h₂
      obtain ⟨ts, rfl, ht⟩ := ih.declaration inFunction hst
      obtain ⟨more, s₃, hmore, h₄⟩ := bind_eq_done.mp h₃
      obtain ⟨_, rfl, us, closing, rfl, hc, hus⟩ := ih.blockBody inFunction hmore
      obtain ⟨rfl, rfl⟩ := pure_eq_done.mp h₄
      exact ⟨_, Stream.prepend_prepend .., ts ++ us, closing, by simp, hc, .cons ht hus⟩

end

/-- By induction on the budget. -/
theorem readsStmt (n : Nat) : ReadsStmt n := by
  induction n with
  | zero => exact readsStmt_zero
  | succ n ih => exact ⟨reads_statement ih, reads_declaration ih, reads_blockBody ih⟩

/-- A program is read up to the end of the stream. -/
theorem reads_program (n : Nat) : ∀ ⦃s : Stream⦄ ⦃p : Program⦄ ⦃rest : Stream⦄,
    Parser.program n s = .done p rest → ∃ ts, s = rest.prepend ts ∧ IsBody false ts p ∧
      rest.current.kind = .endOfFile := by
  induction n with
  | zero => exact fun _ _ _ h => absurd h spent_ne_done
  | succ n ih =>
    intro s p rest h
    obtain ⟨_, s₁, hsees, h₁⟩ := bind_eq_done.mp h
    obtain ⟨rfl, rfl⟩ := sees_eq_done.mp hsees
    split at h₁
    · next hk =>
      obtain ⟨rfl, rfl⟩ := pure_eq_done.mp h₁
      exact ⟨[], rfl, .nil false, of_decide_eq_true hk⟩
    · obtain ⟨st, s₂, hst, h₂⟩ := bind_eq_done.mp h₁
      obtain ⟨ts, rfl, ht⟩ := (readsStmt n).declaration false hst
      obtain ⟨more, s₃, hmore, h₃⟩ := bind_eq_done.mp h₂
      obtain ⟨us, rfl, hus, hend⟩ := ih hmore
      obtain ⟨rfl, rfl⟩ := pure_eq_done.mp h₃
      exact ⟨ts ++ us, Stream.prepend_prepend .., .cons ht hus, hend⟩

end GradualScript.Grammar
