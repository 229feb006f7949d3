import GradualScript.Proofs.Grammar.DerivedExpression

/-!
# Derived programs are parsed

The productions of statements, on top of those of expressions. The only statement
that looks at the token after it is an `if` without `else`.
-/
namespace GradualScript.Grammar

open GradualScript.Parser

/-- An expression and the token after it. -/
theorem closed_done {ts : List Token} {t : Token} {e : Expr} {n : Nat} {rest : Stream}
    {kind : TokenKind} {β : Type} {f : Expr → Token → β} (he : IsExpr .assignment ts e)
    (ht : t.kind = kind) (hkind : endsExpression kind = true) (hn : 16 * ts.length ≤ n + 2) :
    (do let e ← expression n; let t ← expect kind; return f e t : Parser Stream β)
      (rest.prepend (ts ++ [t])) = .done (f e t) rest := by
  rw [← Stream.prepend_prepend, bind_done (he.expression_done (by
    rw [Stream.current_prepend_cons, ht, hkind]) hn), bind_done (expect_prepend ht)]
  rfl

theorem IsExprStmt.done {ts : List Token} {s : Stmt} (h : IsExprStmt ts s) {n : Nat}
    {rest : Stream} (hn : 16 * ts.length ≤ n + 18) :
    expressionStatement n (rest.prepend ts) = .done s rest := by
  obtain ⟨hsemi, he⟩ := h
  simp only [List.length_append, List.length_singleton] at hn
  rw [expressionStatement, closed_done he hsemi rfl (by omega), he.position_eq]

theorem condition_done {opening closing : Token} {ts : List Token} {e : Expr} {n : Nat}
    {rest : Stream} (ho : opening.kind = .leftParen) (hc : closing.kind = .rightParen)
    (he : IsExpr .assignment ts e) (hn : 16 * ts.length ≤ n + 2) :
    condition n (rest.prepend (opening :: (ts ++ [closing]))) = .done e rest := by
  rw [condition, bind_done (expect_prepend ho), closed_done he hc rfl hn]

theorem IsClause.done {ts : List Token} {e : Option Expr} (h : IsClause ts e) {n : Nat}
    {stop : TokenKind} {t : Token} {us : List Token} {rest : Stream} (ht : t.kind = stop)
    (hends : endsExpression stop = true) (hn : 16 * ts.length ≤ n + 2) :
    optionalExpression n stop (rest.prepend (ts ++ t :: us)) = .done e (rest.prepend (t :: us)) := by
  rw [optionalExpression]
  cases h with
  | absent =>
    rw [List.nil_append, bind_done (sees_prepend ht)]
    rfl
  | present he =>
    obtain ⟨t', vs, rfl, hstart⟩ := he.head
    have hne : t'.kind ≠ stop := by
      rintro rfl
      cases hk : t'.kind <;> simp_all [startsExpression, endsExpression]
    rw [List.cons_append, bind_done (not_sees_prepend hne)]
    change (expression n >>= _) _ = _
    rw [← List.cons_append, ← Stream.prepend_prepend, bind_done (he.expression_done (by
      rw [Stream.current_prepend_cons, ht, hends]) hn)]
    rfl

/-- A derived variable declaration is read by its production. -/
theorem IsVar.done {ts : List Token} {s : Stmt} (h : IsVar ts s) {n : Nat} {rest : Stream}
    (hn : 16 * ts.length ≤ n + 50) : varDeclaration n (rest.prepend ts) = .done s rest := by
  rw [varDeclaration]
  cases h with
  | bare hw hname hsemi =>
    change (expect .identifier >>= _) (rest.prepend [_, _]) = _
    have hne : ∀ us, (rest.prepend (_ :: us)).current.kind ≠ .equal := fun us => by
      rw [Stream.current_prepend_cons, hsemi]; decide
    rw [bind_done (expect_prepend hname), bind_done (accept_not_done (hne []))]
    change (expect .semicolon >>= _) _ = _
    rw [bind_done (expect_prepend hsemi)]
    rfl
  | valued hw hname heq hsemi he =>
    simp only [List.length_cons, List.length_append, List.length_nil] at hn
    change (expect .identifier >>= _) (rest.prepend (_ :: _ :: _)) = _
    rw [bind_done (expect_prepend hname), bind_done (accept_prepend heq)]
    exact closed_done he hsemi rfl (by omega)

/-- A clause that begins an expression is one. -/
theorem loopInit_of_starts {n : Nat} {t : Token} {ts : List Token} {rest : Stream}
    (h : startsExpression t.kind = true) :
    loopInit n (rest.prepend (t :: ts)) =
      (do let init ← expressionStatement n; return some init : Parser Stream _)
        (rest.prepend (t :: ts)) := by
  obtain ⟨kind, lexeme, position⟩ := t
  cases kind <;> first
    | (cases h; done)
    | rfl

theorem IsInit.done {ts : List Token} {init : Option Stmt} (h : IsInit ts init) {n : Nat}
    {rest : Stream} (hn : 16 * ts.length ≤ n + 18) :
    loopInit n (rest.prepend ts) = .done init rest := by
  cases h with
  | @absent t hsemi =>
    obtain ⟨kind, lexeme, position⟩ := t
    obtain rfl : kind = .semicolon := hsemi
    rfl
  | var hv =>
    obtain ⟨⟨kind, lexeme, position⟩, us, rfl, ht⟩ := hv.head
    obtain rfl : kind = .varWord := ht
    change (varDeclaration n >>= _) _ = _
    rw [bind_done (hv.done (by omega))]
    rfl
  | expression he =>
    obtain ⟨t, us, rfl, ht⟩ := he.head
    rw [loopInit_of_starts ht, bind_done (he.done hn)]
    rfl

/-- Name by name, with room for all of them. -/
theorem parameterList_done {params ts : List Token}
    (hall : ∀ param ∈ params, param.kind = .identifier)
    (hsep : CommaSeparated (params.map ([·])) ts) (hne : params ≠ []) :
    ∀ n count (rest : Stream), rest.current.kind = .rightParen → count + params.length ≤ maxArity →
      ts.length < n →
      parameterList n count (rest.prepend ts) = .done (params.map Token.lexeme) rest := by
  induction params generalizing ts with
  | nil => exact absurd rfl hne
  | cons param params ih =>
    intro n count rest hrest hlen hn
    obtain ⟨n, rfl⟩ := Nat.exists_eq_succ_of_ne_zero (n := n) (by omega)
    simp only [List.length_cons] at hlen
    obtain ⟨hparam, hparams⟩ := List.forall_mem_cons.mp hall
    rw [parameterList, if_neg (by omega)]
    cases params with
    | nil =>
      cases hsep
      have hne : rest.current.kind ≠ .comma := by rw [hrest]; decide
      rw [bind_done (expect_prepend hparam), Stream.prepend_nil, bind_done (accept_not_done hne)]
      rfl
    | cons next params =>
      cases hsep with
      | @cons _ _ _ us comma hcomma hsep =>
        simp only [List.length_append, List.length_cons] at hn
        rw [List.singleton_append, bind_done (expect_prepend hparam),
          bind_done (accept_prepend hcomma)]
        change (parameterList n (count + 1) >>= _) _ = _
        rw [bind_done (ih hparams hsep (by simp) n (count + 1) rest hrest (by
          simp only [List.length_cons] at hlen ⊢
          omega) (by omega))]
        rfl

theorem parameters_done {params ts : List Token} {opening closing : Token}
    (ho : opening.kind = .leftParen) (hc : closing.kind = .rightParen)
    (hall : ∀ param ∈ params, param.kind = .identifier) (hlen : params.length ≤ maxArity)
    (hsep : CommaSeparated (params.map ([·])) ts) {n : Nat} (hn : ts.length < n) (rest : Stream) :
    parameters n (rest.prepend (opening :: (ts ++ [closing]))) =
      .done (params.map Token.lexeme) rest := by
  rw [parameters, bind_done (expect_prepend ho)]
  cases params with
  | nil =>
    cases hsep
    rw [List.nil_append, bind_done (accept_prepend hc)]
    rfl
  | cons param params =>
    have hstart : (rest.prepend (ts ++ [closing])).current.kind ≠ .rightParen := by
      obtain ⟨us, rfl⟩ := hsep.head
      change param.kind ≠ .rightParen
      rw [hall param List.mem_cons_self]
      decide
    have hlist := parameterList_done hall hsep (by simp) n 0 (rest.prepend [closing]) hc
      (by omega) hn
    rw [Stream.prepend_prepend] at hlist
    rw [bind_done (accept_not_done hstart)]
    change (parameterList n 0 >>= _) _ = _
    rw [bind_done hlist, bind_done (expect_prepend hc)]
    rfl

/-- The production of a form finds `s` in front of every stream that cannot go on with
it, with a budget of sixteen steps for each token. -/
def FindsStmt (inFunction : Bool) : Form → List Token → Stmt → Prop
  | .statement, ts, s => ∀ n (rest : Stream), (endsOpen s = true → rest.current.kind ≠ .elseWord) →
      16 * ts.length ≤ n + 10 → statement inFunction n (rest.prepend ts) = .done s rest
  | .declaration, ts, s => ∀ n (rest : Stream), (endsOpen s = true → rest.current.kind ≠ .elseWord) →
      16 * ts.length ≤ n + 9 → declaration inFunction n (rest.prepend ts) = .done s rest

/-- What follows a declaration in a list of declarations goes on with none. -/
theorem current_ne_elseWord {inFunction : Bool} {parts : List (List Token × Stmt)} {rest : Stream}
    (hall : ∀ part ∈ parts, IsStmt inFunction .declaration part.1 part.2)
    (hrest : rest.current.kind ≠ .elseWord) :
    (rest.prepend (parts.map Prod.fst).flatten).current.kind ≠ .elseWord := by
  cases parts with
  | nil => exact hrest
  | cons part parts =>
    obtain ⟨t, us, hts, ht⟩ := (hall part List.mem_cons_self).head
    rw [List.map_cons, List.flatten_cons, hts]
    exact ne_of_neverStarts ht rfl

/-- Declarations that are found one by one are found as a body. -/
theorem blockBody_done {inFunction : Bool} {parts : List (List Token × Stmt)} {closing : Token}
    (hstmt : ∀ part ∈ parts, IsStmt inFunction .declaration part.1 part.2)
    (hall : ∀ part ∈ parts, FindsStmt inFunction .declaration part.1 part.2)
    (hc : closing.kind = .rightBrace) (rest : Stream) {n : Nat}
    (hn : 16 * (parts.map Prod.fst).flatten.length < n) :
    blockBody inFunction n (rest.prepend ((parts.map Prod.fst).flatten ++ [closing])) =
      .done (parts.map Prod.snd) rest := by
  induction parts generalizing n with
  | nil =>
    obtain ⟨n, rfl⟩ := Nat.exists_eq_succ_of_ne_zero (n := n) (by omega)
    rw [blockBody, List.map_nil, List.flatten_nil, List.nil_append, bind_done (accept_prepend hc)]
    rfl
  | cons part parts ih =>
    obtain ⟨ts, st⟩ := part
    obtain ⟨n, rfl⟩ := Nat.exists_eq_succ_of_ne_zero (n := n) (by omega)
    obtain ⟨hst, hsts⟩ := List.forall_mem_cons.mp hstmt
    obtain ⟨hone, hmore⟩ := List.forall_mem_cons.mp hall
    obtain ⟨t, us, rfl, ht⟩ := hst.head
    simp only [List.map_cons, List.flatten_cons, List.length_append, List.length_cons] at hn
    have hmid : (rest.prepend ((parts.map Prod.fst).flatten ++ [closing])).current.kind ≠
        .elseWord := by
      rw [← Stream.prepend_prepend]
      exact current_ne_elseWord hsts (by rw [Stream.current_prepend_cons, hc]; decide)
    have hdecl := hone n _ (fun _ => hmid) (by simp only [List.length_cons]; omega)
    rw [Stream.prepend_prepend, List.cons_append] at hdecl
    rw [blockBody, List.map_cons, List.flatten_cons, List.append_assoc, List.cons_append,
      bind_done (accept_not_prepend (ne_of_neverStarts ht rfl))]
    change (current >>= _) _ = _
    rw [bind_done current_done, Stream.current_prepend_cons,
      if_neg (ne_of_neverStarts ht rfl), bind_done hdecl, bind_done (ih hsts hmore (by omega))]
    rfl

section

variable {inFunction : Bool}

/-- No word of a statement begins an expression. -/
theorem statement_of_starts {n : Nat} {t : Token} {ts : List Token} {rest : Stream}
    (h : startsExpression t.kind = true) :
    statement inFunction (n + 1) (rest.prepend (t :: ts)) =
      expressionStatement n (rest.prepend (t :: ts)) := by
  obtain ⟨kind, lexeme, position⟩ := t
  cases kind <;> first
    | (cases h; done)
    | rfl

theorem declaration_of_ne {n : Nat} {t : Token} {ts : List Token} {rest : Stream}
    (hfun : t.kind ≠ .funWord) (hvar : t.kind ≠ .varWord) :
    declaration inFunction (n + 1) (rest.prepend (t :: ts)) =
      statement inFunction n (rest.prepend (t :: ts)) := by
  obtain ⟨kind, lexeme, position⟩ := t
  cases kind <;> first
    | exact absurd rfl hfun
    | exact absurd rfl hvar
    | rfl

theorem findsStmt_expression {ts : List Token} {s : Stmt} (h : IsExprStmt ts s) :
    FindsStmt inFunction .statement ts s := by
  intro n rest _ hn
  obtain ⟨t, us, rfl, ht⟩ := h.head
  obtain ⟨n, rfl⟩ := Nat.exists_eq_succ_of_ne_zero (n := n) (by simp at hn; omega)
  rw [statement_of_starts ht, h.done (by omega)]

theorem findsStmt_print {word semicolon : Token} {ts : List Token} {e : Expr}
    (hw : word.kind = .printWord) (hsemi : semicolon.kind = .semicolon)
    (he : IsExpr .assignment ts e) :
    FindsStmt inFunction .statement (word :: (ts ++ [semicolon])) (.print word.position e) := by
  intro n rest _ hn
  simp only [List.length_cons, List.length_append, List.length_nil] at hn
  obtain ⟨n, rfl⟩ := Nat.exists_eq_succ_of_ne_zero (n := n) (by omega)
  obtain ⟨kind, lexeme, position⟩ := word
  obtain rfl : kind = .printWord := hw
  exact closed_done he hsemi rfl (by omega)

theorem findsStmt_block {opening closing : Token} {parts : List (List Token × Stmt)}
    (ho : opening.kind = .leftBrace) (hc : closing.kind = .rightBrace)
    (hstmt : ∀ part ∈ parts, IsStmt inFunction .declaration part.1 part.2)
    (hall : ∀ part ∈ parts, FindsStmt inFunction .declaration part.1 part.2) :
    FindsStmt inFunction .statement (opening :: ((parts.map Prod.fst).flatten ++ [closing]))
      (.block opening.position (parts.map Prod.snd)) := by
  intro n rest _ hn
  simp only [List.length_cons, List.length_append, List.length_nil] at hn
  obtain ⟨n, rfl⟩ := Nat.exists_eq_succ_of_ne_zero (n := n) (by omega)
  obtain ⟨kind, lexeme, position⟩ := opening
  obtain rfl : kind = .leftBrace := ho
  change (blockBody inFunction n >>= _) (rest.prepend _) = _
  rw [bind_done (blockBody_done hstmt hall hc rest (by omega))]
  rfl

/-- The condition of a branch or a loop, and the token after it. -/
theorem condition_cons_done {opening closing : Token} {cs us : List Token} {c : Expr} {n : Nat}
    {rest : Stream} (ho : opening.kind = .leftParen) (hc : closing.kind = .rightParen)
    (he : IsExpr .assignment cs c) (hn : 16 * cs.length ≤ n + 2) :
    condition n (rest.prepend (opening :: (cs ++ closing :: us))) = .done c (rest.prepend us) := by
  have h : condition n ((rest.prepend us).prepend (opening :: (cs ++ [closing]))) =
      .done c (rest.prepend us) := condition_done ho hc he hn
  rw [Stream.prepend_prepend] at h
  simpa using h

theorem findsStmt_ifThen {word opening closing : Token} {cs ys : List Token} {c : Expr}
    {yes : Stmt} (hw : word.kind = .ifWord) (ho : opening.kind = .leftParen)
    (hc : closing.kind = .rightParen) (he : IsExpr .assignment cs c)
    (ih : FindsStmt inFunction .statement ys yes) :
    FindsStmt inFunction .statement (word :: opening :: (cs ++ closing :: ys))
      (.ifElse word.position c yes none) := by
  intro n rest hrest hn
  simp only [List.length_cons, List.length_append] at hn
  obtain ⟨n, rfl⟩ := Nat.exists_eq_succ_of_ne_zero (n := n) (by omega)
  obtain ⟨kind, lexeme, position⟩ := word
  obtain rfl : kind = .ifWord := hw
  have helse : rest.current.kind ≠ .elseWord := hrest rfl
  change (condition n >>= _) (rest.prepend _) = _
  rw [bind_done (condition_cons_done ho hc he (by omega)),
    bind_done (ih n rest (fun _ => helse) (by omega)), bind_done (accept_not_done helse)]
  rfl

/-- The first branch ends closed, so the `else` after it is left for this statement. -/
theorem findsStmt_ifElse {word opening closing other : Token} {cs ys ns : List Token} {c : Expr}
    {yes no : Stmt} (hw : word.kind = .ifWord) (ho : opening.kind = .leftParen)
    (hc : closing.kind = .rightParen) (hother : other.kind = .elseWord)
    (he : IsExpr .assignment cs c) (hclosed : endsOpen yes = false)
    (ihyes : FindsStmt inFunction .statement ys yes)
    (ihno : FindsStmt inFunction .statement ns no) :
    FindsStmt inFunction .statement (word :: opening :: (cs ++ closing :: (ys ++ other :: ns)))
      (.ifElse word.position c yes (some no)) := by
  intro n rest hrest hn
  simp only [List.length_cons, List.length_append] at hn
  obtain ⟨n, rfl⟩ := Nat.exists_eq_succ_of_ne_zero (n := n) (by omega)
  obtain ⟨kind, lexeme, position⟩ := word
  obtain rfl : kind = .ifWord := hw
  have hyes := ihyes n (rest.prepend (other :: ns)) (by rw [hclosed]; simp) (by omega)
  rw [Stream.prepend_prepend] at hyes
  change (condition n >>= _) (rest.prepend _) = _
  rw [bind_done (condition_cons_done ho hc he (by omega)), bind_done hyes,
    bind_done (accept_prepend hother)]
  change (statement inFunction n >>= _) _ = _
  rw [bind_done (ihno n rest hrest (by omega))]
  rfl

theorem findsStmt_whileLoop {word opening closing : Token} {cs bs : List Token} {c : Expr}
    {body : Stmt} (hw : word.kind = .whileWord) (ho : opening.kind = .leftParen)
    (hc : closing.kind = .rightParen) (he : IsExpr .assignment cs c)
    (ih : FindsStmt inFunction .statement bs body) :
    FindsStmt inFunction .statement (word :: opening :: (cs ++ closing :: bs))
      (.whileLoop word.position c body) := by
  intro n rest hrest hn
  simp only [List.length_cons, List.length_append] at hn
  obtain ⟨n, rfl⟩ := Nat.exists_eq_succ_of_ne_zero (n := n) (by omega)
  obtain ⟨kind, lexeme, position⟩ := word
  obtain rfl : kind = .whileWord := hw
  change (condition n >>= _) (rest.prepend _) = _
  rw [bind_done (condition_cons_done ho hc he (by omega)),
    bind_done (ih n rest hrest (by omega))]
  rfl

theorem findsStmt_forLoop {word opening semicolon closing : Token} {is cs ns bs : List Token}
    {init : Option Stmt} {cond increment : Option Expr} {body : Stmt}
    (hw : word.kind = .forWord) (ho : opening.kind = .leftParen)
    (hsemi : semicolon.kind = .semicolon) (hc : closing.kind = .rightParen)
    (hinit : IsInit is init) (hcond : IsClause cs cond) (hincr : IsClause ns increment)
    (ih : FindsStmt inFunction .statement bs body) :
    FindsStmt inFunction .statement
      (word :: opening :: (is ++ (cs ++ semicolon :: (ns ++ closing :: bs))))
      (.forLoop word.position init cond increment body) := by
  intro n rest hrest hn
  simp only [List.length_cons, List.length_append] at hn
  obtain ⟨n, rfl⟩ := Nat.exists_eq_succ_of_ne_zero (n := n) (by omega)
  obtain ⟨kind, lexeme, position⟩ := word
  obtain rfl : kind = .forWord := hw
  change (expect .leftParen >>= _) (rest.prepend _) = _
  rw [bind_done (expect_prepend ho), ← Stream.prepend_prepend, bind_done (hinit.done (by omega)),
    bind_done (hcond.done hsemi rfl (by omega)), bind_done (expect_prepend hsemi),
    bind_done (hincr.done hc rfl (by omega)), bind_done (expect_prepend hc),
    bind_done (ih n rest hrest (by omega))]
  rfl

theorem findsStmt_ret {word semicolon : Token} {ts : List Token} {value : Option Expr}
    (hw : word.kind = .returnWord) (hsemi : semicolon.kind = .semicolon)
    (hvalue : IsClause ts value) :
    FindsStmt true .statement (word :: (ts ++ [semicolon])) (.ret word.position value) := by
  intro n rest _ hn
  simp only [List.length_cons, List.length_append, List.length_nil] at hn
  obtain ⟨n, rfl⟩ := Nat.exists_eq_succ_of_ne_zero (n := n) (by omega)
  obtain ⟨kind, lexeme, position⟩ := word
  obtain rfl : kind = .returnWord := hw
  change (optionalExpression n .semicolon >>= _) (rest.prepend _) = _
  rw [bind_done (hvalue.done hsemi rfl (by omega)), bind_done (expect_prepend hsemi)]
  rfl

theorem findsStmt_var {ts : List Token} {s : Stmt} (h : IsVar ts s) :
    FindsStmt inFunction .declaration ts s := by
  intro n rest _ hn
  obtain ⟨⟨kind, lexeme, position⟩, us, rfl, ht⟩ := h.head
  obtain ⟨n, rfl⟩ := Nat.exists_eq_succ_of_ne_zero (n := n) (by simp at hn; omega)
  obtain rfl : kind = .varWord := ht
  exact h.done (by omega)

theorem findsStmt_function {word name opening closing openBody closeBody : Token}
    {params ts : List Token} {parts : List (List Token × Stmt)} (hw : word.kind = .funWord)
    (hname : name.kind = .identifier) (ho : opening.kind = .leftParen)
    (hc : closing.kind = .rightParen) (hob : openBody.kind = .leftBrace)
    (hcb : closeBody.kind = .rightBrace) (hparams : ∀ param ∈ params, param.kind = .identifier)
    (hlen : params.length ≤ maxArity) (hsep : CommaSeparated (params.map ([·])) ts)
    (hstmt : ∀ part ∈ parts, IsStmt true .declaration part.1 part.2)
    (hall : ∀ part ∈ parts, FindsStmt true .declaration part.1 part.2) :
    FindsStmt inFunction .declaration
      (word :: name :: opening :: (ts ++
        closing :: openBody :: ((parts.map Prod.fst).flatten ++ [closeBody])))
      (.function word.position name.lexeme (params.map Token.lexeme) (parts.map Prod.snd) .any) := by
  intro n rest _ hn
  simp only [List.length_cons, List.length_append, List.length_nil] at hn
  obtain ⟨n, rfl⟩ := Nat.exists_eq_succ_of_ne_zero (n := n) (by omega)
  obtain ⟨kind, lexeme, position⟩ := word
  obtain rfl : kind = .funWord := hw
  have hps := parameters_done ho hc hparams hlen hsep (n := n) (by omega)
    (rest.prepend (openBody :: ((parts.map Prod.fst).flatten ++ [closeBody])))
  rw [Stream.prepend_prepend, List.cons_append, List.append_assoc, List.singleton_append] at hps
  change (expect .identifier >>= _) (rest.prepend _) = _
  rw [bind_done (expect_prepend hname)]
  rw [bind_done hps, bind_done (expect_prepend hob)]
  rw [bind_done (blockBody_done hstmt hall hcb rest (by omega))]
  rfl

/-- Statements start with neither of the words that start a declaration only. -/
theorem IsStmt.head_of_statement {form : Form} {ts : List Token} {s : Stmt}
    (h : IsStmt inFunction form ts s) (hform : form = .statement) :
    ∃ t us, ts = t :: us ∧ t.kind ≠ .funWord ∧ t.kind ≠ .varWord := by
  cases h with
  | expression he =>
    obtain ⟨t, us, rfl, ht⟩ := he.head
    refine ⟨t, us, rfl, ?_, ?_⟩ <;>
    · intro hk
      rw [hk] at ht
      cases ht
  | print hw | block hw | ifThen hw | ifElse hw | whileLoop hw | forLoop hw | ret hw =>
    exact ⟨_, _, rfl, by rw [hw]; decide, by rw [hw]; decide⟩
  | statement | var | function => cases hform

theorem findsStmt_statement {ts : List Token} {s : Stmt} (h : IsStmt inFunction .statement ts s)
    (ih : FindsStmt inFunction .statement ts s) : FindsStmt inFunction .declaration ts s := by
  intro n rest hrest hn
  obtain ⟨t, us, rfl, hfun, hvar⟩ := h.head_of_statement rfl
  obtain ⟨n, rfl⟩ := Nat.exists_eq_succ_of_ne_zero (n := n) (by simp at hn; omega)
  rw [declaration_of_ne hfun hvar, ih n rest hrest (by omega)]

end

/-- By induction on the derivation, with one lemma for each rule. -/
theorem IsStmt.finds {inFunction : Bool} {form : Form} {ts : List Token} {s : Stmt}
    (h : IsStmt inFunction form ts s) : FindsStmt inFunction form ts s := by
  induction h with
  | expression he => exact findsStmt_expression he
  | print hw hsemi he => exact findsStmt_print hw hsemi he
  | block ho hc hstmt ih => exact findsStmt_block ho hc hstmt ih
  | ifThen hw ho hc he _ ih => exact findsStmt_ifThen hw ho hc he ih
  | ifElse hw ho hc hother he _ hclosed _ ihyes ihno =>
    exact findsStmt_ifElse hw ho hc hother he hclosed ihyes ihno
  | whileLoop hw ho hc he _ ih => exact findsStmt_whileLoop hw ho hc he ih
  | forLoop hw ho hsemi hc hinit hcond hincr _ ih =>
    exact findsStmt_forLoop hw ho hsemi hc hinit hcond hincr ih
  | ret hw hsemi hvalue => exact findsStmt_ret hw hsemi hvalue
  | statement h ih => exact findsStmt_statement h ih
  | var hv => exact findsStmt_var hv
  | function hw hname ho hc hob hcb hparams hlen hsep hstmt ih =>
    exact findsStmt_function hw hname ho hc hob hcb hparams hlen hsep hstmt ih

/-- The declarations of a program are found up to the end of the stream. -/
theorem program_done {parts : List (List Token × Stmt)}
    (hall : ∀ part ∈ parts, IsStmt false .declaration part.1 part.2) (stop : Position) {n : Nat}
    (hn : 16 * (parts.map Prod.fst).flatten.length < n) :
    program n (Stream.prepend ⟨[], stop⟩ (parts.map Prod.fst).flatten) =
      .done (parts.map Prod.snd) ⟨[], stop⟩ := by
  induction parts generalizing n with
  | nil =>
    obtain ⟨n, rfl⟩ := Nat.exists_eq_succ_of_ne_zero (n := n) (by omega)
    rfl
  | cons part parts ih =>
    obtain ⟨ts, st⟩ := part
    obtain ⟨n, rfl⟩ := Nat.exists_eq_succ_of_ne_zero (n := n) (by omega)
    obtain ⟨hst, hsts⟩ := List.forall_mem_cons.mp hall
    obtain ⟨t, us, rfl, ht⟩ := hst.head
    simp only [List.map_cons, List.flatten_cons, List.length_append, List.length_cons] at hn
    have hstop : (⟨[], stop⟩ : Stream).current.kind ≠ .elseWord := by
      simp [Stream.current, Token.endAt]
    have hmid := current_ne_elseWord hsts hstop
    have hdecl := hst.finds n _ (fun _ => hmid) (by simp only [List.length_cons]; omega)
    rw [Stream.prepend_prepend, List.cons_append] at hdecl
    rw [Parser.program, List.map_cons, List.flatten_cons, List.cons_append,
      bind_done (not_sees_prepend (ne_of_neverStarts ht rfl))]
    change (declaration false n >>= _) _ = _
    rw [bind_done hdecl, bind_done (ih hsts (by omega))]
    rfl

end GradualScript.Grammar
