import GradualScript.Proofs.Grammar.Views
import GradualScript.Proofs.RoundTrip.Expression
import GradualScript.Proofs.Tree.Parts

/-!
# What source text puts in a tree

Every production copies from tokens, and scanned tokens are spelled as their kind says. So
the literals, names and operators in the tree of a source text are of few forms, and no
number token is refused, whatever else is wrong with the text.
-/
namespace GradualScript

/-- The form of one node of an expression in the tree of a text with these tokens. -/
def Expr.DrawnFrom (tokens : List Token) : Expr → Prop
  | .number _ value => value.isNaN = false ∧ value.isNegative = false
  | .string m text => '"' ∉ text.toList ∧
      ∃ t ∈ tokens, t.kind = .string ∧ t.position = m.position ∧ t.lexeme = "\"" ++ text ++ "\""
  | .unary _ op _ => op = .negate ∨ op = .subtract
  | .binary _ op _ _ => op ≠ .negate
  | .name _ n | .assign _ n _ => IsName n
  | .boolean _ _ | .nil _ | .grouping _ _ | .call _ _ _ => True

/-- The form of one statement in the tree of a text. -/
def Stmt.DrawnFrom : Stmt → Prop
  | .var _ name _ => IsName name
  | .function _ name params _ result =>
      IsName name ∧ (∀ param ∈ params, IsName param) ∧ result = .any
  | _ => True

/-- A part contains only what its own node may contain; the parts inside are parts
themselves. -/
def Part.DrawnFrom (tokens : List Token) : Part → Prop
  | expression e => e.DrawnFrom tokens
  | statement s => s.DrawnFrom

/-- All parts have the form of parts drawn from the tokens. -/
def AllDrawn (tokens : List Token) (parts : List Part) : Prop :=
  ∀ part ∈ parts, part.DrawnFrom tokens

namespace AllDrawn

variable {tokens : List Token} {parts more : List Part} {part : Part}

theorem nil : AllDrawn tokens [] := nofun

theorem append (h : AllDrawn tokens parts) (h' : AllDrawn tokens more) :
    AllDrawn tokens (parts ++ more) := List.forall_mem_append.mpr ⟨h, h'⟩

theorem concat (h : AllDrawn tokens parts) (h' : part.DrawnFrom tokens) :
    AllDrawn tokens (parts ++ [part]) := h.append (by simpa [AllDrawn] using h')

end AllDrawn

namespace Parser

open Grammar

variable {α β : Type} {tokens : List Token} {good : α → Prop} {good' : β → Prop}

/-- The number token that a fault is about. -/
def unconverted? : ParseFault → Option String
  | .numberConversion lexeme => some lexeme
  | _ => none

/-- A reply to tokens: a good result, of which more of these tokens are left, or an error that
is not about a number. -/
def Copied (tokens : List Token) (good : α → Prop) : Reply Stream α → Prop
  | .done a rest => rest.tokens ⊆ tokens ∧ good a
  | .failed e => unconverted? e.cause = none
  | .spent => True

/-- From every stream of these tokens, the parser makes a good result. -/
def Copies (tokens : List Token) (good : α → Prop) (p : Parser Stream α) : Prop :=
  ∀ s : Stream, s.tokens ⊆ tokens → Copied tokens good (p s)

theorem Copies.bind {p : Parser Stream α} {f : α → Parser Stream β} (h : Copies tokens good p)
    (hf : ∀ a, good a → Copies tokens good' (f a)) : Copies tokens good' (p >>= f) := by
  intro s hs
  have hp := h s hs
  change Copied tokens good' (Parser.bind p f s)
  unfold Parser.bind
  generalize p s = reply at hp
  cases reply with
  | done a rest => exact hf a hp.2 rest hp.1
  | failed e => exact hp
  | spent => trivial

theorem copies_pure {a : α} (h : good a) : Copies tokens good (pure a) := fun _ hs => ⟨hs, h⟩

theorem copies_spent : Copies tokens good spent := fun _ _ => trivial

theorem copies_fail {cause : ParseFault} (position : Position)
    (h : unconverted? cause = none) :
    Copies tokens good (fail cause position) := fun _ _ => h

/-- The first token is one of the tokens, unless it is an end, which may stand in for none
of them. -/
theorem copies_current :
    Copies tokens (fun t => t.kind ≠ .endOfFile → t ∈ tokens) current := by
  refine fun s hs => ⟨hs, fun hkind => hs ?_⟩
  rw [Stream.eq_prepend_current hkind]
  exact List.mem_cons_self

theorem tokens_next (s : Stream) : s.next.tokens ⊆ s.tokens := List.tail_subset s.tokens

theorem copies_skip : Copies tokens (fun _ => True) skip :=
  fun s hs => ⟨List.Subset.trans (tokens_next s) hs, trivial⟩

theorem copies_sees (kind : TokenKind) : Copies tokens (fun _ => True) (sees kind) :=
  fun _ hs => ⟨hs, trivial⟩

theorem copies_accept (kind : TokenKind) : Copies tokens (fun _ => True) (accept kind) := by
  intro s hs
  rw [accept_eq]
  split
  · exact copies_skip s hs
  · exact ⟨hs, trivial⟩

/-- A token that was expected is one of the tokens. -/
theorem copies_expect {kind : TokenKind} (hk : kind ≠ .endOfFile) :
    Copies tokens (fun t => t ∈ tokens ∧ t.kind = kind) (expect kind) := by
  intro s hs
  rw [expect_eq]
  split
  · next h =>
    exact ⟨(copies_skip s hs).1, (copies_current s hs).2 (h ▸ hk), h⟩
  · rfl

/-- An operator comes from the table that was asked. -/
theorem copies_takeOperator (operator? : TokenKind → Option Operator) :
    Copies tokens (fun found => ∀ op, found = some op → ∃ kind, operator? kind = some op)
      (takeOperator operator?) := by
  intro s hs
  rw [takeOperator_eq]
  split
  · next op hop =>
    refine ⟨(copies_skip s hs).1, ?_⟩
    rintro _ ⟨rfl⟩
    exact ⟨_, hop⟩
  · exact ⟨hs, nofun⟩

/-- A choice that depends on the token at the front. -/
theorem Copies.branch {test : Parser Stream Bool} {p q : Parser Stream α}
    (htest : Copies tokens (fun _ => True) test) (hp : Copies tokens good p)
    (hq : Copies tokens good q) : Copies tokens good (do if ← test then p else q) := by
  refine htest.bind fun b _ => ?_
  cases b with
  | true => exact hp
  | false => exact hq

/-- A numeral is a number that is neither negative nor a NaN. -/
theorem exists_number_of_isNumeral {lexeme : String} (h : IsNumeral lexeme.toList) :
    ∃ v, Number.read? lexeme = some v ∧ v.isNaN = false ∧ v.isNegative = false := by
  obtain ⟨m, hm, hread⟩ := Number.readDecimal?_of_isNumeral h
  have hunsigned := Number.isUnsigned_ofMagnitude hm
  refine ⟨.ofMagnitude false m, ?_, ?_, hunsigned.positive⟩
  · have hvalue := Number.read?_of_isNumeral h hread
    rwa [String.ofList_toList] at hvalue
  · exact decide_eq_false (Nat.not_lt.mpr hunsigned.magnitude_le)

/-- The text of a quoted token is what stands between its quotes. -/
theorem unquote_of_isQuoted {lexeme : String} (h : IsQuoted lexeme.toList) :
    '"' ∉ (unquote lexeme).toList ∧ lexeme = "\"" ++ unquote lexeme ++ "\"" := by
  obtain ⟨inner, hinner, hquote⟩ := h
  have hlexeme : lexeme = String.ofList ('"' :: (inner ++ ['"'])) := by
    rw [← hinner, String.ofList_toList]
  rw [hlexeme, unquote_quoted, String.toList_ofList]
  refine ⟨hquote, ?_⟩
  apply String.toList_injective
  simp

/-- All nodes of an expression are drawn from the tokens. -/
def DrawnExpr (tokens : List Token) (e : Expr) : Prop := AllDrawn tokens e.parts

theorem drawnExpr_of_leaf {e : Expr} (hleaf : e.inner = []) (h : e.DrawnFrom tokens) :
    DrawnExpr tokens e := by
  rw [DrawnExpr, e.parts_eq, hleaf]
  exact AllDrawn.nil.concat h

theorem copies_literal (hspelled : AllSpelled tokens) {t : Token}
    (ht : t.kind ≠ .endOfFile → t ∈ tokens) :
    Copies tokens (DrawnExpr tokens) (literal t) := by
  have hskip : ∀ {e : Expr}, e.inner = [] → e.DrawnFrom tokens →
      Copies tokens (DrawnExpr tokens) (do skip; return e) := fun hleaf he =>
    copies_skip.bind fun _ _ => copies_pure (drawnExpr_of_leaf hleaf he)
  cases hk : t.kind with
  | number =>
    have hmem := ht (by rw [hk]; decide)
    have hnumeral := hspelled t hmem
    rw [hk] at hnumeral
    obtain ⟨v, hv, hform⟩ := exists_number_of_isNumeral hnumeral
    simp only [literal, hk, hv]
    exact hskip rfl hform
  | string =>
    have hmem := ht (by rw [hk]; decide)
    have hquoted := hspelled t hmem
    rw [hk] at hquoted
    obtain ⟨hquote, hlexeme⟩ := unquote_of_isQuoted hquoted
    simp only [literal, hk]
    exact hskip rfl ⟨hquote, t, hmem, hk, rfl, hlexeme⟩
  | identifier =>
    have hname := hspelled t (ht (by rw [hk]; decide))
    rw [hk] at hname
    simp only [literal, hk]
    exact hskip rfl hname
  | trueWord | falseWord | nilWord =>
    simp only [literal, hk]
    exact hskip rfl trivial
  | _ =>
    simp only [literal, hk]
    exact copies_fail _ rfl

/-- The productions of expressions copy from the tokens. -/
structure CopiesExpr (tokens : List Token) (n : Nat) : Prop where
  expression : Copies tokens (DrawnExpr tokens) (expression n)
  binary : ∀ level, Copies tokens (DrawnExpr tokens) (binary n level)
  binaryRest : ∀ level left, DrawnExpr tokens left →
    Copies tokens (DrawnExpr tokens) (binaryRest n level left)
  unary : Copies tokens (DrawnExpr tokens) (unary n)
  call : Copies tokens (DrawnExpr tokens) (call n)
  callRest : ∀ callee, DrawnExpr tokens callee →
    Copies tokens (DrawnExpr tokens) (callRest n callee)
  arguments : Copies tokens (fun es => AllDrawn tokens (Expr.partsAll es)) (arguments n)
  argumentList : ∀ count,
    Copies tokens (fun es => AllDrawn tokens (Expr.partsAll es)) (argumentList n count)
  primary : Copies tokens (DrawnExpr tokens) (primary n)

namespace CopiesExpr

variable {n : Nat} (ih : CopiesExpr tokens n)
include ih

/-- Only a name is assigned to, and it is the target as it was drawn. -/
theorem copies_expression : Copies tokens (DrawnExpr tokens) (Parser.expression (n + 1)) := by
  refine (ih.binary 0).bind fun target htarget => .branch (copies_accept _) ?_ (copies_pure htarget)
  refine ih.expression.bind fun value hvalue => ?_
  cases target with
  | name mark name =>
    have hname : IsName name := htarget _ (Expr.self_mem_parts (.name mark name))
    exact copies_pure (hvalue.concat hname)
  | _ => exact copies_fail _ rfl

theorem copies_binary (level : Nat) :
    Copies tokens (DrawnExpr tokens) (Parser.binary (n + 1) level) := by
  unfold Parser.binary
  split
  · exact (ih.binary (level + 1)).bind fun left hleft => ih.binaryRest level left hleft
  · exact ih.unary

/-- The logical `not` has no level. -/
theorem copies_binaryRest (level : Nat) (left : Expr) (hleft : DrawnExpr tokens left) :
    Copies tokens (DrawnExpr tokens) (Parser.binaryRest (n + 1) level left) := by
  refine (copies_takeOperator _).bind fun found hfound => ?_
  cases found with
  | none => exact copies_pure hleft
  | some op =>
    obtain ⟨kind, hkind⟩ := hfound op rfl
    have hop : op ≠ .negate := by
      rintro rfl
      have hlevel := (Option.filter_eq_some_iff.mp hkind).2
      cases of_decide_eq_true hlevel
    refine (ih.binary (level + 1)).bind fun right hright => ?_
    exact ih.binaryRest level _ ((hleft.append hright).concat hop)

theorem copies_unary : Copies tokens (DrawnExpr tokens) (Parser.unary (n + 1)) := by
  refine copies_current.bind fun first _ => (copies_takeOperator _).bind fun found hfound => ?_
  cases found with
  | none => exact ih.call
  | some op =>
    obtain ⟨kind, hkind⟩ := hfound op rfl
    have hop : op = .negate ∨ op = .subtract := by
      cases kind <;> cases hkind
      · exact .inr rfl
      · exact .inl rfl
    exact ih.unary.bind fun operand hoperand => copies_pure (hoperand.concat hop)

theorem copies_call : Copies tokens (DrawnExpr tokens) (Parser.call (n + 1)) :=
  ih.primary.bind fun callee hcallee => ih.callRest callee hcallee

theorem copies_callRest (callee : Expr) (hcallee : DrawnExpr tokens callee) :
    Copies tokens (DrawnExpr tokens) (Parser.callRest (n + 1) callee) := by
  refine .branch (copies_accept _) ?_ (copies_pure hcallee)
  exact ih.arguments.bind fun args hargs =>
    ih.callRest _ ((hcallee.append hargs).concat trivial)

theorem copies_arguments :
    Copies tokens (fun es => AllDrawn tokens (Expr.partsAll es)) (Parser.arguments (n + 1)) := by
  refine .branch (copies_accept _) (copies_pure .nil) ?_
  refine (ih.argumentList 0).bind fun args hargs => ?_
  exact (copies_expect (by decide)).bind fun _ _ => copies_pure hargs

theorem copies_argumentList (count : Nat) :
    Copies tokens (fun es => AllDrawn tokens (Expr.partsAll es))
      (Parser.argumentList (n + 1) count) := by
  unfold Parser.argumentList
  split
  · exact copies_current.bind fun _ _ => copies_fail _ rfl
  · refine ih.expression.bind fun arg harg => .branch (copies_accept _) ?_ (copies_pure ?_)
    · exact (ih.argumentList (count + 1)).bind fun rest hrest => copies_pure (harg.append hrest)
    · exact harg.append .nil

theorem copies_primary (hspelled : AllSpelled tokens) :
    Copies tokens (DrawnExpr tokens) (Parser.primary (n + 1)) := by
  refine copies_current.bind fun token htoken => ?_
  split
  · refine copies_skip.bind fun _ _ => ih.expression.bind fun inner hinner => ?_
    exact (copies_expect (by decide)).bind fun _ _ => copies_pure (hinner.concat trivial)
  · exact copies_literal hspelled htoken

end CopiesExpr

theorem copiesExpr (hspelled : AllSpelled tokens) (n : Nat) : CopiesExpr tokens n := by
  induction n with
  | zero => constructor <;> intros <;> exact copies_spent
  | succ n ih =>
    exact ⟨ih.copies_expression, ih.copies_binary, ih.copies_binaryRest, ih.copies_unary,
      ih.copies_call, ih.copies_callRest, ih.copies_arguments, ih.copies_argumentList,
      ih.copies_primary hspelled⟩

/-- All nodes of a statement are drawn from the tokens. -/
def DrawnStmt (tokens : List Token) (s : Stmt) : Prop := AllDrawn tokens s.parts

section

variable (hspelled : AllSpelled tokens) (n : Nat)
include hspelled

theorem isName_of_identifier {t : Token} (ht : t ∈ tokens ∧ t.kind = .identifier) :
    IsName t.lexeme := by
  have hname := hspelled t ht.1
  rwa [ht.2] at hname

theorem copies_optionalExpression (stop : TokenKind) :
    Copies tokens (fun e => AllDrawn tokens (Expr.partsOption e)) (optionalExpression n stop) := by
  refine .branch (copies_sees _) (copies_pure .nil) ?_
  exact (copiesExpr hspelled n).expression.bind fun e he => copies_pure he

theorem copies_varDeclaration : Copies tokens (DrawnStmt tokens) (varDeclaration n) := by
  refine copies_current.bind fun first _ => copies_skip.bind fun _ _ => ?_
  refine (copies_expect (by decide)).bind fun name hname => ?_
  have hfinish : ∀ init, DrawnExpr tokens init → Copies tokens (DrawnStmt tokens)
      (do let _ ← expect .semicolon; return .var first.position name.lexeme init) :=
    fun init hinit => (copies_expect (by decide)).bind fun _ _ =>
      copies_pure (hinit.concat (isName_of_identifier hspelled hname))
  refine .branch (copies_accept _) ((copiesExpr hspelled n).expression.bind hfinish) ?_
  exact hfinish _ (drawnExpr_of_leaf (e := .nil _) rfl trivial)

theorem copies_expressionStatement : Copies tokens (DrawnStmt tokens) (expressionStatement n) := by
  refine (copiesExpr hspelled n).expression.bind fun value hvalue => ?_
  exact (copies_expect (by decide)).bind fun _ _ => copies_pure (hvalue.concat trivial)

theorem copies_condition : Copies tokens (DrawnExpr tokens) (condition n) := by
  refine (copies_expect (by decide)).bind fun _ _ => ?_
  refine (copiesExpr hspelled n).expression.bind fun cond hcond => ?_
  exact (copies_expect (by decide)).bind fun _ _ => copies_pure hcond

theorem copies_loopInit :
    Copies tokens (fun s => AllDrawn tokens (Stmt.partsOption s)) (loopInit n) := by
  refine copies_current.bind fun first _ => ?_
  split
  · exact copies_skip.bind fun _ _ => copies_pure .nil
  · exact (copies_varDeclaration hspelled n).bind fun init hinit => copies_pure hinit
  · exact (copies_expressionStatement hspelled n).bind fun init hinit => copies_pure hinit

theorem copies_parameterList (count : Nat) :
    Copies tokens (fun names => ∀ name ∈ names, IsName name) (parameterList n count) := by
  induction n generalizing count with
  | zero => exact copies_spent
  | succ n ih =>
    unfold parameterList
    split
    · exact copies_current.bind fun _ _ => copies_fail _ rfl
    · refine (copies_expect (by decide)).bind fun param hparam => ?_
      have hname := isName_of_identifier hspelled hparam
      refine .branch (copies_accept _) ?_ (copies_pure (by simpa using hname))
      exact (ih (count + 1)).bind fun rest hrest =>
        copies_pure (List.forall_mem_cons.mpr ⟨hname, hrest⟩)

theorem copies_parameters :
    Copies tokens (fun names => ∀ name ∈ names, IsName name) (parameters n) := by
  refine (copies_expect (by decide)).bind fun _ _ => ?_
  refine .branch (copies_accept _) (copies_pure nofun) ?_
  refine (copies_parameterList hspelled n 0).bind fun params hparams => ?_
  exact (copies_expect (by decide)).bind fun _ _ => copies_pure hparams

end

/-- The productions of statements copy from the tokens. -/
structure CopiesStmt (tokens : List Token) (n : Nat) : Prop where
  statement : ∀ inFunction, Copies tokens (DrawnStmt tokens) (statement inFunction n)
  declaration : ∀ inFunction, Copies tokens (DrawnStmt tokens) (declaration inFunction n)
  blockBody : ∀ inFunction,
    Copies tokens (fun ss => AllDrawn tokens (Stmt.partsAll ss)) (blockBody inFunction n)

namespace CopiesStmt

variable {n : Nat} (ih : CopiesStmt tokens n) (hspelled : AllSpelled tokens) (inFunction : Bool)
include ih

theorem copies_blockBody : Copies tokens (fun ss => AllDrawn tokens (Stmt.partsAll ss))
    (Parser.blockBody inFunction (n + 1)) := by
  refine .branch (copies_accept _) (copies_pure .nil) (copies_current.bind fun first _ => ?_)
  split
  · exact copies_fail _ rfl
  · refine (ih.declaration inFunction).bind fun s hs => ?_
    exact (ih.blockBody inFunction).bind fun rest hrest => copies_pure (hs.append hrest)

include hspelled

theorem copies_statement :
    Copies tokens (DrawnStmt tokens) (Parser.statement inFunction (n + 1)) := by
  have hexpression := (copiesExpr hspelled n).expression
  refine copies_current.bind fun first _ => ?_
  dsimp only
  split
  · refine copies_skip.bind fun _ _ => hexpression.bind fun value hvalue => ?_
    exact (copies_expect (by decide)).bind fun _ _ => copies_pure (hvalue.concat trivial)
  · refine copies_skip.bind fun _ _ => (ih.blockBody inFunction).bind fun body hbody => ?_
    exact copies_pure (hbody.concat trivial)
  · refine copies_skip.bind fun _ _ => (copies_condition hspelled n).bind fun cond hcond => ?_
    refine (ih.statement inFunction).bind fun yes hyes => .branch (copies_accept _) ?_ ?_
    · exact (ih.statement inFunction).bind fun no hno =>
        copies_pure (((hcond.append hyes).append hno).concat trivial)
    · exact copies_pure (((hcond.append hyes).append .nil).concat trivial)
  · refine copies_skip.bind fun _ _ => (copies_condition hspelled n).bind fun cond hcond => ?_
    exact (ih.statement inFunction).bind fun body hbody =>
      copies_pure ((hcond.append hbody).concat trivial)
  · refine copies_skip.bind fun _ _ => (copies_expect (by decide)).bind fun _ _ => ?_
    refine (copies_loopInit hspelled n).bind fun init hinit => ?_
    refine (copies_optionalExpression hspelled n _).bind fun cond hcond => ?_
    refine (copies_expect (by decide)).bind fun _ _ => ?_
    refine (copies_optionalExpression hspelled n _).bind fun increment hincrement => ?_
    refine (copies_expect (by decide)).bind fun _ _ => ?_
    exact (ih.statement inFunction).bind fun body hbody =>
      copies_pure ((((hinit.append hcond).append hbody).append hincrement).concat trivial)
  · split
    · refine copies_skip.bind fun _ _ => ?_
      refine (copies_optionalExpression hspelled n _).bind fun value hvalue => ?_
      exact (copies_expect (by decide)).bind fun _ _ => copies_pure (hvalue.concat trivial)
    · exact copies_fail _ rfl
  · exact copies_expressionStatement hspelled n

theorem copies_declaration :
    Copies tokens (DrawnStmt tokens) (Parser.declaration inFunction (n + 1)) := by
  refine copies_current.bind fun first _ => ?_
  split
  · refine copies_skip.bind fun _ _ => (copies_expect (by decide)).bind fun name hname => ?_
    refine (copies_parameters hspelled n).bind fun params hparams => ?_
    refine (copies_expect (by decide)).bind fun _ _ => (ih.blockBody true).bind fun body hbody => ?_
    exact copies_pure (hbody.concat ⟨isName_of_identifier hspelled hname, hparams, rfl⟩)
  · exact copies_varDeclaration hspelled n
  · exact ih.statement inFunction

end CopiesStmt

theorem copiesStmt (hspelled : AllSpelled tokens) (n : Nat) : CopiesStmt tokens n := by
  induction n with
  | zero => constructor <;> intros <;> exact copies_spent
  | succ n ih =>
    exact ⟨ih.copies_statement hspelled, ih.copies_declaration hspelled, ih.copies_blockBody⟩

theorem copies_program (hspelled : AllSpelled tokens) (n : Nat) :
    Copies tokens (fun p => AllDrawn tokens (Stmt.partsAll p)) (program n) := by
  induction n with
  | zero => exact copies_spent
  | succ n ih =>
    refine .branch (copies_sees _) (copies_pure .nil) ?_
    refine ((copiesStmt hspelled n).declaration false).bind fun s hs => ?_
    exact ih.bind fun rest hrest => copies_pure (hs.append hrest)

end Parser

/-- What is scanned is spelled as its kind says, with comments or without. -/
theorem allSpelled_of_scan {source : String} {tokens : List Token}
    (h : scan source = .ok tokens ∨ scanWithComments source = .ok tokens) :
    Grammar.AllSpelled tokens := by
  have hall : ∀ {found}, scanWithComments source = .ok found → Grammar.AllSpelled found := by
    intro found hscan
    obtain ⟨body, stop, rfl, hbody⟩ := Scanner.tokensFrom_eq_ok hscan
    rw [List.reverse_nil, List.nil_append]
    exact List.forall_mem_append.mpr
      ⟨fun t ht => (hbody t ht).1, List.forall_mem_singleton.mpr trivial⟩
  rcases h with h | h
  · unfold scan at h
    cases hscan : scanWithComments source with
    | error e =>
      rw [hscan] at h
      cases h
    | ok found =>
      rw [hscan] at h
      cases h
      exact fun t ht => hall hscan t (List.mem_of_mem_filter ht)
  · exact hall h

theorem Stream.tokens_ofTokens_subset (tokens : List Token) :
    (Stream.ofTokens tokens).tokens ⊆ tokens :=
  fun _ ht => (List.takeWhile_prefix _).subset (List.mem_of_mem_filter ht)

/-- The tokens of a source text, with comments or without, are never refused for a number.
In the tree that they are parsed to, each number is neither negative nor a NaN, each string
holds no quote and is what stands between the quotes of its token, each name is a word that
is no keyword, each unary operator is one of the two signs, no binary operator is the logical
`not`, and no function declares a result type. -/
theorem parse_scanned_contents {source : String} {tokens : List Token}
    (h : scan source = .ok tokens ∨ scanWithComments source = .ok tokens) :
    (∀ e, parse tokens = .error e → ∀ lexeme, e.cause ≠ .numberConversion lexeme) ∧
      ∀ p, parse tokens = .ok p → ∀ part ∈ Stmt.partsAll p, part.DrawnFrom tokens := by
  have hcopied := Parser.copies_program (allSpelled_of_scan h) (Stream.ofTokens tokens).budget
    (.ofTokens tokens) (Stream.tokens_ofTokens_subset tokens)
  constructor
  · intro e he
    rw [parse_eq_error_iff.mp he] at hcopied
    intro lexeme hcause
    rw [Parser.Copied, hcause] at hcopied
    cases hcopied
  · intro p hp
    obtain ⟨rest, hreply⟩ := parse_eq_ok_iff.mp hp
    rw [hreply] at hcopied
    exact hcopied.2

/-- Literals, names and operators of several forms. -/
def mixedSource : String := "fun f(x) \x7b return -x; \x7d y = !f(0.0) != \"a b\";"

/-- The tokens of `mixedSource`. -/
def mixedTokens : List Token :=
  match scan mixedSource with
  | .ok tokens => tokens
  | .error _ => []

def mixedTree : Program :=
  [.function ⟨1, 1⟩ "f" ["x"]
      [.ret ⟨1, 12⟩ (some (.unary (.unchecked ⟨1, 19⟩) .subtract
        (.name (.unchecked ⟨1, 20⟩) "x")))] .any,
    .expression ⟨1, 25⟩ (.assign (.unchecked ⟨1, 25⟩) "y"
      (.binary (.unchecked ⟨1, 29⟩) .notEqual
        (.unary (.unchecked ⟨1, 29⟩) .negate
          (.call (.unchecked ⟨1, 30⟩) (.name (.unchecked ⟨1, 30⟩) "f")
            [.number (.unchecked ⟨1, 32⟩) ⟨0⟩]))
        (.string (.unchecked ⟨1, 40⟩) "a b")))]

theorem scan_mixedSource : scan mixedSource = .ok mixedTokens := by cbv

theorem parse_mixedTokens : parse mixedTokens = .ok mixedTree := by cbv

theorem parse_scanned_contents_mixed :
    scan mixedSource = .ok mixedTokens ∧ parse mixedTokens = .ok mixedTree ∧
      ∀ part ∈ Stmt.partsAll mixedTree, part.DrawnFrom mixedTokens :=
  ⟨scan_mixedSource, parse_mixedTokens,
    (parse_scanned_contents (.inl scan_mixedSource)).2 _ parse_mixedTokens⟩

end GradualScript
