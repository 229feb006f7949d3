import GradualScript.Proofs.Grammar.Steps

/-!
# One token of lookahead

A parser looks at the tokens that it takes and at the one after them, and at nothing else:
on every stream that starts with these tokens it does the same, and with every larger
budget too. If it fails for want of another token, that one token is the bad one.
-/
namespace GradualScript

/-- The kind of token that was found where another one, or an expression, was required. -/
def ParseFault.found? : ParseFault → Option TokenKind
  | unexpectedToken _ found => some found
  | missingTerminal found => some found
  | _ => none

namespace Stream

/-- The end is no token of the stream. -/
def Closed (s : Stream) : Prop := ∀ t ∈ s.tokens, t.kind ≠ .endOfFile

variable {s s' : Stream} {ts : List Token}

/-- Tokens put in front must be no ends of input themselves. -/
theorem closed_prepend : (s.prepend ts).Closed ↔ (∀ t ∈ ts, t.kind ≠ .endOfFile) ∧ s.Closed :=
  List.forall_mem_append

/-- Before streams that show the same token, the same tokens show the same token. -/
theorem current_prepend_congr (h : s'.current = s.current) (ts : List Token) :
    (s'.prepend ts).current = (s.prepend ts).current := by
  cases ts with
  | nil => exact h
  | cons t ts => rfl

/-- At its end a closed stream has no tokens left. -/
theorem Closed.next_eq_self (hs : s.Closed) (h : s.current.kind = .endOfFile) : s.next = s := by
  obtain ⟨ts, stop⟩ := s
  cases ts with
  | nil => rfl
  | cons t ts => exact absurd h (hs t List.mem_cons_self)

end Stream

namespace Parser

variable {α β : Type} {s : Stream}

/-- The reply was given after some tokens of the stream were taken. The parser `q` gives it on
every stream that starts with these and then shows the same token. -/
inductive Repeated (q : Parser Stream α) (s : Stream) : Reply Stream α → Prop
  | done {a : α} {rest : Stream} {ts : List Token} : s = rest.prepend ts →
      (∀ s' : Stream, s'.Closed → s'.current = rest.current → q (s'.prepend ts) = .done a s') →
      Repeated q s (.done a rest)
  | failed {e : ParseError} {rest : Stream} {ts : List Token} : s = rest.prepend ts →
      (∀ kind, e.cause.found? = some kind →
        rest.current.kind = kind ∧ rest.current.position = e.position) →
      (∀ s' : Stream, s'.Closed → s'.current = rest.current → q (s'.prepend ts) = .failed e) →
      Repeated q s (.failed e)
  | spent : Repeated q s .spent

/-- What `p` does, `q` does wherever it sees the same tokens. -/
def Repeats (p q : Parser Stream α) : Prop := ∀ s : Stream, s.Closed → Repeated q s (p s)

/-- Tokens in front of what is repeated, which lead there from every such stream. -/
theorem Repeated.prepend {q g : Parser Stream α} {mid : Stream} {ts : List Token}
    {reply : Reply Stream α} (h : Repeated g mid reply) (hmid : mid.Closed)
    (hq : ∀ s' : Stream, s'.Closed → s'.current = mid.current → q (s'.prepend ts) = g s') :
    Repeated q (mid.prepend ts) reply := by
  cases h with
  | spent => exact .spent
  | @failed e rest us hsplit hfound hg =>
    subst hsplit
    refine .failed (Stream.prepend_prepend ..) hfound fun s' hs' hcurrent => ?_
    have hclosed := Stream.closed_prepend.mpr ⟨(Stream.closed_prepend.mp hmid).1, hs'⟩
    rw [← Stream.prepend_prepend, hq _ hclosed (Stream.current_prepend_congr hcurrent us)]
    exact hg s' hs' hcurrent
  | @done a rest us hsplit hg =>
    subst hsplit
    refine .done (Stream.prepend_prepend ..) fun s' hs' hcurrent => ?_
    have hclosed := Stream.closed_prepend.mpr ⟨(Stream.closed_prepend.mp hmid).1, hs'⟩
    rw [← Stream.prepend_prepend, hq _ hclosed (Stream.current_prepend_congr hcurrent us)]
    exact hg s' hs' hcurrent

/-- A parser gives the reply that it repeats. -/
theorem Repeated.eq {q : Parser Stream α} {reply : Reply Stream α} (h : Repeated q s reply)
    (hs : s.Closed) (hne : reply ≠ .spent) : q s = reply := by
  cases h with
  | spent => exact absurd rfl hne
  | done hsplit hq | failed hsplit _ hq =>
    subst hsplit
    exact hq _ (Stream.closed_prepend.mp hs).2 rfl

/-- The second part sees the same front that it saw before. -/
theorem Repeats.bind {p q : Parser Stream α} {f g : α → Parser Stream β} (h : Repeats p q)
    (hf : ∀ a, Repeats (f a) (g a)) : Repeats (p >>= f) (q >>= g) := by
  intro s hs
  have hp := h s hs
  change Repeated _ s (Parser.bind p f s)
  unfold Parser.bind
  generalize p s = reply at hp
  cases hp with
  | spent => exact .spent
  | failed hsplit hfound hq =>
    refine .failed hsplit hfound fun s' hs' hcurrent => ?_
    change Parser.bind q g _ = _
    rw [Parser.bind, hq s' hs' hcurrent]
  | @done a mid ts hsplit hq =>
    subst hsplit
    have hmid := (Stream.closed_prepend.mp hs).2
    exact (hf a mid hmid).prepend hmid fun s' hs' hcurrent => bind_done (hq s' hs' hcurrent)

/-- A parser that takes nothing is repeated anywhere. -/
theorem repeats_pure (a : α) : Repeats (pure a) (pure a) :=
  fun _ _ => .done (Stream.prepend_nil _).symm fun _ _ _ => rfl

theorem repeats_spent (q : Parser Stream α) : Repeats spent q := fun _ _ => .spent

theorem repeats_fail {cause : ParseFault} (position : Position) (h : cause.found? = none) :
    Repeats (fail cause position : Parser Stream α) (fail cause position) :=
  fun _ _ => .failed (Stream.prepend_nil _).symm (fun _ hfound => nomatch h.symm.trans hfound)
    fun _ _ _ => rfl

/-- A failure at the token at the front. -/
theorem repeated_fail {cause : ParseFault}
    (h : ∀ kind, cause.found? = some kind → s.current.kind = kind) :
    Repeated (fail cause s.current.position : Parser Stream α) s (fail cause s.current.position s) :=
  .failed (Stream.prepend_nil _).symm (fun kind hkind => ⟨h kind hkind, rfl⟩) fun _ _ _ => rfl

/-- The token at the front, which the rest of the parser goes by. -/
theorem Repeats.current {f g : Token → Parser Stream α}
    (h : ∀ s : Stream, s.Closed → Repeated (g s.current) s (f s.current s)) :
    Repeats (Parser.current >>= f) (Parser.current >>= g) := by
  intro s hs
  have hfront : ∀ s' : Stream, s'.Closed → s'.current = s.current →
      (Parser.current >>= g) (s'.prepend []) = g s.current s' := by
    intro s' _ hcurrent
    rw [← hcurrent]
    rfl
  exact (h s hs).prepend hs hfront

theorem repeats_current : Repeats Parser.current Parser.current := by
  refine fun s _ => .done (Stream.prepend_nil s).symm fun s' _ hcurrent => ?_
  rw [Stream.prepend_nil, current_done, hcurrent]
  rfl

theorem repeats_skip : Repeats skip skip := by
  intro s hs
  by_cases hend : s.current.kind = .endOfFile
  · have hstays : skip s = .done () s := congrArg (Reply.done ()) (hs.next_eq_self hend)
    rw [hstays]
    refine .done (Stream.prepend_nil s).symm fun s' hs' hcurrent => ?_
    exact congrArg (Reply.done ()) (hs'.next_eq_self (hcurrent ▸ hend))
  · exact .done (Stream.eq_prepend_current hend) fun _ _ _ => rfl

theorem repeats_sees (kind : TokenKind) : Repeats (sees kind) (sees kind) := by
  refine fun s _ => .done (Stream.prepend_nil s).symm fun s' _ hcurrent => ?_
  rw [Stream.prepend_nil, sees_eq, hcurrent]
  rfl

/-- The test looks at the first token only. -/
theorem repeats_accept {kind : TokenKind} (hk : kind ≠ .endOfFile) :
    Repeats (accept kind) (accept kind) := by
  intro s _
  rw [accept_eq]
  split
  · next h => exact .done (Stream.eq_prepend_current (h ▸ hk)) fun _ _ _ => if_pos h
  · next h =>
    refine .done (Stream.prepend_nil s).symm fun s' _ hcurrent => ?_
    rw [Stream.prepend_nil, accept_not_done (hcurrent ▸ h)]

theorem repeats_expect {kind : TokenKind} (hk : kind ≠ .endOfFile) :
    Repeats (expect kind) (expect kind) := by
  intro s _
  rw [expect_eq]
  split
  · next h => exact .done (Stream.eq_prepend_current (h ▸ hk)) fun _ _ _ => if_pos h
  · next h =>
    refine .failed (Stream.prepend_nil s).symm (fun found hfound => ?_) fun s' _ hcurrent => ?_
    · cases hfound
      exact ⟨rfl, rfl⟩
    · rw [Stream.prepend_nil, expect_eq, hcurrent, if_neg h]

theorem repeats_takeOperator {operator? : TokenKind → Option Operator}
    (hnone : operator? .endOfFile = none) :
    Repeats (takeOperator operator?) (takeOperator operator?) := by
  intro s _
  rw [takeOperator_eq]
  split
  · next op hop =>
    have hk : s.current.kind ≠ .endOfFile := by
      intro hend
      rw [hend, hnone] at hop
      cases hop
    refine .done (Stream.eq_prepend_current hk) fun s' _ _ => ?_
    rw [takeOperator_eq, Stream.current_prepend_cons, hop]
    rfl
  · next hop =>
    refine .done (Stream.prepend_nil s).symm fun s' _ hcurrent => ?_
    rw [Stream.prepend_nil, takeOperator_eq, hcurrent, hop]

/-- A parser that looks which way to go. -/
theorem Repeats.branch {test : Parser Stream Bool} {p q p' q' : Parser Stream α}
    (htest : Repeats test test) (hp : Repeats p p') (hq : Repeats q q') :
    Repeats (do if ← test then p else q) (do if ← test then p' else q') := by
  refine htest.bind fun b => ?_
  cases b with
  | true => exact hp
  | false => exact hq

/-- A literal fails at the token that it would have taken. -/
theorem repeated_literal (hs : s.Closed) :
    Repeated (literal s.current) s (literal s.current s) := by
  have hskip : ∀ {e : Expr}, Repeated (do skip; return e) s ((do skip; return e : Parser Stream Expr) s) :=
    fun {e} => (repeats_skip.bind fun _ => repeats_pure e) s hs
  cases hk : s.current.kind with
  | number =>
    simp only [literal, hk]
    cases Number.read? s.current.lexeme with
    | some value => exact hskip
    | none => exact repeated_fail nofun
  | string | trueWord | falseWord | nilWord | identifier =>
    simp only [literal, hk]
    exact hskip
  | _ =>
    simp only [literal, hk]
    refine repeated_fail fun found hfound => ?_
    cases hfound
    exact hk

/-- What the productions of expressions do with `n` steps, they do with `m` steps. -/
structure RepeatsExpr (n m : Nat) : Prop where
  expression : Repeats (expression n) (expression m)
  binary : ∀ level, Repeats (binary n level) (binary m level)
  binaryRest : ∀ level left, Repeats (binaryRest n level left) (binaryRest m level left)
  unary : Repeats (unary n) (unary m)
  call : Repeats (call n) (call m)
  callRest : ∀ callee, Repeats (callRest n callee) (callRest m callee)
  arguments : Repeats (arguments n) (arguments m)
  argumentList : ∀ count, Repeats (argumentList n count) (argumentList m count)
  primary : Repeats (primary n) (primary m)

namespace RepeatsExpr

variable {n m : Nat}

theorem repeats_expression (h : RepeatsExpr n m) :
    Repeats (Parser.expression (n + 1)) (Parser.expression (m + 1)) := by
  refine (h.binary 0).bind fun target =>
    (repeats_accept (by decide)).branch ?_ (repeats_pure target)
  refine h.expression.bind fun value => ?_
  cases target with
  | name => exact repeats_pure _
  | _ => exact repeats_fail _ rfl

theorem repeats_binary (h : RepeatsExpr n m) (level : Nat) :
    Repeats (Parser.binary (n + 1) level) (Parser.binary (m + 1) level) := by
  unfold Parser.binary
  split
  · exact (h.binary (level + 1)).bind fun left => h.binaryRest level left
  · exact h.unary

theorem repeats_binaryRest (h : RepeatsExpr n m) (level : Nat) (left : Expr) :
    Repeats (Parser.binaryRest (n + 1) level left) (Parser.binaryRest (m + 1) level left) := by
  refine (repeats_takeOperator rfl).bind fun op => ?_
  cases op with
  | none => exact repeats_pure left
  | some op => exact (h.binary (level + 1)).bind fun right => h.binaryRest level _

theorem repeats_unary (h : RepeatsExpr n m) :
    Repeats (Parser.unary (n + 1)) (Parser.unary (m + 1)) := by
  refine .current fun s hs => Repeats.bind (repeats_takeOperator rfl) (fun op => ?_) s hs
  cases op with
  | none => exact h.call
  | some op => exact h.unary.bind fun operand => repeats_pure _

theorem repeats_call (h : RepeatsExpr n m) : Repeats (Parser.call (n + 1)) (Parser.call (m + 1)) :=
  h.primary.bind fun callee => h.callRest callee

theorem repeats_callRest (h : RepeatsExpr n m) (callee : Expr) :
    Repeats (Parser.callRest (n + 1) callee) (Parser.callRest (m + 1) callee) :=
  (repeats_accept (by decide)).branch (h.arguments.bind fun _ => h.callRest _) (repeats_pure callee)

theorem repeats_arguments (h : RepeatsExpr n m) :
    Repeats (Parser.arguments (n + 1)) (Parser.arguments (m + 1)) :=
  (repeats_accept (by decide)).branch (repeats_pure []) <|
    (h.argumentList 0).bind fun args => (repeats_expect (by decide)).bind fun _ => repeats_pure args

theorem repeats_argumentList (h : RepeatsExpr n m) (count : Nat) :
    Repeats (Parser.argumentList (n + 1) count) (Parser.argumentList (m + 1) count) := by
  unfold Parser.argumentList
  split
  · exact .current fun s hs => repeats_fail _ rfl s hs
  · refine h.expression.bind fun arg => (repeats_accept (by decide)).branch ?_ (repeats_pure [arg])
    exact (h.argumentList (count + 1)).bind fun rest => repeats_pure (arg :: rest)

theorem repeats_primary (h : RepeatsExpr n m) :
    Repeats (Parser.primary (n + 1)) (Parser.primary (m + 1)) := by
  refine .current fun s hs => ?_
  split
  · exact Repeats.bind repeats_skip (fun _ => h.expression.bind fun inner =>
      (repeats_expect (by decide)).bind fun _ => repeats_pure _) s hs
  · exact repeated_literal hs

end RepeatsExpr

/-- By induction on the smaller budget. -/
theorem repeatsExpr {n m : Nat} (h : n ≤ m) : RepeatsExpr n m := by
  induction n generalizing m with
  | zero => constructor <;> intros <;> exact repeats_spent _
  | succ n ih =>
    obtain ⟨m, rfl⟩ := Nat.exists_eq_succ_of_ne_zero (n := m) (by omega)
    have ih := ih (Nat.le_of_succ_le_succ h)
    exact ⟨ih.repeats_expression, ih.repeats_binary, ih.repeats_binaryRest, ih.repeats_unary,
      ih.repeats_call, ih.repeats_callRest, ih.repeats_arguments, ih.repeats_argumentList,
      ih.repeats_primary⟩

section

variable {n m : Nat}

theorem repeats_optionalExpression (h : n ≤ m) (stop : TokenKind) :
    Repeats (optionalExpression n stop) (optionalExpression m stop) :=
  (repeats_sees stop).branch (repeats_pure none) <|
    (repeatsExpr h).expression.bind fun e => repeats_pure (some e)

theorem repeats_varDeclaration (h : n ≤ m) : Repeats (varDeclaration n) (varDeclaration m) := by
  refine repeats_current.bind fun first => repeats_skip.bind fun _ => ?_
  refine (repeats_expect (by decide)).bind fun name => ?_
  refine (repeats_accept (by decide)).bind fun valued => ?_
  let finish : Expr → Parser Stream Stmt := fun init => do
    let _ ← expect .semicolon
    return .var first.position name.lexeme init
  have hfinish : ∀ init, Repeats (finish init) (finish init) :=
    fun _ => (repeats_expect (by decide)).bind fun _ => repeats_pure _
  cases valued with
  | true => exact (repeatsExpr h).expression.bind hfinish
  | false => exact (repeats_pure _).bind hfinish

theorem repeats_expressionStatement (h : n ≤ m) :
    Repeats (expressionStatement n) (expressionStatement m) :=
  (repeatsExpr h).expression.bind fun _ => (repeats_expect (by decide)).bind fun _ => repeats_pure _

theorem repeats_condition (h : n ≤ m) : Repeats (condition n) (condition m) :=
  (repeats_expect (by decide)).bind fun _ => (repeatsExpr h).expression.bind fun cond =>
    (repeats_expect (by decide)).bind fun _ => repeats_pure cond

theorem repeats_loopInit (h : n ≤ m) : Repeats (loopInit n) (loopInit m) := by
  refine repeats_current.bind fun first => ?_
  obtain ⟨kind, lexeme, position⟩ := first
  cases kind with
  | semicolon => exact repeats_skip.bind fun _ => repeats_pure none
  | varWord => exact (repeats_varDeclaration h).bind fun init => repeats_pure (some init)
  | _ => exact (repeats_expressionStatement h).bind fun init => repeats_pure (some init)

theorem repeats_parameterList (h : n ≤ m) (count : Nat) :
    Repeats (parameterList n count) (parameterList m count) := by
  induction n generalizing m count with
  | zero => exact repeats_spent _
  | succ n ih =>
    obtain ⟨m, rfl⟩ := Nat.exists_eq_succ_of_ne_zero (n := m) (by omega)
    unfold parameterList
    split
    · exact .current fun s hs => repeats_fail _ rfl s hs
    · refine (repeats_expect (by decide)).bind fun param =>
        (repeats_accept (by decide)).branch ?_ (repeats_pure [param.lexeme])
      exact (ih (Nat.le_of_succ_le_succ h) (count + 1)).bind fun rest => repeats_pure _

theorem repeats_parameters (h : n ≤ m) : Repeats (parameters n) (parameters m) :=
  (repeats_expect (by decide)).bind fun _ =>
    (repeats_accept (by decide)).branch (repeats_pure []) <|
      (repeats_parameterList h 0).bind fun params =>
        (repeats_expect (by decide)).bind fun _ => repeats_pure params

end

/-- What the productions of statements do with `n` steps, they do with `m` steps. -/
structure RepeatsStmt (n m : Nat) : Prop where
  statement : ∀ inFunction, Repeats (statement inFunction n) (statement inFunction m)
  declaration : ∀ inFunction, Repeats (declaration inFunction n) (declaration inFunction m)
  blockBody : ∀ inFunction, Repeats (blockBody inFunction n) (blockBody inFunction m)

section

variable {n m : Nat} (h : RepeatsStmt n m) (hle : n ≤ m) (inFunction : Bool)
include h hle

theorem repeats_statement :
    Repeats (statement inFunction (n + 1)) (statement inFunction (m + 1)) := by
  have hexpr := (repeatsExpr hle).expression
  have hbody := h.statement inFunction
  refine repeats_current.bind fun first => ?_
  obtain ⟨kind, lexeme, position⟩ := first
  cases kind with
  | printWord =>
    refine repeats_skip.bind fun _ => hexpr.bind fun value => ?_
    exact (repeats_expect (by decide)).bind fun _ => repeats_pure _
  | leftBrace =>
    exact repeats_skip.bind fun _ => (h.blockBody inFunction).bind fun body => repeats_pure _
  | ifWord =>
    refine repeats_skip.bind fun _ => (repeats_condition hle).bind fun cond => ?_
    refine hbody.bind fun yes => (repeats_accept (by decide)).branch ?_ (repeats_pure _)
    exact hbody.bind fun no => repeats_pure _
  | whileWord =>
    refine repeats_skip.bind fun _ => (repeats_condition hle).bind fun cond => ?_
    exact hbody.bind fun body => repeats_pure _
  | forWord =>
    refine repeats_skip.bind fun _ => (repeats_expect (by decide)).bind fun _ => ?_
    refine (repeats_loopInit hle).bind fun init => ?_
    refine (repeats_optionalExpression hle .semicolon).bind fun cond => ?_
    refine (repeats_expect (by decide)).bind fun _ => ?_
    refine (repeats_optionalExpression hle .rightParen).bind fun increment => ?_
    refine (repeats_expect (by decide)).bind fun _ => ?_
    exact hbody.bind fun body => repeats_pure _
  | returnWord =>
    cases inFunction with
    | true =>
      refine repeats_skip.bind fun _ => ?_
      refine (repeats_optionalExpression hle .semicolon).bind fun value => ?_
      exact (repeats_expect (by decide)).bind fun _ => repeats_pure _
    | false => exact repeats_fail _ rfl
  | _ => exact repeats_expressionStatement hle

theorem repeats_declaration :
    Repeats (declaration inFunction (n + 1)) (declaration inFunction (m + 1)) := by
  refine repeats_current.bind fun first => ?_
  obtain ⟨kind, lexeme, position⟩ := first
  cases kind with
  | funWord =>
    refine repeats_skip.bind fun _ => (repeats_expect (by decide)).bind fun name => ?_
    refine (repeats_parameters hle).bind fun params => ?_
    refine (repeats_expect (by decide)).bind fun _ => ?_
    exact (h.blockBody true).bind fun body => repeats_pure _
  | varWord => exact repeats_varDeclaration hle
  | _ => exact h.statement inFunction

omit hle in
theorem repeats_blockBody :
    Repeats (blockBody inFunction (n + 1)) (blockBody inFunction (m + 1)) := by
  refine (repeats_accept (by decide)).branch (repeats_pure []) (.current fun s hs => ?_)
  split
  · next hend =>
    refine repeated_fail fun found hfound => ?_
    cases hfound
    exact hend
  · exact (h.declaration inFunction).bind (fun first =>
      (h.blockBody inFunction).bind fun rest => repeats_pure (first :: rest)) s hs

end

theorem repeatsStmt {n m : Nat} (h : n ≤ m) : RepeatsStmt n m := by
  induction n generalizing m with
  | zero => constructor <;> intros <;> exact repeats_spent _
  | succ n ih =>
    obtain ⟨m, rfl⟩ := Nat.exists_eq_succ_of_ne_zero (n := m) (by omega)
    have hle := Nat.le_of_succ_le_succ h
    have ih := ih hle
    exact ⟨repeats_statement ih hle, repeats_declaration ih hle, repeats_blockBody ih⟩

/-- A program stops at the end or at its first error, and does so again. -/
theorem repeats_program {n m : Nat} (h : n ≤ m) : Repeats (program n) (program m) := by
  induction n generalizing m with
  | zero => exact repeats_spent _
  | succ n ih =>
    obtain ⟨m, rfl⟩ := Nat.exists_eq_succ_of_ne_zero (n := m) (by omega)
    have hle := Nat.le_of_succ_le_succ h
    refine (repeats_sees .endOfFile).branch (repeats_pure []) ?_
    exact ((repeatsStmt hle).declaration false).bind fun first =>
      (ih hle).bind fun rest => repeats_pure (first :: rest)

end Parser

end GradualScript
