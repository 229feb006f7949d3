import GradualScript.Proofs.Grammar.Leftmost
import GradualScript.Proofs.Grammar.Steps

/-!
# Derived expressions are parsed

A production finds the expression that is derived from the tokens in front of it,
provided that the token after them cannot go on with the expression. The proof is by
induction on the derivation. An operand on the left is derived before its operator is
seen, so for binary operators and calls the statement says how far the loop over what
follows has come.

Each token is worth sixteen steps of the budget: between one token and the next, a
production passes through at most fourteen others.
-/
namespace GradualScript.Grammar

open GradualScript.Parser

/-- The kinds of token that stand after a whole expression. -/
def endsExpression : TokenKind → Bool
  | .rightParen | .semicolon | .comma => true
  | _ => false

/-- No operator of a level tighter than `level` is of this kind, and it opens no
argument list. -/
def Looser (level : Nat) (kind : TokenKind) : Prop :=
  kind ≠ .leftParen ∧ ∀ tighter, level < tighter → binaryOperator? tighter kind = none

theorem binaryOperator?_of_ends {kind : TokenKind} (h : endsExpression kind = true) (level : Nat) :
    binaryOperator? level kind = none := by
  cases kind <;> first | rfl | cases h

theorem looser_of_ends {kind : TokenKind} (h : endsExpression kind = true) (level : Nat) :
    Looser level kind := by
  refine ⟨?_, fun tighter _ => binaryOperator?_of_ends h tighter⟩
  rintro rfl
  cases h

theorem Looser.mono {level tighter : Nat} {kind : TokenKind} (h : Looser level kind)
    (hle : level ≤ tighter) : Looser tighter kind :=
  ⟨h.1, fun l hl => h.2 l (Nat.lt_of_le_of_lt hle hl)⟩

/-- A kind of token is an operator of one level only. -/
theorem IsBinarySign.looser {level : Nat} {kind : TokenKind} {op : Operator}
    (h : IsBinarySign level kind op) : Looser level kind := by
  refine ⟨ne_of_ofKind? h.ofKind?_eq rfl, fun tighter hlt => ?_⟩
  rw [Option.eq_none_iff_forall_ne_some]
  intro other hother
  cases h <;> cases binaryOperator?_eq_some_iff.mp hother <;> omega

theorem binaryOperator?_levels (kind : TokenKind) :
    binaryOperator? Operator.levels kind = none := by
  cases kind <;> rfl

/-- The production of a tier finds `e` in front of every stream that cannot go on with
it, with a budget of sixteen steps for each token. For binary operators and calls it
has found `e` so far, and has steps left to look for more. -/
def Finds : Tier → List Token → Expr → Prop
  | .assignment, ts, e => ∀ n (rest : Stream), endsExpression rest.current.kind = true →
      16 * ts.length ≤ n + 2 → expression n (rest.prepend ts) = .done e rest
  | .binary level, ts, e => ∀ n (rest : Stream), Looser level rest.current.kind →
      16 * ts.length ≤ n + 1 + 3 + level →
      ∃ m, n ≤ m + ts.length ∧ binary (n + 1) level (rest.prepend ts) = binaryRest m level e rest
  | .unary, ts, e => ∀ n (rest : Stream), rest.current.kind ≠ .leftParen →
      16 * ts.length ≤ n + 10 → unary n (rest.prepend ts) = .done e rest
  | .call, ts, e => ∀ n (rest : Stream), 16 * ts.length ≤ n + 1 + 11 →
      ∃ m, n ≤ m + ts.length ∧ call (n + 1) (rest.prepend ts) = callRest m e rest
  | .primary, ts, e => ∀ n (rest : Stream), 16 * ts.length ≤ n + 12 →
      primary n (rest.prepend ts) = .done e rest

theorem binaryRest_done {n level : Nat} {e : Expr} {rest : Stream} (hn : n ≠ 0)
    (h : binaryOperator? level rest.current.kind = none) :
    binaryRest n level e rest = .done e rest := by
  obtain ⟨n, rfl⟩ := Nat.exists_eq_succ_of_ne_zero hn
  rw [binaryRest, bind_done (takeOperator_not_done h)]
  rfl

theorem callRest_done {n : Nat} {e : Expr} {rest : Stream} (hn : n ≠ 0)
    (h : rest.current.kind ≠ .leftParen) : callRest n e rest = .done e rest := by
  obtain ⟨n, rfl⟩ := Nat.exists_eq_succ_of_ne_zero hn
  rw [callRest, bind_done (accept_not_done h)]
  rfl

/-- Where no operator of its own level follows, a level has found the whole operand. -/
theorem Finds.binary_done {level n : Nat} {ts : List Token} {e : Expr} {rest : Stream}
    (h : Finds (.binary level) ts e) (hlevel : level ≤ Operator.levels) (hpos : 0 < ts.length)
    (hrest : Looser level rest.current.kind)
    (hop : binaryOperator? level rest.current.kind = none)
    (hn : 16 * ts.length ≤ n + 3 + level) : binary n level (rest.prepend ts) = .done e rest := by
  have hlevels : Operator.levels = 6 := rfl
  obtain ⟨n, rfl⟩ := Nat.exists_eq_succ_of_ne_zero (n := n) (by omega)
  obtain ⟨m, hm, heq⟩ := h n rest hrest hn
  rw [heq, binaryRest_done (by omega) hop]

theorem finds_literal {t : Token} {e : Expr} (h : IsLiteral t e) : Finds .primary [t] e := by
  intro n rest hn
  obtain ⟨n, rfl⟩ := Nat.exists_eq_succ_of_ne_zero (n := n) (by simp at hn; omega)
  rw [primary]
  change (if t.kind = .leftParen then _ else literal t) (rest.prepend [t]) = _
  rw [if_neg (by cases h <;> simp_all)]
  cases h with
  | number hk hv => simp only [literal, hk, hv]; rfl
  | string hk | trueWord hk | falseWord hk | nilWord hk | name hk => simp only [literal, hk]; rfl

theorem finds_grouping {opening closing : Token} {ts : List Token} {e : Expr}
    (ho : opening.kind = .leftParen) (hc : closing.kind = .rightParen)
    (ih : Finds .assignment ts e) :
    Finds .primary (opening :: (ts ++ [closing]))
      (.grouping (markOf (opening :: (ts ++ [closing]))) e) := by
  intro n rest hn
  simp only [List.length_cons, List.length_append, List.length_nil] at hn
  obtain ⟨n, rfl⟩ := Nat.exists_eq_succ_of_ne_zero (n := n) (by omega)
  have hinner := ih n (rest.prepend [closing]) (by rw [Stream.current_prepend_cons, hc]; rfl)
    (by omega)
  rw [Stream.prepend_prepend] at hinner
  rw [primary]
  change (if opening.kind = .leftParen then _ else literal opening) _ = _
  rw [if_pos ho]
  change (expression n >>= _) (rest.prepend (ts ++ [closing])) = _
  rw [bind_done hinner, bind_done (expect_prepend hc)]
  rfl

theorem finds_atom {ts : List Token} {e : Expr} (ih : Finds .primary ts e) :
    Finds .call ts e := by
  intro n rest hn
  refine ⟨n, by omega, ?_⟩
  rw [call, bind_done (ih n rest (by omega))]

theorem finds_callee {ts : List Token} {e : Expr} (h : IsExpr .call ts e) (ih : Finds .call ts e) :
    Finds .unary ts e := by
  intro n rest hrest hn
  obtain ⟨t, us, rfl, hnone⟩ := h.head_of_call (.inl rfl)
  have hlen : (t :: us).length = us.length + 1 := rfl
  obtain ⟨n, rfl⟩ := Nat.exists_eq_succ_of_ne_zero (n := n) (by omega)
  obtain ⟨n, rfl⟩ := Nat.exists_eq_succ_of_ne_zero (n := n) (by omega)
  obtain ⟨m, hm, heq⟩ := ih n rest (by omega)
  rw [unary]
  change (takeOperator unaryOperator? >>= _) (rest.prepend (t :: us)) = _
  rw [bind_done (takeOperator_not_done hnone)]
  change call (n + 1) _ = _
  rw [heq, callRest_done (by omega) hrest]

theorem finds_unary {op : Operator} {sign : Token} {ts : List Token} {e : Expr}
    (hop : IsUnarySign sign.kind op) (ih : Finds .unary ts e) :
    Finds .unary (sign :: ts) (.unary (markOf (sign :: ts)) op e) := by
  intro n rest hrest hn
  simp only [List.length_cons] at hn
  obtain ⟨n, rfl⟩ := Nat.exists_eq_succ_of_ne_zero (n := n) (by omega)
  rw [unary]
  change (takeOperator unaryOperator? >>= _) (rest.prepend (sign :: ts)) = _
  rw [bind_done (takeOperator_prepend (unaryOperator?_eq_some_iff.mpr hop))]
  change (unary n >>= _) _ = _
  rw [bind_done (ih n rest hrest (by omega))]
  rfl

theorem finds_operand {ts : List Token} {e : Expr} (h : IsExpr .unary ts e)
    (ih : Finds .unary ts e) : Finds (.binary operandLevel) ts e := by
  rw [operandLevel_eq]
  intro n rest hrest hn
  obtain ⟨t, us, rfl, -⟩ := h.head
  have hlevels : Operator.levels = 6 := rfl
  have hlen : (t :: us).length = us.length + 1 := rfl
  refine ⟨n, by omega, ?_⟩
  rw [binary, if_neg (by omega), ih n rest hrest.1 (by omega),
    binaryRest_done (by omega) (binaryOperator?_levels _)]

theorem finds_tighter {level : Nat} {ts : List Token} {e : Expr} (hlt : level < operandLevel)
    (h : IsExpr (.binary (level + 1)) ts e) (ih : Finds (.binary (level + 1)) ts e) :
    Finds (.binary level) ts e := by
  rw [operandLevel_eq] at hlt
  intro n rest hrest hn
  obtain ⟨t, us, rfl, -⟩ := h.head
  refine ⟨n, by omega, ?_⟩
  rw [binary, if_pos hlt, bind_done]
  exact ih.binary_done hlt (by simp) (hrest.mono (Nat.le_succ level))
    (hrest.2 _ (Nat.lt_succ_self level)) (by omega)

/-- The operand on the left is read by the same level, which then goes on with the operator. -/
theorem finds_binary {level : Nat} {op : Operator} {left right : List Token} {sign : Token}
    {l r : Expr} (hop : IsBinarySign level sign.kind op)
    (hl : IsExpr (.binary level) left l) (hr : IsExpr (.binary (level + 1)) right r)
    (ihl : Finds (.binary level) left l) (ihr : Finds (.binary (level + 1)) right r) :
    Finds (.binary level) (left ++ sign :: right)
      (.binary (markOf (left ++ sign :: right)) op l r) := by
  intro n rest hrest hn
  obtain ⟨t, us, rfl, -⟩ := hr.head
  have hlt : level < Operator.levels := hop.lt
  have hlevels : Operator.levels = 6 := rfl
  simp only [List.length_append, List.length_cons] at hn
  obtain ⟨m, hm, heq⟩ := ihl n (rest.prepend (sign :: t :: us))
    hop.looser (by omega)
  rw [Stream.prepend_prepend] at heq
  obtain ⟨m, rfl⟩ := Nat.exists_eq_succ_of_ne_zero (n := m) (by omega)
  refine ⟨m, by simp only [List.length_append, List.length_cons]; omega, ?_⟩
  rw [heq, binaryRest, bind_done (takeOperator_prepend (binaryOperator?_eq_some_iff.mpr hop))]
  change (binary m (level + 1) >>= _) _ = _
  rw [bind_done (ihr.binary_done hlt (by simp) (hrest.mono (Nat.le_succ level))
    (hrest.2 _ (Nat.lt_succ_self level)) (by simp only [List.length_cons]; omega)),
    hl.markOf_append]

theorem finds_value {ts : List Token} {e : Expr} (h : IsExpr (.binary 0) ts e)
    (ih : Finds (.binary 0) ts e) : Finds .assignment ts e := by
  intro n rest hrest hn
  obtain ⟨t, us, rfl, -⟩ := h.head
  have hlen : (t :: us).length = us.length + 1 := rfl
  obtain ⟨n, rfl⟩ := Nat.exists_eq_succ_of_ne_zero (n := n) (by omega)
  have hne : rest.current.kind ≠ .equal := by
    intro hk
    rw [hk] at hrest
    cases hrest
  rw [expression, bind_done (ih.binary_done (by decide) (by simp) (looser_of_ends hrest 0)
    (binaryOperator?_of_ends hrest 0) (by omega)), bind_done (accept_not_done hne)]
  rfl

/-- A single operand is an expression of every level. -/
theorem finds_of_unary {ts : List Token} {e : Expr} (h : IsExpr .unary ts e)
    (hfinds : Finds .unary ts e) {level : Nat} (hle : level ≤ operandLevel) :
    IsExpr (.binary level) ts e ∧ Finds (.binary level) ts e := by
  induction hk : operandLevel - level generalizing level with
  | zero =>
    obtain rfl : level = operandLevel := by omega
    exact ⟨.operand h, finds_operand h hfinds⟩
  | succ k ih =>
    have hlt : level < operandLevel := by omega
    obtain ⟨he, hf⟩ := ih hlt (by omega)
    exact ⟨.tighter hlt he, finds_tighter hlt he hf⟩

theorem finds_name {t : Token} (h : t.kind = .identifier) :
    Finds (.binary 0) [t] (.name (.unchecked t.position) t.lexeme) := by
  have hcall : IsExpr .call [t] (.name (.unchecked t.position) t.lexeme) :=
    .atom (.literal (.name h))
  have hfinds := finds_callee hcall (finds_atom (finds_literal (.name h)))
  exact (finds_of_unary (.callee hcall) hfinds (by decide)).2

theorem finds_assign {name eq : Token} {ts : List Token} {value : Expr}
    (hname : name.kind = .identifier) (heq : eq.kind = .equal) (ih : Finds .assignment ts value) :
    Finds .assignment (name :: eq :: ts)
      (.assign (markOf (name :: eq :: ts)) name.lexeme value) := by
  intro n rest hrest hn
  simp only [List.length_cons] at hn
  obtain ⟨n, rfl⟩ := Nat.exists_eq_succ_of_ne_zero (n := n) (by omega)
  have hloose : Looser 0 (rest.prepend (eq :: ts)).current.kind := by
    rw [Stream.current_prepend_cons, heq]
    exact ⟨by decide, fun _ _ => rfl⟩
  have htarget := (finds_name hname).binary_done (n := n) (by decide) (by simp) hloose
    (by rw [Stream.current_prepend_cons, heq]; rfl) (by simp only [List.length_singleton]; omega)
  rw [Stream.prepend_prepend, List.singleton_append] at htarget
  rw [expression, bind_done htarget, bind_done (accept_prepend heq)]
  change (expression n >>= _) _ = _
  rw [bind_done (ih n rest hrest (by omega))]
  rfl

/-- Arguments that are found one by one are found as a list. -/
theorem finds_argumentList {args : List (List Token × Expr)} {ts : List Token}
    (hall : ∀ arg ∈ args, Finds .assignment arg.1 arg.2)
    (hsep : CommaSeparated (args.map Prod.fst) ts) (hne : args ≠ []) :
    ∀ n count (rest : Stream), rest.current.kind = .rightParen → count + args.length ≤ maxArity →
      16 * ts.length < n → argumentList n count (rest.prepend ts) = .done (args.map Prod.snd) rest := by
  induction args generalizing ts with
  | nil => exact absurd rfl hne
  | cons arg args ih =>
    intro n count rest hrest hlen hn
    obtain ⟨n, rfl⟩ := Nat.exists_eq_succ_of_ne_zero (n := n) (by omega)
    simp only [List.length_cons] at hlen
    obtain ⟨harg, hargs⟩ := List.forall_mem_cons.mp hall
    rw [argumentList, if_neg (by omega)]
    cases args with
    | nil =>
      cases hsep
      have hne : rest.current.kind ≠ .comma := by rw [hrest]; decide
      rw [bind_done (harg n rest (by rw [hrest]; rfl) (by omega)), bind_done (accept_not_done hne)]
      rfl
    | cons next args =>
      cases hsep with
      | @cons _ _ _ us comma hcomma hsep =>
        simp only [List.length_append, List.length_cons] at hn
        have hfirst := harg n (rest.prepend (comma :: us))
          (by rw [Stream.current_prepend_cons, hcomma]; rfl) (by omega)
        rw [Stream.prepend_prepend] at hfirst
        rw [bind_done hfirst, bind_done (accept_prepend hcomma)]
        change (argumentList n (count + 1) >>= _) _ = _
        rw [bind_done (ih hargs hsep (by simp) n (count + 1) rest hrest (by
          simp only [List.length_cons] at hlen ⊢
          omega) (by omega))]
        rfl

theorem finds_arguments {args : List (List Token × Expr)} {ts : List Token} {closing : Token}
    (hexpr : ∀ arg ∈ args, IsExpr .assignment arg.1 arg.2)
    (hall : ∀ arg ∈ args, Finds .assignment arg.1 arg.2) (hlen : args.length ≤ maxArity)
    (hsep : CommaSeparated (args.map Prod.fst) ts) (hc : closing.kind = .rightParen)
    {n : Nat} (hn : 16 * ts.length + 1 < n) (rest : Stream) :
    arguments n (rest.prepend (ts ++ [closing])) = .done (args.map Prod.snd) rest := by
  obtain ⟨n, rfl⟩ := Nat.exists_eq_succ_of_ne_zero (n := n) (by omega)
  rw [arguments]
  cases args with
  | nil =>
    cases hsep
    rw [List.nil_append, bind_done (accept_prepend hc)]
    rfl
  | cons arg args =>
    have hstart : (rest.prepend (ts ++ [closing])).current.kind ≠ .rightParen := by
      obtain ⟨t, us, ht, hk⟩ := (hexpr arg List.mem_cons_self).head
      obtain ⟨vs, hts⟩ := hsep.head
      intro heq
      rw [hts, ht] at heq
      rw [show t.kind = .rightParen from heq] at hk
      cases hk
    have hlist := finds_argumentList hall hsep (by simp) n 0 (rest.prepend [closing]) hc
      (by omega) (by omega)
    rw [Stream.prepend_prepend] at hlist
    rw [bind_done (accept_not_done hstart)]
    change (argumentList n 0 >>= _) _ = _
    rw [bind_done hlist, bind_done (expect_prepend hc)]
    rfl

/-- The callee is read first, and the argument list after it is taken in the next round. -/
theorem finds_call {fs ts : List Token} {opening closing : Token} {f : Expr}
    {args : List (List Token × Expr)} (hf : IsExpr .call fs f) (ho : opening.kind = .leftParen)
    (hc : closing.kind = .rightParen) (hexpr : ∀ arg ∈ args, IsExpr .assignment arg.1 arg.2)
    (hlen : args.length ≤ maxArity) (hsep : CommaSeparated (args.map Prod.fst) ts)
    (ihf : Finds .call fs f) (ihargs : ∀ arg ∈ args, Finds .assignment arg.1 arg.2) :
    Finds .call (fs ++ opening :: (ts ++ [closing]))
      (.call (markOf (fs ++ opening :: (ts ++ [closing]))) f (args.map Prod.snd)) := by
  intro n rest hn
  simp only [List.length_append, List.length_cons, List.length_nil] at hn ⊢
  obtain ⟨m, hm, heq⟩ := ihf n (rest.prepend (opening :: (ts ++ [closing]))) (by omega)
  rw [Stream.prepend_prepend] at heq
  obtain ⟨m, rfl⟩ := Nat.exists_eq_succ_of_ne_zero (n := m) (by omega)
  refine ⟨m, by omega, ?_⟩
  rw [heq, callRest, bind_done (accept_prepend ho)]
  change (arguments m >>= _) _ = _
  rw [bind_done (finds_arguments hexpr ihargs hlen hsep hc (by omega) rest), hf.markOf_append]

theorem IsExpr.finds {tier : Tier} {ts : List Token} {e : Expr} (h : IsExpr tier ts e) :
    Finds tier ts e := by
  induction h with
  | assign hname heq _ ih => exact finds_assign hname heq ih
  | value h ih => exact finds_value h ih
  | binary hop hl hr ihl ihr => exact finds_binary hop hl hr ihl ihr
  | tighter hlt h ih => exact finds_tighter hlt h ih
  | operand h ih => exact finds_operand h ih
  | unary hop _ ih => exact finds_unary hop ih
  | callee h ih => exact finds_callee h ih
  | call hf ho hc hexpr hlen hsep ihf ihargs =>
    exact finds_call hf ho hc hexpr hlen hsep ihf ihargs
  | atom _ ih => exact finds_atom ih
  | literal ht => exact finds_literal ht
  | grouping ho hc _ ih => exact finds_grouping ho hc ih

/-- An expression is found in front of every token that ends it. -/
theorem IsExpr.expression_done {ts : List Token} {e : Expr} (h : IsExpr .assignment ts e) {n : Nat}
    {rest : Stream} (hrest : endsExpression rest.current.kind = true)
    (hn : 16 * ts.length ≤ n + 2) : Parser.expression n (rest.prepend ts) = .done e rest :=
  h.finds n rest hrest hn

end GradualScript.Grammar
