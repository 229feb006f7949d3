import GradualScript.Proofs.Grammar.Leftmost
import GradualScript.Proofs.Grammar.Steps

/-!
# Parsed expressions are derived

A production that is done has read tokens from which its tree is derived. The proof
is by induction on the budget of steps: each production calls others with one step
less, and the rules of the grammar put together what those have read.
-/
namespace GradualScript.Grammar

open GradualScript.Parser

/-- What the parser reads are tokens that `P` relates to its result. -/
def Reads {α : Type} (p : Parser Stream α) (P : List Token → α → Prop) : Prop :=
  ∀ ⦃s : Stream⦄ ⦃a : α⦄ ⦃rest : Stream⦄, p s = .done a rest → ∃ ts, s = rest.prepend ts ∧ P ts a

/-- Expressions with commas between them. -/
def IsArguments (ts : List Token) (es : List Expr) : Prop :=
  ∃ args : List (List Token × Expr), (∀ arg ∈ args, IsExpr .assignment arg.1 arg.2) ∧
    CommaSeparated (args.map Prod.fst) ts ∧ es = args.map Prod.snd

/-- What the productions of expressions read with a budget of `n` steps. -/
structure ReadsExpr (n : Nat) : Prop where
  expression : Reads (Parser.expression n) (IsExpr .assignment)
  binary : ∀ level ≤ Operator.levels, Reads (Parser.binary n level) (IsExpr (.binary level))
  binaryRest : ∀ level ls left, IsExpr (.binary level) ls left →
    Reads (Parser.binaryRest n level left) fun ts e => IsExpr (.binary level) (ls ++ ts) e
  unary : Reads (Parser.unary n) (IsExpr .unary)
  call : Reads (Parser.call n) (IsExpr .call)
  callRest : ∀ fs f, IsExpr .call fs f →
    Reads (Parser.callRest n f) fun ts e => IsExpr .call (fs ++ ts) e
  arguments : Reads (Parser.arguments n) fun ts es =>
    es.length ≤ maxArity ∧ ∃ us closing, ts = us ++ [closing] ∧ closing.kind = .rightParen ∧
      IsArguments us es
  argumentList : ∀ count, Reads (Parser.argumentList n count) fun ts es =>
    es ≠ [] ∧ count + es.length ≤ maxArity ∧ IsArguments ts es
  primary : Reads (Parser.primary n) (IsExpr .primary)

theorem reads_spent {α : Type} {P : List Token → α → Prop} : Reads Parser.spent P :=
  fun _ _ _ h => absurd h spent_ne_done

theorem readsExpr_zero : ReadsExpr 0 where
  expression := reads_spent
  binary _ _ := reads_spent
  binaryRest _ _ _ _ := reads_spent
  unary := reads_spent
  call := reads_spent
  callRest _ _ _ := reads_spent
  arguments := reads_spent
  argumentList _ := reads_spent
  primary := reads_spent

/-- A token of a kind other than the end, at the front of a stream. -/
theorem front {s : Stream} {kind : TokenKind} (h : s.current.kind = kind)
    (hk : kind ≠ .endOfFile := by decide) : s = s.next.prepend [s.current] :=
  Stream.eq_prepend_current (h ▸ hk)

/-- Only a bare name denotes a name. -/
theorem IsExpr.of_name {tier : Tier} {ts : List Token} {e : Expr} (h : IsExpr tier ts e) :
    ∀ {m : Mark} {n : String}, e = .name m n →
      ∃ t, ts = [t] ∧ t.kind = .identifier ∧ m = .unchecked t.position ∧ n = t.lexeme := by
  induction h with
  | assign | binary | unary | call | grouping => intro _ _ he; cases he
  | value _ ih | tighter _ _ ih | operand _ ih | callee _ ih | atom _ ih => exact ih
  | literal ht =>
    intro _ _ he
    cases ht with
    | name hk => cases he; exact ⟨_, rfl, hk, rfl, rfl⟩
    | number | string | trueWord | falseWord | nilWord => cases he

theorem reads_skip {e a : Expr} {s rest : Stream} {kind : TokenKind}
    (hk : s.current.kind = kind) (hne : kind ≠ .endOfFile)
    (h : (do skip; return e : Parser Stream Expr) s = .done a rest) :
    s = rest.prepend [s.current] ∧ e = a := by
  obtain ⟨_, mid, hskip, hpure⟩ := bind_eq_done.mp h
  obtain ⟨rfl, rfl⟩ := pure_eq_done.mp hpure
  rw [← skip_eq_done.mp hskip]
  exact ⟨front hk hne, rfl⟩

/-- A literal is one token. -/
theorem reads_literal {s rest : Stream} {e : Expr}
    (h : literal s.current s = .done e rest) :
    s = rest.prepend [s.current] ∧ IsLiteral s.current e := by
  revert h
  fun_cases literal (σ := Stream) s.current with
  | case1 mark hk v hv =>
    intro h
    obtain ⟨hs, rfl⟩ := reads_skip hk (by decide) h
    exact ⟨hs, .number hk hv⟩
  | case3 mark hk =>
    intro h
    obtain ⟨hs, rfl⟩ := reads_skip hk (by decide) h
    exact ⟨hs, .string hk⟩
  | case4 mark hk =>
    intro h
    obtain ⟨hs, rfl⟩ := reads_skip hk (by decide) h
    exact ⟨hs, .trueWord hk⟩
  | case5 mark hk =>
    intro h
    obtain ⟨hs, rfl⟩ := reads_skip hk (by decide) h
    exact ⟨hs, .falseWord hk⟩
  | case6 mark hk =>
    intro h
    obtain ⟨hs, rfl⟩ := reads_skip hk (by decide) h
    exact ⟨hs, .nilWord hk⟩
  | case7 mark hk =>
    intro h
    obtain ⟨hs, rfl⟩ := reads_skip hk (by decide) h
    exact ⟨hs, .name hk⟩
  | case2 | case8 => intro h; exact absurd h fail_ne_done

section

variable {n : Nat} (ih : ReadsExpr n)
include ih

theorem reads_expression : Reads (expression (n + 1)) (IsExpr .assignment) := by
  intro s e rest h
  obtain ⟨target, s₁, htarget, h₁⟩ := bind_eq_done.mp h
  obtain ⟨ts, rfl, ht⟩ := ih.binary 0 (by decide) htarget
  obtain ⟨_, s₂, haccept, h₂⟩ := bind_eq_done.mp h₁
  obtain ⟨rfl, hk, rfl⟩ | ⟨rfl, -, rfl⟩ := accept_eq_done.mp haccept
  · obtain ⟨value, s₃, hvalue, h₃⟩ := bind_eq_done.mp h₂
    obtain ⟨us, hs, hv⟩ := ih.expression hvalue
    split at h₃
    · obtain ⟨t, rfl, hname, rfl, rfl⟩ := ht.of_name rfl
      obtain ⟨rfl, rfl⟩ := pure_eq_done.mp h₃
      refine ⟨t :: s₁.current :: us, ?_, .assign hname hk hv⟩
      rw [front hk, hs]
      simp
    · exact absurd h₃ fail_ne_done
  · obtain ⟨rfl, rfl⟩ := pure_eq_done.mp h₂
    exact ⟨ts, rfl, .value ht⟩

/-- A level reads an operand of the next one and then the operators of its own. -/
theorem reads_binary (level : Nat) (hl : level ≤ Operator.levels) :
    Reads (binary (n + 1) level) (IsExpr (.binary level)) := by
  intro s e rest h
  unfold binary at h
  split at h
  · next hlt =>
    obtain ⟨left, s₁, hleft, h₁⟩ := bind_eq_done.mp h
    obtain ⟨ls, rfl, hl⟩ := ih.binary (level + 1) hlt hleft
    obtain ⟨rs, rfl, he⟩ := ih.binaryRest level ls left (.tighter hlt hl) h₁
    exact ⟨ls ++ rs, by simp, he⟩
  · next hge =>
    obtain ⟨ts, hs, he⟩ := ih.unary h
    obtain rfl : level = operandLevel := by rw [operandLevel_eq]; omega
    exact ⟨ts, hs, .operand he⟩

/-- The tokens `ls` of the operand on the left come before those read here. -/
theorem reads_binaryRest (level : Nat) (ls : List Token) (left : Expr)
    (hl : IsExpr (.binary level) ls left) :
    Reads (binaryRest (n + 1) level left) fun ts e => IsExpr (.binary level) (ls ++ ts) e := by
  intro s e rest h
  obtain ⟨_, s₁, htake, h₁⟩ := bind_eq_done.mp h
  obtain ⟨op, rfl, hop, rfl⟩ | ⟨rfl, -, rfl⟩ := takeOperator_eq_done.mp htake
  · obtain ⟨right, s₂, hright, h₂⟩ := bind_eq_done.mp h₁
    rw [binaryOperator?_eq_some_iff] at hop
    obtain ⟨rs, hs, hr⟩ := ih.binary (level + 1) hop.lt hright
    have hnode := IsExpr.binary hop hl hr
    rw [hl.markOf_append] at hnode
    obtain ⟨us, rfl, he⟩ := ih.binaryRest level _ _ hnode h₂
    refine ⟨s.current :: rs ++ us, ?_, by simpa using he⟩
    rw [Stream.eq_prepend_current (ne_of_ofKind? hop.ofKind?_eq rfl), hs]
    simp
  · obtain ⟨rfl, rfl⟩ := pure_eq_done.mp h₁
    exact ⟨[], rfl, by simpa using hl⟩

theorem reads_unary : Reads (unary (n + 1)) (IsExpr .unary) := by
  intro s e rest h
  obtain ⟨_, _, hfirst, h₁⟩ := bind_eq_done.mp h
  obtain ⟨rfl, rfl⟩ := current_eq_done.mp hfirst
  obtain ⟨_, s₁, htake, h₂⟩ := bind_eq_done.mp h₁
  obtain ⟨op, rfl, hop, rfl⟩ | ⟨rfl, -, rfl⟩ := takeOperator_eq_done.mp htake
  · obtain ⟨operand, s₂, hoperand, h₃⟩ := bind_eq_done.mp h₂
    obtain ⟨ts, hs, ho⟩ := ih.unary hoperand
    obtain ⟨rfl, rfl⟩ := pure_eq_done.mp h₃
    rw [unaryOperator?_eq_some_iff] at hop
    refine ⟨s.current :: ts, ?_, .unary hop ho⟩
    rw [Stream.eq_prepend_current (ne_of_ofKind? hop.ofKind?_eq rfl), hs]
    simp
  · obtain ⟨ts, hs, he⟩ := ih.call h₂
    exact ⟨ts, hs, .callee he⟩

theorem reads_call : Reads (call (n + 1)) (IsExpr .call) := by
  intro s e rest h
  obtain ⟨callee, s₁, hcallee, h₁⟩ := bind_eq_done.mp h
  obtain ⟨fs, rfl, hf⟩ := ih.primary hcallee
  obtain ⟨ts, rfl, he⟩ := ih.callRest fs callee (.atom hf) h₁
  exact ⟨fs ++ ts, by simp, he⟩

theorem reads_callRest (fs : List Token) (f : Expr) (hf : IsExpr .call fs f) :
    Reads (callRest (n + 1) f) fun ts e => IsExpr .call (fs ++ ts) e := by
  intro s e rest h
  obtain ⟨_, s₁, haccept, h₁⟩ := bind_eq_done.mp h
  obtain ⟨rfl, hk, rfl⟩ | ⟨rfl, -, rfl⟩ := accept_eq_done.mp haccept
  · obtain ⟨es, s₂, hes, h₂⟩ := bind_eq_done.mp h₁
    obtain ⟨_, hs, hlen, ts, closing, rfl, hc, args, hall, hsep, rfl⟩ := ih.arguments hes
    have hnode := IsExpr.call hf hk hc hall (by simpa using hlen) hsep
    rw [hf.markOf_append] at hnode
    obtain ⟨us, rfl, he⟩ := ih.callRest _ _ hnode h₂
    refine ⟨s.current :: (ts ++ [closing]) ++ us, ?_, by simpa using he⟩
    rw [front hk, hs]
    simp
  · obtain ⟨rfl, rfl⟩ := pure_eq_done.mp h₁
    exact ⟨[], rfl, by simpa using hf⟩

theorem reads_arguments : Reads (arguments (n + 1)) fun ts es =>
    es.length ≤ maxArity ∧ ∃ us closing, ts = us ++ [closing] ∧ closing.kind = .rightParen ∧
      IsArguments us es := by
  intro s es rest h
  obtain ⟨_, s₁, haccept, h₁⟩ := bind_eq_done.mp h
  obtain ⟨rfl, hk, rfl⟩ | ⟨rfl, -, rfl⟩ := accept_eq_done.mp haccept
  · obtain ⟨rfl, rfl⟩ := pure_eq_done.mp h₁
    exact ⟨_, front hk, by simp, [], _, rfl, hk, [], by simp, .nil, rfl⟩
  · obtain ⟨args, s₂, hargs, h₂⟩ := bind_eq_done.mp h₁
    obtain ⟨us, rfl, -, hlen, hus⟩ := ih.argumentList 0 hargs
    obtain ⟨closing, s₃, hclosing, h₃⟩ := bind_eq_done.mp h₂
    obtain ⟨hk, rfl, rfl⟩ := expect_eq_done.mp hclosing
    obtain ⟨rfl, rfl⟩ := pure_eq_done.mp h₃
    refine ⟨us ++ [s₂.current], ?_, by simpa using hlen, us, _, rfl, hk, hus⟩
    rw [← Stream.prepend_prepend, ← front hk]

theorem reads_argumentList (count : Nat) : Reads (argumentList (n + 1) count) fun ts es =>
    es ≠ [] ∧ count + es.length ≤ maxArity ∧ IsArguments ts es := by
  intro s es rest h
  unfold argumentList at h
  split at h
  · obtain ⟨_, _, -, h₁⟩ := bind_eq_done.mp h
    exact absurd h₁ fail_ne_done
  next hlt =>
  obtain ⟨arg, s₁, harg, h₁⟩ := bind_eq_done.mp h
  obtain ⟨ts, rfl, ha⟩ := ih.expression harg
  obtain ⟨_, s₂, haccept, h₂⟩ := bind_eq_done.mp h₁
  obtain ⟨rfl, hk, rfl⟩ | ⟨rfl, -, rfl⟩ := accept_eq_done.mp haccept
  · obtain ⟨more, s₃, hmore, h₃⟩ := bind_eq_done.mp h₂
    obtain ⟨us, hs, hne, hlen, args, hall, hsep, rfl⟩ := ih.argumentList (count + 1) hmore
    obtain ⟨rfl, rfl⟩ := pure_eq_done.mp h₃
    obtain ⟨next, args, rfl⟩ := List.exists_cons_of_ne_nil (by simpa using hne : args ≠ [])
    refine ⟨ts ++ s₁.current :: us, ?_, by simp, ?_, (ts, arg) :: next :: args, ?_, .cons hk hsep,
      rfl⟩
    · rw [front hk, hs]
      simp
    · simp only [List.length_map, List.length_cons] at hlen ⊢
      omega
    · exact List.forall_mem_cons.mpr ⟨ha, hall⟩
  · obtain ⟨rfl, rfl⟩ := pure_eq_done.mp h₂
    refine ⟨ts, rfl, by simp, ?_, [(ts, arg)], by simpa using ha, .single ts, rfl⟩
    simp only [List.length_singleton]
    omega

theorem reads_primary : Reads (primary (n + 1)) (IsExpr .primary) := by
  intro s e rest h
  obtain ⟨_, _, htoken, h₁⟩ := bind_eq_done.mp h
  obtain ⟨rfl, rfl⟩ := current_eq_done.mp htoken
  split at h₁
  · next hk =>
    obtain ⟨_, s₁, hskip, h₂⟩ := bind_eq_done.mp h₁
    obtain rfl := skip_eq_done.mp hskip
    obtain ⟨inner, s₂, hinner, h₃⟩ := bind_eq_done.mp h₂
    obtain ⟨ts, hs, hi⟩ := ih.expression hinner
    obtain ⟨closing, s₃, hclosing, h₄⟩ := bind_eq_done.mp h₃
    obtain ⟨hkc, rfl, rfl⟩ := expect_eq_done.mp hclosing
    obtain ⟨rfl, rfl⟩ := pure_eq_done.mp h₄
    refine ⟨s.current :: (ts ++ [s₂.current]), ?_, .grouping hk hkc hi⟩
    rw [front hk, hs, front hkc]
    simp
  · obtain ⟨hs, he⟩ := reads_literal h₁
    exact ⟨_, hs, .literal he⟩

theorem readsExpr_succ : ReadsExpr (n + 1) where
  expression := reads_expression ih
  binary := reads_binary ih
  binaryRest := reads_binaryRest ih
  unary := reads_unary ih
  call := reads_call ih
  callRest := reads_callRest ih
  arguments := reads_arguments ih
  argumentList := reads_argumentList ih
  primary := reads_primary ih

end

/-- By induction on the budget, with a lemma for each production. -/
theorem readsExpr (n : Nat) : ReadsExpr n := by
  induction n with
  | zero => exact readsExpr_zero
  | succ n ih => exact readsExpr_succ ih

end GradualScript.Grammar
