import GradualScript.Proofs.Grammar.Leftmost

/-!
# Targets of assignments

Only a bare name is assigned to. So in the tokens of a program the token before an `=` is a
name that no operator stands before, and nothing can be added to tokens in which an `=`
follows another expression to make a program of them.
-/
namespace GradualScript.Grammar

variable {ts us : List Token}

/-- Somewhere an `=` follows an expression that is no bare name. The left side of this `=` is no
bare name then either: the expression is the whole left side or the end of it. -/
def Misassigns (ts : List Token) : Prop :=
  ∃ before target eq after e, ts = before ++ target ++ eq :: after ∧ eq.kind = .equal ∧
    IsExpr (.binary 0) target e ∧ ∀ m name, e ≠ .name m name

theorem Misassigns.append_left (h : Misassigns ts) (us : List Token) : Misassigns (us ++ ts) := by
  obtain ⟨before, target, eq, after, e, rfl, heq, htarget, hname⟩ := h
  exact ⟨us ++ before, target, eq, after, e, by simp, heq, htarget, hname⟩

theorem Misassigns.append_right (h : Misassigns ts) (us : List Token) : Misassigns (ts ++ us) := by
  obtain ⟨before, target, eq, after, e, rfl, heq, htarget, hname⟩ := h
  exact ⟨before, target, eq, after ++ us, e, by simp, heq, htarget, hname⟩

/-- How tokens end, for an `=` that comes next. -/
inductive Ending where
  /-- With a name that is no operand. -/
  | target
  /-- With an operator. -/
  | sign
  | other
  deriving DecidableEq

namespace Ending

def step : Ending → TokenKind → Option Ending
  | target, .equal => some other
  | _, .equal => none
  | sign, .identifier => some other
  | _, .identifier => some target
  | _, kind => if (Operator.ofKind? kind).isSome then some sign else some other

/-- The ending after more tokens, none of them an `=` at a wrong place. -/
def run : Ending → List Token → Option Ending
  | ending, [] => some ending
  | ending, t :: ts => (ending.step t.kind).bind (run · ts)

theorem run_append (ending : Ending) (ts us : List Token) :
    ending.run (ts ++ us) = (ending.run ts).bind (run · us) := by
  induction ts generalizing ending with
  | nil => rfl
  | cons t ts ih =>
    rw [List.cons_append, run, run]
    cases ending.step t.kind with
    | none => rfl
    | some next => exact ih next

theorem run_singleton (ending : Ending) (t : Token) : ending.run [t] = ending.step t.kind := by
  rw [run]
  cases ending.step t.kind <;> rfl

/-- An operator is no `=` and no name. -/
theorem step_sign {kind : TokenKind} {op : Operator} (h : Operator.ofKind? kind = some op)
    (ending : Ending) : ending.step kind = some sign := by
  cases kind <;> cases h <;> cases ending <;> rfl

end Ending

/-- Neither an `=` nor an operator. -/
def Calm (kind : TokenKind) : Prop := kind ≠ .equal ∧ Operator.ofKind? kind = none

instance (kind : TokenKind) : Decidable (Calm kind) := inferInstanceAs (Decidable (_ ∧ _))

theorem Ending.step_calm {kind : TokenKind} (h : Calm kind) {ending : Ending}
    (hending : ending ≠ .sign) :
    ∃ next, ending.step kind = some next ∧ next ≠ .sign := by
  obtain ⟨hequal, hop⟩ := h
  by_cases hname : kind = .identifier
  · subst hname
    cases ending with
    | target => exact ⟨.target, rfl, nofun⟩
    | sign => exact absurd rfl hending
    | other => exact ⟨.target, rfl, nofun⟩
  · refine ⟨.other, ?_, nofun⟩
    cases kind <;> first | cases ending <;> rfl | contradiction

/-- Where no operator stands before, every `=` has its name. -/
def Passes (ts : List Token) : Prop :=
  ∀ ending : Ending, ending ≠ .sign → ∃ last, ending.run ts = some last ∧ last ≠ .sign

theorem passes_nil : Passes [] := fun ending h => ⟨ending, rfl, h⟩

theorem Passes.append (hts : Passes ts) (hus : Passes us) : Passes (ts ++ us) := by
  intro ending h
  obtain ⟨mid, hmid, h⟩ := hts ending h
  rw [Ending.run_append, hmid]
  exact hus mid h

theorem Passes.cons {t : Token} (ht : Calm t.kind) (hts : Passes ts) : Passes (t :: ts) := by
  intro ending h
  obtain ⟨next, hnext, h⟩ := Ending.step_calm ht h
  rw [Ending.run, hnext]
  exact hts next h

theorem Passes.flatten {lists : List (List Token)} (h : ∀ ts ∈ lists, Passes ts) :
    Passes lists.flatten := by
  induction lists with
  | nil => exact passes_nil
  | cons ts lists ih =>
    obtain ⟨hts, hlists⟩ := List.forall_mem_cons.mp h
    exact hts.append (ih hlists)

theorem Passes.commaSeparated {lists : List (List Token)} (h : ∀ ts ∈ lists, Passes ts)
    (hsep : CommaSeparated lists ts) : Passes ts := by
  induction hsep with
  | nil => exact passes_nil
  | single part => exact h part List.mem_cons_self
  | @cons part next lists ts comma hcomma _ ih =>
    obtain ⟨hpart, hrest⟩ := List.forall_mem_cons.mp h
    exact hpart.append (.cons (by rw [hcomma]; decide) (ih hrest))

/-- A name and its `=`. -/
theorem Passes.assign {name eq : Token} (hname : name.kind = .identifier) (heq : eq.kind = .equal)
    (hts : Passes ts) : Passes (name :: eq :: ts) := by
  intro ending h
  obtain ⟨last, hlast, hne⟩ := hts .other nofun
  have hstep : ending.step .identifier = some .target := by
    cases ending with
    | target | other => rfl
    | sign => exact absurd rfl h
  refine ⟨last, ?_, hne⟩
  rw [Ending.run, hname, hstep, Option.bind_some, Ending.run, heq]
  exact hlast

/-- Parentheses stand after anything, and nothing in them matters after them. -/
theorem Passes.parenthesized {opening closing : Token} (hopening : opening.kind = .leftParen)
    (hclosing : closing.kind = .rightParen) (hts : Passes ts) (ending : Ending) :
    ending.run (opening :: (ts ++ [closing])) = some .other := by
  have hopen : ending.step .leftParen = some .other := by cases ending <;> rfl
  obtain ⟨last, hlast, -⟩ := hts .other nofun
  rw [Ending.run, hopening, hopen, Option.bind_some, Ending.run_append, hlast, Option.bind_some,
    Ending.run_singleton, hclosing]
  cases last <;> rfl

/-- After an operand: no name that could be assigned to, unless the operand is that name. -/
def EndsOperand (e : Expr) (ending last : Ending) : Prop :=
  last ≠ .sign ∧ (last = .target → ending ≠ .sign ∧ ∃ m name, e = .name m name)

theorem IsLiteral.run {t : Token} {e : Expr} (h : IsLiteral t e) (ending : Ending) :
    ∃ last, ending.run [t] = some last ∧ EndsOperand e ending last := by
  rw [Ending.run_singleton]
  cases h with
  | number hk | string hk | trueWord hk | falseWord hk | nilWord hk =>
    rw [hk]
    exact ⟨.other, by cases ending <;> rfl, nofun, nofun⟩
  | name hk =>
    rw [hk]
    cases ending with
    | sign => exact ⟨.other, rfl, nofun, nofun⟩
    | target | other => exact ⟨.target, rfl, nofun, fun _ => ⟨nofun, _, _, rfl⟩⟩

/-- An operand may follow an operator, and an assignment may not. -/
theorem IsExpr.run {tier : Tier} {e : Expr} (h : IsExpr tier ts e) :
    (tier = .assignment → Passes ts) ∧
      (tier ≠ .assignment → ∀ ending : Ending,
        ∃ last, ending.run ts = some last ∧ EndsOperand e ending last) := by
  induction h with
  | assign hname heq _ ih => exact ⟨fun _ => .assign hname heq (ih.1 rfl), fun h => absurd rfl h⟩
  | value _ ih =>
    refine ⟨fun _ ending _ => ?_, fun h => absurd rfl h⟩
    obtain ⟨last, hlast, hne, -⟩ := ih.2 nofun ending
    exact ⟨last, hlast, hne⟩
  | @binary level op left right sign l r hop _ _ ihleft ihright =>
    refine ⟨nofun, fun _ ending => ?_⟩
    obtain ⟨mid, hmid, -⟩ := ihleft.2 nofun ending
    obtain ⟨last, hlast, hne, hname⟩ := ihright.2 nofun .sign
    refine ⟨last, ?_, hne, fun htarget => absurd rfl (hname htarget).1⟩
    rw [Ending.run_append, hmid, Option.bind_some, Ending.run, Ending.step_sign hop.ofKind?_eq]
    exact hlast
  | tighter _ _ ih | operand _ ih | callee _ ih | atom _ ih => exact ⟨nofun, fun _ => ih.2 nofun⟩
  | @unary op sign ts e hop _ ih =>
    refine ⟨nofun, fun _ ending => ?_⟩
    obtain ⟨last, hlast, hne, hname⟩ := ih.2 nofun .sign
    refine ⟨last, ?_, hne, fun htarget => absurd rfl (hname htarget).1⟩
    rw [Ending.run, Ending.step_sign hop.ofKind?_eq]
    exact hlast
  | @call fs ts opening closing f args _ hopening hclosing _ _ hsep ihf ihargs =>
    refine ⟨nofun, fun _ ending => ⟨.other, ?_, nofun, nofun⟩⟩
    obtain ⟨mid, hmid, -⟩ := ihf.2 nofun ending
    have hargs : Passes ts := by
      refine .commaSeparated (fun us hus => ?_) hsep
      obtain ⟨arg, harg, rfl⟩ := List.mem_map.mp hus
      exact (ihargs arg harg).1 rfl
    rw [Ending.run_append, hmid]
    exact hargs.parenthesized hopening hclosing mid
  | literal ht => exact ⟨nofun, fun _ => ht.run⟩
  | grouping hopening hclosing _ ih =>
    exact ⟨nofun, fun _ ending =>
      ⟨.other, (ih.1 rfl).parenthesized hopening hclosing ending, nofun, nofun⟩⟩

theorem IsExpr.passes {e : Expr} (h : IsExpr .assignment ts e) : Passes ts := h.run.1 rfl

theorem IsClause.passes {e : Option Expr} (h : IsClause ts e) : Passes ts := by
  cases h with
  | absent => exact passes_nil
  | present h => exact h.passes

/-- A token of a kind that is neither an `=` nor an operator. -/
theorem Passes.token {t : Token} {kind : TokenKind} (h : t.kind = kind) (hts : Passes ts)
    (hkind : Calm kind := by decide) : Passes (t :: ts) :=
  hts.cons (h ▸ hkind)

theorem IsVar.passes {s : Stmt} (h : IsVar ts s) : Passes ts := by
  cases h with
  | bare hword hname hsemicolon => exact .token hword (.token hname (.token hsemicolon passes_nil))
  | valued hword hname heq hsemicolon he =>
    exact .token hword (.assign hname heq (he.passes.append (.token hsemicolon passes_nil)))

theorem IsExprStmt.passes {s : Stmt} (h : IsExprStmt ts s) : Passes ts := by
  cases h with
  | mk hsemicolon he => exact he.passes.append (.token hsemicolon passes_nil)

theorem IsInit.passes {init : Option Stmt} (h : IsInit ts init) : Passes ts := by
  cases h with
  | absent hsemicolon => exact .token hsemicolon passes_nil
  | var h => exact h.passes
  | expression h => exact h.passes

theorem passes_body {parts : List (List Token × Stmt)} (h : ∀ part ∈ parts, Passes part.1) :
    Passes (parts.map Prod.fst).flatten := by
  refine .flatten fun ts hts => ?_
  obtain ⟨part, hpart, rfl⟩ := List.mem_map.mp hts
  exact h part hpart

theorem IsStmt.passes {inFunction : Bool} {form : Form} {s : Stmt}
    (h : IsStmt inFunction form ts s) : Passes ts := by
  induction h with
  | expression h => exact h.passes
  | print hword hsemicolon he =>
    exact .token hword (he.passes.append (.token hsemicolon passes_nil))
  | block hopening hclosing _ ih =>
    exact .token hopening ((passes_body ih).append (.token hclosing passes_nil))
  | ifThen hword hopening hclosing hc _ ih | whileLoop hword hopening hclosing hc _ ih =>
    exact .token hword (.token hopening (hc.passes.append (.token hclosing ih)))
  | ifElse hword hopening hclosing hother hc _ _ _ ihyes ihno =>
    exact .token hword (.token hopening
      (hc.passes.append (.token hclosing (ihyes.append (.token hother ihno)))))
  | forLoop hword hopening hsemicolon hclosing hinit hcond hincrement _ ih =>
    exact .token hword (.token hopening (hinit.passes.append
      (hcond.passes.append (.token hsemicolon (hincrement.passes.append (.token hclosing ih))))))
  | ret hword hsemicolon hvalue =>
    exact .token hword (hvalue.passes.append (.token hsemicolon passes_nil))
  | statement _ ih => exact ih
  | var h => exact h.passes
  | @function _ _ _ _ _ _ _ _ ts _ hword hname hopening hclosing hopenBody hcloseBody hparams _
      hsep _ ih =>
    have hparams : Passes ts := by
      refine .commaSeparated (fun us hus => ?_) hsep
      obtain ⟨param, hparam, rfl⟩ := List.mem_map.mp hus
      exact .token (hparams param hparam) passes_nil
    exact .token hword (.token hname (.token hopening (hparams.append (.token hclosing
      (.token hopenBody ((passes_body ih).append (.token hcloseBody passes_nil)))))))

/-- No program starts with tokens in which an `=` follows an expression that is no bare name. -/
theorem IsProgram.not_misassigns {p : Program} (h : IsProgram (ts ++ us) p) : ¬ Misassigns ts := by
  obtain ⟨parts, hall, hts, -⟩ := h
  have hpasses : Passes (ts ++ us) := hts ▸ passes_body fun part hpart => (hall part hpart).passes
  rintro ⟨before, target, eq, after, e, rfl, heq, htarget, hname⟩
  obtain ⟨last, hlast, -⟩ := hpasses .other nofun
  -- the run is there after the tokens before the target and after the target
  rw [List.append_assoc, List.append_assoc, Ending.run_append] at hlast
  obtain ⟨first, -, hlast⟩ := Option.bind_eq_some_iff.mp hlast
  obtain ⟨mid, hmid, hends⟩ := htarget.run.2 nofun first
  rw [Ending.run_append, hmid, Option.bind_some, List.cons_append, Ending.run, heq] at hlast
  cases mid with
  | target =>
    obtain ⟨-, m, name, he⟩ := hends.2 rfl
    exact hname m name he
  | sign | other => cases hlast

end GradualScript.Grammar
