import Mathlib.Data.List.Forall2
import GradualScript.Proofs.Scopes.Surroundings
import GradualScript.Proofs.Tree.Nodes
import GradualScript.Proofs.Typing.Closed
import GradualScript.Proofs.Typing.Moved

/-!
# Checking with less known

Knowing less about the names around a program never makes it fail: what passes where the
names have types passes where some of the types are the wildcard, and each type that is
found is the same or the wildcard. The rules for operators and returns are the only place
where types meet, and each of them takes the wildcard.
-/
namespace GradualScript

open Checked

/-- The second type is the first or the wildcard. -/
def TypeSet.Loosens (t u : TypeSet) : Prop := u = t ∨ u = .any

/-- The rules give related types for related types, and pass what they passed. -/
structure TypeSet.Respected (R : TypeSet → TypeSet → Prop) : Prop where
  refl : ∀ t, R t t
  unary : ∀ {op : Operator} {t t' u : TypeSet}, R t t' → op.unaryType t = .ok u →
    ∃ u', op.unaryType t' = .ok u' ∧ R u u'
  binary : ∀ {op : Operator} {t t' u u' w : TypeSet}, R t t' → R u u' →
    op.binaryType t u = .ok w → ∃ w', op.binaryType t' u' = .ok w' ∧ R w w'
  returned : ∀ {expected t t' : TypeSet}, R t t' → expected.contains t = true →
    expected.contains t' = true

namespace TypeSet

theorem respected_eq : Respected Eq where
  refl := Eq.refl
  unary := by
    rintro op t _ u rfl h
    exact ⟨u, h, rfl⟩
  binary := by
    rintro op t _ u _ w rfl rfl h
    exact ⟨w, h, rfl⟩
  returned := by
    rintro expected t _ rfl h
    exact h

@[simp] theorem contains_any (t : TypeSet) : t.contains .any = true := by cases t <;> rfl

@[simp] theorem union_any (t : TypeSet) : t.union .any = .any := by cases t <;> rfl

theorem Loosens.refl (t : TypeSet) : t.Loosens t := .inl rfl

theorem Loosens.within {t t' : TypeSet} (h : t.Loosens t') {allowed : TagSet}
    (ht : t.within allowed = true) : t'.within allowed = true := by
  rcases h with rfl | rfl
  · exact ht
  · rfl

theorem Loosens.contains {t t' u u' : TypeSet} (ht : t.Loosens t') (hu : u.Loosens u')
    (h : t.contains u = true) : t'.contains u' = true := by
  rcases hu with rfl | rfl
  · rcases ht with rfl | rfl
    · exact h
    · rfl
  · exact contains_any t'

theorem Loosens.union {t t' u u' : TypeSet} (ht : t.Loosens t') (hu : u.Loosens u') :
    (t.union u).Loosens (t'.union u') := by
  rcases hu with rfl | rfl
  · rcases ht with rfl | rfl
    · exact .inl rfl
    · exact .inr rfl
  · exact .inr (union_any t')

end TypeSet

namespace Operator

variable {t t' u u' : TypeSet}

theorem bothNumeric_loosens (ht : t.Loosens t') (hu : u.Loosens u')
    (h : bothNumeric t u = true) : bothNumeric t' u' = true := by
  rw [bothNumeric, Bool.and_eq_true] at h ⊢
  exact ⟨ht.within h.1, hu.within h.2⟩

theorem bothStrings_loosens (ht : t.Loosens t') (hu : u.Loosens u')
    (h : bothStrings t u = true) : bothStrings t' u' = true := by
  rw [bothStrings, Bool.and_eq_true] at h ⊢
  exact ⟨ht.within h.1, hu.within h.2⟩

theorem compatible_loosens (ht : t.Loosens t') (hu : u.Loosens u')
    (h : t.compatible u = true) : t'.compatible u' = true := by
  rw [TypeSet.compatible, Bool.or_eq_true] at h ⊢
  exact h.imp (ht.contains hu) (hu.contains ht)

/-- An operator that accepts types accepts looser ones. -/
theorem accepts_loosens {op : Operator} (ht : t.Loosens t') (hu : u.Loosens u')
    (h : op.accepts t u = true) : op.accepts t' u' = true := by
  cases op with
  | add =>
    simp only [accepts, Bool.and_eq_true, Bool.or_eq_true] at h ⊢
    exact ⟨h.1.imp (bothNumeric_loosens ht hu) (bothStrings_loosens ht hu), ht.contains hu h.2⟩
  | subtract | multiply | divide =>
    simp only [accepts, Bool.and_eq_true] at h ⊢
    exact ⟨bothNumeric_loosens ht hu h.1, ht.contains hu h.2⟩
  | less | lessEqual | greater | greaterEqual =>
    simp only [accepts, Bool.and_eq_true] at h ⊢
    exact ⟨bothNumeric_loosens ht hu h.1, compatible_loosens ht hu h.2⟩
  | equal | notEqual => exact compatible_loosens ht hu h
  | and | or => rfl
  | negate => cases h

end Operator

theorem TypeSet.respected_loosens : Respected Loosens where
  refl := Loosens.refl
  unary := by
    intro op t t' u ht h
    rcases Operator.unaryType_ok h with ⟨rfl, rfl⟩ | ⟨hop, hwithin, rfl⟩
    · exact ⟨.boolean, rfl, .refl _⟩
    · have hsign : op.unaryType t' = .ok t' := by
        rcases hop with rfl | rfl <;> exact if_pos (ht.within hwithin)
      exact ⟨t', hsign, ht⟩
  binary := by
    intro op t t' u u' w ht hu h
    obtain ⟨haccepts, rfl⟩ := Operator.binaryType_ok h
    refine ⟨_, if_pos (Operator.accepts_loosens ht hu haccepts), ?_⟩
    split
    · exact .refl _
    · exact ht.union hu
  returned ht h := (Loosens.refl _).contains ht h

section

variable {g : Position → Position} {R : TypeSet → TypeSet → Prop}

/-- The second node stands where the first is sent to, and the types recorded on them are
related. -/
structure Node.Related (g : Position → Position) (R : TypeSet → TypeSet → Prop)
    (node node' : Node) : Prop where
  position_eq : node'.position = g node.position
  type_rel : Option.Rel R node.type node'.type

theorem Node.related_statement (g : Position → Position) (R : TypeSet → TypeSet → Prop)
    (p : Position) : List.Forall₂ (Related g R) [.statement p] [.statement (g p)] :=
  .cons ⟨rfl, .none⟩ .nil

/-- What is left of two trees that passed. -/
structure Checked.Related {τ α β : Type} (g : Position → Position)
    (R : TypeSet → TypeSet → Prop) (nodes : τ → List Node) (plain : Checked τ α)
    (moved : Checked τ β) : Prop where
  env : plain.env.Matches R moved.env
  nodes : List.Forall₂ (Node.Related g R) (nodes plain.tree) (nodes moved.tree)

/-- The nodes of a recorded expression are those of its parts and the recorded one. -/
theorem Checked.related_record {e e' : Expr} {parts parts' : List Node} {t t' : TypeSet}
    {env env' : TypeEnv} (henv : env.Matches R env') (hposition : e'.position = g e.position)
    (htype : R t t') (hparts : List.Forall₂ (Node.Related g R) parts parts')
    (he : (e.record t).nodes = parts ++ [.expression ⟨e.position, some t⟩])
    (he' : (e'.record t').nodes = parts' ++ [.expression ⟨e'.position, some t'⟩]) :
    Checked.Related (α := TypeSet) (β := TypeSet) g R Expr.nodes
      ⟨e.record t, env, .ok t⟩ ⟨e'.record t', env', .ok t'⟩ := by
  refine ⟨henv, ?_⟩
  rw [he, he']
  exact List.rel_append hparts (.cons ⟨hposition, .some htype⟩ .nil)

mutual

/-- An expression that passes does so when it is moved, among related types, and its type
is related to the one that it had. -/
theorem Expr.related_check (hR : TypeSet.Respected R) (e : Expr) {env env' : TypeEnv}
    (henv : env.Matches R env') {t : TypeSet} (h : (e.check env).verdict = .ok t) :
    ∃ t', ((e.moved g).check env').verdict = .ok t' ∧ R t t' ∧
      Related g R Expr.nodes (e.check env) ((e.moved g).check env') := by
  match e with
  | .number _ _ | .string _ _ | .boolean _ _ | .nil _ =>
    cases h
    exact ⟨_, rfl, hR.refl _, related_record henv rfl (hR.refl _) .nil rfl rfl⟩
  | .name m n =>
    rw [check] at h ⊢
    rw [moved, check, settle_eq h]
    have hfound := settle_ok h
    have hget := henv.get n
    split at hfound
    · next type hold =>
      cases hfound
      rw [hold] at hget
      generalize env'.get n = found at hget
      cases hget with
      | some htype => exact ⟨_, rfl, htype, related_record henv rfl htype .nil rfl rfl⟩
    · cases hfound
  | .assign m n value =>
    rw [check] at h ⊢
    obtain ⟨type, hvalue, h⟩ := next_ok h
    obtain ⟨type', hvalue', htype, hleft⟩ := value.related_check hR henv hvalue
    rw [moved, check, next_eq hvalue, next_eq hvalue']
    have hassign := hleft.env.assign n htype
    generalize (value.check env).env.assign n type = found,
      ((value.moved g).check env').env.assign n type' = found' at hassign h ⊢
    cases hassign with
    | some hafter =>
      cases h
      exact ⟨type', rfl, htype, related_record hafter rfl htype hleft.nodes rfl rfl⟩
    | none => cases h
  | .unary m op operand =>
    rw [check] at h ⊢
    obtain ⟨type, hoperand, hop⟩ := bind_ok (settle_ok h)
    obtain ⟨type', hoperand', htype, hleft⟩ := operand.related_check hR henv hoperand
    obtain ⟨t', hop', ht⟩ := hR.unary htype (atPosition_ok hop)
    rw [moved, check, settle_eq h, hoperand']
    simp only [Except.bind, hop']
    exact ⟨t', rfl, ht, related_record hleft.env rfl ht hleft.nodes rfl rfl⟩
  | .binary m op left right =>
    rw [check] at h ⊢
    obtain ⟨lt, hl, hrest⟩ := bind_ok (settle_ok h)
    obtain ⟨rt, hr, hop⟩ := bind_ok hrest
    rw [next_eq hl] at hr
    obtain ⟨lt', hl', hlt, hleft⟩ := left.related_check hR henv hl
    obtain ⟨rt', hr', hrt, hright⟩ := right.related_check hR hleft.env hr
    obtain ⟨t', hop', ht⟩ := hR.binary hlt hrt (atPosition_ok hop)
    rw [moved, check, settle_eq h, next_eq hl, next_eq hl', hl', hr']
    simp only [Except.bind, hop']
    exact ⟨t', rfl, ht, related_record hright.env rfl ht
      (List.rel_append hleft.nodes hright.nodes) rfl rfl⟩
  | .grouping m inner =>
    rw [check] at h ⊢
    obtain ⟨t', hinner', ht, hinner⟩ := inner.related_check hR henv (settle_ok h)
    rw [moved, check, settle_eq h, hinner']
    exact ⟨t', rfl, ht, related_record hinner.env rfl ht hinner.nodes rfl rfl⟩
  | .call m callee args =>
    rw [check] at h ⊢
    obtain ⟨⟨⟩, hargs, rfl⟩ := map_ok (settle_ok h)
    obtain ⟨type, hcallee, hargs⟩ := next_ok hargs
    obtain ⟨type', hcallee', -, hleft⟩ := callee.related_check hR henv hcallee
    obtain ⟨hargs', hright⟩ := Expr.related_checkAll hR args hleft.env hargs
    rw [moved, check, settle_eq h, next_eq hcallee, next_eq hcallee', hargs']
    exact ⟨.any, rfl, hR.refl _, related_record hright.env rfl (hR.refl _)
      (List.rel_append hleft.nodes hright.nodes) rfl rfl⟩

theorem Expr.related_checkAll (hR : TypeSet.Respected R) (es : List Expr) {env env' : TypeEnv}
    (henv : env.Matches R env') (h : (Expr.checkAll es env).verdict = .ok ()) :
    (Expr.checkAll (Expr.movedAll g es) env').verdict = .ok () ∧
      Related g R Expr.nodesAll (Expr.checkAll es env)
        (Expr.checkAll (Expr.movedAll g es) env') := by
  match es with
  | [] => exact ⟨rfl, henv, .nil⟩
  | e :: es =>
    rw [checkAll] at h ⊢
    obtain ⟨type, he, hes⟩ := next_ok h
    obtain ⟨type', he', -, hfirst⟩ := e.related_check hR henv he
    obtain ⟨hes', hrest⟩ := Expr.related_checkAll hR es hfirst.env hes
    rw [movedAll, checkAll, next_eq he, next_eq he']
    exact ⟨hes', hrest.env, List.rel_append hfirst.nodes hrest.nodes⟩

end

theorem Expr.related_checkOption (hR : TypeSet.Respected R) (e : Option Expr) {env env' : TypeEnv}
    (henv : env.Matches R env') (h : (Expr.checkOption e env).verdict = .ok ()) :
    (Expr.checkOption (e.map (Expr.moved g)) env').verdict = .ok () ∧
      Related g R Expr.nodesOption (Expr.checkOption e env)
        (Expr.checkOption (e.map (Expr.moved g)) env') := by
  cases e with
  | none => exact ⟨rfl, henv, .nil⟩
  | some e =>
    obtain ⟨type, he, -⟩ := map_ok h
    obtain ⟨type', he', -, hleft⟩ := e.related_check (g := g) hR henv he
    rw [Option.map_some, checkOption, checkOption, he']
    exact ⟨rfl, hleft.env, hleft.nodes⟩

/-- Parameters are bound with the wildcard. -/
theorem TypeEnv.matches_bindParams (hR : TypeSet.Respected R) (params : List String)
    {env env' : TypeEnv} (henv : env.Matches R env') :
    Scopes.Matches R (params.foldl (fun env param => env.set param TypeSet.any) env)
      (params.foldl (fun env param => env.set param TypeSet.any) env') := by
  induction params generalizing env env' with
  | nil => exact henv
  | cons param params ih => exact ih (henv.set param (hR.refl .any))

theorem returnVerdict_of_rel (hR : TypeSet.Respected R) {expected t t' : TypeSet} (ht : R t t')
    {p p' : Position} (h : returnVerdict expected t p = .ok ()) :
    returnVerdict expected t' p' = .ok () := by
  rw [returnVerdict] at h ⊢
  split at h
  · next hcontains => rw [if_pos (hR.returned ht hcontains)]
  · cases h

mutual

/-- A statement that passes does so when it is moved, among related types. -/
theorem Stmt.related_check (hR : TypeSet.Respected R) (expected : TypeSet) (s : Stmt)
    {env env' : TypeEnv} (henv : env.Matches R env')
    (h : (s.check expected env).verdict = .ok ()) :
    ((s.moved g).check expected env').verdict = .ok () ∧
      Related g R Stmt.nodes (s.check expected env) ((s.moved g).check expected env') := by
  match s with
  | .expression p e | .print p e =>
    rw [check] at h ⊢
    obtain ⟨t, he, -⟩ := map_ok h
    obtain ⟨t', he', -, hleft⟩ := e.related_check (g := g) hR henv he
    rw [moved, check, he']
    exact ⟨rfl, hleft.env, List.rel_append hleft.nodes (Node.related_statement g R p)⟩
  | .var p n init =>
    rw [check] at h ⊢
    obtain ⟨t, hinit, -⟩ := next_ok h
    obtain ⟨t', hinit', ht, hleft⟩ := init.related_check (g := g) hR henv hinit
    rw [moved, check, next_eq hinit, next_eq hinit']
    exact ⟨rfl, hleft.env.set n ht, List.rel_append hleft.nodes (Node.related_statement g R p)⟩
  | .block p body =>
    rw [check] at h ⊢
    obtain ⟨hbody', hleft⟩ := Stmt.related_checkAll hR expected body (henv.push "block") h
    rw [moved, check]
    exact ⟨hbody', hleft.env.pop, List.rel_append hleft.nodes (Node.related_statement g R p)⟩
  | .ifElse p cond yes no =>
    rw [check] at h ⊢
    obtain ⟨⟨⟩, hyes, hno⟩ := next_ok h
    obtain ⟨t, hcond, hyes⟩ := next_ok hyes
    rw [next_eq hcond] at hno
    obtain ⟨t', hcond', -, hc⟩ := cond.related_check (g := g) hR henv hcond
    obtain ⟨hyes', hy⟩ := yes.related_check hR expected hc.env hyes
    obtain ⟨hno', hn⟩ := Stmt.related_checkOption hR expected no hy.env hno
    rw [moved, check]
    simp only [next_eq hcond, next_eq hcond', next_eq hyes, next_eq hyes']
    exact ⟨hno', hn.env, List.rel_append (List.rel_append (List.rel_append hc.nodes hy.nodes)
      hn.nodes) (Node.related_statement g R p)⟩
  | .whileLoop p cond body =>
    rw [check] at h ⊢
    obtain ⟨t, hcond, hbody⟩ := next_ok h
    obtain ⟨t', hcond', -, hc⟩ := cond.related_check (g := g) hR henv hcond
    obtain ⟨hbody', hb⟩ := body.related_check hR expected hc.env hbody
    rw [moved, check]
    simp only [next_eq hcond, next_eq hcond']
    exact ⟨hbody', hb.env, List.rel_append (List.rel_append hc.nodes hb.nodes)
      (Node.related_statement g R p)⟩
  | .forLoop p init cond increment body =>
    rw [check] at h ⊢
    obtain ⟨⟨⟩, hbody, hincrement⟩ := next_ok h
    obtain ⟨⟨⟩, hcond, hbody⟩ := next_ok hbody
    obtain ⟨⟨⟩, hinit, hcond⟩ := next_ok hcond
    simp only [next_eq hinit, next_eq hcond] at hbody hincrement
    obtain ⟨hinit', hi⟩ := Stmt.related_checkOption hR expected init (henv.push "for") hinit
    obtain ⟨hcond', hc⟩ := Expr.related_checkOption (g := g) hR cond hi.env hcond
    obtain ⟨hbody', hb⟩ := body.related_check hR expected hc.env hbody
    obtain ⟨hincrement', hn⟩ := Expr.related_checkOption (g := g) hR increment hb.env hincrement
    rw [moved, check]
    simp only [next_eq hinit, next_eq hinit', next_eq hcond, next_eq hcond', next_eq hbody,
      next_eq hbody']
    exact ⟨hincrement', hn.env.pop, List.rel_append (List.rel_append (List.rel_append
      (List.rel_append hi.nodes hc.nodes) hb.nodes) hn.nodes) (Node.related_statement g R p)⟩
  | .function p n params body result =>
    rw [check] at h ⊢
    have hinside := TypeEnv.matches_bindParams hR params ((henv.set n (hR.refl .any)).push n)
    obtain ⟨hbody', hb⟩ := Stmt.related_checkAll hR result body hinside h
    rw [moved, check]
    exact ⟨hbody', hb.env.pop, List.rel_append hb.nodes (Node.related_statement g R p)⟩
  | .ret p none =>
    rw [check] at h
    exact ⟨returnVerdict_of_rel hR (hR.refl _) h, henv, Node.related_statement g R p⟩
  | .ret p (some e) =>
    rw [check] at h ⊢
    obtain ⟨t, he, hfits⟩ := bind_ok h
    obtain ⟨t', he', ht, hleft⟩ := e.related_check (g := g) hR henv he
    rw [moved, Option.map_some, check, he']
    exact ⟨returnVerdict_of_rel hR ht hfits, hleft.env,
      List.rel_append hleft.nodes (Node.related_statement g R p)⟩

theorem Stmt.related_checkAll (hR : TypeSet.Respected R) (expected : TypeSet) (ss : List Stmt)
    {env env' : TypeEnv} (henv : env.Matches R env')
    (h : (Stmt.checkAll expected ss env).verdict = .ok ()) :
    (Stmt.checkAll expected (Stmt.movedAll g ss) env').verdict = .ok () ∧
      Related g R Stmt.nodesAll (Stmt.checkAll expected ss env)
        (Stmt.checkAll expected (Stmt.movedAll g ss) env') := by
  match ss with
  | [] => exact ⟨rfl, henv, .nil⟩
  | s :: ss =>
    rw [checkAll] at h ⊢
    obtain ⟨⟨⟩, hs, hss⟩ := next_ok h
    obtain ⟨hs', hfirst⟩ := s.related_check hR expected henv hs
    obtain ⟨hss', hrest⟩ := Stmt.related_checkAll hR expected ss hfirst.env hss
    rw [movedAll, checkAll, next_eq hs, next_eq hs']
    exact ⟨hss', hrest.env, List.rel_append hfirst.nodes hrest.nodes⟩

theorem Stmt.related_checkOption (hR : TypeSet.Respected R) (expected : TypeSet)
    (s : Option Stmt) {env env' : TypeEnv} (henv : env.Matches R env')
    (h : (Stmt.checkOption expected s env).verdict = .ok ()) :
    (Stmt.checkOption expected (Stmt.movedOption g s) env').verdict = .ok () ∧
      Related g R Stmt.nodesOption (Stmt.checkOption expected s env)
        (Stmt.checkOption expected (Stmt.movedOption g s) env') := by
  match s with
  | none => exact ⟨rfl, henv, .nil⟩
  | some s =>
    obtain ⟨hs', hleft⟩ := s.related_check hR expected henv h
    exact ⟨hs', hleft.env, hleft.nodes⟩

end

end

theorem Node.type_eq_of_related {g : Position → Position} {node node' : Node}
    (h : Related g Eq node node') : node.type = node'.type := by
  have htype := h.type_rel
  generalize node.type = t, node'.type = t' at htype
  cases htype with
  | some heq => exact congrArg some heq
  | none => rfl

/-- Nodes compared with nodes of the same types. -/
theorem Node.related_of_same {R : TypeSet → TypeSet → Prop} {xs ys zs : List Node}
    (h : List.Forall₂ (Related id R) xs zs) (hsame : List.Forall₂ (Related id Eq) ys zs) :
    List.Forall₂ (Related id R) xs ys := by
  induction h generalizing ys with
  | nil =>
    cases hsame
    exact .nil
  | @cons x z xs zs hx _ ih =>
    cases hsame with
    | @cons y _ ys _ hy hys =>
      exact .cons ⟨hy.position_eq.symm.trans hx.position_eq, type_eq_of_related hy ▸ hx.type_rel⟩
        (ih hys)

/-- A program passes among looser types if it passes among the types, and every type that
is recorded then or bound afterwards is the one that it was, or the wildcard. -/
theorem Program.passes_loosened (p : Program) {types looser : TypeEnv}
    (htypes : types.Matches TypeSet.Loosens looser) (h : (p.check types).verdict = .ok ()) :
    (p.check looser).verdict = .ok () ∧
      List.Forall₂ (Node.Related id TypeSet.Loosens) (Stmt.nodesAll (p.check types).tree)
        (Stmt.nodesAll (p.check looser).tree) ∧
      (p.check types).env.Matches TypeSet.Loosens (p.check looser).env := by
  obtain ⟨hmoved, hloosened⟩ :=
    Stmt.related_checkAll (g := id) TypeSet.respected_loosens .any p htypes h
  have hpasses := (Program.check_moved_ok_iff p looser).mp hmoved
  -- A moved tree records the same types.
  obtain ⟨-, hsame⟩ := Stmt.related_checkAll (g := id) TypeSet.respected_eq .any p
    (Scopes.Matches.refl looser) hpasses
  exact ⟨hpasses, Node.related_of_same hloosened.nodes hsame.nodes,
    (Program.check_moved p looser).env_eq ▸ hloosened.env⟩

/-- Declares a variable of the type of another one and a function with it. -/
def borrowingTree : Program :=
  [.var ⟨1, 1⟩ "y" (.binary (.unchecked ⟨1, 9⟩) .add (.name (.unchecked ⟨1, 9⟩) "x")
      (.name (.unchecked ⟨1, 13⟩) "x")),
    .function ⟨2, 1⟩ "f" ["n"] [.ret ⟨2, 20⟩ (some (.name (.unchecked ⟨2, 27⟩) "y"))] .numeric,
    .expression ⟨3, 1⟩ (.assign (.unchecked ⟨3, 1⟩) "x" (.name (.unchecked ⟨3, 5⟩) "y"))]

theorem Program.passes_loosened_borrowing :
    Scopes.Matches TypeSet.Loosens (TypeEnv.fresh.set "x" .numeric) (TypeEnv.fresh.set "x" .any) ∧
      (borrowingTree.check (TypeEnv.fresh.set "x" .numeric)).verdict = .ok () ∧
      (borrowingTree.check (TypeEnv.fresh.set "x" .any)).verdict = .ok () ∧
      List.Forall₂ (Node.Related id TypeSet.Loosens)
        (Stmt.nodesAll (borrowingTree.check (TypeEnv.fresh.set "x" .numeric)).tree)
        (Stmt.nodesAll (borrowingTree.check (TypeEnv.fresh.set "x" .any)).tree) ∧
      (borrowingTree.check (TypeEnv.fresh.set "x" .numeric)).env.Matches TypeSet.Loosens
        (borrowingTree.check (TypeEnv.fresh.set "x" .any)).env :=
  have htypes : Scopes.Matches TypeSet.Loosens (TypeEnv.fresh.set "x" .numeric)
      (TypeEnv.fresh.set "x" .any) :=
    ((Scopes.Matches.refl TypeEnv.fresh).mono fun _ _ h => .inl h.symm).set "x" (.inr rfl)
  have hpasses : (borrowingTree.check (TypeEnv.fresh.set "x" .numeric)).verdict = .ok () := by decide +kernel
  ⟨htypes, hpasses, borrowingTree.passes_loosened htypes hpasses⟩

end GradualScript
