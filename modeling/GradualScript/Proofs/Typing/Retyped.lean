import GradualScript.Proofs.Scopes.Lexical
import GradualScript.Proofs.Tree.Parts
import GradualScript.Proofs.Typing.Frames

/-!
# What checking changes

Checking leaves the scopes that it found. A type that is bound in one of them changes only
where checking comes to an assignment to this binding, or to a declaration of the name in
the scope that was active at the start. It is then the type of the value.
-/
namespace GradualScript

/-- Something happens in a part, or, if the part passes, in the rest that is checked after
it. -/
def Checked.orNext {τ α : Type} (first : Checked τ α) (here : Prop) (rest : TypeEnv → Prop) :
    Prop :=
  here ∨ (∃ a, first.verdict = .ok a) ∧ rest first.env

section

variable (P : Part → TypeEnv → Prop)

mutual

/-- Checking the expression comes to a part of it that has the property in the environment
which it is checked in. -/
def Expr.Meets (e : Expr) (env : TypeEnv) : Prop :=
  P (.expression e) env ∨ match e with
    | .number _ _ | .string _ _ | .boolean _ _ | .nil _ | .name _ _ => False
    | .unary _ _ e | .grouping _ e | .assign _ _ e => e.Meets env
    | .binary _ _ l r => (l.check env).orNext (l.Meets env) fun env => r.Meets env
    | .call _ f es => (f.check env).orNext (f.Meets env) fun env => Expr.MeetsIn es env

def Expr.MeetsIn (es : List Expr) (env : TypeEnv) : Prop :=
  match es with
  | [] => False
  | e :: es => (e.check env).orNext (e.Meets env) fun env => Expr.MeetsIn es env

end

def Expr.MeetsOption (e : Option Expr) (env : TypeEnv) : Prop :=
  match e with
  | none => False
  | some e => e.Meets P env

mutual

/-- Checking the statement comes to a part of it that has the property in the environment
which it is checked in. -/
def Stmt.Meets (expected : TypeSet) (s : Stmt) (env : TypeEnv) : Prop :=
  P (.statement s) env ∨ match s with
    | .expression _ e | .print _ e | .var _ _ e => e.Meets P env
    | .block _ ss => Stmt.MeetsIn expected ss (env.push "block")
    | .ifElse _ c yes no =>
        let c' := c.check env
        let y := Checked.next c'.verdict yes c'.env fun _ => yes.check expected c'.env
        y.orNext (c'.orNext (c.Meets P env) fun env => yes.Meets expected env) fun env =>
          Stmt.MeetsOption expected no env
    | .whileLoop _ c body =>
        (c.check env).orNext (c.Meets P env) fun env => body.Meets expected env
    | .forLoop _ init c increment body =>
        let i := Stmt.checkOption expected init (env.push "for")
        let c' := Checked.next i.verdict c i.env fun _ => Expr.checkOption c i.env
        let b := Checked.next c'.verdict body c'.env fun _ => body.check expected c'.env
        let first := Stmt.MeetsOption expected init (env.push "for")
        let test := i.orNext first fun env => Expr.MeetsOption P c env
        b.orNext (c'.orNext test fun env => body.Meets expected env) fun env =>
          Expr.MeetsOption P increment env
    | .function _ n params body result =>
        Stmt.MeetsIn result body
          (params.foldl (fun env param => env.set param .any) ((env.set n .any).push n))
    | .ret _ e => Expr.MeetsOption P e env

def Stmt.MeetsIn (expected : TypeSet) (ss : List Stmt) (env : TypeEnv) : Prop :=
  match ss with
  | [] => False
  | s :: ss => (s.check expected env).orNext (s.Meets expected env) fun env =>
      Stmt.MeetsIn expected ss env

def Stmt.MeetsOption (expected : TypeSet) (s : Option Stmt) (env : TypeEnv) : Prop :=
  match s with
  | none => False
  | some s => s.Meets expected env

end

/-- Checking the program comes to a part of it that has the property. -/
def Program.Meets (program : Program) (env : TypeEnv) : Prop :=
  Stmt.MeetsIn P .any program env

end

namespace Part

/-- An assignment of a value of the type to the name, whose binding is the one at the place. -/
def Assigns (place : Nat) (name : String) (type : TypeSet) (part : Part) (env : TypeEnv) : Prop :=
  ∃ m value, part = .expression (.assign m name value) ∧ (value.check env).verdict = .ok type ∧
    ∃ old, (value.check env).env.Owns place name old

/-- A declaration of the name in the scope at the place, with the type. -/
def Declares (place : Nat) (name : String) (type : TypeSet) (part : Part) (env : TypeEnv) :
    Prop :=
  env.active = place ∧
    ((∃ p init, part = .statement (.var p name init) ∧ (init.check env).verdict = .ok type) ∨
      ∃ p params body result,
        part = .statement (.function p name params body result) ∧ type = .any)

end Part

open Scopes Checked

/-- The scopes of before are there. What is bound in them was bound before, or by an
assignment, or by a declaration in the active scope. -/
structure Retyped (meets : (Part → TypeEnv → Prop) → Prop) (s t : TypeEnv) : Prop where
  size_eq : t.size = s.size
  slots : ∀ place < s.size, ∀ name type, t.bindingAt place name = some type →
    s.bindingAt place name = some type ∨ meets (Part.Assigns place name type) ∨
      place = s.active ∧ meets (Part.Declares place name type)

namespace Retyped

variable {σ τ α β : Type} {meets wider : (Part → TypeEnv → Prop) → Prop} {s mid t : TypeEnv}
  {place : Nat} {name : String} {type : TypeSet}

theorem size_pos (h : Retyped meets s t) (hsize : 0 < s.size) : 0 < t.size := by
  rwa [h.size_eq]

theorem active_eq (h : Retyped meets s t) : t.active = s.active := by
  rw [active, active, h.size_eq]

theorem refl (s : TypeEnv) : Retyped meets s s := ⟨rfl, fun _ _ _ _ => .inl⟩

theorem mono (h : Retyped meets s t) (hwider : ∀ P, meets P → wider P) : Retyped wider s t where
  size_eq := h.size_eq
  slots place hplace name type hbound :=
    (h.slots place hplace name type hbound).imp_right
      (Or.imp (hwider _) (And.imp_right (hwider _)))

theorem trans (h : Retyped meets s mid) (h' : Retyped meets mid t) : Retyped meets s t where
  size_eq := h'.size_eq.trans h.size_eq
  slots place hplace name type hbound := by
    rcases h'.slots place (by rwa [h.size_eq]) name type hbound with hmid | hlater
    · exact h.slots place hplace name type hmid
    · exact .inr (h.active_eq ▸ hlater)

theorem setAt (h : meets (Part.Assigns place name type) ∨
    place = s.active ∧ meets (Part.Declares place name type)) :
    Retyped meets s (s.setAt place name type) where
  size_eq := (extends_setAt s place name type).size_eq
  slots i _ key found hbound := by
    rw [bindingAt_setAt] at hbound
    split at hbound
    · next hslot =>
      obtain ⟨rfl, -, rfl⟩ := hslot
      cases hbound
      exact .inr h
    · exact .inl hbound

/-- After a part that passed, the rest. -/
theorem next {part : Checked σ α} {rest : (Part → TypeEnv → Prop) → TypeEnv → Prop}
    {go : α → Checked τ β} (h : Retyped meets s part.env) (tree : τ)
    (hgo : ∀ a, part.verdict = .ok a →
      Retyped (fun P => rest P part.env) part.env (go a).env) :
    Retyped (fun P => part.orNext (meets P) (rest P)) s
      (Checked.next part.verdict tree part.env go).env := by
  have hpart : Retyped (fun P => part.orNext (meets P) (rest P)) s part.env :=
    h.mono fun P hP => .inl hP
  refine env_next_of_ok (P := Retyped _ s) hpart fun a hpassed => ?_
  exact hpart.trans ((hgo a hpassed).mono fun P hP => .inr ⟨⟨a, hpassed⟩, hP⟩)

/-- What was declared in a new scope is gone with it. -/
theorem pop {inside : TypeEnv} (hsize : 0 < s.size) (hinside : Surrounds (s.push name) inside)
    (h : Retyped meets inside t) : Retyped meets s t.pop := by
  have hactive : inside.active = s.size := hinside.active_eq.trans (active_pushAt ..)
  have hisize : inside.size = s.size + 1 := by rw [hinside.size_eq, push, size_pushAt]
  rw [Scopes.pop, h.active_eq, hactive]
  refine ⟨size_truncate hsize (by rw [h.size_eq]; omega), fun place hplace key type hbound => ?_⟩
  rw [bindingAt_truncate, if_pos (by omega)] at hbound
  -- A declaration inside goes into the new scope, which lies above all that are left.
  rcases h.slots place (by omega) key type hbound with hsame | hassign | ⟨hplace', -⟩
  · rw [hinside.slots_eq place (by rwa [push, active_pushAt]), push, bindingAt_pushAt] at hsame
    exact .inl hsame
  · exact .inr (.inl hassign)
  · omega

end Retyped

/-- The parameters of a function are bound in its scope, which is the active one. -/
theorem TypeEnv.surrounds_bindParams (params : List String) (env : TypeEnv) :
    Surrounds env (params.foldl (fun env param => env.set param TypeSet.any) env) := by
  induction params generalizing env with
  | nil => exact .refl env
  | cons param params ih => exact (Surrounds.set env param .any).trans (ih _)

mutual

theorem Expr.retyped_check (e : Expr) (env : TypeEnv) :
    Retyped (fun P => e.Meets P env) env (e.check env).env := by
  match e with
  | .number _ _ | .string _ _ | .boolean _ _ | .nil _ | .name _ _ =>
    rw [check, env_settle]
    exact .refl env
  | .assign m n value =>
    have hvalue : Retyped (fun P => (assign m n value).Meets P env) env (value.check env).env :=
      (value.retyped_check env).mono fun P hP => .inr hP
    rw [check]
    refine env_next_of_ok (P := Retyped _ env) hvalue fun type hpassed => ?_
    split
    · next old after hassign =>
      -- What is written is the binding that the name means once the value is checked.
      obtain ⟨place, howns, rfl⟩ := assign_eq_some_iff.mp hassign
      rw [env_settle]
      exact hvalue.trans (.setAt (.inl (.inl ⟨m, value, rfl, hpassed, old, howns⟩)))
    · rw [env_settle]
      exact hvalue
  | .unary m op operand =>
    rw [check, env_settle]
    exact (operand.retyped_check env).mono fun P hP => .inr hP
  | .binary m op left right =>
    rw [check, env_settle]
    refine Retyped.mono ?_ fun P hP => .inr hP
    exact (left.retyped_check env).next right fun _ _ => right.retyped_check _
  | .grouping m inner =>
    rw [check, env_settle]
    exact (inner.retyped_check env).mono fun P hP => .inr hP
  | .call m callee args =>
    rw [check, env_settle]
    refine Retyped.mono ?_ fun P hP => .inr hP
    exact (callee.retyped_check env).next args fun _ _ => Expr.retyped_checkAll args _

theorem Expr.retyped_checkAll (es : List Expr) (env : TypeEnv) :
    Retyped (fun P => Expr.MeetsIn P es env) env (Expr.checkAll es env).env := by
  match es with
  | [] => exact .refl env
  | e :: es =>
    rw [checkAll]
    exact (e.retyped_check env).next es fun _ _ => Expr.retyped_checkAll es _

end

theorem Expr.retyped_checkOption (e : Option Expr) (env : TypeEnv) :
    Retyped (fun P => Expr.MeetsOption P e env) env (Expr.checkOption e env).env := by
  cases e with
  | none => exact .refl env
  | some e => exact e.retyped_check env

mutual

theorem Stmt.retyped_check (expected : TypeSet) (s : Stmt) {env : TypeEnv} (hsize : 0 < env.size) :
    Retyped (fun P => s.Meets P expected env) env (s.check expected env).env := by
  match s with
  | .expression _ e | .print _ e | .ret _ (some e) =>
    rw [check]
    exact (e.retyped_check env).mono fun P hP => .inr hP
  | .ret _ none => exact .refl env
  | .var p n init =>
    have hinit : Retyped (fun P => (var p n init).Meets P expected env) env (init.check env).env :=
      (init.retyped_check env).mono fun P hP => .inr hP
    rw [check]
    refine env_next_of_ok (P := Retyped _ env) hinit fun type hpassed => ?_
    exact hinit.trans (.setAt (.inr
      ⟨rfl, .inl ⟨hinit.active_eq.symm, .inl ⟨p, init, rfl, hpassed⟩⟩⟩))
  | .block p body =>
    rw [check]
    refine Retyped.mono ?_ fun P hP => .inr hP
    exact (Stmt.retyped_checkAll expected body (size_push_pos ..)).pop hsize (.refl _)
  | .ifElse p cond yes no =>
    have hcond := cond.retyped_check env
    rw [check]
    refine Retyped.mono ?_ fun P hP => .inr hP
    have hyes := hcond.next yes fun _ _ => yes.retyped_check expected (hcond.size_pos hsize)
    exact hyes.next no fun _ _ => Stmt.retyped_checkOption expected no (hyes.size_pos hsize)
  | .whileLoop p cond body =>
    have hcond := cond.retyped_check env
    rw [check]
    refine Retyped.mono ?_ fun P hP => .inr hP
    exact hcond.next body fun _ _ => body.retyped_check expected (hcond.size_pos hsize)
  | .forLoop p init cond increment body =>
    have hpushed := size_push_pos env "for"
    rw [check]
    refine Retyped.mono ?_ fun P hP => .inr hP
    have hinit := Stmt.retyped_checkOption expected init hpushed
    have hcond := hinit.next cond fun _ _ => Expr.retyped_checkOption cond _
    have hbody := hcond.next body fun _ _ => body.retyped_check expected (hcond.size_pos hpushed)
    exact (hbody.next increment fun _ _ => Expr.retyped_checkOption increment _).pop hsize (.refl _)
  | .function p n params body result =>
    have hname : Retyped (fun P => (function p n params body result).Meets P expected env) env
        (env.set n .any) :=
      .setAt (.inr ⟨rfl, .inl ⟨rfl, .inr ⟨p, params, body, result, rfl, rfl⟩⟩⟩)
    have hparams := TypeEnv.surrounds_bindParams params ((env.set n .any).push n)
    have hinside := hparams.size_eq.symm ▸ size_push_pos (env.set n .any) n
    have hbody := (Stmt.retyped_checkAll result body hinside).pop (hname.size_pos hsize) hparams
    rw [check]
    exact hname.trans (hbody.mono fun P hP => .inr hP)

theorem Stmt.retyped_checkAll (expected : TypeSet) (ss : List Stmt) {env : TypeEnv}
    (hsize : 0 < env.size) :
    Retyped (fun P => Stmt.MeetsIn P expected ss env) env (Stmt.checkAll expected ss env).env := by
  match ss with
  | [] => exact .refl env
  | s :: ss =>
    have hfirst := s.retyped_check expected hsize
    rw [checkAll]
    exact hfirst.next ss fun _ _ => Stmt.retyped_checkAll expected ss (hfirst.size_pos hsize)

theorem Stmt.retyped_checkOption (expected : TypeSet) (s : Option Stmt) {env : TypeEnv}
    (hsize : 0 < env.size) :
    Retyped (fun P => Stmt.MeetsOption P expected s env) env
      (Stmt.checkOption expected s env).env := by
  match s with
  | none => exact .refl env
  | some s => exact s.retyped_check expected hsize

end

/-- Whether a program passes or not, checking it leaves the scopes that it found: no name
is lost, and only the active scope has got new ones. A type that was bound changes only
with an assignment to its binding, or a declaration of its name in the active scope. -/
theorem Program.check_restores (program : Program) {env : TypeEnv} (hsize : 0 < env.size) :
    Extends (some env.active) env (program.check env).env ∧
      ∀ place name type, env.bindingAt place name = some type →
        ∃ later, (program.check env).env.bindingAt place name = some later ∧
          (later = type ∨ program.Meets (Part.Assigns place name later) env ∨
            place = env.active ∧ program.Meets (Part.Declares place name later) env) := by
  have hextends := Stmt.extends_checkAll .any program hsize
  refine ⟨hextends, fun place name type hbound => ?_⟩
  have hplace : place < env.size := by
    by_contra hle
    rw [bindingAt_of_size_le (Nat.le_of_not_lt hle)] at hbound
    cases hbound
  have hname : name ∈ env.namesAt place := (isSome_bindingAt env place name).mp (hbound ▸ rfl)
  obtain ⟨later, hlater⟩ := Option.isSome_iff_exists.mp
    ((isSome_bindingAt _ place name).mpr ((hextends.grows place).subset hname))
  refine ⟨later, hlater, ?_⟩
  rcases (Stmt.retyped_checkAll .any program hsize).slots place hplace name later hlater with
    hsame | hchanged
  · rw [hbound, Option.some_inj] at hsame
    exact .inl hsame.symm
  · exact .inr hchanged

/-- The block assigns to a variable of an outer scope. Then it fails in a block inside,
where the same name is declared. -/
theorem Program.check_restores_failing :
    let program : Program := [.block ⟨1, 1⟩ [
      .expression ⟨1, 3⟩
        (.assign (.unchecked ⟨1, 3⟩) "x" (.string (.unchecked ⟨1, 7⟩) "s")),
      .block ⟨1, 12⟩ [.var ⟨1, 14⟩ "x" (.boolean (.unchecked ⟨1, 22⟩) true),
        .print ⟨1, 28⟩ (.name (.unchecked ⟨1, 34⟩) "missing")]]]
    let env := (TypeEnv.fresh.set "x" .numeric).push "frame"
    0 < env.size ∧
      (program.check env).verdict = .error ⟨.undefinedVariable "missing", ⟨1, 34⟩⟩ ∧
      Extends (some 1) env (program.check env).env ∧
      (program.check env).env.bindingAt 0 "x" = some .string ∧
      program.Meets (Part.Assigns 0 "x" .string) env := by
  intro program env
  have hsize : 0 < env.size := by decide
  have hfails : (program.check env).verdict = .error ⟨.undefinedVariable "missing", ⟨1, 34⟩⟩ := by
    cbv
  have hstring : (program.check env).env.bindingAt 0 "x" = some .string := by cbv
  obtain ⟨hextends, htypes⟩ := program.check_restores hsize
  refine ⟨hsize, hfails, hextends, hstring, ?_⟩
  obtain ⟨later, hlater, hwhy⟩ := htypes 0 "x" .numeric rfl
  rw [hstring] at hlater
  cases hlater
  rcases hwhy with hsame | hassigns | ⟨hactive, -⟩
  · cases hsame
  · exact hassigns
  · cases hactive

end GradualScript
