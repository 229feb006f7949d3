import GradualScript.Typing.Checking

/-!
# What checking records

The types recorded on a checked tree fit together: the type of each expression is the
one that the rules give for the types recorded on its parts.
-/
namespace GradualScript

section

variable (P : Expr → Prop)

mutual

/-- The property holds of the expression and of every expression inside it. -/
def Expr.All : Expr → Prop
  | .number m v => P (.number m v)
  | .string m s => P (.string m s)
  | .boolean m b => P (.boolean m b)
  | .nil m => P (.nil m)
  | .unary m op e => P (.unary m op e) ∧ e.All
  | .binary m op l r => P (.binary m op l r) ∧ l.All ∧ r.All
  | .grouping m e => P (.grouping m e) ∧ e.All
  | .name m n => P (.name m n)
  | .assign m n e => P (.assign m n e) ∧ e.All
  | .call m f es => P (.call m f es) ∧ f.All ∧ Expr.AllIn es

def Expr.AllIn : List Expr → Prop
  | [] => True
  | e :: es => e.All ∧ Expr.AllIn es

end

def Expr.AllOption : Option Expr → Prop
  | none => True
  | some e => e.All P

mutual

/-- The property holds of every expression in the statement. -/
def Stmt.All : Stmt → Prop
  | .expression _ e | .print _ e | .var _ _ e => e.All P
  | .block _ ss | .function _ _ _ ss _ => Stmt.AllIn ss
  | .ifElse _ c y n => c.All P ∧ y.All ∧ Stmt.AllOption n
  | .whileLoop _ c b => c.All P ∧ b.All
  | .forLoop _ i c n b => Stmt.AllOption i ∧ Expr.AllOption P c ∧ Expr.AllOption P n ∧ b.All
  | .ret _ e => Expr.AllOption P e

def Stmt.AllIn : List Stmt → Prop
  | [] => True
  | s :: ss => s.All ∧ Stmt.AllIn ss

def Stmt.AllOption : Option Stmt → Prop
  | none => True
  | some s => s.All

end

variable {P}

theorem Expr.All.self {e : Expr} (h : e.All P) : P e := by
  cases e with
  | number | string | boolean | nil | name => exact h
  | unary | binary | grouping | assign | call => exact h.1

end

/-- A type that some value of a concrete kind can have. -/
def TypeSet.Inhabited : TypeSet → Prop
  | any => True
  | tags s _ => ∃ t, s.has t = true

/-- Every type is one: no set of tags in a type is empty. -/
theorem TypeSet.inhabited : ∀ t : TypeSet, t.Inhabited
  | any => trivial
  | tags _ hs => hs

namespace Operator

theorem unaryType_ok {op : Operator} {t u : TypeSet} (h : op.unaryType t = .ok u) :
    (op = .negate ∧ u = .boolean) ∨
      ((op = .add ∨ op = .subtract) ∧ t.within (.single .numeric) = true ∧ u = t) := by
  cases op with
  | negate =>
    cases h
    exact .inl ⟨rfl, rfl⟩
  | add | subtract =>
    rw [unaryType] at h
    split at h
    · next hwithin =>
      cases h
      exact .inr ⟨by simp, hwithin, rfl⟩
    · cases h
  | _ => cases h

theorem binaryType_ok {op : Operator} {t u w : TypeSet} (h : op.binaryType t u = .ok w) :
    op.accepts t u = true ∧
      w = if op.isComparison || op.isEquality then .boolean else t.union u := by
  rw [binaryType] at h
  split at h
  · next haccepts =>
    cases h
    exact ⟨haccepts, rfl⟩
  · cases h

end Operator

/-- The type recorded on the expression is the one that the rules give for the types
recorded on its operands. -/
def Expr.Consistent : Expr → Prop
  | .number m _ => m.type = some .numeric
  | .string m _ => m.type = some .string
  | .boolean m _ => m.type = some .boolean
  | .nil m => m.type = some .nil
  | .unary m op x => ∃ t u, x.type = some t ∧ op.unaryType t = .ok u ∧ m.type = some u
  | .binary m op l r =>
      ∃ t u w, l.type = some t ∧ r.type = some u ∧ op.binaryType t u = .ok w ∧ m.type = some w
  | .grouping m x | .assign m _ x => ∃ t, x.type = some t ∧ m.type = some t
  | .name m _ => ∃ t, m.type = some t
  | .call m _ _ => m.type = some .any

/-- Every expression of a consistent tree has a type. -/
theorem Expr.exists_type {e : Expr} (h : e.All Consistent) : ∃ t, e.type = some t := by
  cases e with
  | number | string | boolean | nil => exact ⟨_, h⟩
  | unary =>
    obtain ⟨⟨-, u, -, -, hu⟩, -⟩ := h
    exact ⟨u, hu⟩
  | binary =>
    obtain ⟨⟨-, -, w, -, -, -, hw⟩, -⟩ := h
    exact ⟨w, hw⟩
  | grouping | assign =>
    obtain ⟨⟨t, -, hm⟩, -⟩ := h
    exact ⟨t, hm⟩
  | name => exact h
  | call => exact ⟨.any, h.1⟩

namespace Checked

variable {σ τ α β : Type}

/-- What passed has `Q`, with the tree that checking left. -/
def Passes (Q : τ → α → Prop) (c : Checked τ α) : Prop := ∀ a, c.verdict = .ok a → Q c.tree a

/-- The type that an expression passed with is recorded on it. -/
def Typed (e : Expr) (type : TypeSet) : Prop := e.type = some type ∧ e.All Expr.Consistent

theorem passes_settle {e : Expr} {env : TypeEnv} {verdict : Except TypeError TypeSet}
    (h : ∀ type, verdict = .ok type → (e.record type).All Expr.Consistent) :
    Passes Typed (settle e env verdict) := by
  cases verdict with
  | ok type =>
    intro a ha
    cases ha
    exact ⟨e.type_record type, h type rfl⟩
  | error fault => exact nofun

theorem passes_next {Q : τ → β → Prop} {part : Except TypeError α} {tree : τ} {env : TypeEnv}
    {go : α → Checked τ β} (h : ∀ a, part = .ok a → Passes Q (go a)) :
    Passes Q (next part tree env go) := by
  cases part with
  | ok a => exact h a rfl
  | error fault => exact nofun

/-- A part that is checked after another one passed. -/
theorem passes_after {Q : τ → β → Prop} {part : Except TypeError α} {env : TypeEnv}
    {go : Checked τ β} (tree : τ) (hgo : Passes Q go) : Passes Q (next part tree env fun _ => go) :=
  passes_next fun _ _ => hgo

/-- What passes after a part passed: the part did, and then the rest. -/
theorem next_ok {part : Except TypeError α} {tree : τ} {env : TypeEnv} {go : α → Checked τ β}
    {b : β} (h : (next part tree env go).verdict = .ok b) :
    ∃ a, part = .ok a ∧ (go a).verdict = .ok b := by
  cases part with
  | ok a => exact ⟨a, rfl, h⟩
  | error fault => cases h

theorem bind_ok {verdict : Except TypeError α} {f : α → Except TypeError β} {b : β}
    (h : verdict.bind f = .ok b) : ∃ a, verdict = .ok a ∧ f a = .ok b := by
  cases verdict with
  | ok a => exact ⟨a, rfl, h⟩
  | error fault => cases h

theorem map_ok {verdict : Except TypeError α} {f : α → β} {b : β}
    (h : verdict.map f = .ok b) : ∃ a, verdict = .ok a ∧ f a = b := by
  cases verdict with
  | ok a => exact ⟨a, rfl, Except.ok.inj h⟩
  | error fault => cases h

theorem atPosition_ok {position : Position} {verdict : Except TypeFault α} {a : α}
    (h : Located.atPosition position verdict = .ok a) : verdict = .ok a := by
  cases verdict with
  | ok b => exact congrArg Except.ok (Except.ok.inj h)
  | error fault => cases h

end Checked

open Checked

mutual

theorem Expr.passes_check (e : Expr) (env : TypeEnv) : Passes Typed (e.check env) := by
  match e with
  | .number _ _ | .string _ _ | .boolean _ _ | .nil _ =>
    refine passes_settle fun type h => ?_
    cases h
    rfl
  | .name m n => exact passes_settle fun type _ => ⟨type, rfl⟩
  | .assign m n value =>
    rw [check]
    refine passes_next fun type htype => ?_
    have hpassed := value.passes_check env type htype
    split
    · refine passes_settle fun found h => ?_
      cases h
      exact ⟨⟨type, hpassed.1, rfl⟩, hpassed.2⟩
    · exact passes_settle nofun
  | .unary m op operand =>
    rw [check]
    refine passes_settle fun type h => ?_
    obtain ⟨t, ht, hop⟩ := bind_ok h
    have hpassed := operand.passes_check env t ht
    exact ⟨⟨t, type, hpassed.1, atPosition_ok hop, rfl⟩, hpassed.2⟩
  | .binary m op left right =>
    rw [check]
    refine passes_settle fun type h => ?_
    obtain ⟨t, ht, h⟩ := bind_ok h
    obtain ⟨u, hu, hop⟩ := bind_ok h
    have hl := left.passes_check env t ht
    have hr := passes_after right (right.passes_check _) u hu
    exact ⟨⟨t, u, type, hl.1, hr.1, atPosition_ok hop, rfl⟩, hl.2, hr.2⟩
  | .grouping m inner =>
    rw [check]
    refine passes_settle fun type h => ?_
    have hpassed := inner.passes_check env type h
    exact ⟨⟨type, hpassed.1, rfl⟩, hpassed.2⟩
  | .call m callee args =>
    rw [check]
    refine passes_settle fun type h => ?_
    obtain ⟨⟨⟩, ha, rfl⟩ := map_ok h
    have hargs := passes_after args (Expr.passes_checkAll args _) () ha
    obtain ⟨t, ht, -⟩ := next_ok ha
    exact ⟨rfl, (callee.passes_check env t ht).2, hargs⟩

theorem Expr.passes_checkAll (es : List Expr) (env : TypeEnv) :
    Passes (fun es _ => Expr.AllIn Expr.Consistent es) (Expr.checkAll es env) := by
  match es with
  | [] => exact fun _ _ => trivial
  | e :: es =>
    intro a ha
    have hrest := passes_after es (Expr.passes_checkAll es _) a ha
    obtain ⟨t, ht, -⟩ := next_ok ha
    exact ⟨(e.passes_check env t ht).2, hrest⟩

end

theorem Expr.passes_checkOption (e : Option Expr) (env : TypeEnv) :
    Passes (fun e _ => Expr.AllOption Expr.Consistent e) (Expr.checkOption e env) := by
  cases e with
  | none => exact fun _ _ => trivial
  | some e =>
    intro a ha
    obtain ⟨t, ht, -⟩ := map_ok ha
    exact (e.passes_check env t ht).2

mutual

theorem Stmt.passes_check (expected : TypeSet) (s : Stmt) (env : TypeEnv) :
    Passes (fun s _ => s.All Expr.Consistent) (s.check expected env) := by
  match s with
  | .expression _ e | .print _ e =>
    intro a ha
    obtain ⟨t, ht, -⟩ := map_ok ha
    exact (e.passes_check env t ht).2
  | .var p n init =>
    rw [check]
    exact passes_next fun type htype _ _ => (init.passes_check env type htype).2
  | .block p body => exact Stmt.passes_checkAll expected body (env.push "block")
  | .ifElse p cond yes no =>
    rw [check]
    intro a ha
    have hno := passes_after no (Stmt.passes_checkOption expected no _) a ha
    obtain ⟨b, hb, -⟩ := next_ok ha
    have hyes := passes_after yes (yes.passes_check expected _) b hb
    obtain ⟨t, ht, -⟩ := next_ok hb
    exact ⟨(cond.passes_check env t ht).2, hyes, hno⟩
  | .whileLoop p cond body =>
    rw [check]
    intro a ha
    have hbody := passes_after body (body.passes_check expected _) a ha
    obtain ⟨t, ht, -⟩ := next_ok ha
    exact ⟨(cond.passes_check env t ht).2, hbody⟩
  | .forLoop p init cond increment body =>
    rw [check]
    intro a ha
    have hincrement := passes_after increment (Expr.passes_checkOption increment _) a ha
    obtain ⟨b, hb, -⟩ := next_ok ha
    have hbody := passes_after body (body.passes_check expected _) b hb
    obtain ⟨c, hc, -⟩ := next_ok hb
    have hcond := passes_after cond (Expr.passes_checkOption cond _) c hc
    obtain ⟨d, hd, -⟩ := next_ok hc
    exact ⟨Stmt.passes_checkOption expected init _ d hd, hcond, hincrement, hbody⟩
  | .function p n params body result => exact Stmt.passes_checkAll result body _
  | .ret _ none => exact fun _ _ => trivial
  | .ret _ (some e) =>
    intro a ha
    obtain ⟨t, ht, -⟩ := bind_ok ha
    exact (e.passes_check env t ht).2

theorem Stmt.passes_checkAll (expected : TypeSet) (ss : List Stmt) (env : TypeEnv) :
    Passes (fun ss _ => Stmt.AllIn Expr.Consistent ss) (Stmt.checkAll expected ss env) := by
  match ss with
  | [] => exact fun _ _ => trivial
  | s :: ss =>
    intro a ha
    have hrest := passes_after ss (Stmt.passes_checkAll expected ss _) a ha
    obtain ⟨b, hb, -⟩ := next_ok ha
    exact ⟨s.passes_check expected env b hb, hrest⟩

theorem Stmt.passes_checkOption (expected : TypeSet) (s : Option Stmt) (env : TypeEnv) :
    Passes (fun s _ => Stmt.AllOption Expr.Consistent s) (Stmt.checkOption expected s env) := by
  match s with
  | none => exact fun _ _ => trivial
  | some s => exact s.passes_check expected env

end

/-- The types recorded on a program that passed fit together. -/
theorem Program.consistent_of_check {p : Program} (h : (p.check .fresh).verdict = .ok ()) :
    Stmt.AllIn Expr.Consistent (p.check .fresh).tree :=
  Stmt.passes_checkAll .any p .fresh () h

end GradualScript
