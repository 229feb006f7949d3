import GradualScript.Proofs.Scopes.Chains
import GradualScript.Typing.Checking

/-!
# Checking restores its scopes

Whether a tree passes or not, checking closes the scopes that it opened. An expression
adds no name, and a statement adds names to the active scope only: to the names that
were visible, the one that it declares.
-/
namespace GradualScript

namespace Scopes

variable {α : Type} {s mid t : Scopes α}

/-- Extending the active scope twice. -/
theorem Extends.then (h : Extends (some s.active) s mid) (h' : Extends (some mid.active) mid t) :
    Extends (some s.active) s t :=
  h.trans (h.active_eq ▸ h')

theorem Extends.size_pos {grown : Option Nat} (h : Extends grown s t) (hsize : 0 < s.size) :
    0 < t.size := by
  rw [h.size_eq]
  exact hsize

/-- A scope that was opened under the active one, extended and popped. -/
theorem extends_pop {name : String} (hsize : 0 < s.size)
    (h : Extends (some (s.push name).active) (s.push name) t) : Extends none s t.pop := by
  have hactive : t.active = s.size := h.active_eq.trans (active_pushAt ..)
  rw [pop, hactive]
  exact extends_truncate hsize (by rwa [push, active_pushAt] at h)

theorem size_push_pos (s : Scopes α) (name : String) : 0 < (s.push name).size := by
  rw [push, size_pushAt]
  exact Nat.succ_pos s.size

end Scopes

open Scopes

namespace Checked

variable {τ α β : Type}

@[simp] theorem env_settle (e : Expr) (env : TypeEnv) (verdict : Except TypeError TypeSet) :
    (settle e env verdict).env = env := by cases verdict <;> rfl

/-- What holds of the environment before a part is checked, and after it, if what comes
before passed. -/
theorem env_next_of_ok {P : TypeEnv → Prop} {part : Except TypeError α} {tree : τ} {env : TypeEnv}
    {go : α → Checked τ β} (henv : P env) (hgo : ∀ a, part = .ok a → P (go a).env) :
    P (next part tree env go).env := by
  cases part with
  | ok a => exact hgo a rfl
  | error fault => exact henv

/-- What holds of the environment before a part is checked and after it. -/
theorem env_next {P : TypeEnv → Prop} {part : Except TypeError α} {tree : τ} {env : TypeEnv}
    {go : α → Checked τ β} (henv : P env) (hgo : ∀ a, P (go a).env) :
    P (next part tree env go).env :=
  env_next_of_ok henv fun a _ => hgo a

end Checked

open Checked

mutual

theorem Expr.extends_check (e : Expr) (env : TypeEnv) : Extends none env (e.check env).env := by
  match e with
  | .number _ _ | .string _ _ | .boolean _ _ | .nil _ | .name _ _ =>
    rw [check, env_settle]
    exact .refl none env
  | .assign m n value =>
    have hvalue := value.extends_check env
    rw [check]
    refine env_next (P := Extends none env) hvalue fun type => ?_
    split
    · next hassign => rw [env_settle]; exact hvalue.trans (extends_assign hassign)
    · rw [env_settle]; exact hvalue
  | .unary m op operand =>
    rw [check, env_settle]
    exact operand.extends_check env
  | .binary m op left right =>
    have hleft := left.extends_check env
    rw [check, env_settle]
    exact env_next (P := Extends none env) hleft fun _ => hleft.trans (right.extends_check _)
  | .grouping m inner =>
    rw [check, env_settle]
    exact inner.extends_check env
  | .call m callee args =>
    have hcallee := callee.extends_check env
    rw [check, env_settle]
    exact env_next (P := Extends none env) hcallee fun _ =>
      hcallee.trans (Expr.extends_checkAll args _)

theorem Expr.extends_checkAll (es : List Expr) (env : TypeEnv) :
    Extends none env (Expr.checkAll es env).env := by
  match es with
  | [] => exact .refl none env
  | e :: es =>
    have hfirst := e.extends_check env
    rw [checkAll]
    exact env_next (P := Extends none env) hfirst fun _ => hfirst.trans (Expr.extends_checkAll es _)

end

theorem Expr.extends_checkOption (e : Option Expr) (env : TypeEnv) :
    Extends none env (Expr.checkOption e env).env := by
  cases e with
  | none => exact .refl none env
  | some e => exact e.extends_check env

/-- The parameters of a function are bound in its scope. -/
theorem TypeEnv.extends_bindParams (params : List String) (env : TypeEnv) :
    Extends (some env.active) env
      (params.foldl (fun env param => env.set param TypeSet.any) env) := by
  have hfold := extends_foldl_set (params.map fun param => (param, TypeSet.any)) env
  rwa [List.foldl_map] at hfold

theorem TypeEnv.shows_bindParams (params : List String) {env : TypeEnv} (hsize : 0 < env.size)
    (n : String) :
    (params.foldl (fun env param => env.set param TypeSet.any) env).Shows n ↔
      env.Shows n ∨ n ∈ params := by
  have hfold := shows_foldl_set (params.map fun param => (param, TypeSet.any)) hsize n
  rw [List.foldl_map, List.map_map] at hfold
  simpa [Function.comp_def] using hfold

/-- A part that is checked after another one, in the environment that it left. -/
theorem Checked.extends_next {τ α β : Type} {env mid : TypeEnv} {part : Except TypeError α}
    {tree : τ} {go : α → Checked τ β} (hsize : 0 < env.size)
    (h : Extends (some env.active) env mid)
    (hgo : 0 < mid.size → ∀ a, Extends (some mid.active) mid (go a).env) :
    Extends (some env.active) env (next part tree mid go).env :=
  env_next (P := Extends (some env.active) env) h fun a => h.then (hgo (h.size_pos hsize) a)

/-- A loop with clauses runs in a scope of its own. -/
theorem extends_check_forLoop {expected : TypeSet} {env : TypeEnv} {p : Position}
    {init : Option Stmt} {cond increment : Option Expr} {body : Stmt} (hsize : 0 < env.size)
    (hinit : ∀ {env : TypeEnv}, 0 < env.size →
      Extends (some env.active) env (Stmt.checkOption expected init env).env)
    (hbody : ∀ {env : TypeEnv}, 0 < env.size →
      Extends (some env.active) env (body.check expected env).env) :
    Extends none env ((Stmt.forLoop p init cond increment body).check expected env).env := by
  have hpushed := size_push_pos env "for"
  rw [Stmt.check]
  refine extends_pop hsize (?_ : Extends (some (env.push "for").active) (env.push "for") _)
  refine extends_next hpushed ?_ fun _ _ => (Expr.extends_checkOption increment _).weaken _
  refine extends_next hpushed ?_ fun hsize _ => hbody hsize
  exact extends_next hpushed (hinit hpushed) fun _ _ => (Expr.extends_checkOption cond _).weaken _

mutual

theorem Stmt.extends_check (expected : TypeSet) (s : Stmt) {env : TypeEnv} (hsize : 0 < env.size) :
    Extends (some env.active) env (s.check expected env).env := by
  match s with
  | .expression _ e | .print _ e | .ret _ (some e) =>
    rw [check]
    exact (e.extends_check env).weaken _
  | .ret _ none => exact .refl _ env
  | .var p n init =>
    rw [check]
    exact extends_next hsize ((init.extends_check env).weaken _) fun _ _ => extends_setAt ..
  | .block p body =>
    rw [check]
    exact (extends_pop hsize (Stmt.extends_checkAll expected body (size_push_pos ..))).weaken _
  | .ifElse p cond yes no =>
    rw [check]
    refine extends_next hsize ?_ fun hsize _ => Stmt.extends_checkOption expected no hsize
    exact extends_next hsize ((cond.extends_check env).weaken _) fun hsize _ =>
      yes.extends_check expected hsize
  | .whileLoop p cond body =>
    rw [check]
    exact extends_next hsize ((cond.extends_check env).weaken _) fun hsize _ =>
      body.extends_check expected hsize
  | .forLoop p init cond increment body =>
    exact (extends_check_forLoop hsize (fun hsize => Stmt.extends_checkOption expected init hsize)
      fun hsize => body.extends_check expected hsize).weaken _
  | .function p n params body result =>
    have hname : Extends (some env.active) env (env.set n .any) := extends_setAt ..
    have hparams := TypeEnv.extends_bindParams params ((env.set n .any).push n)
    have hbody := Stmt.extends_checkAll result body (hparams.size_pos (size_push_pos ..))
    rw [check]
    exact hname.then ((extends_pop (hname.size_pos hsize) (hparams.then hbody)).weaken _)

theorem Stmt.extends_checkAll (expected : TypeSet) (ss : List Stmt) {env : TypeEnv}
    (hsize : 0 < env.size) :
    Extends (some env.active) env (Stmt.checkAll expected ss env).env := by
  match ss with
  | [] => exact .refl _ env
  | s :: ss =>
    rw [checkAll]
    exact extends_next hsize (s.extends_check expected hsize) fun hsize _ =>
      Stmt.extends_checkAll expected ss hsize

theorem Stmt.extends_checkOption (expected : TypeSet) (s : Option Stmt) {env : TypeEnv}
    (hsize : 0 < env.size) :
    Extends (some env.active) env (Stmt.checkOption expected s env).env := by
  match s with
  | none => exact .refl _ env
  | some s => exact s.extends_check expected hsize

end

end GradualScript
