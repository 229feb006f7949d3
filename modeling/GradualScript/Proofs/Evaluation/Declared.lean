import GradualScript.Proofs.Evaluation.Discipline
import GradualScript.Proofs.Evaluation.Lowering
import GradualScript.Proofs.Typing.Closed

/-!
# The names that a statement adds

Running a statement and checking it add the same names to the active scope: the name that
the statement declares, once it is through, and none if it stops before.
-/
namespace GradualScript

open Scopes Eval

namespace Scopes

variable {α : Type} {declared : Option String} {before mid after s : Scopes α}

/-- The names of a scope after a declaration. A name that was not bound comes last. -/
def withName (names : List String) : Option String → List String
  | none => names
  | some name => if name ∈ names then names else names ++ [name]

/-- The records are those of before. So are the names in each, but for a declaration in the
active scope. -/
structure Grows (declared : Option String) (before after : Scopes α) : Prop where
  extends_active : Extends (some before.active) before after
  names_eq : after.namesAt before.active = withName (before.namesAt before.active) declared

theorem Extends.grows_none (h : Extends none before after) : Grows none before after :=
  ⟨h.weaken _, h.names_eq before.active nofun⟩

theorem grows_set (hsize : 0 < s.size) (name : String) (value : α) :
    Grows (some name) s (s.set name value) := by
  refine ⟨extends_setAt .., ?_⟩
  have hactive : s.active < s.records.size := by
    change s.active < s.size
    rw [active]
    omega
  rw [namesAt, set, setAt, Array.getElem?_modify, if_pos rfl, namesAt,
    Array.getElem?_eq_getElem hactive]
  simp only [Option.map_some, Option.getD_some, Bindings.names_insert, withName]

/-- What adds no name may come before the declaration. -/
theorem Extends.grows_after (h : Extends none before mid) (h' : Grows declared mid after) :
    Grows declared before after := by
  have hextends := h'.extends_active
  have hnames := h'.names_eq
  rw [h.active_eq] at hextends hnames
  refine ⟨(h.weaken _).trans hextends, ?_⟩
  rw [hnames, h.names_eq before.active nofun]

/-- What adds no name may come after the declaration. -/
theorem Grows.extends_after (h : Grows declared before mid) (h' : Extends none mid after) :
    Grows declared before after := by
  refine ⟨h.extends_active.trans (h'.weaken _), ?_⟩
  rw [h'.names_eq before.active nofun, h.names_eq]

end Scopes

/-- Runs with one budget of what declares nothing add no name. -/
structure Stationary (limit : Option Nat) (n : Nat) : Prop where
  exec : ∀ s : Stmt, s.DeclaresNothing → Within .nowhere (s.exec limit n)
  rounds : ∀ (cond : Option Expr) (body : Stmt) (increment : Option Expr), body.DeclaresNothing →
    Within .nowhere (Stmt.rounds limit n cond body increment)

namespace Stationary

variable {limit : Option Nat} {n : Nat}

/-- Only branches and loops run a statement in the scope that they stand in. -/
theorem within_exec (h : Stationary limit n) (s : Stmt) (hs : s.DeclaresNothing) :
    Within .nowhere (s.exec limit (n + 1)) := by
  have hall := disciplined limit n
  cases s with
  | expression p e => exact (hall.eval e).bind fun _ => within_pure _
  | print p e => exact (hall.eval e).bind fun v => (within_print v).bind fun _ => within_pure _
  | var | function => exact hs.elim
  | block p body => exact (hall.execAll body).inScope "block"
  | ifElse p cond yes no =>
    refine (hall.eval cond).bind fun c => ?_
    cases no with
    | none =>
      split
      · exact h.exec yes hs
      · exact within_pure _
    | some no =>
      split
      · exact h.exec yes hs.1
      · exact h.exec no hs.2
  | whileLoop p cond body => exact h.rounds (some cond) body none hs
  | forLoop p init cond increment body =>
    rw [exec_forLoop]
    exact (hall.within_loop init cond body increment).inScope "for"
  | ret p value =>
    cases value with
    | none => exact within_pure _
    | some e => exact (hall.eval e).bind fun v => within_pure (Completion.returned v)

theorem within_rounds (h : Stationary limit n) (cond : Option Expr) (body : Stmt)
    (increment : Option Expr) (hbody : body.DeclaresNothing) :
    Within .nowhere (Stmt.rounds limit (n + 1) cond body increment) := by
  have hall := disciplined limit n
  rw [rounds_succ]
  refine (hall.within_test cond).bind fun go => ?_
  cases go with
  | false => exact within_pure _
  | true =>
    refine (h.exec body hbody).bind fun c => within_andThen c ?_
    exact (hall.within_advance increment).bind fun _ => h.rounds cond body increment hbody

end Stationary

theorem stationary (limit : Option Nat) (n : Nat) : Stationary limit n := by
  induction n with
  | zero => constructor <;> intros <;> exact within_unfinished
  | succ n ih => exact ⟨ih.within_exec, ih.within_rounds⟩

section

variable {limit : Option Nat} {budget : Nat} {inFunction : Bool} {s : Stmt} {m last : Machine}

/-- A statement that finished has declared its name. -/
theorem Stmt.grows_exec {c : Completion} (hroot : 0 < m.scopes.size) (hplaced : s.Placed inFunction)
    (h : s.exec limit budget m = (.finished c, last)) :
    Grows s.declared m.scopes last.scopes := by
  cases hdeclared : s.declared with
  | none =>
    have hrun := (stationary limit budget).exec s (hplaced.declaresNothing hdeclared) m hroot
    rw [h] at hrun
    exact hrun.scopes.grows_none
  | some name =>
    cases budget with
    | zero => cases h
    | succ n =>
      cases s with
      | var p name' init =>
        cases hdeclared
        obtain ⟨v, mid, hinit, hdefine⟩ := bind_finished_cases h
        cases hdefine
        have hextends := ((disciplined limit n).eval init m hroot).scopes
        rw [hinit] at hextends
        exact hextends.grows_after (grows_set (by rw [hextends.size_eq]; exact hroot) name v)
      | function p name' params body result =>
        cases hdeclared
        cases h
        exact grows_set hroot name _
      | _ => cases hdeclared

/-- A statement that did not finish has declared nothing. -/
theorem Stmt.extends_exec_of_stopped (hroot : 0 < m.scopes.size) (hplaced : s.Placed inFunction)
    (h : ∀ c, (s.exec limit budget m).1 ≠ .finished c) :
    Extends none m.scopes (s.exec limit budget m).2.scopes := by
  cases hdeclared : s.declared with
  | none =>
    exact ((stationary limit budget).exec s (hplaced.declaresNothing hdeclared) m hroot).scopes
  | some name =>
    cases budget with
    | zero => exact .refl none m.scopes
    | succ n =>
      cases s with
      | var p name' init =>
        have hextends := ((disciplined limit n).eval init m hroot).scopes
        change ∀ c, ((init.eval limit n >>= _) m).1 ≠ .finished c at h
        change Extends none m.scopes ((init.eval limit n >>= _) m).2.scopes
        rcases bind_outcome (init.eval limit n) _ m with
          ⟨v, mid, -, hbind⟩ | ⟨e, mid, hinit, hbind⟩ | ⟨mid, hinit, hbind⟩
        · exact absurd (congrArg Prod.fst hbind) (h .normal)
        · rw [hbind]
          rwa [hinit] at hextends
        · rw [hbind]
          rwa [hinit] at hextends
      | function p name' params body result => exact absurd rfl (h .normal)
      | _ => cases hdeclared

end

open Checked

/-- A statement that passed has declared its name. -/
theorem Stmt.grows_check {inFunction : Bool} {expected : TypeSet} {s : Stmt} {env : TypeEnv}
    (hsize : 0 < env.size) (hplaced : s.Placed inFunction)
    (h : (s.check expected env).verdict = .ok ()) :
    Grows s.declared env (s.check expected env).env := by
  cases hdeclared : s.declared with
  | none => exact (s.extends_check_of_declared expected hsize hplaced hdeclared).grows_none
  | some name =>
    cases s with
    | var p name' init =>
      cases hdeclared
      have hinit := init.extends_check env
      rw [check] at h ⊢
      obtain ⟨type, hpassed, -⟩ := next_ok h
      rw [next_eq hpassed]
      exact hinit.grows_after (grows_set (hinit.size_pos hsize) name type)
    | function p name' params body result =>
      cases hdeclared
      have hname := grows_set hsize name TypeSet.any
      have hnamed : 0 < (env.set name .any).size := hname.extends_active.size_pos hsize
      have hparams := TypeEnv.extends_bindParams params ((env.set name .any).push name)
      have hbody := Stmt.extends_checkAll result body (hparams.size_pos (size_push_pos ..))
      rw [check]
      exact hname.extends_after (extends_pop hnamed (hparams.then hbody))
    | _ => cases hdeclared

end GradualScript
