import GradualScript.Proofs.Evaluation.Discipline
import GradualScript.Proofs.Evaluation.Renaming

/-!
# Runs of one tree on renamed machines

A tree run on two machines that are the same up to a renaming of scopes does the same on
both, as long as serial numbers are left for the scopes that it opens. Where the active
scope on the right is an extra scope, the tree must not declare anything in it: its
partner on the left is another scope, which stays.
-/
namespace GradualScript

open Scopes

/-- The statement binds no name in the scope that it runs in, but for scopes of its own. -/
def Stmt.DeclaresNothing : Stmt → Prop
  | .var .. => False
  | .function .. => False
  | .ifElse _ _ yes none => yes.DeclaresNothing
  | .ifElse _ _ yes (some no) => yes.DeclaresNothing ∧ no.DeclaresNothing
  | .whileLoop _ _ body => body.DeclaresNothing
  | _ => True

theorem Machine.size_lt_opened (m : Machine) (name : String) :
    m.scopes.size < (m.opened name).scopes.size := by
  rw [m.size_opened]
  omega

/-- A call opens a scope. -/
theorem Machine.size_lt_enter (m : Machine) (f : Function) (args : List Value) :
    m.scopes.size < (m.enter f args).scopes.size := by
  rw [m.size_enter]
  omega

/-- Runs with one budget agree on machines that are the same up to a renaming. -/
structure Simulated (limit : Option Nat) (n : Nat) : Prop where
  eval : ∀ {σ : Nat → Option Nat} {m m' : Machine} (e : Expr), m.Renames σ m' →
    (Task.eval e).FewScopes limit m' →
    Agrees σ (Value.Renamed σ) m m' (e.eval limit n m) (e.eval limit n m')
  evalAll : ∀ {σ : Nat → Option Nat} {m m' : Machine} (es : List Expr), m.Renames σ m' →
    (Task.evalAll es).FewScopes limit m' →
    Agrees σ (fun s t => List.Forall₂ (Value.Renamed σ s t)) m m' (Expr.evalAll limit n es m)
      (Expr.evalAll limit n es m')
  call : ∀ {σ : Nat → Option Nat} {m m' : Machine} {f f' : Value} {args args' : List Value}
    (position : Position), m.Renames σ m' → f.Renamed σ m.scopes m'.scopes f' →
    List.Forall₂ (Value.Renamed σ m.scopes m'.scopes) args args' →
    (Task.call f' args' position).FewScopes limit m' →
    Agrees σ (Value.Renamed σ) m m' (Value.call limit n f args position m)
      (Value.call limit n f' args' position m')
  exec : ∀ {σ : Nat → Option Nat} {m m' : Machine} (s : Stmt), m.Renames σ m' →
    s.DeclaresNothing ∨ m.Paired σ m' → (Task.exec s).FewScopes limit m' →
    Agrees σ (Completion.Renamed σ) m m' (s.exec limit n m) (s.exec limit n m')
  execAll : ∀ {σ : Nat → Option Nat} {m m' : Machine} (ss : List Stmt), m.Renames σ m' →
    m.Paired σ m' → (Task.execAll ss).FewScopes limit m' →
    Agrees σ (Completion.Renamed σ) m m' (Stmt.execAll limit n ss m) (Stmt.execAll limit n ss m')
  rounds : ∀ {σ : Nat → Option Nat} {m m' : Machine} (cond : Option Expr) (body : Stmt)
    (increment : Option Expr), m.Renames σ m' → body.DeclaresNothing ∨ m.Paired σ m' →
    (Task.rounds cond body increment).FewScopes limit m' →
    Agrees σ (Completion.Renamed σ) m m' (Stmt.rounds limit n cond body increment m)
      (Stmt.rounds limit n cond body increment m')

namespace Simulated

variable {limit : Option Nat} {n : Nat} {σ : Nat → Option Nat} {m m' : Machine}

theorem test (h : Simulated limit n) (cond : Option Expr) (hM : m.Renames σ m')
    (hfew : ∀ c, cond = some c → (Task.eval c).FewScopes limit m') :
    Agrees σ (fun _ _ go go' => go' = go) m m' (Stmt.test limit n cond m)
      (Stmt.test limit n cond m') := by
  cases cond with
  | none => exact agrees_pure hM rfl
  | some c =>
    exact (h.eval c hM (hfew c rfl)).bind fun _ hc =>
      agrees_pure hc.machines hc.value.isTruthy_eq

theorem advance (h : Simulated limit n) (increment : Option Expr) (hM : m.Renames σ m')
    (hfew : ∀ e, increment = some e → (Task.eval e).FewScopes limit m') :
    Agrees σ (fun _ _ _ _ => True) m m' (Stmt.advance limit n increment m)
      (Stmt.advance limit n increment m') := by
  cases increment with
  | none => exact agrees_pure hM trivial
  | some e =>
    exact (h.eval e hM (hfew e rfl)).bind fun _ he => agrees_pure he.machines trivial

theorem begin (h : Simulated limit n) (init : Option Stmt) (hM : m.Renames σ m')
    (hpaired : m.Paired σ m') (hfew : ∀ s, init = some s → (Task.exec s).FewScopes limit m') :
    Agrees σ (Completion.Renamed σ) m m' (Stmt.begin limit n init m)
      (Stmt.begin limit n init m') := by
  cases init with
  | none => exact agrees_pure hM .normal
  | some s => exact h.exec s hM (.inr hpaired) (hfew s rfl)

theorem eval_succ (h : Simulated limit n) (e : Expr) (hM : m.Renames σ m')
    (hfew : (Task.eval e).FewScopes limit m') :
    Agrees σ (Value.Renamed σ) m m' (e.eval limit (n + 1) m) (e.eval limit (n + 1) m') := by
  cases e with
  | number | string | boolean | nil => exact agrees_pure hM (.plain (by simp [Value.kind]))
  | unary k op x =>
    exact (h.eval x hM (hfew.starts n .operand)).bind fun _ hx =>
      agrees_unary hx.machines hx.value op k.position
  | binary k op l r =>
    rw [eval_binary]
    refine (h.eval l hM (hfew.starts n .left)).bind fun {v v' mid mid'} hrun hl => ?_
    have hneeds : op.needsRight v = op.needsRight v' := by
      cases op <;> simp only [Operator.needsRight, hl.value.isTruthy_eq]
    cases hright : op.needsRight v' with
    | false =>
      simp only [hneeds, hright, Bool.false_eq_true, if_false]
      exact agrees_pure hl.machines hl.value
    | true =>
      simp only [hneeds, hright, if_true]
      refine (h.eval r hl.machines (hfew.starts n (.right hrun hright))).bind fun _ hr => ?_
      exact agrees_binary hr.machines (hl.value.later hr.later hr.later') hr.value op k.position
  | grouping k x => exact h.eval x hM (hfew.starts n .inner)
  | name k name => exact agrees_lookup hM name k.position
  | assign k name x =>
    refine (h.eval x hM (hfew.starts n .assigned)).bind fun _ hx => ?_
    refine (agrees_assign hx.machines hx.value name k.position).bind fun _ hset => ?_
    exact agrees_pure hset.machines (hx.value.later hset.later hset.later')
  | call k f args =>
    refine (h.eval f hM (hfew.starts n .callee)).bind fun hrun hf => ?_
    have hrest := h.evalAll args hf.machines (hfew.starts n (.arguments hrun))
    refine hrest.bind fun hrunAll hargs => ?_
    exact h.call k.position hargs.machines (hf.value.later hargs.later hargs.later') hargs.value
      (hfew.starts n (.call hrun hrunAll))

theorem evalAll_succ (h : Simulated limit n) (es : List Expr) (hM : m.Renames σ m')
    (hfew : (Task.evalAll es).FewScopes limit m') :
    Agrees σ (fun s t => List.Forall₂ (Value.Renamed σ s t)) m m'
      (Expr.evalAll limit (n + 1) es m) (Expr.evalAll limit (n + 1) es m') := by
  cases es with
  | nil => exact agrees_pure hM .nil
  | cons e es =>
    refine (h.eval e hM (hfew.starts n .firstArgument)).bind fun hrun he => ?_
    refine (h.evalAll es he.machines (hfew.starts n (.moreArguments hrun))).bind fun _ hes => ?_
    exact agrees_pure hes.machines (.cons (he.value.later hes.later hes.later') hes.value)

/-- The arguments are bound in scopes that are renamed to one another, which extends the
renaming. -/
theorem call_succ (h : Simulated limit n) {f f' : Value} {args args' : List Value}
    (position : Position) (hM : m.Renames σ m') (hf : f.Renamed σ m.scopes m'.scopes f')
    (hargs : List.Forall₂ (Value.Renamed σ m.scopes m'.scopes) args args')
    (hfew : (Task.call f' args' position).FewScopes limit m') :
    Agrees σ (Value.Renamed σ) m m' (Value.call limit (n + 1) f args position m)
      (Value.call limit (n + 1) f' args' position m') := by
  cases hf with
  | plain hplain =>
    cases f with
    | function f => exact absurd rfl hplain
    | _ => exact agrees_fail hM _ position
  | @function f id hclosure =>
    have hlength := hargs.length_eq
    by_cases harity : args'.length = f.arity
    · have hleft : args.length = f.arity := hlength.trans harity
      have hright : args'.length = { f with closure := id }.arity := harity
      have hcalls := hM.calls_eq
      cases hlimit : limitReached? limit m'.calls with
      | some depth =>
        rw [call_limit hleft (by rw [← hcalls, hlimit]), call_limit hright hlimit]
        exact agrees_fail hM _ position
      | none =>
        rw [call_function hleft (by rw [← hcalls, hlimit]), call_function hright hlimit]
        have hnext := hfew.nextSerial_ne_zero n (.body hright hlimit) (m'.size_lt_enter ..)
        have hbody := h.execAll f.body (hM.enter hnext hclosure hargs) (Machine.paired_enter ..)
          (hfew.starts n (.body hright hlimit))
        exact (agrees_inFrame hM hnext hbody).bind fun _ hc =>
          agrees_pure hc.machines hc.value.value
    · have hleft : args.length ≠ f.arity := fun hargs => harity (hlength.symm.trans hargs)
      have hright : args'.length ≠ { f with closure := id }.arity := harity
      rw [call_arity hleft, call_arity hright, hlength]
      exact agrees_fail hM _ position

/-- A declaration needs the active scopes to be paired, so that it is made in both; other
statements do not. -/
theorem exec_succ (h : Simulated limit n) (s : Stmt) (hM : m.Renames σ m')
    (hok : s.DeclaresNothing ∨ m.Paired σ m') (hfew : (Task.exec s).FewScopes limit m') :
    Agrees σ (Completion.Renamed σ) m m' (s.exec limit (n + 1) m) (s.exec limit (n + 1) m') := by
  cases s with
  | expression p e =>
    exact (h.eval e hM (hfew.starts n .expression)).bind fun _ he => agrees_pure he.machines .normal
  | print p e =>
    refine (h.eval e hM (hfew.starts n .print)).bind fun _ he => ?_
    exact (agrees_print he.machines he.value).bind fun _ hp => agrees_pure hp.machines .normal
  | var p name init =>
    have hpaired := hok.resolve_left id
    refine (h.eval init hM (hfew.starts n .init)).bind fun _ he => ?_
    exact (agrees_define he.machines (hpaired.later he.later he.later') he.value name).bind
      fun _ hd => agrees_pure hd.machines .normal
  | block p body =>
    have hnext := hfew.nextSerial_ne_zero n .block (m'.size_lt_opened "block")
    exact agrees_inScope hM hnext "block" "block" (h.execAll body
      (hM.pushAt hM.level hnext "block" "block") (Machine.paired_pushAt ..) (hfew.starts n .block))
  | ifElse p c yes no =>
    refine (h.eval c hM (hfew.starts n .cond)).bind fun {v v' mid mid'} hrun hc => ?_
    have htruthy := hc.value.isTruthy_eq
    have hlater (hpaired : m.Paired σ m') : mid.Paired σ mid' := hpaired.later hc.later hc.later'
    cases htrue : v'.isTruthy with
    | true =>
      simp only [← htruthy, htrue, if_true]
      refine h.exec yes hc.machines (hok.imp (fun hnone => ?_) hlater)
        (hfew.starts n (.yes hrun htrue))
      cases no with
      | none => exact hnone
      | some no => exact hnone.1
    | false =>
      simp only [← htruthy, htrue, Bool.false_eq_true, if_false]
      cases no with
      | none => exact agrees_pure hc.machines .normal
      | some no =>
        exact h.exec no hc.machines (hok.imp And.right hlater) (hfew.starts n (.no hrun htrue))
  | whileLoop p c body => exact h.rounds (some c) body none hM hok (hfew.starts n .whileLoop)
  | forLoop p init cond increment body =>
    have hnext : m'.scopes.nextSerial ≠ 0 := by
      cases init with
      | none => exact hfew.nextSerial_ne_zero n (.forLoop rfl) (m'.size_lt_opened "for")
      | some s => exact hfew.nextSerial_ne_zero n .begin (m'.size_lt_opened "for")
    have hopened := hM.pushAt hM.level hnext "for" "for"
    have hpaired := Machine.paired_pushAt σ m m' "for" "for" m.scopes.active m'.scopes.active
    have hbegin := h.begin init hopened hpaired fun s hs => by
      subst hs
      exact hfew.starts n .begin
    rw [exec_forLoop]
    refine agrees_inScope hM hnext "for" "for" (hbegin.bind fun hrun hc => ?_)
    refine agrees_andThen hc.machines hc.value fun _ hnormal => ?_
    subst hnormal
    exact h.rounds cond body increment hc.machines (.inr (hpaired.later hc.later hc.later'))
      (hfew.starts n (.forLoop hrun))
  | function p name params body result =>
    exact (agrees_declare hM (hok.resolve_left id) name params body).bind fun _ hd =>
      agrees_pure hd.machines .normal
  | ret p value =>
    cases value with
    | none => exact agrees_pure hM (.returned (.plain (by simp [Value.kind])))
    | some e =>
      exact (h.eval e hM (hfew.starts n .returned)).bind fun _ he =>
        agrees_pure he.machines (.returned he.value)

theorem execAll_succ (h : Simulated limit n) (ss : List Stmt) (hM : m.Renames σ m')
    (hpaired : m.Paired σ m') (hfew : (Task.execAll ss).FewScopes limit m') :
    Agrees σ (Completion.Renamed σ) m m' (Stmt.execAll limit (n + 1) ss m)
      (Stmt.execAll limit (n + 1) ss m') := by
  cases ss with
  | nil => exact agrees_pure hM .normal
  | cons s ss =>
    refine (h.exec s hM (.inr hpaired) (hfew.starts n .first)).bind fun hrun hc => ?_
    have hvalue := hc.value
    cases hvalue with
    | normal =>
      exact h.execAll ss hc.machines (hpaired.later hc.later hc.later') (hfew.starts n (.rest hrun))
    | returned hv => exact agrees_pure hc.machines (.returned hv)

theorem rounds_succ (h : Simulated limit n) (cond : Option Expr) (body : Stmt)
    (increment : Option Expr) (hM : m.Renames σ m') (hok : body.DeclaresNothing ∨ m.Paired σ m')
    (hfew : (Task.rounds cond body increment).FewScopes limit m') :
    Agrees σ (Completion.Renamed σ) m m' (Stmt.rounds limit (n + 1) cond body increment m)
      (Stmt.rounds limit (n + 1) cond body increment m') := by
  have htest := h.test cond hM fun c hc => by
    subst hc
    exact hfew.starts n .test
  rw [GradualScript.rounds_succ]
  refine htest.bind fun {go go' mid mid'} hrun hgo => ?_
  obtain rfl : go' = go := hgo.value
  cases go' with
  | false => exact agrees_pure hgo.machines .normal
  | true =>
    have hlater (hpaired : m.Paired σ m') : mid.Paired σ mid' := hpaired.later hgo.later hgo.later'
    have hbody := h.exec body hgo.machines (hok.imp_right hlater) (hfew.starts n (.round hrun))
    refine hbody.bind fun {c c' after after'} hrunBody hc => ?_
    refine agrees_andThen hc.machines hc.value fun _ hnormal => ?_
    subst hnormal
    have hadvance := h.advance increment hc.machines fun e he => by
      subst he
      exact hfew.starts n (.advance hrun hrunBody)
    refine hadvance.bind fun hrunIncrement he => ?_
    refine h.rounds cond body increment he.machines (hok.imp_right fun hpaired => ?_)
      (hfew.starts n (.again hrun hrunBody hrunIncrement))
    exact ((hlater hpaired).later hc.later hc.later').later he.later he.later'

end Simulated

/-- With no budget nothing happens; with one more step, the parts have run before. -/
theorem simulated (limit : Option Nat) (n : Nat) : Simulated limit n := by
  induction n with
  | zero =>
    constructor <;> intros <;> exact agrees_stay ‹_› .unfinished
  | succ n ih =>
    exact ⟨ih.eval_succ, ih.evalAll_succ, ih.call_succ, ih.exec_succ, ih.execAll_succ,
      ih.rounds_succ⟩

/-- A run that opens few scopes leaves a dated machine, however it ends. -/
theorem Machine.Dated.execAll {limit : Option Nat} {m : Machine} {ss : List Stmt} (hm : m.Dated)
    (hfew : (Task.execAll ss).FewScopes limit m) (n : Nat) :
    (Stmt.execAll limit n ss m).2.Dated := by
  have hrun := (simulated limit n).execAll ss hm.renames hm.paired hfew
  exact hrun.machines.dated hrun.later.size_eq

end GradualScript
