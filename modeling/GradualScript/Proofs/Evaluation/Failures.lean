import GradualScript.Proofs.Evaluation.Runs

/-!
# Where failures come from

A run fails exactly if some run inside it raises the error itself: nothing catches an
error on its way out, and nothing else makes one.
-/
namespace GradualScript

namespace Eval

variable {α β γ : Type} {run : Eval α} {f : α → Eval β} {m mid : Machine} {a : α}
  {e : RuntimeError}

theorem bind_failed (h : (run m).1 = .failed e) : ((run >>= f) m).1 = .failed e := by
  change (Eval.bind run f m).1 = _
  unfold Eval.bind
  split <;> simp_all

theorem bind_later (h : run m = (.finished a, mid)) (hf : (f a mid).1 = .failed e) :
    ((run >>= f) m).1 = .failed e := by
  rw [bind_finished h]
  exact hf

theorem bind_cases (h : ((run >>= f) m).1 = .failed e) :
    (run m).1 = .failed e ∨ ∃ a mid, run m = (.finished a, mid) ∧ (f a mid).1 = .failed e := by
  change (Eval.bind run f m).1 = _ at h
  unfold Eval.bind at h
  split at h
  · next a mid hrun => exact .inr ⟨a, mid, hrun, h⟩
  · next hrun =>
    cases h
    exact .inl (congrArg Prod.fst hrun)
  · cases h

theorem ofExcept_failed {position : Position} {result : Except RuntimeFault α}
    (h : (Eval.ofExcept position result m).1 = .failed e) :
    ∃ fault, result = .error fault ∧ e = ⟨fault, position⟩ := by
  cases result with
  | ok a => cases h
  | error fault =>
    cases h
    exact ⟨fault, rfl, rfl⟩

end Eval

/-- A run ends with an error. -/
def Run.Fails (limit : Option Nat) (r : Run) (e : RuntimeError) : Prop :=
  match r.task with
  | .eval x => (x.eval limit r.budget r.machine).1 = .failed e
  | .evalAll xs => (Expr.evalAll limit r.budget xs r.machine).1 = .failed e
  | .call f args position => (Value.call limit r.budget f args position r.machine).1 = .failed e
  | .exec s => (s.exec limit r.budget r.machine).1 = .failed e
  | .execAll ss => (Stmt.execAll limit r.budget ss r.machine).1 = .failed e
  | .rounds cond body increment =>
      (Stmt.rounds limit r.budget cond body increment r.machine).1 = .failed e

/-- A run makes an error itself, after all that it started ended without one. -/
inductive Run.Raises (limit : Option Nat) : Run → RuntimeError → Prop
  | unary {n : Nat} {m mid : Machine} {k : Mark} {op : Operator} {x : Expr} {v : Value}
      {fault : RuntimeFault} :
      x.eval limit n m = (.finished v, mid) → op.applyUnary v = .error fault →
      Raises limit ⟨n + 1, .eval (.unary k op x), m⟩ ⟨fault, k.position⟩
  | binary {n : Nat} {m mid last : Machine} {k : Mark} {op : Operator} {l r : Expr} {v w : Value}
      {fault : RuntimeFault} :
      l.eval limit n m = (.finished v, mid) → r.eval limit n mid = (.finished w, last) →
      op.applyBinary v w = .error fault →
      Raises limit ⟨n + 1, .eval (.binary k op l r), m⟩ ⟨fault, k.position⟩
  | name {n : Nat} {m : Machine} {k : Mark} {name : String} : m.scopes.get name = none →
      Raises limit ⟨n + 1, .eval (.name k name), m⟩ ⟨.undefinedVariable name, k.position⟩
  | assign {n : Nat} {m mid : Machine} {k : Mark} {name : String} {x : Expr} {v : Value} :
      x.eval limit n m = (.finished v, mid) → mid.scopes.assign name v = none →
      Raises limit ⟨n + 1, .eval (.assign k name x), m⟩ ⟨.undefinedVariable name, k.position⟩
  | arity {n : Nat} {m : Machine} {f : Function} {args : List Value} {position : Position} :
      args.length ≠ f.arity →
      Raises limit ⟨n + 1, .call (.function f) args position, m⟩
        ⟨.arityMismatch f.name f.arity args.length, position⟩
  | callLimit {n : Nat} {m : Machine} {f : Function} {args : List Value} {position : Position}
      {depth : Nat} : args.length = f.arity → limitReached? limit m.calls = some depth →
      Raises limit ⟨n + 1, .call (.function f) args position, m⟩ ⟨.callLimitReached depth, position⟩
  | notCallable {n : Nat} {m : Machine} {callee : Value} {args : List Value}
      {position : Position} : callee.kind ≠ .function →
      Raises limit ⟨n + 1, .call callee args position, m⟩ ⟨.notCallable callee.kind, position⟩

/-- Operators never fail where the left operand decides. -/
theorem Operator.needsRight_of_fault {op : Operator} {v w : Value} {fault : RuntimeFault}
    (h : op.applyBinary v w = .error fault) : op.needsRight v = true := by
  cases op with
  | and | or => cases h
  | _ => rfl

section

variable {limit : Option Nat} {n : Nat}

open Eval

/-- A failure of a started run is one of the run that started it. -/
theorem Run.Starts.fails {r r' : Run} {e : RuntimeError} (h : Run.Starts limit r r')
    (hfails : r'.Fails limit e) : r.Fails limit e := by
  cases h with
  | operand | left | assigned | callee | firstArgument | expression | print | init | cond
  | returned | first => exact bind_failed hfails
  | inner => exact hfails
  | right hl hneeds =>
    exact (congrArg Prod.fst (eval_binary_right hl hneeds)).trans (bind_failed hfails)
  | arguments hf => exact bind_later hf (bind_failed hfails)
  | call hf hargs => exact bind_later hf (bind_later hargs hfails)
  | moreArguments he => exact bind_later he (bind_failed hfails)
  | body harity hlimit =>
    exact (congrArg Prod.fst (call_function harity hlimit)).trans (bind_failed hfails)
  | block => exact hfails
  | yes hc hv =>
    refine bind_later hc ?_
    simp only [hv, if_true]
    exact hfails
  | no hc hv =>
    refine bind_later hc ?_
    simp only [hv, Bool.false_eq_true, if_false]
    exact hfails
  | whileLoop => exact hfails
  | begin => exact bind_failed hfails
  | forLoop hbegin =>
    exact (congrArg Prod.fst (congrFun (exec_forLoop ..) _)).trans (bind_later hbegin hfails)
  | rest hs => exact bind_later hs hfails
  | test =>
    exact (congrArg Prod.fst (congrFun (rounds_succ ..) _)).trans (bind_failed (bind_failed hfails))
  | round htest =>
    exact (congrArg Prod.fst (congrFun (rounds_succ ..) _)).trans
      (bind_later htest (bind_failed hfails))
  | advance htest hbody =>
    exact (congrArg Prod.fst (congrFun (rounds_succ ..) _)).trans
      (bind_later htest (bind_later hbody (bind_failed (bind_failed hfails))))
  | again htest hbody hadvance =>
    exact (congrArg Prod.fst (congrFun (rounds_succ ..) _)).trans
      (bind_later htest (bind_later hbody (bind_later hadvance hfails)))

/-- A run that makes an error fails with it. -/
theorem Run.Raises.fails {r : Run} {e : RuntimeError} (h : r.Raises limit e) : r.Fails limit e := by
  cases h with
  | unary hx hop =>
    refine bind_later hx ?_
    rw [hop]
    rfl
  | binary hl hr hop =>
    refine (congrArg Prod.fst (eval_binary_right hl (Operator.needsRight_of_fault hop))).trans
      (bind_later hr ?_)
    rw [hop]
    rfl
  | name hget =>
    change (Eval.lookup _ _ _).1 = _
    rw [Eval.lookup, hget]
  | assign hx hassign =>
    refine bind_later hx (bind_failed ?_)
    rw [Eval.assign, hassign]
  | arity hne => exact congrArg Prod.fst (congrFun (call_arity hne _) _)
  | callLimit harity hlimit => exact congrArg Prod.fst (call_limit harity hlimit)
  | @notCallable _ _ callee _ _ hkind =>
    cases callee with
    | function f => exact absurd rfl hkind
    | _ => rfl

/-- The run makes the error itself, or a run that it starts fails with it. -/
def Run.Explains (limit : Option Nat) (r : Run) (e : RuntimeError) : Prop :=
  r.Raises limit e ∨ ∃ r', Run.Starts limit r r' ∧ r'.Fails limit e

theorem explains_eval {m : Machine} {x : Expr} {e : RuntimeError}
    (h : (x.eval limit (n + 1) m).1 = .failed e) : Run.Explains limit ⟨n + 1, .eval x, m⟩ e := by
  cases x with
  | number | string | boolean | nil => cases h
  | unary k op x =>
    rcases bind_cases h with h | ⟨v, mid, hx, h⟩
    · exact .inr ⟨_, .operand, h⟩
    · obtain ⟨fault, hop, rfl⟩ := ofExcept_failed h
      exact .inl (.unary hx hop)
  | binary k op l r =>
    rcases bind_cases h with hfails | ⟨v, mid, hl, -⟩
    · exact .inr ⟨_, .left, hfails⟩
    · cases hneeds : op.needsRight v with
      | false =>
        rw [eval_binary_left hl hneeds] at h
        cases h
      | true =>
        rw [eval_binary_right hl hneeds] at h
        rcases bind_cases h with h | ⟨w, last, hr, h⟩
        · exact .inr ⟨_, .right hl hneeds, h⟩
        · obtain ⟨fault, hop, rfl⟩ := ofExcept_failed h
          exact .inl (.binary hl hr hop)
  | grouping k x => exact .inr ⟨_, .inner, h⟩
  | name k name =>
    change (Eval.lookup name k.position m).1 = _ at h
    unfold Eval.lookup at h
    split at h
    · cases h
    · next hget =>
      cases h
      exact .inl (.name hget)
  | assign k name x =>
    rcases bind_cases h with h | ⟨v, mid, hx, h⟩
    · exact .inr ⟨_, .assigned, h⟩
    · rcases bind_cases h with h | ⟨_, _, _, h⟩
      · unfold Eval.assign at h
        split at h
        · cases h
        · next hassign =>
          cases h
          exact .inl (.assign hx hassign)
      · cases h
  | call k f args =>
    rcases bind_cases h with h | ⟨v, mid, hf, h⟩
    · exact .inr ⟨_, .callee, h⟩
    · rcases bind_cases h with h | ⟨vs, last, hargs, h⟩
      · exact .inr ⟨_, .arguments hf, h⟩
      · exact .inr ⟨_, .call hf hargs, h⟩

theorem explains_evalAll {m : Machine} {xs : List Expr} {e : RuntimeError}
    (h : (Expr.evalAll limit (n + 1) xs m).1 = .failed e) :
    Run.Explains limit ⟨n + 1, .evalAll xs, m⟩ e := by
  cases xs with
  | nil => cases h
  | cons x xs =>
    rcases bind_cases h with h | ⟨v, mid, hx, h⟩
    · exact .inr ⟨_, .firstArgument, h⟩
    · rcases bind_cases h with h | ⟨_, _, _, h⟩
      · exact .inr ⟨_, .moreArguments hx, h⟩
      · cases h

theorem explains_call {m : Machine} {callee : Value} {args : List Value} {position : Position}
    {e : RuntimeError} (h : (Value.call limit (n + 1) callee args position m).1 = .failed e) :
    Run.Explains limit ⟨n + 1, .call callee args position, m⟩ e := by
  cases callee with
  | function f =>
    by_cases harity : args.length = f.arity
    · cases hlimit : limitReached? limit m.calls with
      | none =>
        rw [call_function harity hlimit] at h
        rcases bind_cases h with h | ⟨_, _, _, h⟩
        · exact .inr ⟨_, .body harity hlimit, h⟩
        · cases h
      | some depth =>
        rw [call_limit harity hlimit] at h
        cases h
        exact .inl (.callLimit harity hlimit)
    · rw [call_arity harity] at h
      cases h
      exact .inl (.arity harity)
  | string | number | boolean | nil =>
    cases h
    exact .inl (.notCallable nofun)

theorem explains_exec {m : Machine} {s : Stmt} {e : RuntimeError}
    (h : (s.exec limit (n + 1) m).1 = .failed e) : Run.Explains limit ⟨n + 1, .exec s, m⟩ e := by
  cases s with
  | expression p x =>
    rcases bind_cases h with h | ⟨_, _, _, h⟩
    · exact .inr ⟨_, .expression, h⟩
    · cases h
  | print p x =>
    rcases bind_cases h with h | ⟨_, _, _, h⟩
    · exact .inr ⟨_, .print, h⟩
    · rcases bind_cases h with h | ⟨_, _, _, h⟩ <;> cases h
  | var p name init =>
    rcases bind_cases h with h | ⟨_, _, _, h⟩
    · exact .inr ⟨_, .init, h⟩
    · rcases bind_cases h with h | ⟨_, _, _, h⟩ <;> cases h
  | block p body => exact .inr ⟨_, .block, h⟩
  | ifElse p c yes no =>
    rcases bind_cases h with h | ⟨v, mid, hc, h⟩
    · exact .inr ⟨_, .cond, h⟩
    · cases hv : v.isTruthy with
      | true =>
        rw [if_pos hv] at h
        exact .inr ⟨_, .yes hc hv, h⟩
      | false =>
        rw [if_neg (by rw [hv]; decide)] at h
        cases no with
        | none => cases h
        | some no => exact .inr ⟨_, .no hc hv, h⟩
  | whileLoop p c body => exact .inr ⟨_, .whileLoop, h⟩
  | forLoop p init c increment body =>
    rw [exec_forLoop] at h
    rcases bind_cases h with h | ⟨k, mid, hbegin, h⟩
    · cases init with
      | none => cases h
      | some s => exact .inr ⟨_, .begin, h⟩
    · cases k with
      | normal => exact .inr ⟨_, .forLoop hbegin, h⟩
      | returned v => cases h
  | function p name params body result =>
    rcases bind_cases h with h | ⟨_, _, _, h⟩ <;> cases h
  | ret p value =>
    cases value with
    | none => cases h
    | some x =>
      rcases bind_cases h with h | ⟨_, _, _, h⟩
      · exact .inr ⟨_, .returned, h⟩
      · cases h

theorem explains_execAll {m : Machine} {ss : List Stmt} {e : RuntimeError}
    (h : (Stmt.execAll limit (n + 1) ss m).1 = .failed e) :
    Run.Explains limit ⟨n + 1, .execAll ss, m⟩ e := by
  cases ss with
  | nil => cases h
  | cons s ss =>
    rcases bind_cases h with h | ⟨k, mid, hs, h⟩
    · exact .inr ⟨_, .first, h⟩
    · cases k with
      | normal => exact .inr ⟨_, .rest hs, h⟩
      | returned v => cases h

theorem explains_rounds {m : Machine} {c increment : Option Expr} {body : Stmt} {e : RuntimeError}
    (h : (Stmt.rounds limit (n + 1) c body increment m).1 = .failed e) :
    Run.Explains limit ⟨n + 1, .rounds c body increment, m⟩ e := by
  rw [rounds_succ] at h
  rcases bind_cases h with h | ⟨go, mid, htest, h⟩
  · cases c with
    | none => cases h
    | some c =>
      rcases bind_cases h with h | ⟨_, _, _, h⟩
      · exact .inr ⟨_, .test, h⟩
      · cases h
  · cases go with
    | false => cases h
    | true =>
      rcases bind_cases h with h | ⟨k, mid', hbody, h⟩
      · exact .inr ⟨_, .round htest, h⟩
      · cases k with
        | returned v => cases h
        | normal =>
          rcases bind_cases h with h | ⟨_, last, hadvance, h⟩
          · cases increment with
            | none => cases h
            | some x =>
              rcases bind_cases h with h | ⟨_, _, _, h⟩
              · exact .inr ⟨_, .advance htest hbody, h⟩
              · cases h
          · exact .inr ⟨_, .again htest hbody hadvance, h⟩

theorem Run.Fails.explains {r : Run} {e : RuntimeError} (h : r.Fails limit e) :
    r.Explains limit e := by
  obtain ⟨budget, task, m⟩ := r
  cases budget with
  | zero => cases task <;> cases h
  | succ n =>
    cases task with
    | eval x => exact explains_eval h
    | evalAll xs => exact explains_evalAll h
    | call callee args position => exact explains_call h
    | exec s => exact explains_exec h
    | execAll ss => exact explains_execAll h
    | rounds c body increment => exact explains_rounds h

theorem Run.Starts.budget_lt {r r' : Run} (h : Run.Starts limit r r') : r'.budget < r.budget := by
  cases h <;> exact Nat.lt_succ_self _

/-- A run fails with an error exactly if some run inside it makes the error. -/
theorem Run.fails_iff {r : Run} {e : RuntimeError} :
    r.Fails limit e ↔ ∃ r', Run.Reaches limit r r' ∧ r'.Raises limit e := by
  constructor
  · intro h
    induction hbudget : r.budget using Nat.strongRecOn generalizing r with
    | ind b ih =>
      rcases h.explains with hraises | ⟨r', hstart, hfails⟩
      · exact ⟨r, .refl r, hraises⟩
      · obtain ⟨last, hreaches, hraises⟩ := ih r'.budget (hbudget ▸ hstart.budget_lt) hfails rfl
        exact ⟨last, .step hstart hreaches, hraises⟩
  · rintro ⟨last, hreaches, hraises⟩
    induction hreaches with
    | refl => exact hraises.fails
    | step hstart _ ih => exact hstart.fails (ih hraises)

end

end GradualScript
