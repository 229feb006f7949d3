import Mathlib.Data.List.Basic
import GradualScript.Proofs.Evaluation.Budgets

/-!
# Traces

The runs that a run starts, in order, and with them all that happens in it: runs begin and
end, one inside another. The trace of a run lists these events in the order of time. It
holds the beginning of each run inside, and of no other.
-/
namespace GradualScript

/-- What comes after a run: something if it finished, else nothing. -/
def Eval.onward {α β : Type} (result : Outcome RuntimeError α × Machine)
    (next : α → Machine → List β) : List β :=
  match result with
  | (.finished a, m) => next a m
  | _ => []

/-- What comes after a statement that did not return. -/
def Completion.onward {β : Type} (c : Completion) (next : List β) : List β :=
  match c with
  | .normal => next
  | .returned _ => []

section

variable (limit : Option Nat) (n : Nat)

/-- The runs that the evaluation of an expression starts, in order. -/
def Expr.children (m : Machine) : Expr → List Run
  | .unary _ _ e | .grouping _ e | .assign _ _ e => [⟨n, .eval e, m⟩]
  | .binary _ op l r =>
      ⟨n, .eval l, m⟩ :: Eval.onward (l.eval limit n m) fun v mid =>
        if op.needsRight v then [⟨n, .eval r, mid⟩] else []
  | .call k f args =>
      ⟨n, .eval f, m⟩ :: Eval.onward (f.eval limit n m) fun v mid =>
        ⟨n, .evalAll args, mid⟩ :: Eval.onward (Expr.evalAll limit n args mid) fun vs last =>
          [⟨n, .call v vs k.position, last⟩]
  | .number _ _ | .string _ _ | .boolean _ _ | .nil _ | .name _ _ => []

/-- The runs that a statement starts, in order. -/
def Stmt.children (m : Machine) : Stmt → List Run
  | .expression _ e | .print _ e | .var _ _ e | .ret _ (some e) => [⟨n, .eval e, m⟩]
  | .block _ ss => [⟨n, .execAll ss, m.opened "block"⟩]
  | .ifElse _ c yes no =>
      ⟨n, .eval c, m⟩ :: Eval.onward (c.eval limit n m) fun v mid =>
        if v.isTruthy then [⟨n, .exec yes, mid⟩] else no.toList.map (⟨n, .exec ·, mid⟩)
  | .whileLoop _ c body => [⟨n, .rounds (some c) body none, m⟩]
  | .forLoop _ init c increment body =>
      init.toList.map (⟨n, .exec ·, m.opened "for"⟩) ++
        Eval.onward (Stmt.begin limit n init (m.opened "for")) fun done mid =>
          done.onward [⟨n, .rounds c body increment, mid⟩]
  | .function _ _ _ _ _ | .ret _ none => []

/-- The runs that one round of a loop starts and the run of the rounds after it. -/
def Stmt.roundChildren (m : Machine) (cond : Option Expr) (body : Stmt)
    (increment : Option Expr) : List Run :=
  cond.toList.map (⟨n, .eval ·, m⟩) ++ Eval.onward (Stmt.test limit n cond m) fun go mid =>
    if go then
      ⟨n, .exec body, mid⟩ :: Eval.onward (body.exec limit n mid) fun done mid =>
        done.onward (increment.toList.map (⟨n, .eval ·, mid⟩) ++
          Eval.onward (Stmt.advance limit n increment mid) fun _ last =>
            [⟨n, .rounds cond body increment, last⟩])
    else []

/-- The runs that a task starts with one more step, in order. -/
def Task.children (m : Machine) : Task → List Run
  | .eval e => e.children limit n m
  | .evalAll [] => []
  | .evalAll (e :: es) =>
      ⟨n, .eval e, m⟩ :: Eval.onward (e.eval limit n m) fun _ mid => [⟨n, .evalAll es, mid⟩]
  | .call (.function f) args _ =>
      if args.length = f.arity ∧ limitReached? limit m.calls = none then
        [⟨n, .execAll f.body, m.enter f args⟩]
      else []
  | .call _ _ _ => []
  | .exec s => s.children limit n m
  | .execAll [] => []
  | .execAll (s :: ss) =>
      ⟨n, .exec s, m⟩ :: Eval.onward (s.exec limit n m) fun done mid =>
        done.onward [⟨n, .execAll ss, mid⟩]
  | .rounds cond body increment => Stmt.roundChildren limit n m cond body increment

end

/-- The runs that a run starts itself, in the order in which it starts them. -/
def Run.children (limit : Option Nat) : Run → List Run
  | ⟨0, _, _⟩ => []
  | ⟨n + 1, task, m⟩ => task.children limit n m

section

variable {α β : Type} {limit : Option Nat} {r r' : Run}

theorem Eval.onward_failed (e : RuntimeError) (m : Machine) (next : α → Machine → List β) :
    Eval.onward (.failed e, m) next = [] := rfl

theorem Eval.onward_unfinished (m : Machine) (next : α → Machine → List β) :
    Eval.onward (.unfinished, m) next = [] := rfl

theorem Eval.mem_onward {result : Outcome RuntimeError α × Machine}
    {next : α → Machine → List β} {b : β} :
    b ∈ Eval.onward result next ↔ ∃ a m, result = (.finished a, m) ∧ b ∈ next a m := by
  obtain ⟨outcome, m⟩ := result
  cases outcome with
  | finished a =>
    refine ⟨fun h => ⟨a, m, rfl, h⟩, ?_⟩
    rintro ⟨_, _, ⟨⟩, h⟩
    exact h
  | failed | unfinished => simp [Eval.onward]

theorem Completion.mem_onward {c : Completion} {next : List β} {b : β} :
    b ∈ c.onward next ↔ c = .normal ∧ b ∈ next := by
  cases c <;> simp [Completion.onward]

theorem Run.Starts.mem_children (h : Run.Starts limit r r') : r' ∈ r.children limit := by
  cases h <;> simp_all [Run.children, Task.children, Expr.children, Stmt.children,
    Stmt.roundChildren, Eval.onward, Completion.onward]

theorem Expr.starts_of_mem {e : Expr} {n : Nat} {m : Machine} (h : r' ∈ e.children limit n m) :
    Run.Starts limit ⟨n + 1, .eval e, m⟩ r' := by
  cases e with
  | unary | grouping | assign =>
    rw [children, List.mem_singleton] at h
    subst h
    constructor
  | binary k op l r =>
    rcases List.mem_cons.mp h with rfl | h
    · exact .left
    · obtain ⟨v, mid, hl, h⟩ := Eval.mem_onward.mp h
      split at h
      · next hneeds =>
        rw [List.mem_singleton.mp h]
        exact .right hl hneeds
      · cases h
  | call k f args =>
    rcases List.mem_cons.mp h with rfl | h
    · exact .callee
    · obtain ⟨v, mid, hf, h⟩ := Eval.mem_onward.mp h
      rcases List.mem_cons.mp h with rfl | h
      · exact .arguments hf
      · obtain ⟨vs, last, hargs, h⟩ := Eval.mem_onward.mp h
        rw [List.mem_singleton.mp h]
        exact .call hf hargs
  | number | string | boolean | nil | name => cases h

/-- The runs of a clause that may be missing. -/
theorem mem_clause {γ : Type} {clause : Option γ} {start : γ → Run} :
    r' ∈ clause.toList.map start ↔ ∃ c, clause = some c ∧ r' = start c := by
  cases clause with
  | none => simp
  | some c => simp

theorem Stmt.starts_of_mem {s : Stmt} {n : Nat} {m : Machine} (h : r' ∈ s.children limit n m) :
    Run.Starts limit ⟨n + 1, .exec s, m⟩ r' := by
  cases s with
  | expression | print | var | block | whileLoop =>
    rw [children, List.mem_singleton] at h
    subst h
    constructor
  | ifElse p c yes no =>
    rcases List.mem_cons.mp h with rfl | h
    · exact .cond
    · obtain ⟨v, mid, hc, h⟩ := Eval.mem_onward.mp h
      split at h
      · next htruthy =>
        rw [List.mem_singleton.mp h]
        exact .yes hc htruthy
      · next hfalsy =>
        obtain ⟨s, rfl, rfl⟩ := mem_clause.mp h
        exact .no hc (Bool.eq_false_iff.mpr hfalsy)
  | forLoop p init c increment body =>
    rcases List.mem_append.mp h with h | h
    · obtain ⟨s, rfl, rfl⟩ := mem_clause.mp h
      exact .begin
    · obtain ⟨done, mid, hbegin, h⟩ := Eval.mem_onward.mp h
      obtain ⟨rfl, h⟩ := Completion.mem_onward.mp h
      rw [List.mem_singleton.mp h]
      exact .forLoop hbegin
  | function => cases h
  | ret p value =>
    cases value with
    | none => cases h
    | some e =>
      rw [List.mem_singleton.mp h]
      exact .returned

theorem Stmt.starts_of_mem_round {cond increment : Option Expr} {body : Stmt} {n : Nat}
    {m : Machine} (h : r' ∈ Stmt.roundChildren limit n m cond body increment) :
    Run.Starts limit ⟨n + 1, .rounds cond body increment, m⟩ r' := by
  rcases List.mem_append.mp h with h | h
  · obtain ⟨c, rfl, rfl⟩ := mem_clause.mp h
    exact .test
  · obtain ⟨go, mid, htest, h⟩ := Eval.mem_onward.mp h
    split at h
    · next hgo =>
      subst hgo
      rcases List.mem_cons.mp h with rfl | h
      · exact .round htest
      · obtain ⟨done, later, hbody, h⟩ := Eval.mem_onward.mp h
        obtain ⟨rfl, h⟩ := Completion.mem_onward.mp h
        rcases List.mem_append.mp h with h | h
        · obtain ⟨e, rfl, rfl⟩ := mem_clause.mp h
          exact .advance htest hbody
        · obtain ⟨⟨⟩, last, hadvance, h⟩ := Eval.mem_onward.mp h
          rw [List.mem_singleton.mp h]
          exact .again htest hbody hadvance
    · cases h

/-- The children of a run are the runs that it starts. -/
theorem Run.mem_children_iff : r' ∈ r.children limit ↔ Run.Starts limit r r' := by
  refine ⟨fun h => ?_, Run.Starts.mem_children⟩
  obtain ⟨budget, task, m⟩ := r
  cases budget with
  | zero => cases h
  | succ n =>
    cases task with
    | eval e => exact Expr.starts_of_mem h
    | evalAll es =>
      cases es with
      | nil => cases h
      | cons e es =>
        rcases List.mem_cons.mp h with rfl | h
        · exact .firstArgument
        · obtain ⟨v, mid, he, h⟩ := Eval.mem_onward.mp h
          rw [List.mem_singleton.mp h]
          exact .moreArguments he
    | call callee args position =>
      cases callee with
      | function f =>
        simp only [children, Task.children] at h
        split at h
        · next hallowed =>
          rw [List.mem_singleton.mp h]
          exact .body hallowed.1 hallowed.2
        · cases h
      | _ => cases h
    | exec s => exact Stmt.starts_of_mem h
    | execAll ss =>
      cases ss with
      | nil => cases h
      | cons s ss =>
        rcases List.mem_cons.mp h with rfl | h
        · exact .first
        · obtain ⟨done, mid, hs, h⟩ := Eval.mem_onward.mp h
          obtain ⟨rfl, h⟩ := Completion.mem_onward.mp h
          rw [List.mem_singleton.mp h]
          exact .rest hs
    | rounds cond body increment => exact Stmt.starts_of_mem_round h

end

/-- What a task gives when it finishes. -/
def Completion.values : Completion → List Value
  | normal => []
  | returned v => [v]

/-- Runs a task, with the values that it gives. -/
def Task.perform (limit : Option Nat) (n : Nat) : Task → Eval (List Value)
  | .eval e => (fun v => [v]) <$> e.eval limit n
  | .evalAll es => Expr.evalAll limit n es
  | .call callee args position => (fun v => [v]) <$> Value.call limit n callee args position
  | .exec s => Completion.values <$> s.exec limit n
  | .execAll ss => Completion.values <$> Stmt.execAll limit n ss
  | .rounds cond body increment => Completion.values <$> Stmt.rounds limit n cond body increment

/-- How a run ends, and the machine that it leaves. -/
def Run.perform (limit : Option Nat) (r : Run) : Outcome RuntimeError (List Value) × Machine :=
  r.task.perform limit r.budget r.machine

/-- What happens at a moment. -/
inductive Event where
  | begins (r : Run)
  | ends (r : Run)

/-- The events of a run with their order in time, for a run with a budget up to `n`. -/
def Run.traceWithin (limit : Option Nat) : Nat → Run → List Event
  | 0, r => [.begins r, .ends r]
  | n + 1, r => .begins r :: (r.children limit).flatMap (traceWithin limit n) ++ [.ends r]

/-- The events of a run in the order of time. -/
def Run.trace (limit : Option Nat) (r : Run) : List Event := r.traceWithin limit r.budget

/-- The events of some runs, one after the other. -/
def Run.traces (limit : Option Nat) (rs : List Run) : List Event := rs.flatMap (trace limit)

section

variable {limit : Option Nat} {r r' : Run} {rs more : List Run}

theorem Run.traces_nil : Run.traces limit [] = [] := rfl

theorem Run.traces_append :
    Run.traces limit (rs ++ more) = Run.traces limit rs ++ Run.traces limit more :=
  List.flatMap_append ..

theorem Run.traces_singleton : Run.traces limit [r] = r.trace limit := List.flatMap_singleton ..

theorem Run.mem_traces {event : Event} :
    event ∈ Run.traces limit rs ↔ ∃ r ∈ rs, event ∈ r.trace limit := List.mem_flatMap

/-- A run begins, the runs that it starts happen one after the other, and it ends. -/
theorem Run.trace_eq (limit : Option Nat) (r : Run) :
    r.trace limit = .begins r :: traces limit (r.children limit) ++ [.ends r] := by
  obtain ⟨budget, task, m⟩ := r
  cases budget with
  | zero => rfl
  | succ n =>
    rw [trace, traceWithin]
    congr 2
    refine List.flatMap_congr fun r' hr' => ?_
    have hbudget := (mem_children_iff.mp hr').budget_eq
    rw [trace, ← Nat.succ.inj hbudget]

theorem Run.ends_mem_trace (limit : Option Nat) (r : Run) : Event.ends r ∈ r.trace limit := by
  rw [trace_eq]
  exact List.mem_append_right _ (List.mem_singleton_self _)

theorem Run.begins_mem_trace (limit : Option Nat) (r : Run) : Event.begins r ∈ r.trace limit := by
  rw [trace_eq]
  exact List.mem_cons_self

theorem Run.Reaches.subset (h : Run.Reaches limit r r') : r'.trace limit ⊆ r.trace limit := by
  induction h with
  | refl => exact List.Subset.refl _
  | @step r mid last hstart _ ih =>
    refine List.Subset.trans ih fun e he => ?_
    rw [trace_eq limit r]
    have hmem := mem_traces.mpr ⟨mid, mem_children_iff.mpr hstart, he⟩
    exact List.mem_append_left _ (List.mem_cons_of_mem _ hmem)

/-- The runs of a trace are those that its run reaches. -/
theorem Run.begins_mem_trace_iff : Event.begins r' ∈ r.trace limit ↔ Run.Reaches limit r r' := by
  refine ⟨fun h => ?_, fun h => h.subset (r'.begins_mem_trace limit)⟩
  -- The induction is on the budget, which every run that is started has less of.
  induction hbudget : r.budget using Nat.strongRecOn generalizing r with
  | ind n ih =>
    rw [trace_eq, List.mem_append, List.mem_cons, mem_traces] at h
    rcases h with (heq | ⟨child, hchild, h⟩) | h
    · cases heq
      exact .refl _
    · have hstart := mem_children_iff.mp hchild
      have hless : child.budget < n := by
        rw [← hbudget, hstart.budget_eq]
        exact Nat.lt_succ_self _
      exact .step hstart (ih _ hless h rfl)
    · cases List.mem_singleton.mp h

end

end GradualScript
