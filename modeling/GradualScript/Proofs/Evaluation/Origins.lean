import Mathlib
import GradualScript.Proofs.Evaluation.Frames
import GradualScript.Proofs.Evaluation.Returns
import GradualScript.Proofs.Evaluation.Traces
import GradualScript.Proofs.Scopes.Surroundings
import GradualScript.Proofs.Typing.Described

/-!
# Where functions come from

Each time a declaration runs, it makes a function, and nothing else makes one. The functions
that were made so far, in order, account for all that a run holds: every function bound in
some scope, passed to a call or given as a result is among them. The number of declarations
that have run is their number, so the identity of a function is its place in that list.
-/
namespace GradualScript

/-- The function is bound to a name in some scope. -/
def Machine.Holds (m : Machine) (f : Function) : Prop :=
  ∃ place name, m.scopes.bindingAt place name = some (.function f)

/-- The values that a task is given. -/
def Task.values : Task → List Value
  | .call callee args _ => callee :: args
  | _ => []

/-- The name that a run of a declaration binds. -/
def Run.declaration : Run → Option String
  | ⟨_ + 1, .exec (.function _ name _ _ _), _⟩ => some name
  | _ => none

def Value.function? : Value → Option Function
  | .function f => some f
  | _ => none

namespace Event

/-- The function is in the machine or in hand: a task was given it, or gave it as a result. -/
def Holds (limit : Option Nat) : Event → Function → Prop
  | .begins r, f => r.machine.Holds f ∨ .function f ∈ r.task.values
  | .ends r, f => (r.perform limit).2.Holds f ∨
      ∃ vs, (r.perform limit).1 = .finished vs ∧ .function f ∈ vs

/-- A declaration has run. -/
def Declares : Event → Prop
  | .begins _ => False
  | .ends r => r.declaration.isSome

/-- The function that a declaration has made: what its name means now. -/
def made (limit : Option Nat) : Event → Option Function
  | .begins _ => none
  | .ends r => r.declaration.bind fun name =>
      ((r.perform limit).2.scopes.get name).bind Value.function?

end Event

/-- The functions made in a trace, in the order of time. -/
def madeIn (limit : Option Nat) (τ : List Event) : List Function :=
  τ.flatMap fun event => (event.made limit).toList

/-- The value is no function, or one of those made. -/
def Value.From (made : List Function) : Value → Prop
  | .function f => f ∈ made
  | _ => True

def Completion.From (made : List Function) (c : Completion) : Prop := c.value.From made

/-- The functions made so far account for a machine. -/
structure Machine.Accounted (made : List Function) (m : Machine) : Prop where
  declared_eq : m.declared = made.length
  size_pos : 0 < m.scopes.size
  values : m.scopes.AllBound (Value.From made)

/-- The functions made before an event account for it. -/
structure Event.Accounted (limit : Option Nat) (before : List Function) (event : Event) : Prop where
  held : ∀ f, event.Holds limit f → f ∈ before ++ (event.made limit).toList
  made : event.Declares → (event.made limit).isSome
  identity : ∀ f, event.made limit = some f → f.identity = before.length

/-- Every event is accounted for, by functions made before a trace and in it. -/
inductive Accounts (limit : Option Nat) : List Function → List Event → Prop
  | nil (before : List Function) : Accounts limit before []
  | cons {before : List Function} {event : Event} {τ : List Event} :
      event.Accounted limit before → Accounts limit (before ++ (event.made limit).toList) τ →
      Accounts limit before (event :: τ)

section

variable {limit : Option Nat} {before made : List Function} {τ σ : List Event} {event : Event}

@[simp] theorem madeIn_nil : madeIn limit [] = [] := rfl

@[simp] theorem madeIn_cons :
    madeIn limit (event :: τ) = (event.made limit).toList ++ madeIn limit τ := List.flatMap_cons ..

@[simp] theorem madeIn_append : madeIn limit (τ ++ σ) = madeIn limit τ ++ madeIn limit σ :=
  List.flatMap_append ..

theorem Accounts.append (h : Accounts limit before τ)
    (h' : Accounts limit (before ++ madeIn limit τ) σ) : Accounts limit before (τ ++ σ) := by
  induction h with
  | nil before =>
    rw [madeIn_nil, List.append_nil] at h'
    exact h'
  | cons hevent _ ih =>
    rw [madeIn_cons, ← List.append_assoc] at h'
    exact .cons hevent (ih h')

theorem Value.From.mono {v : Value} (h : v.From before) (hsubset : before ⊆ made) :
    v.From made := by
  cases v with
  | function f => exact hsubset h
  | _ => trivial

theorem Value.from_plain {v : Value} (h : v.kind ≠ .function) : v.From made := by
  cases v with
  | function f => exact absurd rfl h
  | _ => trivial

/-- Only `and` and `or` give back a function. -/
theorem Operator.from_applyBinary {op : Operator} {v w u : Value} (hv : v.From made)
    (hw : w.From made) (h : op.applyBinary v w = .ok u) : u.From made := by
  by_cases hand : op = .and
  · subst hand
    cases h
    split
    · exact hw
    · exact hv
  by_cases hor : op = .or
  · subst hor
    cases h
    split
    · exact hv
    · exact hw
  exact Value.from_plain (applyBinary_plain hand hor h)

variable {m : Machine} {name : String} {value : Value}

theorem Machine.Accounted.mem_of_holds (h : m.Accounted made) {f : Function} (hf : m.Holds f) :
    f ∈ made := by
  obtain ⟨place, name, hslot⟩ := hf
  exact h.values place name _ hslot

theorem Machine.accounted_fresh (rootName : String) (sink : Sink) :
    (Machine.fresh rootName sink).Accounted [] :=
  ⟨rfl, Nat.one_pos, Scopes.allBound_new rootName⟩

theorem Machine.Accounted.set (h : m.Accounted made) (hvalue : value.From made) :
    Machine.Accounted made { m with scopes := m.scopes.set name value } :=
  ⟨h.declared_eq, (Scopes.extends_setAt m.scopes m.scopes.active name value).size_pos h.size_pos,
    h.values.set name hvalue⟩

/-- The function that a declaration would make now. -/
def Machine.nextFunction (m : Machine) (name : String) (params : List String)
    (body : List Stmt) : Function := ⟨m.declared, name, params, body, m.scopes.current⟩

theorem Machine.get_declare (h : m.Accounted made) (name : String) (params : List String)
    (body : List Stmt) :
    (m.declare name params body).scopes.get name =
      some (.function (m.nextFunction name params body)) :=
  (Scopes.get_set h.size_pos ..).trans (if_pos rfl)

/-- A declaration adds its function to those that account for the machine. -/
theorem Machine.Accounted.declare (h : m.Accounted made) (name : String) (params : List String)
    (body : List Stmt) :
    (m.declare name params body).Accounted (made ++ [m.nextFunction name params body]) := by
  refine ⟨?_, (Scopes.extends_setAt m.scopes m.scopes.active name _).size_pos h.size_pos, ?_⟩
  · rw [List.length_append, ← h.declared_eq]
    rfl
  · refine (h.values.mono fun v hv => hv.mono (List.subset_append_left made _)).set name ?_
    exact List.mem_append_right _ (List.mem_singleton_self _)

theorem Machine.Accounted.opened (h : m.Accounted made) (name : String) :
    (m.opened name).Accounted made := by
  refine ⟨h.declared_eq, ?_, h.values.push name⟩
  rw [Machine.opened, Scopes.push, Scopes.size_pushAt]
  exact Nat.succ_pos _

theorem Machine.Accounted.enter (h : m.Accounted made) (f : Function) {args : List Value}
    (hargs : ∀ v ∈ args, v.From made) : (m.enter f args).Accounted made := by
  have hpushed : 0 < (m.scopes.pushUnder f.name f.closure).size := by
    rw [Scopes.pushUnder, Scopes.size_pushAt]
    exact Nat.succ_pos _
  refine ⟨h.declared_eq, (Scopes.extends_foldl_set _ _).size_pos hpushed,
    (h.values.pushUnder f.name f.closure).foldl_set fun entry hentry => ?_⟩
  exact hargs entry.2 (List.of_mem_zip hentry).2

theorem Machine.Accounted.closeFrom (h : m.Accounted made) (size : Nat) :
    (m.closeFrom size).Accounted made := by
  refine ⟨h.declared_eq, ?_, h.values.truncate size⟩
  rw [Machine.closeFrom, Scopes.size, Scopes.truncate, Array.size_shrink]
  exact Nat.lt_min.mpr ⟨by omega, h.size_pos⟩

theorem Machine.Accounted.leave (h : m.Accounted made) : m.leave.Accounted made :=
  ⟨h.declared_eq, h.size_pos, h.values⟩

end

/-- What a run leaves that starts the runs `inside`, if the functions `before` were made
before it. -/
structure Leaves {α : Type} (limit : Option Nat) (before : List Function)
    (good : List Function → α → Prop) (result : Outcome RuntimeError α × Machine)
    (inside : List Run) : Prop where
  accounts : Accounts limit before (Run.traces limit inside)
  machine : result.2.Accounted (before ++ madeIn limit (Run.traces limit inside))
  finished : ∀ a, result.1 = .finished a →
    good (before ++ madeIn limit (Run.traces limit inside)) a

section

open Eval

variable {α β : Type} {limit : Option Nat} {before : List Function} {m : Machine}
  {good : List Function → α → Prop} {good' : List Function → β → Prop} {inside : List Run}

/-- What follows may use what was made meanwhile. -/
theorem Leaves.bind {run : Eval α} {f : α → Eval β} {next : α → Machine → List Run}
    (h : Leaves limit before good (run m) inside)
    (hf : ∀ {made a mid}, before <+: made → mid.Accounted made → good made a →
      Leaves limit made good' (f a mid) (next a mid)) :
    Leaves limit before good' ((run >>= f) m) (inside ++ Eval.onward (run m) next) := by
  rcases bind_outcome run f m with
    ⟨a, mid, hrun, hbind⟩ | ⟨e, mid, hrun, hbind⟩ | ⟨mid, hrun, hbind⟩
  · rw [hrun] at h
    have hnext := hf (List.prefix_append _ _) h.machine (h.finished a rfl)
    rw [hbind, hrun]
    refine ⟨?_, ?_, fun b hb => ?_⟩
    · rw [Run.traces_append]
      exact h.accounts.append hnext.accounts
    · rw [Run.traces_append, madeIn_append, ← List.append_assoc]
      exact hnext.machine
    · rw [Run.traces_append, madeIn_append, ← List.append_assoc]
      exact hnext.finished b hb
  · rw [hrun] at h
    rw [hbind, hrun, onward_failed, List.append_nil]
    exact ⟨h.accounts, h.machine, nofun⟩
  · rw [hrun] at h
    rw [hbind, hrun, onward_unfinished, List.append_nil]
    exact ⟨h.accounts, h.machine, nofun⟩

/-- What follows starts no runs. -/
theorem Leaves.bind_quiet {run : Eval α} {f : α → Eval β}
    (h : Leaves limit before good (run m) inside)
    (hf : ∀ {made a mid}, before <+: made → mid.Accounted made → good made a →
      Leaves limit made good' (f a mid) []) :
    Leaves limit before good' ((run >>= f) m) inside := by
  have hbind : Leaves limit before good' ((run >>= f) m)
      (inside ++ Eval.onward (run m) fun _ _ => []) := h.bind hf
  have hnothing : Eval.onward (run m) (fun _ _ => ([] : List Run)) = [] := by
    unfold Eval.onward
    split <;> rfl
  rwa [hnothing, List.append_nil] at hbind

theorem map_outcome (values : α → β) (run : Eval α) (m : Machine) :
    (values <$> run) m = ((run m).1.map values, (run m).2) := by
  change Eval.bind run (fun a => pure (values a)) m = _
  unfold Eval.bind
  cases run m with
  | mk outcome mid => cases outcome <;> rfl

/-- Nothing is started and nothing made. -/
theorem leaves_same {outcome : Outcome RuntimeError α} (hm : m.Accounted before)
    (hgood : ∀ a, outcome = .finished a → good before a) :
    Leaves limit before good (outcome, m) [] := by
  refine ⟨.nil before, ?_, fun a ha => ?_⟩
  · rw [Run.traces_nil, madeIn_nil, List.append_nil]
    exact hm
  · rw [Run.traces_nil, madeIn_nil, List.append_nil]
    exact hgood a ha

theorem leaves_pure {a : α} (hm : m.Accounted before) (ha : good before a) :
    Leaves limit before good ((pure a : Eval α) m) [] := by
  refine leaves_same hm ?_
  rintro _ ⟨rfl⟩
  exact ha

theorem leaves_unfinished (hm : m.Accounted before) :
    Leaves limit before good ((Eval.unfinished : Eval α) m) [] := leaves_same hm nofun

theorem leaves_fail (fault : RuntimeFault) (position : Position) (hm : m.Accounted before) :
    Leaves limit before good ((Eval.fail fault position : Eval α) m) [] := leaves_same hm nofun

theorem leaves_ofExcept {result : Except RuntimeFault α} (position : Position)
    (hm : m.Accounted before) (hgood : ∀ a, result = .ok a → good before a) :
    Leaves limit before good (Eval.ofExcept position result m) [] := by
  cases result with
  | ok a => exact leaves_pure hm (hgood a rfl)
  | error fault => exact leaves_fail fault position hm

theorem leaves_lookup (name : String) (position : Position) (hm : m.Accounted before) :
    Leaves limit before Value.From (Eval.lookup name position m) [] := by
  unfold Eval.lookup
  split
  · next v hv => exact leaves_pure hm (hm.values.get hv)
  · exact leaves_same hm nofun

theorem leaves_assign (name : String) {value : Value} (position : Position)
    (hm : m.Accounted before) (hvalue : value.From before) :
    Leaves limit before (fun _ _ => True) (Eval.assign name value position m) [] := by
  unfold Eval.assign
  split
  · next old scopes hassign =>
    refine leaves_pure ⟨hm.declared_eq, ?_, hm.values.assign hvalue hassign⟩ trivial
    exact (Scopes.extends_assign hassign).size_pos hm.size_pos
  · exact leaves_same hm nofun

theorem leaves_define (name : String) {value : Value} (hm : m.Accounted before)
    (hvalue : value.From before) :
    Leaves limit before (fun _ _ => True) (Eval.define name value m) [] :=
  leaves_pure (hm.set hvalue) trivial

theorem leaves_print (value : Value) (hm : m.Accounted before) :
    Leaves limit before (fun _ _ => True) (Eval.print value m) [] :=
  leaves_pure ⟨hm.declared_eq, hm.size_pos, hm.values⟩ trivial

theorem Leaves.inScope {name : String} {run : Eval α}
    (h : Leaves limit before good (run (m.opened name)) inside) :
    Leaves limit before good (Eval.inScope name run m) inside :=
  ⟨h.accounts, h.machine.closeFrom _, h.finished⟩

theorem Leaves.inFrame {f : Function} {args : List Value} {run : Eval α}
    (h : Leaves limit before good (run (m.enter f args)) inside) :
    Leaves limit before good (Eval.inFrame f args run m) inside :=
  ⟨h.accounts, (h.machine.closeFrom _).leave, h.finished⟩

theorem accounted_begins {n : Nat} {task : Task} (hm : m.Accounted before)
    (hgiven : ∀ v ∈ task.values, v.From before) :
    (Event.begins ⟨n, task, m⟩).Accounted limit before := by
  refine ⟨fun f hf => List.mem_append_left _ ?_, False.elim, nofun⟩
  rcases hf with hf | hf
  · exact hm.mem_of_holds hf
  · exact hgiven _ hf

/-- A run is accounted for if its beginning, what it starts and its end are. -/
theorem leaves_whole {r : Run} {result : Outcome RuntimeError α × Machine} {made : List Function}
    (hmade : before ++ madeIn limit (Run.traces limit (r.children limit)) = made)
    (hbegins : (Event.begins r).Accounted limit before)
    (hinside : Accounts limit before (Run.traces limit (r.children limit)))
    (hends : (Event.ends r).Accounted limit made)
    (hmachine : result.2.Accounted (made ++ ((Event.ends r).made limit).toList))
    (hgood : ∀ a, result.1 = .finished a →
      good (made ++ ((Event.ends r).made limit).toList) a) :
    Leaves limit before good result [r] := by
  subst hmade
  have hbefore : before ++ ((Event.begins r).made limit).toList = before := List.append_nil _
  have htrace : Run.traces limit [r] =
      .begins r :: (Run.traces limit (r.children limit) ++ [.ends r]) := by
    rw [Run.traces_singleton, Run.trace_eq, List.cons_append]
  have hall : before ++ madeIn limit (Run.traces limit [r]) = before ++
      madeIn limit (Run.traces limit (r.children limit)) ++ ((Event.ends r).made limit).toList := by
    rw [htrace, madeIn_cons, madeIn_append, madeIn_cons, madeIn_nil, List.append_nil,
      ← List.append_assoc, hbefore, List.append_assoc]
  refine ⟨?_, hall ▸ hmachine, hall ▸ hgood⟩
  rw [htrace]
  refine .cons hbegins ?_
  rw [hbefore]
  exact hinside.append (.cons hends (.nil _))

/-- A run that is no declaration makes nothing itself. -/
theorem leaves_run {n : Nat} {run : Eval α} {values : α → List Value} (task : Task)
    (hperform : task.perform limit n = values <$> run)
    (hplain : Run.declaration ⟨n, task, m⟩ = none) (hm : m.Accounted before)
    (hgiven : ∀ v ∈ task.values, v.From before)
    (hvalues : ∀ made a, good made a → ∀ v ∈ values a, v.From made)
    (h : Leaves limit before good (run m) (Run.children limit ⟨n, task, m⟩)) :
    Leaves limit before good (run m) [⟨n, task, m⟩] := by
  have hresult : Run.perform limit ⟨n, task, m⟩ = ((run m).1.map values, (run m).2) :=
    (congrFun hperform m).trans (map_outcome values run m)
  have hends : (Event.ends ⟨n, task, m⟩).made limit = none := by
    rw [Event.made, hplain]
    rfl
  refine leaves_whole rfl (accounted_begins hm hgiven) h.accounts
    ⟨fun f hf => ?_, fun hdeclares => ?_, ?_⟩ ?_ ?_
  · rw [Event.Holds, hresult] at hf
    refine List.mem_append_left _ ?_
    rcases hf with hf | ⟨vs, hvs, hf⟩
    · exact h.machine.mem_of_holds hf
    · cases hrun : (run m).1 with
      | finished a =>
        rw [hrun] at hvs
        cases hvs
        exact hvalues _ a (h.finished a hrun) _ hf
      | failed | unfinished =>
        rw [hrun] at hvs
        cases hvs
  · rw [Event.Declares, hplain] at hdeclares
    cases hdeclares
  · rw [hends]
    exact nofun
  · rw [hends, Option.toList_none, List.append_nil]
    exact h.machine
  · rw [hends, Option.toList_none, List.append_nil]
    exact h.finished

end

/-- Runs with a budget of `n` are accounted for. -/
structure Accounting (limit : Option Nat) (n : Nat) : Prop where
  eval : ∀ {made m} (e : Expr), m.Accounted made →
    Leaves limit made Value.From (e.eval limit n m) [⟨n, .eval e, m⟩]
  evalAll : ∀ {made m} (es : List Expr), m.Accounted made →
    Leaves limit made (fun made vs => ∀ v ∈ vs, Value.From made v) (Expr.evalAll limit n es m)
      [⟨n, .evalAll es, m⟩]
  call : ∀ {made m callee args} (position : Position), m.Accounted made →
    (∀ v ∈ callee :: args, Value.From made v) →
    Leaves limit made Value.From (Value.call limit n callee args position m)
      [⟨n, .call callee args position, m⟩]
  exec : ∀ {made m} (s : Stmt), m.Accounted made →
    Leaves limit made Completion.From (s.exec limit n m) [⟨n, .exec s, m⟩]
  execAll : ∀ {made m} (ss : List Stmt), m.Accounted made →
    Leaves limit made Completion.From (Stmt.execAll limit n ss m) [⟨n, .execAll ss, m⟩]
  rounds : ∀ {made m} (cond : Option Expr) (body : Stmt) (increment : Option Expr),
    m.Accounted made → Leaves limit made Completion.From (Stmt.rounds limit n cond body increment m)
      [⟨n, .rounds cond body increment, m⟩]

namespace Accounting

open Eval

variable {limit : Option Nat} {n : Nat} {made : List Function} {m : Machine}

theorem leaves_andThen {c : Completion} {more : Eval Completion} {inside : List Run}
    (hm : m.Accounted made) (hc : c.From made)
    (hmore : Leaves limit made Completion.From (more m) inside) :
    Leaves limit made Completion.From (c.andThen more m) (c.onward inside) := by
  cases c with
  | normal => exact hmore
  | returned v => exact leaves_pure hm hc

theorem leaves_begin (h : Accounting limit n) (init : Option Stmt) (hm : m.Accounted made) :
    Leaves limit made Completion.From (Stmt.begin limit n init m)
      (init.toList.map (⟨n, .exec ·, m⟩)) := by
  cases init with
  | none => exact leaves_pure hm trivial
  | some s => exact h.exec s hm

theorem leaves_test (h : Accounting limit n) (cond : Option Expr) (hm : m.Accounted made) :
    Leaves limit made (fun _ _ => True) (Stmt.test limit n cond m)
      (cond.toList.map (⟨n, .eval ·, m⟩)) := by
  cases cond with
  | none => exact leaves_pure hm trivial
  | some c => exact (h.eval c hm).bind_quiet fun _ hmid _ => leaves_pure hmid trivial

theorem leaves_advance (h : Accounting limit n) (increment : Option Expr) (hm : m.Accounted made) :
    Leaves limit made (fun _ _ => True) (Stmt.advance limit n increment m)
      (increment.toList.map (⟨n, .eval ·, m⟩)) := by
  cases increment with
  | none => exact leaves_pure hm trivial
  | some e => exact (h.eval e hm).bind_quiet fun _ hmid _ => leaves_pure hmid trivial

theorem leaves_eval (h : Accounting limit n) (e : Expr) (hm : m.Accounted made) :
    Leaves limit made Value.From (e.eval limit (n + 1) m) (e.children limit n m) := by
  cases e with
  | number | string | boolean | nil => exact leaves_pure hm trivial
  | unary k op operand =>
    refine (h.eval operand hm).bind_quiet fun _ hmid _ => ?_
    exact leaves_ofExcept k.position hmid fun v hv =>
      Value.from_plain (Operator.applyUnary_plain hv)
  | binary k op l r =>
    rw [eval_binary]
    refine (h.eval l hm).bind fun _ hmid hv => ?_
    split
    · refine (h.eval r hmid).bind_quiet fun hprefix hlast hw => ?_
      exact leaves_ofExcept k.position hlast fun u hu =>
        Operator.from_applyBinary (hv.mono hprefix.subset) hw hu
    · exact leaves_pure hmid hv
  | grouping k inner => exact h.eval inner hm
  | name k name => exact leaves_lookup name k.position hm
  | assign k name value =>
    refine (h.eval value hm).bind_quiet fun _ hmid hv => ?_
    refine (leaves_assign name k.position hmid hv).bind_quiet fun hprefix hlast _ => ?_
    exact leaves_pure hlast (hv.mono hprefix.subset)
  | call k f args =>
    refine (h.eval f hm).bind fun _ hmid hf => ?_
    refine (h.evalAll args hmid).bind fun hprefix hlast hargs => ?_
    exact h.call k.position hlast (List.forall_mem_cons.mpr ⟨hf.mono hprefix.subset, hargs⟩)

theorem leaves_evalAll (h : Accounting limit n) (es : List Expr) (hm : m.Accounted made) :
    Leaves limit made (fun made vs => ∀ v ∈ vs, Value.From made v)
      (Expr.evalAll limit (n + 1) es m) ((Task.evalAll es).children limit n m) := by
  cases es with
  | nil => exact leaves_pure hm nofun
  | cons e es =>
    refine (h.eval e hm).bind fun _ hmid hv => ?_
    refine (h.evalAll es hmid).bind_quiet fun hprefix hlast hvs => ?_
    exact leaves_pure hlast (List.forall_mem_cons.mpr ⟨hv.mono hprefix.subset, hvs⟩)

theorem leaves_call (h : Accounting limit n) {callee : Value} {args : List Value}
    (position : Position) (hm : m.Accounted made) (hargs : ∀ v ∈ args, Value.From made v) :
    Leaves limit made Value.From (Value.call limit (n + 1) callee args position m)
      ((Task.call callee args position).children limit n m) := by
  cases callee with
  | function f =>
    rw [Task.children]
    by_cases harity : args.length = f.arity
    · cases hlimit : limitReached? limit m.calls with
      | some depth =>
        rw [call_limit harity hlimit, if_neg fun hallowed => Option.some_ne_none depth hallowed.2]
        exact leaves_fail _ position hm
      | none =>
        rw [call_function harity hlimit, if_pos ⟨harity, rfl⟩]
        refine Leaves.bind_quiet (h.execAll f.body (hm.enter f hargs)).inFrame fun _ hlast hc => ?_
        exact leaves_pure hlast hc
    · rw [call_arity harity position, if_neg fun hallowed => harity hallowed.1]
      exact leaves_fail _ position hm
  | _ => exact leaves_fail _ position hm

theorem leaves_exec (h : Accounting limit n) (s : Stmt) (hm : m.Accounted made)
    (hplain : Run.declaration ⟨n + 1, .exec s, m⟩ = none) :
    Leaves limit made Completion.From (s.exec limit (n + 1) m) (s.children limit n m) := by
  cases s with
  | expression p e => exact (h.eval e hm).bind_quiet fun _ hmid _ => leaves_pure hmid trivial
  | print p e =>
    refine (h.eval e hm).bind_quiet fun _ hmid _ => ?_
    exact (leaves_print _ hmid).bind_quiet fun _ hlast _ => leaves_pure hlast trivial
  | var p name e =>
    refine (h.eval e hm).bind_quiet fun _ hmid hv => ?_
    exact (leaves_define name hmid hv).bind_quiet fun _ hlast _ => leaves_pure hlast trivial
  | block p ss => exact (h.execAll ss (hm.opened "block")).inScope
  | ifElse p c yes no =>
    refine (h.eval c hm).bind fun _ hmid _ => ?_
    split
    · exact h.exec yes hmid
    · exact h.leaves_begin no hmid
  | whileLoop p c body => exact h.rounds (some c) body none hm
  | forLoop p init c increment body =>
    rw [exec_forLoop]
    refine Leaves.inScope ((h.leaves_begin init (hm.opened "for")).bind fun _ hmid hc => ?_)
    exact leaves_andThen hmid hc (h.rounds c body increment hmid)
  | function p name params body result => cases hplain
  | ret p value =>
    cases value with
    | none => exact leaves_pure hm trivial
    | some e => exact (h.eval e hm).bind_quiet fun _ hmid hv => leaves_pure hmid hv

theorem leaves_execAll (h : Accounting limit n) (ss : List Stmt) (hm : m.Accounted made) :
    Leaves limit made Completion.From (Stmt.execAll limit (n + 1) ss m)
      ((Task.execAll ss).children limit n m) := by
  cases ss with
  | nil => exact leaves_pure hm trivial
  | cons s ss =>
    rw [execAll_cons]
    exact (h.exec s hm).bind fun _ hmid hc => leaves_andThen hmid hc (h.execAll ss hmid)

theorem leaves_rounds (h : Accounting limit n) (cond : Option Expr) (body : Stmt)
    (increment : Option Expr) (hm : m.Accounted made) :
    Leaves limit made Completion.From (Stmt.rounds limit (n + 1) cond body increment m)
      (Stmt.roundChildren limit n m cond body increment) := by
  rw [rounds_succ]
  refine (h.leaves_test cond hm).bind fun _ hmid _ => ?_
  split
  · refine (h.exec body hmid).bind fun _ hmid' hc => leaves_andThen hmid' hc ?_
    exact (h.leaves_advance increment hmid').bind fun _ hlast _ =>
      h.rounds cond body increment hlast
  · exact leaves_pure hmid trivial

/-- A declaration makes the function that its name means afterwards. -/
theorem leaves_declaration (limit : Option Nat) (n : Nat) (p : Position) (name : String)
    (params : List String) (body : List Stmt) (result : TypeSet) (hm : m.Accounted made) :
    Leaves limit made Completion.From
      ((Stmt.function p name params body result).exec limit (n + 1) m)
      [⟨n + 1, .exec (.function p name params body result), m⟩] := by
  have hleft := hm.declare name params body
  have hmeans := m.get_declare hm name params body
  have hidentity : (m.nextFunction name params body).identity = made.length := hm.declared_eq
  generalize m.nextFunction name params body = f at *
  have hmade : (Event.ends ⟨n + 1, .exec (.function p name params body result), m⟩).made limit =
      some f := by
    change ((m.declare name params body).scopes.get name).bind Value.function? = some f
    rw [hmeans]
    rfl
  refine leaves_whole (List.append_nil made) (accounted_begins hm nofun) (.nil made)
    ⟨fun g hg => ?_, fun _ => Option.isSome_iff_exists.mpr ⟨f, hmade⟩, fun g hg => ?_⟩ ?_ ?_
  · rw [hmade]
    rcases hg with hg | ⟨vs, hvs, hg⟩
    · exact hleft.mem_of_holds hg
    · cases hvs
      cases hg
  · cases hmade.symm.trans hg
    exact hidentity
  · rw [hmade]
    exact hleft
  · rintro _ ⟨rfl⟩
    trivial

end Accounting

open Accounting in
theorem accounting (limit : Option Nat) (n : Nat) : Accounting limit n := by
  have hsingle : ∀ made v, Value.From made v → ∀ w ∈ [v], w.From made := by
    rintro made v hv w hw
    rwa [List.mem_singleton.mp hw]
  have hcompletion : ∀ made c, Completion.From made c → ∀ w ∈ c.values, w.From made := by
    rintro made (_ | v) hc w hw
    · cases hw
    · exact hsingle made v hc w hw
  induction n with
  | zero =>
    refine ⟨fun e hm => ?_, fun es hm => ?_, fun position hm hgiven => ?_, fun s hm => ?_,
      fun ss hm => ?_, fun cond body increment hm => ?_⟩
    · exact leaves_run (.eval e) rfl rfl hm nofun hsingle (leaves_unfinished hm)
    · exact leaves_run (.evalAll es) (id_map _).symm rfl hm nofun (fun _ _ hvs => hvs)
        (leaves_unfinished hm)
    · exact leaves_run (.call _ _ position) rfl rfl hm hgiven hsingle (leaves_unfinished hm)
    · exact leaves_run (.exec s) rfl rfl hm nofun hcompletion (leaves_unfinished hm)
    · exact leaves_run (.execAll ss) rfl rfl hm nofun hcompletion (leaves_unfinished hm)
    · exact leaves_run (.rounds cond body increment) rfl rfl hm nofun hcompletion
        (leaves_unfinished hm)
  | succ n ih =>
    refine ⟨fun e hm => ?_, fun es hm => ?_, fun position hm hgiven => ?_, fun s hm => ?_,
      fun ss hm => ?_, fun cond body increment hm => ?_⟩
    · exact leaves_run (.eval e) rfl rfl hm nofun hsingle (ih.leaves_eval e hm)
    · exact leaves_run (.evalAll es) (id_map _).symm rfl hm nofun (fun _ _ hvs => hvs)
        (ih.leaves_evalAll es hm)
    · exact leaves_run (.call _ _ position) rfl rfl hm hgiven hsingle
        (ih.leaves_call position hm (List.forall_mem_cons.mp hgiven).2)
    · cases hplain : Run.declaration ⟨n + 1, .exec s, _⟩ with
      | none =>
        exact leaves_run (.exec s) rfl hplain hm nofun hcompletion (ih.leaves_exec s hm hplain)
      | some name =>
        cases s with
        | function p name params body result =>
          exact leaves_declaration limit n p name params body result hm
        | _ => cases hplain
    · exact leaves_run (.execAll ss) rfl rfl hm nofun hcompletion (ih.leaves_execAll ss hm)
    · exact leaves_run (.rounds cond body increment) rfl rfl hm nofun hcompletion
        (ih.leaves_rounds cond body increment hm)

end GradualScript
