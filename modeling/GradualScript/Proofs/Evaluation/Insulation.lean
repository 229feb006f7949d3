import GradualScript.Proofs.Evaluation.Resolved
import GradualScript.Proofs.Scopes.Alignment

/-!
# Runs above a base

Where all functions belong to the root scope, whatever runs above a base sees the root and
the scopes above the base only. Two machines that agree in these therefore run in step: they
print the same and end alike, and neither changes a scope between its root and its base.
-/
namespace GradualScript

/-- The number of calls that a limit still allows inside `calls` others. -/
def allowance (limit : Option Nat) (calls : Nat) : Option Nat := limit.map (· - calls)

section

variable {limit limit' : Option Nat} {calls calls' : Nat}

theorem allowance_succ (h : allowance limit calls = allowance limit' calls') :
    allowance limit (calls + 1) = allowance limit' (calls' + 1) := by
  have hsucc : ∀ (l : Option Nat) (n : Nat),
      allowance l (n + 1) = (allowance l n).map (· - 1) := by
    intro l n
    rw [allowance, allowance, Option.map_map]
    rfl
  rw [hsucc, hsucc, h]

/-- Both limits are reached, or neither is. -/
theorem limitReached?_of_allowance (h : allowance limit calls = allowance limit' calls')
    (hone : limitReached? limit calls = none) : limitReached? limit' calls' = none := by
  cases limit with
  | none =>
    cases limit' with
    | none => rfl
    | some l' => cases h
  | some l =>
    cases limit' with
    | none => cases h
    | some l' =>
      simp only [allowance, Option.map_some, Option.some.injEq, limitReached?, Option.filter_some,
        decide_eq_true_eq, ite_eq_right_iff, reduceCtorEq, imp_false] at h hone ⊢
      omega

theorem limitReached?_eq_some {depth : Nat} (h : limitReached? limit calls = some depth) :
    limit = some depth :=
  Option.eq_some_of_filter_eq_some h

end

/-- The same error, but for the limit that it names if calls nest too deep. -/
inductive SameFailure (limit limit' : Option Nat) : RuntimeError → RuntimeError → Prop
  | same (e : RuntimeError) : SameFailure limit limit' e e
  | limits {depth depth' : Nat} (position : Position) : limit = some depth → limit' = some depth' →
      SameFailure limit limit' ⟨.callLimitReached depth, position⟩
        ⟨.callLimitReached depth', position⟩

theorem SameFailure.eq {limit : Option Nat} {e e' : RuntimeError}
    (h : SameFailure limit limit e e') : e = e' := by
  cases h with
  | same => rfl
  | limits position hdepth hdepth' =>
    rw [hdepth] at hdepth'
    cases hdepth'
    rfl

/-- Both runs finish with one value, which is good, fail in the same way, or do not end. -/
inductive SameOutcome {α : Type} (limit limit' : Option Nat) (good : α → Prop) :
    Outcome RuntimeError α → Outcome RuntimeError α → Prop
  | finished {a : α} : good a → SameOutcome limit limit' good (.finished a) (.finished a)
  | failed {e e' : RuntimeError} : SameFailure limit limit' e e' →
      SameOutcome limit limit' good (.failed e) (.failed e')
  | unfinished : SameOutcome limit limit' good .unfinished .unfinished

theorem SameOutcome.eq {α : Type} {limit : Option Nat} {good : α → Prop}
    {x x' : Outcome RuntimeError α} (h : SameOutcome limit limit good x x') : x = x' := by
  cases h with
  | finished => rfl
  | failed he => exact congrArg _ he.eq
  | unfinished => rfl

/-- If the value is a function, it was declared in the root scope, and declares none. -/
def Value.OnTop : Value → Prop := Value.Closed fun _ => True

mutual

theorem Stmt.functionFree_of_closed {known : String → Prop} :
    ∀ s : Stmt, s.Closed known → s.FunctionFree
  | .expression _ _, _ | .print _ _, _ | .var _ _ _, _ | .ret _ _, _ => trivial
  | .block _ ss, h => Stmt.functionFreeIn_of_closed ss h
  | .ifElse _ _ yes no, h =>
      ⟨Stmt.functionFree_of_closed yes h.2.1, Stmt.functionFreeOption_of_closed no h.2.2⟩
  | .whileLoop _ _ body, h => Stmt.functionFree_of_closed body h.2
  | .forLoop _ init _ _ body, h =>
      ⟨Stmt.functionFreeOption_of_closed init h.1, Stmt.functionFree_of_closed body h.2.2.2⟩

theorem Stmt.functionFreeIn_of_closed {known : String → Prop} :
    ∀ ss : List Stmt, Stmt.ClosedIn known ss → Stmt.FunctionFreeIn ss
  | [], _ => trivial
  | s :: ss, h => ⟨Stmt.functionFree_of_closed s h.1, Stmt.functionFreeIn_of_closed ss h.2⟩

theorem Stmt.functionFreeOption_of_closed {known : String → Prop} :
    ∀ s : Option Stmt, Stmt.ClosedOption known s → Stmt.FunctionFreeOption s
  | none, _ => trivial
  | some s, h => Stmt.functionFree_of_closed s h

end

/-- The machines agree in the root and above the bases, and allow as many calls. -/
structure Machine.Aligned (b c : Nat) (limit limit' : Option Nat) (m m' : Machine) : Prop where
  scopes : Scopes.Aligned b c Value.OnTop m.scopes m'.scopes
  allowance_eq : allowance limit m.calls = allowance limit' m'.calls

/-- The same lines were printed from `m` to `last` and from `m'` to `last'`. -/
def PrintedSame (m m' last last' : Machine) : Prop :=
  ∃ lines : List String, last.sink = lines.foldl Sink.println m.sink ∧
    last'.sink = lines.foldl Sink.println m'.sink

theorem PrintedSame.trans {m m' mid mid' last last' : Machine} (h : PrintedSame m m' mid mid')
    (h' : PrintedSame mid mid' last last') : PrintedSame m m' last last' := by
  obtain ⟨lines, hm, hm'⟩ := h
  obtain ⟨lines', hmid, hmid'⟩ := h'
  refine ⟨lines ++ lines', ?_, ?_⟩
  · rw [List.foldl_append, ← hm, hmid]
  · rw [List.foldl_append, ← hm', hmid']

/-- What two runs in step leave. -/
structure Insulated {α : Type} (b c : Nat) (limit limit' : Option Nat) (good : α → Prop)
    (m m' : Machine) (result result' : Outcome RuntimeError α × Machine) : Prop where
  machines : result.2.Aligned b c limit limit' result'.2
  outcome : SameOutcome limit limit' good result.1 result'.1
  spared : Scopes.Spared b m.scopes result.2.scopes
  printed : PrintedSame m m' result.2 result'.2

namespace Machine

variable {b c : Nat} {limit limit' : Option Nat} {m m' : Machine}

theorem Aligned.opened (h : m.Aligned b c limit limit' m') (name : String) :
    (m.opened name).Aligned b c limit limit' (m'.opened name) :=
  ⟨h.scopes.push name, h.allowance_eq⟩

theorem onTop_of_mem_zip (names : List String) {args : List Value}
    (hargs : ∀ v ∈ args, v.OnTop) : ∀ entry ∈ names.zip args, entry.2.OnTop :=
  fun entry hentry => hargs entry.2 (List.of_mem_zip hentry).2

/-- Frames that are in step as they are pushed stay so when the arguments are bound. -/
theorem aligned_enter {f : Function} {args : List Value} (hbase : b ≤ m.scopes.size)
    (hframe : Scopes.Aligned b c Value.OnTop (m.scopes.pushAt f.name 0)
      (m'.scopes.pushAt f.name 0))
    (hallowance : allowance limit m.calls = allowance limit' m'.calls)
    (hf : f.closure.index = 0) (hargs : ∀ v ∈ args, v.OnTop) :
    (m.enter f args).Aligned b c limit limit' (m'.enter f args) ∧
      Scopes.Spared b m.scopes (m.enter f args).scopes := by
  have hentries := onTop_of_mem_zip f.params hargs
  rw [← Scopes.pushUnder_root m.scopes f.name hf, ← Scopes.pushUnder_root m'.scopes f.name hf]
    at hframe
  refine ⟨⟨hframe.foldl_set hentries, allowance_succ hallowance⟩, ?_⟩
  refine Scopes.Spared.trans ?_ (hframe.spared_foldl_set hentries)
  exact .pushAt hbase f.name _

/-- The frames of a function of the root scope. -/
theorem Aligned.enter (h : m.Aligned b c limit limit' m') {f : Function}
    (hf : f.closure.index = 0) {args : List Value} (hargs : ∀ v ∈ args, v.OnTop) :
    (m.enter f args).Aligned b c limit limit' (m'.enter f args) ∧
      Scopes.Spared b m.scopes (m.enter f args).scopes :=
  aligned_enter h.scopes.base_le (h.scopes.pushAt .root h.scopes.size_pos.1 f.name)
    h.allowance_eq hf hargs

end Machine

namespace Eval

variable {α β : Type} {b c : Nat} {limit limit' : Option Nat} {good : α → Prop}
  {good' : β → Prop}

/-- From machines in step, two runs leave machines in step. -/
def Insulates (b c : Nat) (limit limit' : Option Nat) (good : α → Prop) (run run' : Eval α) :
    Prop :=
  ∀ m m' : Machine, m.Aligned b c limit limit' m' →
    Insulated b c limit limit' good m m' (run m) (run' m')

theorem insulated_stay {m m' : Machine} (hm : m.Aligned b c limit limit' m')
    {outcome outcome' : Outcome RuntimeError α}
    (h : SameOutcome limit limit' good outcome outcome') :
    Insulated b c limit limit' good m m' (outcome, m) (outcome', m') :=
  ⟨hm, h, .refl b m.scopes, [], rfl, rfl⟩

theorem insulates_pure {a : α} (ha : good a) :
    Insulates b c limit limit' good (pure a) (pure a) :=
  fun _ _ hm => insulated_stay hm (.finished ha)

theorem insulates_unfinished : Insulates b c limit limit' good Eval.unfinished Eval.unfinished :=
  fun _ _ hm => insulated_stay hm .unfinished

theorem insulates_fail (fault : RuntimeFault) (position : Position) :
    Insulates b c limit limit' good (Eval.fail fault position) (Eval.fail fault position) :=
  fun _ _ hm => insulated_stay hm (.failed (.same _))

theorem insulates_ofExcept {result : Except RuntimeFault α} (position : Position)
    (h : ∀ a, result = .ok a → good a) :
    Insulates b c limit limit' good (Eval.ofExcept position result)
      (Eval.ofExcept position result) := by
  cases result with
  | ok a => exact insulates_pure (h a rfl)
  | error fault => exact insulates_fail fault position

theorem Insulates.bind {run run' : Eval α} {f f' : α → Eval β}
    (h : Insulates b c limit limit' good run run')
    (hf : ∀ a, good a → Insulates b c limit limit' good' (f a) (f' a)) :
    Insulates b c limit limit' good' (run >>= f) (run' >>= f') := by
  intro m m' hm
  have hfirst := h m m' hm
  change Insulated b c limit limit' good' m m' (Eval.bind run f m) (Eval.bind run' f' m')
  unfold Eval.bind
  generalize run m = result, run' m' = result' at hfirst
  obtain ⟨outcome, mid⟩ := result
  obtain ⟨outcome', mid'⟩ := result'
  obtain ⟨hmid, houtcome, hspared, hprinted⟩ := hfirst
  cases houtcome with
  | finished ha =>
    have hrest := hf _ ha mid mid' hmid
    exact ⟨hrest.machines, hrest.outcome, hspared.trans hrest.spared,
      hprinted.trans hrest.printed⟩
  | failed he => exact ⟨hmid, .failed he, hspared, hprinted⟩
  | unfinished => exact ⟨hmid, .unfinished, hspared, hprinted⟩

theorem insulates_lookup (name : String) (position : Position) :
    Insulates b c limit limit' Value.OnTop (Eval.lookup name position)
      (Eval.lookup name position) := by
  intro m m' hm
  rw [Eval.lookup, Eval.lookup, hm.scopes.get name]
  cases hget : m.scopes.get name with
  | some v => exact insulated_stay hm (.finished (hm.scopes.good_of_get hget))
  | none => exact insulated_stay hm (.failed (.same _))

theorem insulates_assign {value : Value} (hvalue : value.OnTop) (name : String)
    (position : Position) :
    Insulates b c limit limit' (fun _ => True) (Eval.assign name value position)
      (Eval.assign name value position) := by
  intro m m' hm
  have hassign := hm.scopes.assign name hvalue
  rw [Eval.assign, Eval.assign]
  generalize m.scopes.assign name value = x, m'.scopes.assign name value = y at hassign
  cases hassign with
  | some hrel => exact ⟨⟨hrel.1, hm.allowance_eq⟩, .finished trivial, hrel.2, [], rfl, rfl⟩
  | none => exact insulated_stay hm (.failed (.same _))

theorem insulates_define {value : Value} (hvalue : value.OnTop) (name : String) :
    Insulates b c limit limit' (fun _ => True) (Eval.define name value)
      (Eval.define name value) :=
  fun _ _ hm => ⟨⟨hm.scopes.set name hvalue, hm.allowance_eq⟩, .finished trivial,
    hm.scopes.spared_set name value, [], rfl, rfl⟩

theorem insulates_print (value : Value) :
    Insulates b c limit limit' (fun _ => True) (Eval.print value) (Eval.print value) :=
  fun m _ hm => ⟨⟨hm.scopes, hm.allowance_eq⟩, .finished trivial, .refl b m.scopes,
    [value.text], rfl, rfl⟩

theorem Insulates.inScope {run run' : Eval α} (h : Insulates b c limit limit' good run run')
    (hwithin : Within .activeScope run) (name : String) :
    Insulates b c limit limit' good (Eval.inScope name run) (Eval.inScope name run') := by
  intro m m' hm
  have hpushed := m.size_opened name
  have hrun := h _ _ (hm.opened name)
  have hsize := (hwithin (m.opened name) (by omega)).scopes.size_eq
  have hle : m.scopes.size ≤ (run (m.opened name)).2.scopes.size := by omega
  refine ⟨⟨hm.scopes.truncate hrun.machines.scopes hle, hrun.machines.allowance_eq⟩,
    hrun.outcome, ?_, hrun.printed⟩
  refine (Scopes.Spared.pushAt hm.scopes.base_le name _).trans (hrun.spared.trans ?_)
  exact .truncate hm.scopes.base_le _

/-- A frame belongs to the base of its caller. -/
theorem Insulates.inFrame {run run' : Eval α} {f : Function} {args : List Value}
    (h : Insulates b c limit limit' good run run') (hwithin : Within .activeScope run)
    (hwithin' : Within .activeScope run') (hf : f.closure.index = 0)
    (hargs : ∀ v ∈ args, v.OnTop) :
    Insulates b c limit limit' good (Eval.inFrame f args run) (Eval.inFrame f args run') := by
  intro m m' hm
  obtain ⟨hentered, hspared⟩ := hm.enter hf hargs
  have hrun := h _ _ hentered
  have hsize := m.size_enter f args
  have hsize' := (hwithin (m.enter f args) (by omega)).scopes.size_eq
  have hframe : Within .nowhere (Eval.inFrame f args run) := .inFrame f args hwithin
  have hframe' : Within .nowhere (Eval.inFrame f args run') := .inFrame f args hwithin'
  have hcalls := (hframe m hm.scopes.size_pos.1).calls_eq
  have hcalls' := (hframe' m' hm.scopes.size_pos.2).calls_eq
  refine ⟨⟨hm.scopes.truncate hrun.machines.scopes (by omega), ?_⟩, hrun.outcome, ?_, hrun.printed⟩
  · rw [hcalls, hcalls']
    exact hm.allowance_eq
  · exact hspared.trans (hrun.spared.trans (.truncate hm.scopes.base_le _))

end Eval

open Eval

/-- A completion whose value is no function, or one of the root scope. -/
def Completion.OnTop (c : Completion) : Prop := c.value.OnTop

/-- The same task leaves machines in step, under both limits. -/
structure Insulating (b c : Nat) (limit limit' : Option Nat) (n : Nat) : Prop where
  eval : ∀ e : Expr, Insulates b c limit limit' Value.OnTop (e.eval limit n) (e.eval limit' n)
  evalAll : ∀ es, Insulates b c limit limit' (∀ v ∈ ·, Value.OnTop v) (Expr.evalAll limit n es)
    (Expr.evalAll limit' n es)
  call : ∀ {f args} position, Value.OnTop f → (∀ v ∈ args, Value.OnTop v) →
    Insulates b c limit limit' Value.OnTop (Value.call limit n f args position)
      (Value.call limit' n f args position)
  exec : ∀ {s : Stmt}, s.FunctionFree →
    Insulates b c limit limit' Completion.OnTop (s.exec limit n) (s.exec limit' n)
  execAll : ∀ {ss}, Stmt.FunctionFreeIn ss →
    Insulates b c limit limit' Completion.OnTop (Stmt.execAll limit n ss)
      (Stmt.execAll limit' n ss)
  rounds : ∀ {body} cond increment, Stmt.FunctionFree body →
    Insulates b c limit limit' Completion.OnTop (Stmt.rounds limit n cond body increment)
      (Stmt.rounds limit' n cond body increment)

namespace Insulating

variable {b c : Nat} {limit limit' : Option Nat} {n : Nat}

theorem onTop_normal : Completion.OnTop .normal := trivial

theorem insulates_andThen {k : Completion} (hk : k.OnTop) {more more' : Eval Completion}
    (h : Insulates b c limit limit' Completion.OnTop more more') :
    Insulates b c limit limit' Completion.OnTop (k.andThen more) (k.andThen more') := by
  cases k with
  | normal => exact h
  | returned v => exact insulates_pure hk

theorem insulates_begin (h : Insulating b c limit limit' n) {init : Option Stmt}
    (hinit : Stmt.FunctionFreeOption init) :
    Insulates b c limit limit' Completion.OnTop (Stmt.begin limit n init)
      (Stmt.begin limit' n init) := by
  cases init with
  | none => exact insulates_pure onTop_normal
  | some init => exact h.exec hinit

theorem insulates_test (h : Insulating b c limit limit' n) (cond : Option Expr) :
    Insulates b c limit limit' (fun _ => True) (Stmt.test limit n cond)
      (Stmt.test limit' n cond) := by
  cases cond with
  | none => exact insulates_pure trivial
  | some e => exact (h.eval e).bind fun _ _ => insulates_pure trivial

theorem insulates_advance (h : Insulating b c limit limit' n) (increment : Option Expr) :
    Insulates b c limit limit' (fun _ => True) (Stmt.advance limit n increment)
      (Stmt.advance limit' n increment) := by
  cases increment with
  | none => exact insulates_pure trivial
  | some e => exact (h.eval e).bind fun _ _ => insulates_pure trivial

theorem insulates_eval (h : Insulating b c limit limit' n) (e : Expr) :
    Insulates b c limit limit' Value.OnTop (e.eval limit (n + 1)) (e.eval limit' (n + 1)) := by
  cases e with
  | number | string | boolean | nil => exact insulates_pure trivial
  | unary k op x =>
    exact (h.eval x).bind fun v _ => insulates_ofExcept _ fun _ => Operator.closed_applyUnary
  | binary k op l r =>
    rw [eval_binary, eval_binary]
    refine (h.eval l).bind fun v hv => ?_
    split
    · exact (h.eval r).bind fun w hw =>
        insulates_ofExcept _ fun _ => Operator.closed_applyBinary hv hw
    · exact insulates_pure hv
  | grouping k x => exact h.eval x
  | name k name => exact insulates_lookup name _
  | assign k name x =>
    exact (h.eval x).bind fun v hv =>
      (insulates_assign hv name _).bind fun _ _ => insulates_pure hv
  | call k f args =>
    exact (h.eval f).bind fun v hv => (h.evalAll args).bind fun vs hvs => h.call _ hv hvs

theorem insulates_evalAll (h : Insulating b c limit limit' n) (es : List Expr) :
    Insulates b c limit limit' (∀ v ∈ ·, Value.OnTop v) (Expr.evalAll limit (n + 1) es)
      (Expr.evalAll limit' (n + 1) es) := by
  cases es with
  | nil => exact insulates_pure nofun
  | cons e es =>
    exact (h.eval e).bind fun v hv => (h.evalAll es).bind fun vs hvs =>
      insulates_pure (List.forall_mem_cons.mpr ⟨hv, hvs⟩)

theorem insulates_call (h : Insulating b c limit limit' n) {callee : Value} {args : List Value}
    (position : Position) (hcallee : callee.OnTop) (hargs : ∀ v ∈ args, v.OnTop) :
    Insulates b c limit limit' Value.OnTop (Value.call limit (n + 1) callee args position)
      (Value.call limit' (n + 1) callee args position) := by
  cases callee with
  | function f =>
    by_cases harity : args.length = f.arity
    · intro m m' hm
      cases hreached : limitReached? limit m.calls with
      | none =>
        have hreached' := limitReached?_of_allowance hm.allowance_eq hreached
        have hbody := (h.execAll (Stmt.functionFreeIn_of_closed _ hcallee.body)).inFrame
          ((disciplined limit n).execAll f.body) ((disciplined limit' n).execAll f.body)
          hcallee.closure_eq hargs
        rw [call_function harity hreached, call_function harity hreached']
        exact (hbody.bind fun k (hk : k.value.OnTop) => insulates_pure hk) m m' hm
      | some depth =>
        cases hreached' : limitReached? limit' m'.calls with
        | none =>
          rw [limitReached?_of_allowance hm.allowance_eq.symm hreached'] at hreached
          cases hreached
        | some depth' =>
          rw [call_limit harity hreached, call_limit harity hreached']
          exact insulated_stay hm (.failed (.limits position (limitReached?_eq_some hreached)
            (limitReached?_eq_some hreached')))
    · rw [call_arity harity, call_arity harity]
      exact insulates_fail _ position
  | _ => exact insulates_fail _ position

theorem insulates_exec (h : Insulating b c limit limit' n) {s : Stmt} (hs : s.FunctionFree) :
    Insulates b c limit limit' Completion.OnTop (s.exec limit (n + 1)) (s.exec limit' (n + 1)) := by
  cases s with
  | expression p e => exact (h.eval e).bind fun _ _ => insulates_pure onTop_normal
  | print p e =>
    exact (h.eval e).bind fun v _ =>
      (insulates_print v).bind fun _ _ => insulates_pure onTop_normal
  | var p name init =>
    exact (h.eval init).bind fun v hv =>
      (insulates_define hv name).bind fun _ _ => insulates_pure onTop_normal
  | block p body =>
    exact (h.execAll hs).inScope ((disciplined limit n).execAll body) "block"
  | ifElse p cond yes no =>
    refine (h.eval cond).bind fun v _ => ?_
    split
    · exact h.exec hs.1
    · cases no with
      | none => exact insulates_pure onTop_normal
      | some no => exact h.exec hs.2
  | whileLoop p cond body => exact h.rounds (some cond) none hs
  | forLoop p init cond increment body =>
    have hloop := (h.insulates_begin hs.1).bind fun k hk =>
      insulates_andThen hk (h.rounds cond increment hs.2)
    rw [exec_forLoop, exec_forLoop]
    exact hloop.inScope ((disciplined limit n).within_loop init cond body increment) "for"
  | function p name params body result => cases hs
  | ret p value =>
    cases value with
    | none => exact insulates_pure trivial
    | some e => exact (h.eval e).bind fun v hv => insulates_pure hv

theorem insulates_execAll (h : Insulating b c limit limit' n) {ss : List Stmt}
    (hss : Stmt.FunctionFreeIn ss) :
    Insulates b c limit limit' Completion.OnTop (Stmt.execAll limit (n + 1) ss)
      (Stmt.execAll limit' (n + 1) ss) := by
  cases ss with
  | nil => exact insulates_pure onTop_normal
  | cons s ss =>
    rw [execAll_cons, execAll_cons]
    exact (h.exec hss.1).bind fun k hk => insulates_andThen hk (h.execAll hss.2)

theorem insulates_rounds (h : Insulating b c limit limit' n) {body : Stmt} (cond : Option Expr)
    (increment : Option Expr) (hbody : body.FunctionFree) :
    Insulates b c limit limit' Completion.OnTop (Stmt.rounds limit (n + 1) cond body increment)
      (Stmt.rounds limit' (n + 1) cond body increment) := by
  rw [rounds_succ, rounds_succ]
  refine (h.insulates_test cond).bind fun go _ => ?_
  cases go with
  | false => exact insulates_pure onTop_normal
  | true =>
    refine (h.exec hbody).bind fun k hk => insulates_andThen hk ?_
    exact (h.insulates_advance increment).bind fun _ _ => h.rounds cond increment hbody

end Insulating

/-- With no budget nothing happens; with one more step, the parts have run before. -/
theorem insulating (b c : Nat) (limit limit' : Option Nat) (n : Nat) :
    Insulating b c limit limit' n := by
  induction n with
  | zero => constructor <;> intros <;> exact insulates_unfinished
  | succ n ih =>
    exact ⟨ih.insulates_eval, ih.insulates_evalAll, ih.insulates_call, ih.insulates_exec,
      ih.insulates_execAll, ih.insulates_rounds⟩

theorem SameOutcome.map {α β : Type} {limit limit' : Option Nat} {good : α → Prop}
    {good' : β → Prop} {x x' : Outcome RuntimeError α} (h : SameOutcome limit limit' good x x')
    {f : α → β}
    (hf : ∀ a, good a → good' (f a)) : SameOutcome limit limit' good' (x.map f) (x'.map f) := by
  cases h with
  | finished ha => exact .finished (hf _ ha)
  | failed he => exact .failed he
  | unfinished => exact .unfinished

/-- Two machines with the same root, as far as their scopes below a call matter to it. -/
structure Machine.SameRoot (limit limit' : Option Nat) (m m' : Machine) : Prop where
  size_pos : 0 < m.scopes.size ∧ 0 < m'.scopes.size
  bindings : ∀ name, m'.scopes.bindingAt 0 name = m.scopes.bindingAt 0 name
  onTop : ∀ name v, m.scopes.bindingAt 0 name = some v → v.OnTop
  allowance_eq : allowance limit m.calls = allowance limit' m'.calls

section

variable {limit limit' : Option Nat} {m m' : Machine} {f : Function} {args : List Value}

/-- The frames of one call in two machines are the bases of what runs in them. -/
theorem Machine.SameRoot.enter (h : m.SameRoot limit limit' m') (hf : f.closure.index = 0)
    (hargs : ∀ v ∈ args, v.OnTop) :
    (m.enter f args).Aligned m.scopes.size m'.scopes.size limit limit' (m'.enter f args) ∧
      Scopes.Spared m.scopes.size m.scopes (m.enter f args).scopes :=
  aligned_enter (Nat.le_refl _)
    (Scopes.aligned_frame h.size_pos.1 h.size_pos.2 h.bindings h.onTop f.name) h.allowance_eq hf
    hargs

/-- A call that passes its checks changes no scope of its caller but the root. In another
machine with the same root, it ends alike, prints the same and leaves the same root. -/
theorem Machine.SameRoot.call (h : m.SameRoot limit limit' m') (hf : Value.OnTop (.function f))
    (hargs : ∀ v ∈ args, v.OnTop) (harity : args.length = f.arity)
    (hreached : limitReached? limit m.calls = none) (n : Nat) (position position' : Position) :
    let result := Value.call limit n (.function f) args position m
    let result' := Value.call limit' n (.function f) args position' m'
    (∀ i, 0 < i → result.2.scopes.records[i]? = m.scopes.records[i]?) ∧
      SameOutcome limit limit' Value.OnTop result.1 result'.1 ∧
      PrintedSame m m' result.2 result'.2 ∧
      ∀ name, result'.2.scopes.bindingAt 0 name = result.2.scopes.bindingAt 0 name := by
  cases n with
  | zero => exact ⟨fun _ _ => rfl, .unfinished, ⟨[], rfl, rfl⟩, h.bindings⟩
  | succ n =>
    have hreached' := limitReached?_of_allowance h.allowance_eq hreached
    obtain ⟨hentered, hspared⟩ := h.enter hf.closure_eq hargs
    have hbody := (insulating m.scopes.size m'.scopes.size limit limit' n).execAll
      (Stmt.functionFreeIn_of_closed _ hf.body) _ _ hentered
    rw [call_function_eq harity hreached, call_function_eq harity hreached']
    refine ⟨fun i hi => ?_, hbody.outcome.map fun _ hk => hk, hbody.printed, fun name => ?_⟩
    · change ((Stmt.execAll limit n f.body (m.enter f args)).2.scopes.truncate _).records[i]? = _
      rw [Scopes.getElem?_truncate, Nat.max_eq_left h.size_pos.1]
      split
      · next hlt => exact (hspared.trans hbody.spared) i hi hlt
      · next hle => exact (Array.getElem?_eq_none (Nat.le_of_not_lt hle)).symm
    · change
        ((Stmt.execAll limit' n f.body (m'.enter f args)).2.scopes.truncate _).bindingAt 0 name =
        ((Stmt.execAll limit n f.body (m.enter f args)).2.scopes.truncate _).bindingAt 0 name
      rw [Scopes.bindingAt_truncate, Scopes.bindingAt_truncate, if_pos (by omega),
        if_pos (by omega)]
      exact hbody.machines.scopes.slots .root name

end

end GradualScript
