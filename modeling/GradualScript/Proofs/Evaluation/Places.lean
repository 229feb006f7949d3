import GradualScript.Proofs.Evaluation.Steps
import GradualScript.Proofs.Scopes.Slots
import GradualScript.Proofs.Tree.Parts
import GradualScript.Proofs.Typing.Described

/-!
# Places of runtime faults

A run evaluates expressions of the program and of the functions that the machine holds.
Their bodies are of the program too, whenever and from wherever they are called. So a fault
stands at an expression of the program that can fail by itself.
-/
namespace GradualScript

/-- The forms of expression that fail for a reason of their own, and not only because a part
of them does. -/
def Expr.CanFail : Expr → Prop
  | .unary .. | .binary .. | .name .. | .assign .. | .call .. => True
  | .number .. | .string .. | .boolean .. | .nil .. | .grouping .. => False

/-- The body of a function is among the parts. -/
def Value.Within (parts : List Part) : Value → Prop
  | .function f => Stmt.partsAll f.body ⊆ parts
  | _ => True

theorem Value.within_of_plain {parts : List Part} {v : Value} (h : v.kind ≠ .function) :
    v.Within parts := by
  cases v with
  | function f => exact absurd rfl h
  | _ => trivial

/-- The bodies of all functions that the machine holds are among the parts. -/
def Machine.Within (parts : List Part) (m : Machine) : Prop :=
  m.scopes.AllBound (Value.Within parts)

theorem Machine.within_fresh (parts : List Part) (rootName : String) (sink : Sink) :
    (Machine.fresh rootName sink).Within parts := Scopes.allBound_new rootName

/-- The position is that of an expression among the parts that can fail by itself. -/
def PlacedIn (parts : List Part) (position : Position) : Prop :=
  ∃ e, .expression e ∈ parts ∧ e.CanFail ∧ e.position = position

theorem Machine.Within.enter {parts : List Part} {m : Machine} (hm : m.Within parts) (f : Function)
    {args : List Value} (hargs : ∀ v ∈ args, v.Within parts) : (m.enter f args).Within parts :=
  Scopes.AllBound.foldl_set (hm.pushUnder f.name f.closure) fun entry hentry =>
    hargs entry.2 (List.of_mem_zip hentry).2

namespace Eval

variable {α β : Type} {parts : List Part}

/-- What a run of the parts leaves: functions of the parts only, a good value if it finished,
and a place among the parts if it failed. -/
structure Anchored (parts : List Part) (good : α → Prop)
    (result : Outcome RuntimeError α × Machine) :
    Prop where
  machine : result.2.Within parts
  value : ∀ a, result.1 = .finished a → good a
  place : ∀ e, result.1 = .failed e → PlacedIn parts e.position

/-- From every machine with functions of the parts, a run leaves only such, and fails in the
parts. -/
def Anchors (parts : List Part) (good : α → Prop) (run : Eval α) : Prop :=
  ∀ m, m.Within parts → Anchored parts good (run m)

variable {good : α → Prop} {good' : β → Prop} {run : Eval α}

/-- What the first part makes good, the second may rely on. -/
theorem Anchors.bind {f : α → Eval β} (h : Anchors parts good run)
    (hf : ∀ a, good a → Anchors parts good' (f a)) : Anchors parts good' (run >>= f) := by
  intro m hm
  have hresult := h m hm
  rcases bind_outcome run f m with
    ⟨a, mid, hrun, hbind⟩ | ⟨e, mid, hrun, hbind⟩ | ⟨mid, hrun, hbind⟩
  · rw [hrun] at hresult
    rw [hbind]
    exact hf a (hresult.value a rfl) mid hresult.machine
  · rw [hrun] at hresult
    rw [hbind]
    refine ⟨hresult.machine, nofun, fun fault hfault => ?_⟩
    cases hfault
    exact hresult.place e rfl
  · rw [hrun] at hresult
    rw [hbind]
    exact ⟨hresult.machine, nofun, nofun⟩

theorem anchors_pure {a : α} (ha : good a) : Anchors parts good (pure a) := by
  intro m hm
  refine ⟨hm, ?_, nofun⟩
  rintro _ ⟨rfl⟩
  exact ha

theorem anchors_unfinished : Anchors parts good (Eval.unfinished : Eval α) :=
  fun _ hm => ⟨hm, nofun, nofun⟩

theorem anchors_fail {fault : RuntimeFault} {position : Position} (h : PlacedIn parts position) :
    Anchors parts good (Eval.fail fault position) := by
  intro m hm
  refine ⟨hm, nofun, ?_⟩
  rintro _ ⟨rfl⟩
  exact h

theorem anchors_ofExcept {result : Except RuntimeFault α} {position : Position}
    (h : PlacedIn parts position) (hgood : ∀ a, result = .ok a → good a) :
    Anchors parts good (Eval.ofExcept position result) := by
  cases result with
  | ok a => exact anchors_pure (hgood a rfl)
  | error fault => exact anchors_fail h

theorem anchors_lookup {name : String} {position : Position} (h : PlacedIn parts position) :
    Anchors parts (Value.Within parts) (Eval.lookup name position) := by
  intro m hm
  unfold Eval.lookup
  split
  · next v hv => exact anchors_pure (hm.get hv) m hm
  · exact anchors_fail h m hm

theorem anchors_assign {name : String} {value : Value} {position : Position}
    (h : PlacedIn parts position) (hvalue : value.Within parts) :
    Anchors parts (fun _ => True) (Eval.assign name value position) := by
  intro m hm
  unfold Eval.assign
  split
  · next hassign => exact ⟨hm.assign hvalue hassign, fun _ _ => trivial, nofun⟩
  · exact anchors_fail h m hm

theorem anchors_define (name : String) {value : Value} (hvalue : value.Within parts) :
    Anchors parts (fun _ => True) (Eval.define name value) :=
  fun _ hm => ⟨hm.set name hvalue, fun _ _ => trivial, nofun⟩

theorem anchors_print (value : Value) : Anchors parts (fun _ => True) (Eval.print value) :=
  fun _ hm => ⟨hm, fun _ _ => trivial, nofun⟩

theorem anchors_declare (name : String) (params : List String) {body : List Stmt}
    (hbody : Stmt.partsAll body ⊆ parts) :
    Anchors parts (fun _ => True) (Eval.declare name params body) :=
  fun _ hm => ⟨hm.set name hbody, fun _ _ => trivial, nofun⟩

theorem Anchors.inScope (name : String) (h : Anchors parts good run) :
    Anchors parts good (Eval.inScope name run) := by
  intro m hm
  have hrun := h (m.opened name) (hm.push name)
  exact ⟨hrun.machine.truncate _, hrun.value, hrun.place⟩

/-- A frame may hang under any scope: what it binds are the arguments. -/
theorem Anchors.inFrame (f : Function) {args : List Value} (hargs : ∀ v ∈ args, v.Within parts)
    (h : Anchors parts good run) : Anchors parts good (Eval.inFrame f args run) := by
  intro m hm
  have hrun := h (m.enter f args) (hm.enter f hargs)
  exact ⟨hrun.machine.truncate _, hrun.value, hrun.place⟩

end Eval

open Eval

/-- Runs with one budget are anchored in the parts that they run. -/
structure Anchoring (parts : List Part) (limit : Option Nat) (n : Nat) : Prop where
  eval : ∀ {e : Expr}, e.parts ⊆ parts → Anchors parts (Value.Within parts) (e.eval limit n)
  evalAll : ∀ {es}, Expr.partsAll es ⊆ parts →
    Anchors parts (∀ v ∈ ·, Value.Within parts v) (Expr.evalAll limit n es)
  call : ∀ {f args position}, PlacedIn parts position → Value.Within parts f →
    (∀ v ∈ args, Value.Within parts v) →
    Anchors parts (Value.Within parts) (Value.call limit n f args position)
  exec : ∀ {s : Stmt}, s.parts ⊆ parts →
    Anchors parts (fun c => c.value.Within parts) (s.exec limit n)
  execAll : ∀ {ss}, Stmt.partsAll ss ⊆ parts →
    Anchors parts (fun c => c.value.Within parts) (Stmt.execAll limit n ss)
  rounds : ∀ {cond} {body : Stmt} {increment}, Expr.partsOption cond ⊆ parts → body.parts ⊆ parts →
    Expr.partsOption increment ⊆ parts →
    Anchors parts (fun c => c.value.Within parts) (Stmt.rounds limit n cond body increment)

namespace Anchoring

variable {parts : List Part} {limit : Option Nat} {n : Nat}

theorem anchors_normal :
    Anchors parts (fun c => c.value.Within parts) (pure Completion.normal) :=
  anchors_pure trivial

theorem anchors_andThen {c : Completion} {more : Eval Completion} (hc : c.value.Within parts)
    (hmore : Anchors parts (fun c => c.value.Within parts) more) :
    Anchors parts (fun c => c.value.Within parts) (c.andThen more) := by
  cases c with
  | normal => exact hmore
  | returned v => exact anchors_pure hc

theorem placedIn_self {e : Expr} (he : e.parts ⊆ parts) (hfails : e.CanFail) :
    PlacedIn parts e.position :=
  ⟨e, he e.self_mem_parts, hfails, rfl⟩

theorem anchors_eval (h : Anchoring parts limit n) {e : Expr} (he : e.parts ⊆ parts) :
    Anchors parts (Value.Within parts) (e.eval limit (n + 1)) := by
  have hself := placedIn_self he
  rw [e.parts_eq, List.append_subset] at he
  obtain ⟨hinner, -⟩ := he
  cases e with
  | number | string | boolean | nil => exact anchors_pure trivial
  | unary m op operand =>
    exact (h.eval hinner).bind fun v _ =>
      anchors_ofExcept (hself trivial) fun _ hok => Value.within_of_plain (Operator.applyUnary_plain hok)
  | binary m op left right =>
    obtain ⟨hleft, hright⟩ := List.append_subset.mp hinner
    refine (h.eval hleft).bind fun l hl => ?_
    split
    · split
      · exact h.eval hright
      · exact anchors_pure hl
    · split
      · exact anchors_pure hl
      · exact h.eval hright
    · next hand hor =>
      exact (h.eval hright).bind fun r _ => anchors_ofExcept (hself trivial) fun _ hok =>
        Value.within_of_plain (Operator.applyBinary_plain hand hor hok)
  | grouping m inner => exact h.eval hinner
  | name m name => exact anchors_lookup (hself trivial)
  | assign m name value =>
    exact (h.eval hinner).bind fun v hv =>
      (anchors_assign (hself trivial) hv).bind fun _ _ => anchors_pure hv
  | call m callee args =>
    obtain ⟨hcallee, hargs⟩ := List.append_subset.mp hinner
    exact (h.eval hcallee).bind fun f hf => (h.evalAll hargs).bind fun vs hvs =>
      h.call (hself trivial) hf hvs

theorem anchors_evalAll (h : Anchoring parts limit n) {es : List Expr}
    (hes : Expr.partsAll es ⊆ parts) :
    Anchors parts (∀ v ∈ ·, Value.Within parts v) (Expr.evalAll limit (n + 1) es) := by
  cases es with
  | nil => exact anchors_pure nofun
  | cons e es =>
    obtain ⟨he, hes⟩ := List.append_subset.mp hes
    exact (h.eval he).bind fun v hv => (h.evalAll hes).bind fun vs hvs =>
      anchors_pure (List.forall_mem_cons.mpr ⟨hv, hvs⟩)

/-- The body of a function is among the parts, since the function was made there. -/
theorem anchors_call (h : Anchoring parts limit n) {callee : Value} {args : List Value}
    {position : Position} (hposition : PlacedIn parts position) (hcallee : callee.Within parts)
    (hargs : ∀ v ∈ args, v.Within parts) :
    Anchors parts (Value.Within parts) (Value.call limit (n + 1) callee args position) := by
  cases callee with
  | function f =>
    by_cases harity : args.length = f.arity
    · intro m hm
      cases hlimit : limitReached? limit m.calls with
      | none =>
        have hbody := (h.execAll hcallee).inFrame f hargs
        rw [call_function harity hlimit]
        exact (hbody.bind fun c (hc : c.value.Within parts) => anchors_pure hc) m hm
      | some depth =>
        rw [call_limit harity hlimit]
        exact anchors_fail hposition m hm
    · rw [call_arity harity]
      exact anchors_fail hposition
  | _ => exact anchors_fail hposition

/-- A statement fails at one of its own parts or in a function that it calls. -/
theorem anchors_exec (h : Anchoring parts limit n) {s : Stmt} (hs : s.parts ⊆ parts) :
    Anchors parts (fun c => c.value.Within parts) (s.exec limit (n + 1)) := by
  cases s with
  | expression p e =>
    obtain ⟨he, -⟩ := List.append_subset.mp hs
    exact (h.eval he).bind fun _ _ => anchors_normal
  | print p e =>
    obtain ⟨he, -⟩ := List.append_subset.mp hs
    exact (h.eval he).bind fun v _ => (anchors_print v).bind fun _ _ => anchors_normal
  | var p name init =>
    obtain ⟨hinit, -⟩ := List.append_subset.mp hs
    exact (h.eval hinit).bind fun v hv => (anchors_define name hv).bind fun _ _ => anchors_normal
  | block p body =>
    obtain ⟨hbody, -⟩ := List.append_subset.mp hs
    exact (h.execAll hbody).inScope "block"
  | ifElse p cond yes no =>
    obtain ⟨hparts, -⟩ := List.append_subset.mp hs
    obtain ⟨hparts, hno⟩ := List.append_subset.mp hparts
    obtain ⟨hcond, hyes⟩ := List.append_subset.mp hparts
    refine (h.eval hcond).bind fun c _ => ?_
    split
    · exact h.exec hyes
    · cases no with
      | none => exact anchors_normal
      | some no => exact h.exec hno
  | whileLoop p cond body =>
    obtain ⟨hparts, -⟩ := List.append_subset.mp hs
    obtain ⟨hcond, hbody⟩ := List.append_subset.mp hparts
    exact h.rounds hcond hbody (List.nil_subset _)
  | forLoop p init cond increment body =>
    obtain ⟨hparts, -⟩ := List.append_subset.mp hs
    obtain ⟨hparts, hincrement⟩ := List.append_subset.mp hparts
    obtain ⟨hparts, hbody⟩ := List.append_subset.mp hparts
    obtain ⟨hinit, hcond⟩ := List.append_subset.mp hparts
    have hbegin : Anchors parts (fun c => c.value.Within parts) (Stmt.begin limit n init) := by
      cases init with
      | none => exact anchors_normal
      | some init => exact h.exec hinit
    rw [exec_forLoop]
    exact (hbegin.bind fun c hc =>
      anchors_andThen hc (h.rounds hcond hbody hincrement)).inScope "for"
  | function p name params body result =>
    obtain ⟨hbody, -⟩ := List.append_subset.mp hs
    exact (anchors_declare name params hbody).bind fun _ _ => anchors_normal
  | ret p value =>
    cases value with
    | none => exact anchors_pure trivial
    | some e =>
      obtain ⟨he, -⟩ := List.append_subset.mp hs
      exact (h.eval he).bind fun v hv => anchors_pure hv

theorem anchors_execAll (h : Anchoring parts limit n) {ss : List Stmt}
    (hss : Stmt.partsAll ss ⊆ parts) :
    Anchors parts (fun c => c.value.Within parts) (Stmt.execAll limit (n + 1) ss) := by
  cases ss with
  | nil => exact anchors_normal
  | cons s ss =>
    obtain ⟨hs, hss⟩ := List.append_subset.mp hss
    rw [execAll_cons]
    exact (h.exec hs).bind fun c hc => anchors_andThen hc (h.execAll hss)

theorem anchors_rounds (h : Anchoring parts limit n) {cond : Option Expr} {body : Stmt}
    {increment : Option Expr} (hcond : Expr.partsOption cond ⊆ parts) (hbody : body.parts ⊆ parts)
    (hincrement : Expr.partsOption increment ⊆ parts) :
    Anchors parts (fun c => c.value.Within parts)
      (Stmt.rounds limit (n + 1) cond body increment) := by
  have htest : Anchors parts (fun _ => True) (Stmt.test limit n cond) := by
    cases cond with
    | none => exact anchors_pure trivial
    | some c => exact (h.eval hcond).bind fun v _ => anchors_pure trivial
  have hadvance : Anchors parts (fun _ => True) (Stmt.advance limit n increment) := by
    cases increment with
    | none => exact anchors_pure trivial
    | some e => exact (h.eval hincrement).bind fun _ _ => anchors_pure trivial
  rw [rounds_succ]
  refine htest.bind fun go _ => ?_
  cases go with
  | false => exact anchors_normal
  | true =>
    refine (h.exec hbody).bind fun c hc => anchors_andThen hc ?_
    exact hadvance.bind fun _ _ => h.rounds hcond hbody hincrement

end Anchoring

/-- With no budget nothing happens; with one more step, the parts have run before. -/
theorem anchoring (parts : List Part) (limit : Option Nat) (n : Nat) : Anchoring parts limit n := by
  induction n with
  | zero => constructor <;> intros <;> exact anchors_unfinished
  | succ n ih =>
    exact ⟨ih.anchors_eval, ih.anchors_evalAll, ih.anchors_call, ih.anchors_exec, ih.anchors_execAll,
      ih.anchors_rounds⟩

/-- A program that fails does so at an expression of its own, in a function that it called
or outside of all. -/
theorem Program.placedIn_of_execute {p : Program} {limit : Option Nat} {n : Nat} {m m' : Machine}
    {e : RuntimeError} (hm : m.Within (Stmt.partsAll p))
    (h : p.execute limit n m = (.failed e, m')) : PlacedIn (Stmt.partsAll p) e.position := by
  have hrun : Anchors (Stmt.partsAll p) (fun _ => True) (p.execute limit n) :=
    ((anchoring (Stmt.partsAll p) limit n).execAll (List.Subset.refl _)).bind fun _ _ =>
      anchors_pure trivial
  exact (hrun m hm).place e (congrArg Prod.fst h)

end GradualScript
