import GradualScript.Proofs.Evaluation.Insulation
import GradualScript.Proofs.Evaluation.Runs
import GradualScript.Proofs.Session.Names

/-!
# Calls are insulated

In a session whose inputs declare functions at their top level only, every function value
belongs to the root scope, wherever it gets to. So a call reads and writes the root and its
own scopes: the scopes of its caller are as they were, and they have no part in its result.
-/
namespace GradualScript

open Eval

/-- The task declares no function, and calls functions of the root scope only. -/
def Task.OnTop : Task → Prop
  | .eval _ | .evalAll _ => True
  | .call callee args _ => callee.OnTop ∧ ∀ v ∈ args, v.OnTop
  | .exec s => s.FunctionFree
  | .execAll ss => Stmt.FunctionFreeIn ss
  | .rounds _ body _ => body.FunctionFree

/-- All functions belong to the root scope, those of the task and those of the machine. -/
structure Run.OnTop (limit : Option Nat) (r : Run) : Prop where
  task : r.task.OnTop
  machine : r.machine.Aligned 1 1 limit limit r.machine

section

variable {limit : Option Nat}

theorem Eval.Insulates.finished {α : Type} {good : α → Prop} {run : Eval α} {m mid : Machine}
    {a : α} (h : Insulates 1 1 limit limit good run run) (hm : m.Aligned 1 1 limit limit m)
    (hrun : run m = (.finished a, mid)) : good a ∧ mid.Aligned 1 1 limit limit mid := by
  have hresult := h m m hm
  rw [hrun] at hresult
  have houtcome := hresult.outcome
  cases houtcome with
  | finished ha => exact ⟨ha, hresult.machines⟩

theorem Run.Starts.onTop {r r' : Run} (hs : Run.Starts limit r r') (h : r.OnTop limit) :
    r'.OnTop limit := by
  obtain ⟨htask, hm⟩ := h
  have hruns := fun n => insulating 1 1 limit limit n
  cases hs with
  | operand | left | inner | assigned | callee | firstArgument | expression | print | init | cond
  | returned | test => exact ⟨trivial, hm⟩
  | right hl | arguments hl | moreArguments hl =>
    exact ⟨trivial, (((hruns _).eval _).finished hm hl).2⟩
  | call hf hargs =>
    obtain ⟨hcallee, hmid⟩ := ((hruns _).eval _).finished hm hf
    obtain ⟨hvalues, hlast⟩ := ((hruns _).evalAll _).finished hmid hargs
    exact ⟨⟨hcallee, hvalues⟩, hlast⟩
  | body =>
    have hf := htask.1
    exact ⟨Stmt.functionFreeIn_of_closed _ hf.body, (hm.enter hf.closure_eq htask.2).1⟩
  | block => exact ⟨htask, hm.opened "block"⟩
  | yes hc => exact ⟨htask.1, (((hruns _).eval _).finished hm hc).2⟩
  | no hc => exact ⟨htask.2, (((hruns _).eval _).finished hm hc).2⟩
  | whileLoop => exact ⟨htask, hm⟩
  | begin => exact ⟨htask.1, hm.opened "for"⟩
  | forLoop hbegin =>
    exact ⟨htask.2, (((hruns _).insulates_begin htask.1).finished (hm.opened "for") hbegin).2⟩
  | first => exact ⟨htask.1, hm⟩
  | rest hfirst => exact ⟨htask.2, (((hruns _).exec htask.1).finished hm hfirst).2⟩
  | round htest => exact ⟨htask, (((hruns _).insulates_test _).finished hm htest).2⟩
  | advance htest hbody =>
    have hmid := (((hruns _).insulates_test _).finished hm htest).2
    exact ⟨trivial, (((hruns _).exec htask).finished hmid hbody).2⟩
  | again htest hbody hadvance =>
    have hmid := (((hruns _).insulates_test _).finished hm htest).2
    have hmid' := (((hruns _).exec htask).finished hmid hbody).2
    exact ⟨htask, (((hruns _).insulates_advance _).finished hmid' hadvance).2⟩

end

namespace Session

/-- Running the input gets to the run. -/
def Meets (budget : Nat) (session : Session) (source : String) (r : Run) : Prop :=
  ∃ done s rest mid, readProgram source = .ok (done ++ s :: rest) ∧
    (Program.check (done ++ s :: rest) session.types).verdict = .ok () ∧
    Completes session.limit budget session.machine done mid ∧
    Run.Reaches session.limit ⟨budget, .exec s, mid⟩ r

theorem limit_run (budget : Nat) (session : Session) (source : String) :
    (session.run budget source).2.limit = session.limit := by
  rcases session.run_ends budget source with
    ⟨e, -, hrun⟩ | ⟨p, last, -, -, -, hrun⟩ | ⟨done, s, mid, -, hlater, -⟩
  · rw [hrun]
  · rw [hrun]
  · rw [hlater]

theorem limit_after (session : Session) (inputs : List (Nat × String)) :
    (session.after inputs).limit = session.limit :=
  after_induction (P := fun later => later.limit = session.limit) (Q := fun _ => True) rfl
    (fun _ _ => trivial) fun later budget source h _ => (later.limit_run budget source).trans h

/-- Every call that an input makes is one of a function of the root scope. -/
theorem onTop_of_meets {session : Session} {budget : Nat} {source : String} {r : Run}
    (hbound : Bound session.types session.machine) (htop : FunctionsOnTop source)
    (hmeets : session.Meets budget source r) {callee : Value} {args : List Value}
    {position : Position} (hcall : r.task = .call callee args position) :
    r.OnTop session.limit := by
  obtain ⟨done, s, rest, mid, hread, hcheck, hdone, hreaches⟩ := hmeets
  have htops := htop _ hread
  have hplaced := Stmt.placedIn_iff.mp (placedIn_of_readProgram hread)
  rw [List.forall_mem_append, List.forall_mem_cons] at htops hplaced
  have hmid := hbound.completes hdone (Stmt.placedIn_iff.mpr hplaced.1) htops.1
    (Program.check_ok_of_append hcheck)
  have hvalues : mid.scopes.AllBound Value.OnTop :=
    hmid.closed.values.mono fun v hv => Value.Closed.mono hv fun _ _ => trivial
  by_cases hfree : s.FunctionFree
  · exact hreaches.invariant (P := Run.OnTop session.limit) (fun hr hs => hs.onTop hr)
      ⟨hfree, Scopes.aligned_root hmid.scopes_size hvalues, rfl⟩
  · -- What is not free of functions is the declaration of one, which starts no run.
    cases hreaches with
    | refl => cases hcall
    | step hstarts _ =>
      cases hstarts <;> exact absurd htops.2.1 hfree

/-- A call in a session whose inputs declare functions at top level only, past its checks.
No scope of the caller but the root is changed by it, however it ends. In any other machine
with the same bindings in its root and as many calls left, the same call ends in the same
way, prints the same and leaves the same bindings in the root; under another limit, an error
about too many nested calls names that limit. -/
theorem call_insulated (sink : Sink) (limit : Option Nat) (history : List (Nat × String))
    (budget : Nat) (source : String) (hhistory : ∀ input ∈ history, FunctionsOnTop input.2)
    (hsource : FunctionsOnTop source) {n : Nat} {f : Function} {args : List Value}
    {position : Position} {m : Machine}
    (hmeets : ((fresh sink limit).after history).Meets budget source
      ⟨n, .call (.function f) args position, m⟩)
    (harity : args.length = f.arity) (hreached : limitReached? limit m.calls = none) :
    (∀ i, 0 < i → (Value.call limit n (.function f) args position m).2.scopes.records[i]? =
      m.scopes.records[i]?) ∧
    ∀ (limit' : Option Nat) (m' : Machine) (position' : Position), 0 < m'.scopes.size →
      (∀ name, m'.scopes.bindingAt 0 name = m.scopes.bindingAt 0 name) →
      allowance limit m.calls = allowance limit' m'.calls →
      let result := Value.call limit n (.function f) args position m
      let result' := Value.call limit' n (.function f) args position' m'
      (limit' = limit → result'.1 = result.1) ∧
        SameOutcome limit limit' Value.OnTop result.1 result'.1 ∧
        PrintedSame m m' result.2 result'.2 ∧
        ∀ name, result'.2.scopes.bindingAt 0 name = result.2.scopes.bindingAt 0 name := by
  have hontop := onTop_of_meets (bound_after sink limit hhistory) hsource hmeets rfl
  rw [limit_after] at hontop
  obtain ⟨⟨hf, hargs⟩, hm⟩ := hontop
  have hsame {limit' : Option Nat} {m' : Machine} (hsize : 0 < m'.scopes.size)
      (hroot : ∀ name, m'.scopes.bindingAt 0 name = m.scopes.bindingAt 0 name)
      (hallowance : allowance limit m.calls = allowance limit' m'.calls) :
      m.SameRoot limit limit' m' :=
    ⟨⟨hm.scopes.size_pos.1, hsize⟩, hroot, hm.scopes.good .root, hallowance⟩
  constructor
  · exact ((hsame hm.scopes.size_pos.1 (fun _ => rfl) rfl).call hf hargs harity hreached n position
      position).1
  · intro limit' m' position' hsize hroot hallowance
    obtain ⟨-, houtcome, hprinted, hbindings⟩ :=
      (hsame hsize hroot hallowance).call hf hargs harity hreached n position position'
    refine ⟨?_, houtcome, hprinted, hbindings⟩
    rintro rfl
    exact houtcome.eq.symm

end Session

/-- The call stands in a scope that has a variable of the name that the function uses. -/
def shadowingInput : String := "\x7b var g = true; print f(g); \x7d"

def shadowingTree : Program :=
  [.block ⟨1, 1⟩ [.var ⟨1, 3⟩ "g" (.boolean (.unchecked ⟨1, 11⟩) true),
    .print ⟨1, 17⟩ (.call (.unchecked ⟨1, 23⟩) (.name (.unchecked ⟨1, 23⟩) "f")
      [.name (.unchecked ⟨1, 25⟩) "g"])]]

theorem readProgram_shadowingInput : readProgram shadowingInput = .ok shadowingTree := by cbv

theorem functionsOnTop_shadowingInput : FunctionsOnTop shadowingInput := by
  refine forall_of_read readProgram_shadowingInput ?_
  simp [shadowingTree, Stmt.FunctionsOnTop, Stmt.FunctionFree, Stmt.FunctionFreeIn]

/-- The function of `declaringInput`. -/
def globalReader : Function :=
  ⟨0, "f", ["n"], [.ret ⟨1, 19⟩ (some (.name (.unchecked ⟨1, 26⟩) "g"))], ⟨0, 0⟩⟩

/-- The machine that `declaringInput` leaves. -/
def declaringMachine : Machine :=
  ⟨⟨#[⟨globalScope, none, 0, ⟨[("g", .nil), ("f", .function globalReader)]⟩⟩], 1⟩, .silent, 0, 1⟩

/-- The machine in which `shadowingInput` calls the function. -/
def shadowingMachine : Machine :=
  let m := declaringMachine.opened "block"
  { m with scopes := m.scopes.set "g" (.boolean true) }

theorem meets_shadowingInput :
    ((Session.fresh .silent none).after [(9, declaringInput)]).Meets 9 shadowingInput
      ⟨4, .call (.function globalReader) [.boolean true] ⟨1, 23⟩, shadowingMachine⟩ := by
  have hmachine : ((Session.fresh .silent none).after [(9, declaringInput)]).machine =
      declaringMachine := by cbv
  have hvar : Stmt.exec none 7 (.var ⟨1, 3⟩ "g" (.boolean (.unchecked ⟨1, 11⟩) true))
      (declaringMachine.opened "block") = (.finished .normal, shadowingMachine) := by cbv
  have hcallee : Expr.eval none 4 (.name (.unchecked ⟨1, 23⟩) "f") shadowingMachine =
      (.finished (.function globalReader), shadowingMachine) := by cbv
  have harguments : Expr.evalAll none 4 [.name (.unchecked ⟨1, 25⟩) "g"] shadowingMachine =
      (.finished [.boolean true], shadowingMachine) := by cbv
  refine ⟨[], shadowingTree.head (by decide), [], declaringMachine, readProgram_shadowingInput,
    by cbv, hmachine ▸ .nil _, ?_⟩
  rw [Session.limit_after]
  have hcall : Run.Reaches none
      ⟨5, .eval (.call (.unchecked ⟨1, 23⟩) (.name (.unchecked ⟨1, 23⟩) "f")
        [.name (.unchecked ⟨1, 25⟩) "g"]), shadowingMachine⟩
      ⟨4, .call (.function globalReader) [.boolean true] ⟨1, 23⟩, shadowingMachine⟩ :=
    .step (.call hcallee harguments) (.refl _)
  exact .step .block (.step (.rest hvar) (.step .first (.step .print hcall)))

/-- The call gives what it gives in a machine without the scope: the value of the global. -/
theorem Session.call_insulated_shadowing :
    (∀ input ∈ [(9, declaringInput)], FunctionsOnTop input.2) ∧ FunctionsOnTop shadowingInput ∧
      ((Session.fresh .silent none).after [(9, declaringInput)]).Meets 9 shadowingInput
        ⟨4, .call (.function globalReader) [.boolean true] ⟨1, 23⟩, shadowingMachine⟩ ∧
      (Value.call none 4 (.function globalReader) [.boolean true] ⟨1, 23⟩ shadowingMachine).1 =
        .finished .nil := by
  have hhistory : ∀ input ∈ [(9, declaringInput)], FunctionsOnTop input.2 :=
    List.forall_mem_singleton.mpr functionsOnTop_declaringInput
  refine ⟨hhistory, functionsOnTop_shadowingInput, meets_shadowingInput, ?_⟩
  obtain ⟨-, hsame⟩ := Session.call_insulated .silent none [(9, declaringInput)] 9 shadowingInput
    hhistory functionsOnTop_shadowingInput meets_shadowingInput rfl rfl
  have hroot : ∀ name, declaringMachine.scopes.bindingAt 0 name =
      shadowingMachine.scopes.bindingAt 0 name := fun _ => rfl
  obtain ⟨hresult, -⟩ := hsame none declaringMachine ⟨1, 23⟩ (by decide) hroot rfl
  rw [← hresult rfl]
  cbv

end GradualScript
