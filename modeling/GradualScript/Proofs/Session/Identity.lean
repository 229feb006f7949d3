import GradualScript.Proofs.Evaluation.Identity
import GradualScript.Proofs.Session.Calls

/-!
# Identity of functions in sessions

A session runs the statements of its inputs one after the other, on one machine. So the
functions made by all its inputs account for what it holds, and they are told apart as
those of a single run are.
-/
namespace GradualScript

namespace Session

/-- The runs of statements that have been checked together, in order. -/
def statementRuns (budget : Nat) (session : Session) : List Stmt → List Run
  | [] => []
  | s :: ss =>
      ⟨budget, .exec s, session.machine⟩ ::
        match s.exec session.limit budget session.machine with
        | (.finished completion, machine) =>
            let checked := Program.check [s] session.types
            match checked.verdict, completion with
            | .ok (), .normal => statementRuns budget ⟨checked.env, machine, session.limit⟩ ss
            | _, _ => []
        | _ => []

/-- The runs of the statements of an input. -/
def inputRuns (budget : Nat) (session : Session) (source : String) : List Run :=
  match readProgram source with
  | .error _ => []
  | .ok program =>
      match (program.check session.types).verdict with
      | .error _ => []
      | .ok () => statementRuns budget session program

/-- The runs of all statements of some inputs, each with its budget. -/
def history (session : Session) : List (Nat × String) → List Run
  | [] => []
  | (budget, source) :: inputs =>
      session.inputRuns budget source ++ history (session.run budget source).2 inputs

/-- The functions made before a session and by some runs account for these runs and for
what the session becomes. -/
structure Becomes (made : List Function) (session later : Session) (rs : List Run) : Prop where
  limit_eq : later.limit = session.limit
  accounts : Accounts session.limit made (Run.traces session.limit rs)
  machine : later.machine.Accounted (made ++ madeIn session.limit (Run.traces session.limit rs))

variable {made : List Function} {session mid later : Session} {rs more : List Run}

theorem becomes_self (h : session.machine.Accounted made) : Becomes made session session [] := by
  refine ⟨rfl, .nil made, ?_⟩
  rw [Run.traces_nil, madeIn_nil, List.append_nil]
  exact h

theorem Becomes.trans (h : Becomes made session mid rs)
    (h' : Becomes (made ++ madeIn session.limit (Run.traces session.limit rs)) mid later more) :
    Becomes made session later (rs ++ more) := by
  refine ⟨h'.limit_eq.trans h.limit_eq, ?_, ?_⟩
  · rw [Run.traces_append]
    exact h.accounts.append (h.limit_eq ▸ h'.accounts)
  · rw [Run.traces_append, madeIn_append, ← List.append_assoc]
    exact h.limit_eq ▸ h'.machine

theorem becomes_exec (h : session.machine.Accounted made) {budget : Nat} {s : Stmt}
    {outcome : Outcome RuntimeError Completion} {last : Machine} (types : TypeEnv)
    (hexec : s.exec session.limit budget session.machine = (outcome, last)) :
    Becomes made session ⟨types, last, session.limit⟩ [⟨budget, .exec s, session.machine⟩] := by
  have hrun := (accounting session.limit budget).exec s h
  rw [hexec] at hrun
  exact ⟨rfl, hrun.accounts, hrun.machine⟩

theorem becomes_runAll (h : session.machine.Accounted made) (budget : Nat) (ss : List Stmt) :
    Becomes made session (session.runAll budget ss).2 (session.statementRuns budget ss) := by
  induction ss generalizing session made with
  | nil => exact becomes_self h
  | cons s ss ih =>
    rw [runAll, statementRuns]
    cases hexec : s.exec session.limit budget session.machine with
    | mk outcome mid =>
      have hs := becomes_exec h session.types hexec
      cases outcome with
      | failed | unfinished => exact hs
      | finished c =>
        have hcommitted := becomes_exec h (Program.check [s] session.types).env hexec
        cases hcheck : (Program.check [s] session.types).verdict with
        | error e =>
          simp only [hcheck]
          exact hcommitted
        | ok passed =>
          cases c with
          | returned v =>
            simp only [hcheck]
            exact hcommitted
          | normal =>
            simp only [hcheck]
            exact hcommitted.trans (ih hcommitted.machine)

theorem becomes_run (h : session.machine.Accounted made) (budget : Nat) (source : String) :
    Becomes made session (session.run budget source).2 (session.inputRuns budget source) := by
  rw [run, inputRuns]
  cases readProgram source with
  | error e => exact becomes_self h
  | ok program =>
    cases hcheck : (program.check session.types).verdict with
    | error e =>
      simp only [hcheck]
      exact becomes_self h
    | ok passed =>
      simp only [hcheck]
      exact becomes_runAll h budget program

theorem becomes_after (h : session.machine.Accounted made) (inputs : List (Nat × String)) :
    Becomes made session (session.after inputs) (session.history inputs) := by
  induction inputs generalizing session made with
  | nil => exact becomes_self h
  | cons input inputs ih =>
    have hrun := becomes_run h input.1 input.2
    exact hrun.trans (ih hrun.machine)

end Session

/-- In every run from a fresh machine, functions are equal exactly when one execution of a
declaration made them: in a run of a program, and in a session with any number of inputs.
What the session holds in the end was made on the way. -/
theorem functions_identified :
    (∀ (limit : Option Nat) (budget : Nat) (p : Program) (rootName : String) (sink : Sink),
      Identifies limit (Run.trace limit ⟨budget, .execAll p, .fresh rootName sink⟩)) ∧
    ∀ (limit : Option Nat) (sink : Sink) (inputs : List (Nat × String)),
      Identifies limit (Run.traces limit ((Session.fresh sink limit).history inputs)) ∧
      ∀ f, ((Session.fresh sink limit).after inputs).machine.Holds f →
        ∃ i, MadeAt limit (Run.traces limit ((Session.fresh sink limit).history inputs)) i f := by
  refine ⟨fun limit budget p rootName sink => ?_, fun limit sink inputs => ?_⟩
  · have hrun := (accounting limit budget).execAll p (Machine.accounted_fresh rootName sink)
    have hidentifies := hrun.accounts.identifies
    rwa [Run.traces_singleton] at hidentifies
  · have hsession : Session.Becomes [] (.fresh sink limit) _ _ :=
      Session.becomes_after (Machine.accounted_fresh globalScope sink) inputs
    refine ⟨hsession.accounts.identifies, fun f hf => ?_⟩
    have hmade := hsession.machine.mem_of_holds hf
    rw [List.nil_append, ← List.take_length (l := Run.traces _ _)] at hmade
    obtain ⟨i, -, hi⟩ := exists_madeAt hmade
    exact ⟨i, hi⟩

/-- A function that declares another one makes a new one with each call. -/
example : (runSource 60
    "fun f() \x7b fun g() \x7b \x7d return g; \x7d var a = f(); print a == a; print a == f();"
    (.buffer "")).2.output = "true\nfalse\n" := by cbv

end GradualScript
