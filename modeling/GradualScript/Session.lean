import GradualScript.Error
import GradualScript.Evaluation.Evaluator
import GradualScript.Parsing.Program
import GradualScript.Typing.Checking

/-!
# Sessions

A session keeps the types and the values of global names between inputs. An input
is checked as a whole before any of it runs. Then its statements run one by one,
and the types of each are committed once it has run: after a runtime error the
session knows the statements that completed and no others.

`runSource` runs one text from start to finish in fresh environments.
-/
namespace GradualScript

/-- The program that a source text denotes. -/
def readProgram (source : String) : Except Error Program :=
  match scan source with
  | .error e => .error (.scan e)
  | .ok tokens => (parse tokens).mapError .parse

/-- A budget that no program which ends in practice uses up. -/
def ampleBudget : Nat := Nat.pow 2 60

def Outcome.mapError {ε δ α : Type} (f : ε → δ) : Outcome ε α → Outcome δ α
  | .finished a => .finished a
  | .failed e => .failed (f e)
  | .unfinished => .unfinished

/-- Reads, checks and runs a text. -/
def runSource (budget : Nat) (source : String) (sink : Sink) : Outcome Error Unit × Sink :=
  match readProgram source with
  | .error e => (.failed e, sink)
  | .ok program =>
      match (program.check .fresh).verdict with
      | .error e => (.failed (.check e), sink)
      | .ok () =>
          let (outcome, m) :=
            program.execute (some defaultCallLimit) budget (.fresh globalScope sink)
          (outcome.mapError .run, m.sink)

structure Session where
  types : TypeEnv
  machine : Machine
  /-- The limit on nested calls, if there is one. -/
  limit : Option Nat

namespace Session

def fresh (sink : Sink) (limit : Option Nat) : Session :=
  ⟨.fresh, .fresh globalScope sink, limit⟩

/-- Runs statements that have been checked together, and commits the types of each
after it has run. A `return` ends the input. -/
def runAll (budget : Nat) (session : Session) : List Stmt → Outcome Error Unit × Session
  | [] => (.finished (), session)
  | s :: ss =>
      let (outcome, machine) := s.exec session.limit budget session.machine
      let session := { session with machine := machine }
      match outcome with
      | .failed e => (.failed (.run e), session)
      | .unfinished => (.unfinished, session)
      | .finished completion =>
          let checked := Program.check [s] session.types
          let session := { session with types := checked.env }
          match checked.verdict, completion with
          | .error e, _ => (.failed (.check e), session)
          | .ok (), .returned _ => (.finished (), session)
          | .ok (), .normal => runAll budget session ss

/-- Reads, checks and runs one input. -/
def run (budget : Nat) (session : Session) (source : String) : Outcome Error Unit × Session :=
  match readProgram source with
  | .error e => (.failed e, session)
  | .ok program =>
      match (program.check session.types).verdict with
      | .error e => (.failed (.check e), session)
      | .ok () => runAll budget session program

/-- The value of a global name. -/
def global (session : Session) (name : String) : Option Value := session.machine.scopes.get name

end Session

end GradualScript
