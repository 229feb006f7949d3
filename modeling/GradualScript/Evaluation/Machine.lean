import GradualScript.Evaluation.Operation
import GradualScript.Scopes

/-!
# The state of a run

A machine holds the values of all bound names in scopes, the sink that `print`
writes to, the number of calls in progress, and the number of functions declared
so far. A run takes a machine and leaves one, also where it fails.
-/
namespace GradualScript

/-- Where printed lines go. -/
inductive Sink where
  /-- Keeps what was printed. -/
  | buffer (captured : String)
  | silent

namespace Sink

/-- Writes one line. -/
def println (sink : Sink) (line : String) : Sink :=
  match sink with
  | buffer captured => buffer (captured ++ line ++ "\n")
  | silent => silent

/-- What the sink has kept. -/
def output : Sink → String
  | buffer captured => captured
  | silent => ""

/-- The sink without what it has kept. -/
def cleared : Sink → Sink
  | buffer _ => buffer ""
  | silent => silent

end Sink

structure Machine where
  scopes : Scopes Value
  sink : Sink
  /-- The number of calls in progress. -/
  calls : Nat
  /-- The number of function declarations that have run. -/
  declared : Nat

/-- How a run ends. `unfinished` is no result of the program: the budget of steps
was too small to reach one. -/
inductive Outcome (ε α : Type) where
  | finished (value : α)
  | failed (error : ε)
  | unfinished

namespace Machine

def fresh (rootName : String) (sink : Sink) : Machine := ⟨.new rootName, sink, 0, 0⟩

/-- Declares a function in the active scope. -/
def declare (m : Machine) (name : String) (params : List String) (body : List Stmt) : Machine :=
  let f : Function := ⟨m.declared, name, params, body, m.scopes.current⟩
  { m with scopes := m.scopes.set name (.function f), declared := m.declared + 1 }

/-- Opens the frame of a call, under the scope that the function was declared in,
with its parameters bound. -/
def enter (m : Machine) (f : Function) (args : List Value) : Machine :=
  let frame := m.scopes.pushUnder f.name f.closure
  { m with
    scopes := (f.params.zip args).foldl (fun s binding => s.set binding.1 binding.2) frame
    calls := m.calls + 1 }

/-- Closes every scope from the place `size` on. -/
def closeFrom (m : Machine) (size : Nat) : Machine :=
  { m with scopes := m.scopes.truncate size }

/-- Ends the innermost call. -/
def leave (m : Machine) : Machine := { m with calls := m.calls - 1 }

end Machine

/-- A run that may read and change the machine. -/
def Eval (α : Type) : Type := Machine → Outcome RuntimeError α × Machine

namespace Eval

variable {α β : Type}

@[always_inline, inline]
protected def bind (run : Eval α) (f : α → Eval β) : Eval β := fun m =>
  match run m with
  | (.finished a, m) => f a m
  | (.failed e, m) => (.failed e, m)
  | (.unfinished, m) => (.unfinished, m)

@[always_inline]
instance : Monad Eval where
  pure a := fun m => (.finished a, m)
  bind := Eval.bind

def unfinished : Eval α := fun m => (.unfinished, m)

def fail (fault : RuntimeFault) (position : Position) : Eval α :=
  fun m => (.failed ⟨fault, position⟩, m)

/-- The result of an operator at a position. -/
def ofExcept (position : Position) : Except RuntimeFault α → Eval α
  | .ok a => pure a
  | .error fault => fail fault position

def lookup (name : String) (position : Position) : Eval Value := fun m =>
  match m.scopes.get name with
  | some v => (.finished v, m)
  | none => (.failed ⟨.undefinedVariable name, position⟩, m)

def assign (name : String) (value : Value) (position : Position) : Eval Unit := fun m =>
  match m.scopes.assign name value with
  | some (_, scopes) => (.finished (), { m with scopes := scopes })
  | none => (.failed ⟨.undefinedVariable name, position⟩, m)

/-- Binds a name in the active scope. -/
def define (name : String) (value : Value) : Eval Unit := fun m =>
  (.finished (), { m with scopes := m.scopes.set name value })

def print (value : Value) : Eval Unit := fun m =>
  (.finished (), { m with sink := m.sink.println value.text })

def declare (name : String) (params : List String) (body : List Stmt) : Eval Unit := fun m =>
  (.finished (), m.declare name params body)

/-- A run that leaves only the scopes below the place `size`, however it ends. The
compiled run knows `size` alone: the scopes it was read from have no second owner,
and change in place. -/
@[noinline]
def closing (size : Nat) (run : Eval α) : Eval α := fun m =>
  let (outcome, m) := run m
  (outcome, m.closeFrom size)

/-- A run inside a new child of the active scope, which is gone afterwards. -/
def inScope (name : String) (run : Eval α) : Eval α := fun m =>
  closing m.scopes.size run { m with scopes := m.scopes.push name }

/-- A run inside the frame of a call, which is gone afterwards. -/
def inFrame (f : Function) (args : List Value) (run : Eval α) : Eval α := fun m =>
  let (outcome, m) := closing m.scopes.size run (m.enter f args)
  (outcome, m.leave)

end Eval

end GradualScript
