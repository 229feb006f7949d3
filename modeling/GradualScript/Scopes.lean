import GradualScript.Scopes.Bindings

/-!
# Scopes

Nested named scopes, kept in one array. The active scope is always the last; every
scope but the root holds the index of its parent, which lies below its own. A
lookup walks the chain from the active scope to the root. A scope is pushed under
any live scope, not only the active one.

A place in the array is used again once its scope is gone, so an identifier holds
the serial number of its scope beside the place: it is live while the scope at its
place has that serial.
-/
namespace GradualScript

structure ScopeId where
  index : Nat
  serial : UInt32
  deriving DecidableEq

structure Scope (α : Type) where
  name : String
  parent : Option Nat
  serial : UInt32
  bindings : Bindings α

structure Scopes (α : Type) where
  records : Array (Scope α)
  nextSerial : UInt32

namespace Scopes

variable {α : Type}

/-- A lone root scope. -/
def new (name : String) : Scopes α := ⟨#[⟨name, none, 0, .empty⟩], 1⟩

/-- The number of scopes, the root included. -/
def size (s : Scopes α) : Nat := s.records.size

def root : ScopeId := ⟨0, 0⟩

/-- The place of the active scope. -/
def active (s : Scopes α) : Nat := s.size - 1

/-- The identifier of the scope at a place. -/
def idAt (s : Scopes α) (index : Nat) : ScopeId :=
  ⟨index, (s.records[index]?.map Scope.serial).getD 0⟩

def current (s : Scopes α) : ScopeId := s.idAt s.active

/-- The scope that an identifier was taken from is still there. -/
def isLive (s : Scopes α) (id : ScopeId) : Bool :=
  s.records[id.index]?.map Scope.serial = some id.serial

/-- Opens a scope under the scope at the place `parent`. -/
def pushAt (s : Scopes α) (name : String) (parent : Nat) : Scopes α :=
  ⟨s.records.push ⟨name, some parent, s.nextSerial, .empty⟩, s.nextSerial + 1⟩

/-- Opens a scope under the active scope. -/
def push (s : Scopes α) (name : String) : Scopes α := s.pushAt name s.active

/-- Opens a scope under `parent`, or under the root if `parent` is gone. -/
def pushUnder (s : Scopes α) (name : String) (parent : ScopeId) : Scopes α :=
  s.pushAt name (if s.isLive parent then parent.index else root.index)

/-- Closes every scope from the place `size` on. The root stays. -/
def truncate (s : Scopes α) (size : Nat) : Scopes α :=
  ⟨s.records.shrink (max size 1), s.nextSerial⟩

/-- Closes the active scope. The root stays. -/
def pop (s : Scopes α) : Scopes α := s.truncate s.active

/-- Whether there is a scope to close. -/
def canPop (s : Scopes α) : Bool := 1 < s.size

/-- The binding of a name in the scope at a place. -/
def bindingAt (s : Scopes α) (index : Nat) (name : String) : Option α :=
  s.records[index]?.bind (·.bindings.get? name)

/-- Binds a name in the scope at a place. -/
def setAt (s : Scopes α) (index : Nat) (name : String) (value : α) : Scopes α :=
  ⟨s.records.modify index fun r => { r with bindings := r.bindings.insert name value },
    s.nextSerial⟩

/-- Binds a name in the active scope. -/
def set (s : Scopes α) (name : String) (value : α) : Scopes α := s.setAt s.active name value

/-- The place of the parent of the scope at a place. -/
def parentAt (s : Scopes α) (index : Nat) : Option Nat := s.records[index]?.bind Scope.parent

/-- The places from `index` through its ancestors. -/
def chainFrom (s : Scopes α) (index : Nat) : List Nat :=
  match s.parentAt index with
  | some parent => if parent < index then index :: chainFrom s parent else [index]
  | none => [index]
termination_by index

/-- The places from the active scope to the root. -/
def chain (s : Scopes α) : List Nat := s.chainFrom s.active

/-- The place and the value of the innermost binding of a name. -/
def find? (s : Scopes α) (name : String) : Option (Nat × α) :=
  s.chain.findSome? fun index => (s.bindingAt index name).map (index, ·)

/-- The innermost binding of a name. -/
def get (s : Scopes α) (name : String) : Option α := (s.find? name).map Prod.snd

/-- Overwrites the innermost binding of a name; with the value that it had.
Nothing if the name is not bound. -/
def assign (s : Scopes α) (name : String) (value : α) : Option (α × Scopes α) :=
  (s.find? name).map fun found => (found.2, s.setAt found.1 name value)

/-- The message for an assignment to a name that is not bound. -/
def unbound : String := "name is not bound in any enclosing scope"

/-- The names of the scopes on the chain, root first. -/
def path (s : Scopes α) : List String :=
  (s.chain.filterMap fun index => s.records[index]?.map Scope.name).reverse

/-- The path with colons between the names. -/
def pathText (s : Scopes α) : String := "::".intercalate s.path

end Scopes

end GradualScript
