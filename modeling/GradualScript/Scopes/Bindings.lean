/-!
# Bindings

A finite map from names to values, as the list of its entries. A name keeps the
place at which it was first bound.
-/
namespace GradualScript

/-- What one scope binds. -/
structure Bindings (α : Type) where
  entries : List (String × α)

namespace Bindings

variable {α : Type}

def empty : Bindings α := ⟨[]⟩

/-- The value of the first entry for a name. -/
def lookup (name : String) : List (String × α) → Option α
  | [] => none
  | entry :: rest => if entry.1 = name then some entry.2 else lookup name rest

/-- Replaces the first entry for a name, or adds one at the end. -/
def put (name : String) (value : α) : List (String × α) → List (String × α)
  | [] => [(name, value)]
  | entry :: rest =>
      if entry.1 = name then (name, value) :: rest else entry :: put name value rest

def get? (b : Bindings α) (name : String) : Option α := lookup name b.entries

/-- A new name goes to the end; a name that is bound keeps its place. -/
def insert (b : Bindings α) (name : String) (value : α) : Bindings α :=
  ⟨put name value b.entries⟩

/-- The bound names, in the order in which they were first bound. -/
def names (b : Bindings α) : List String := b.entries.map Prod.fst

/-- A name that was put has the new value, and the others have their old ones. -/
theorem lookup_put (name key : String) (value : α) (entries : List (String × α)) :
    lookup key (put name value entries) =
      if name = key then some value else lookup key entries := by
  induction entries with
  | nil => simp [put, lookup]
  | cons entry rest ih => simp only [put]; grind [lookup]

@[simp] theorem get?_empty (key : String) : (empty : Bindings α).get? key = none := rfl

@[simp] theorem get?_insert (b : Bindings α) (name key : String) (value : α) :
    (b.insert name value).get? key = if name = key then some value else b.get? key :=
  lookup_put name key value b.entries

theorem mem_names_iff (b : Bindings α) (name : String) :
    name ∈ b.names ↔ (b.get? name).isSome := by
  simp only [names, get?]
  induction b.entries with
  | nil => simp [lookup]
  | cons entry rest ih => simp only [List.map_cons, List.mem_cons, lookup, ih]; grind

end Bindings

end GradualScript
