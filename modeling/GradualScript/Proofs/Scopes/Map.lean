import GradualScript.Scopes

/-!
# Changing all values of scopes

A function on values changes every binding and nothing else, so every operation on
scopes commutes with it.
-/
namespace GradualScript

variable {α β : Type} (f : α → β)

namespace Bindings

/-- The bindings with every value replaced; the names and their order stay. -/
def map (b : Bindings α) : Bindings β := ⟨b.entries.map fun entry => (entry.1, f entry.2)⟩

/-- A name is looked up among the old bindings, and its value replaced after that. -/
@[simp] theorem get?_map (b : Bindings α) (name : String) :
    (b.map f).get? name = (b.get? name).map f := by
  rw [get?, get?, map]
  induction b.entries with
  | nil => rfl
  | cons entry rest ih =>
    simp only [List.map_cons, lookup]
    split
    · rfl
    · exact ih

/-- It makes no difference whether a binding is added before the values are replaced or
after. -/
@[simp] theorem map_insert (b : Bindings α) (name : String) (value : α) :
    (b.insert name value).map f = (b.map f).insert name (f value) := by
  obtain ⟨entries⟩ := b
  simp only [insert, map, mk.injEq]
  induction entries with
  | nil => rfl
  | cons entry rest ih =>
    simp only [put, List.map_cons]
    split
    · rfl
    · rw [List.map_cons, ih]

end Bindings

/-- The record of a scope with the values of its bindings replaced. -/
def Scope.map (r : Scope α) : Scope β := ⟨r.name, r.parent, r.serial, r.bindings.map f⟩

namespace Scopes

/-- The scopes with every value replaced, in all of them and not only in those on the chain. -/
def map (s : Scopes α) : Scopes β := ⟨s.records.map (Scope.map f), s.nextSerial⟩

@[simp] theorem size_map (s : Scopes α) : (s.map f).size = s.size := Array.size_map

@[simp] theorem active_map (s : Scopes α) : (s.map f).active = s.active := by
  rw [active, active, size_map]

@[simp] theorem getElem?_records_map (s : Scopes α) (index : Nat) :
    (s.map f).records[index]? = s.records[index]?.map (Scope.map f) := Array.getElem?_map

/-- The serial numbers, by which stale identifiers are told from live ones, hold no values. -/
theorem serial_map (s : Scopes α) (index : Nat) :
    (s.map f).records[index]?.map Scope.serial = s.records[index]?.map Scope.serial := by
  rw [getElem?_records_map, Option.map_map]
  rfl

@[simp] theorem current_map (s : Scopes α) : (s.map f).current = s.current := by
  rw [current, current, idAt, idAt, active_map, serial_map]

/-- An identifier outlives a change of values, since it names a scope and not its contents. -/
@[simp] theorem isLive_map (s : Scopes α) (id : ScopeId) : (s.map f).isLive id = s.isLive id := by
  rw [isLive, isLive, serial_map]

@[simp] theorem map_new (name : String) : (new name : Scopes α).map f = new name := by
  simp only [new, map, List.map_toArray, List.map_cons, List.map_nil]
  rfl

/-- A new scope has no bindings, so nothing in it is replaced. -/
@[simp] theorem map_pushAt (s : Scopes α) (name : String) (parent : Nat) :
    (s.pushAt name parent).map f = (s.map f).pushAt name parent := by
  simp only [pushAt, map, Array.map_push]
  rfl

@[simp] theorem map_push (s : Scopes α) (name : String) :
    (s.push name).map f = (s.map f).push name := by
  rw [push, push, map_pushAt, active_map]

@[simp] theorem map_pushUnder (s : Scopes α) (name : String) (parent : ScopeId) :
    (s.pushUnder name parent).map f = (s.map f).pushUnder name parent := by
  rw [pushUnder, pushUnder, map_pushAt, isLive_map]

/-- Closing scopes forgets their values, replaced or not. -/
@[simp] theorem map_truncate (s : Scopes α) (size : Nat) :
    (s.truncate size).map f = (s.map f).truncate size := by
  simp only [truncate, map, mk.injEq, and_true]
  apply Array.ext'
  simp only [Array.toList_map, Array.toList_shrink, List.map_take]

/-- A binding is set to the new value where the old scopes get the old one. -/
@[simp] theorem map_setAt (s : Scopes α) (index : Nat) (name : String) (value : α) :
    (s.setAt index name value).map f = (s.map f).setAt index name (f value) := by
  simp only [setAt, map, mk.injEq, and_true]
  apply Array.ext_getElem?
  intro place
  simp only [Array.getElem?_map, Array.getElem?_modify]
  split
  · rw [Option.map_map, Option.map_map]
    congr 1
    funext r
    simp [Scope.map]
  · rfl

@[simp] theorem map_set (s : Scopes α) (name : String) (value : α) :
    (s.set name value).map f = (s.map f).set name (f value) := by
  rw [set, set, map_setAt, active_map]

/-- What a name is bound to in one scope, ignoring the scopes around it. -/
@[simp] theorem bindingAt_map (s : Scopes α) (index : Nat) (name : String) :
    (s.map f).bindingAt index name = (s.bindingAt index name).map f := by
  rw [bindingAt, bindingAt, getElem?_records_map]
  cases s.records[index]? with
  | none => rfl
  | some r => exact Bindings.get?_map f r.bindings name

@[simp] theorem parentAt_map (s : Scopes α) (index : Nat) :
    (s.map f).parentAt index = s.parentAt index := by
  rw [parentAt, parentAt, getElem?_records_map]
  cases s.records[index]? <;> rfl

/-- The chain of enclosing scopes is a matter of parents. The recursion goes down the
indices, as the chain does. -/
@[simp] theorem chainFrom_map (s : Scopes α) (index : Nat) :
    (s.map f).chainFrom index = s.chainFrom index := by
  induction index using Nat.strongRecOn with
  | ind index ih =>
    rw [chainFrom, chainFrom, parentAt_map]
    cases s.parentAt index with
    | none => rfl
    | some parent =>
      by_cases hlt : parent < index
      · simp only [hlt, if_true, ih parent hlt]
      · simp only [hlt, if_false]

/-- The search passes the same scopes and stops at the same one. -/
theorem find?_map (s : Scopes α) (name : String) :
    (s.map f).find? name = (s.find? name).map fun found => (found.1, f found.2) := by
  simp only [find?, chain, active_map, chainFrom_map, bindingAt_map]
  induction s.chainFrom s.active with
  | nil => rfl
  | cons index rest ih =>
    rw [List.findSome?_cons, List.findSome?_cons]
    cases s.bindingAt index name with
    | none => exact ih
    | some value => rfl

@[simp] theorem get_map (s : Scopes α) (name : String) :
    (s.map f).get name = (s.get name).map f := by
  rw [get, get, find?_map, Option.map_map, Option.map_map]
  rfl

/-- An assignment finds the same slot and gives back the value that stood there, replaced. -/
@[simp] theorem assign_map (s : Scopes α) (name : String) (value : α) :
    (s.map f).assign name (f value) =
      (s.assign name value).map fun result => (f result.1, result.2.map f) := by
  rw [assign, assign, find?_map]
  cases s.find? name with
  | none => rfl
  | some found => simp

end Scopes

end GradualScript
