import GradualScript.Scopes

/-!
# Slots of scopes

A slot is a name in the scope at a place. Binding changes one slot, opening a scope
changes none, and closing scopes empties those of the scopes that are gone.
-/
namespace GradualScript.Scopes

variable {α : Type}

/-- To set a name changes one slot, and none in a scope that does not exist. -/
theorem bindingAt_setAt (s : Scopes α) (index place : Nat) (name key : String) (value : α) :
    (s.setAt index name value).bindingAt place key =
      if index = place ∧ place < s.size ∧ name = key then some value
      else s.bindingAt place key := by
  rw [bindingAt, bindingAt, setAt, Array.getElem?_modify, size]
  by_cases hplace : index = place
  · subst hplace
    rw [if_pos rfl]
    by_cases hlt : index < s.records.size
    · rw [Array.getElem?_eq_getElem hlt]
      simp [hlt]
    · rw [Array.getElem?_eq_none (by omega)]
      simp [hlt]
  · rw [if_neg hplace, if_neg (fun h => hplace h.1)]

/-- A new scope binds nothing, so every slot is as before. -/
theorem bindingAt_pushAt (s : Scopes α) (name key : String) (parent place : Nat) :
    (s.pushAt name parent).bindingAt place key = s.bindingAt place key := by
  rw [bindingAt, bindingAt, pushAt, Array.getElem?_push]
  split
  · next h =>
    subst h
    rw [Array.getElem?_eq_none (Nat.le_refl _)]
    rfl
  · rfl

/-- Slots of closed scopes are gone; the root is never closed. -/
theorem bindingAt_truncate (s : Scopes α) (size place : Nat) (key : String) :
    (s.truncate size).bindingAt place key =
      if place < max size 1 then s.bindingAt place key else none := by
  rw [bindingAt, bindingAt, truncate, ← Array.getElem?_toList, Array.toList_shrink,
    List.getElem?_take]
  split
  · rw [Array.getElem?_toList]
  · rfl

theorem bindingAt_new (name key : String) (place : Nat) :
    (Scopes.new name : Scopes α).bindingAt place key = none := by
  cases place <;> rfl

/-- A lookup finds a slot. -/
theorem bindingAt_of_find? {s : Scopes α} {name : String} {place : Nat} {value : α}
    (h : s.find? name = some (place, value)) : s.bindingAt place name = some value := by
  obtain ⟨index, -, hbinding⟩ := List.exists_of_findSome?_eq_some h
  rw [Option.map_eq_some_iff] at hbinding
  obtain ⟨found, hfound, heq⟩ := hbinding
  cases heq
  exact hfound

/-- A value that is found stands in some slot. -/
theorem exists_slot_of_get {s : Scopes α} {name : String} {value : α}
    (h : s.get name = some value) : ∃ place, s.bindingAt place name = some value := by
  rw [get, Option.map_eq_some_iff] at h
  obtain ⟨⟨place, found⟩, hfind, rfl⟩ := h
  exact ⟨place, bindingAt_of_find? hfind⟩

/-- An assignment writes to the slot that a lookup finds. -/
theorem exists_slot_of_assign {s t : Scopes α} {name : String} {value old : α}
    (h : s.assign name value = some (old, t)) :
    ∃ place, s.bindingAt place name = some old ∧ t = s.setAt place name value := by
  rw [assign, Option.map_eq_some_iff] at h
  obtain ⟨⟨place, found⟩, hfind, heq⟩ := h
  cases heq
  exact ⟨place, bindingAt_of_find? hfind, rfl⟩

/-- Everything bound has a property. -/
def AllBound (P : α → Prop) (s : Scopes α) : Prop :=
  ∀ place name value, s.bindingAt place name = some value → P value

variable {P : α → Prop} {s t : Scopes α}

theorem allBound_new (name : String) : AllBound P (Scopes.new name) := by
  intro place key value h
  rw [bindingAt_new] at h
  cases h

/-- A good value may be put into any slot. -/
theorem AllBound.setAt (h : AllBound P s) (index : Nat) (name : String) {value : α}
    (hvalue : P value) : AllBound P (s.setAt index name value) := by
  intro place key found hfound
  rw [bindingAt_setAt] at hfound
  split at hfound
  · cases hfound
    exact hvalue
  · exact h place key found hfound

theorem AllBound.set (h : AllBound P s) (name : String) {value : α} (hvalue : P value) :
    AllBound P (s.set name value) := h.setAt s.active name hvalue

theorem AllBound.pushAt (h : AllBound P s) (name : String) (parent : Nat) :
    AllBound P (s.pushAt name parent) := by
  intro place key found hfound
  rw [bindingAt_pushAt] at hfound
  exact h place key found hfound

theorem AllBound.push (h : AllBound P s) (name : String) : AllBound P (s.push name) :=
  h.pushAt name s.active

theorem AllBound.pushUnder (h : AllBound P s) (name : String) (parent : ScopeId) :
    AllBound P (s.pushUnder name parent) := h.pushAt name _

theorem AllBound.truncate (h : AllBound P s) (size : Nat) : AllBound P (s.truncate size) := by
  intro place key found hfound
  rw [bindingAt_truncate] at hfound
  split at hfound
  · exact h place key found hfound
  · cases hfound

theorem AllBound.foldl_set {entries : List (String × α)} (h : AllBound P s)
    (hentries : ∀ entry ∈ entries, P entry.2) :
    AllBound P (entries.foldl (fun s entry => s.set entry.1 entry.2) s) := by
  induction entries generalizing s with
  | nil => exact h
  | cons entry entries ih =>
    rw [List.forall_mem_cons] at hentries
    exact ih (h.set entry.1 hentries.1) hentries.2

/-- What holds of all values of a kind holds of all bound ones. -/
theorem AllBound.mono {Q : α → Prop} (h : AllBound P s) (hPQ : ∀ value, P value → Q value) :
    AllBound Q s :=
  fun place name value hvalue => hPQ value (h place name value hvalue)

theorem AllBound.get (h : AllBound P s) {name : String} {value : α}
    (hget : s.get name = some value) : P value := by
  obtain ⟨place, hplace⟩ := exists_slot_of_get hget
  exact h place name value hplace

/-- An assignment changes the slot where the name is found. -/
theorem AllBound.assign (h : AllBound P s) {name : String} {value old : α} (hvalue : P value)
    (hassign : s.assign name value = some (old, t)) : AllBound P t := by
  obtain ⟨place, -, rfl⟩ := exists_slot_of_assign hassign
  exact h.setAt place name hvalue

end GradualScript.Scopes
