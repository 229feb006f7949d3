import GradualScript.Proofs.Scopes.Matching

/-!
# Inside and around the active scope

A binding in the active scope changes what is found under one name, and a new scope
changes nothing that is found. What happens in an inner scope leaves the scopes around
it alone, so closing it gives back the lookups of before.
-/
namespace GradualScript

/-- To bind a name to its own value is to do nothing. -/
theorem Bindings.put_same {α : Type} {name : String} {value : α} {entries : List (String × α)}
    (h : lookup name entries = some value) : put name value entries = entries := by
  induction entries with
  | nil => cases h
  | cons entry rest ih =>
    rw [lookup] at h
    rw [put]
    split at h
    · next hname =>
      cases h
      rw [if_pos hname, ← hname]
    · next hname => rw [if_neg hname, ih h]

namespace Scopes

variable {α β : Type} {s t u : Scopes α} {name : String} {value : α}

/-- Binding the value that is bound already changes nothing. -/
theorem setAt_same {index : Nat} (h : s.bindingAt index name = some value) :
    s.setAt index name value = s := by
  have hrecords : s.records.modify index
      (fun r => { r with bindings := r.bindings.insert name value }) = s.records := by
    apply Array.ext_getElem?
    intro i
    rw [Array.getElem?_modify]
    split
    · next hi =>
      subst hi
      rw [bindingAt] at h
      cases hr : s.records[index]? with
      | none => rfl
      | some r =>
        rw [hr, Option.bind_some, Bindings.get?] at h
        rw [Option.map_some, Bindings.insert, Bindings.put_same h]
    · rfl
  rw [setAt, hrecords]

/-- Assigning the value that a name has changes nothing. -/
theorem assign_same (h : s.get name = some value) : s.assign name value = some (value, s) := by
  rw [get, Option.map_eq_some_iff] at h
  obtain ⟨⟨place, found⟩, hfind, rfl⟩ := h
  rw [assign, hfind, Option.map_some, setAt_same (bindingAt_of_find? hfind)]

/-- A new scope hides no name. -/
theorem get_push (hsize : 0 < s.size) (name key : String) : (s.push name).get key = s.get key := by
  have hactive : s.active < s.size := by
    rw [active]
    omega
  have hempty : s.bindingAt s.size key = none := bindingAt_of_size_le (Nat.le_refl _) key
  simp only [get, find?, push, chain_pushAt hactive, bindingAt_pushAt, List.findSome?_cons, hempty,
    Option.map_none]
  rfl

theorem get_set (hsize : 0 < s.size) (name : String) (value : α) (key : String) :
    (s.set name value).get key = if name = key then some value else s.get key := by
  have hactive : s.active < s.size := by
    rw [active]
    omega
  have hchain : (s.set name value).chain = s.chain :=
    chain_congr (extends_setAt s s.active name value).labels_eq
  rw [get, get, find?, find?, hchain]
  split
  · next hname =>
    -- The chain starts at the active scope.
    subst hname
    obtain ⟨rest, hrest⟩ := List.head?_eq_some_iff.mp (chainFrom_head? s s.active)
    rw [chain, hrest, List.findSome?_cons, set, bindingAt_setAt, if_pos ⟨rfl, hactive, rfl⟩]
    rfl
  · next hname =>
    have hslot : ∀ i, (s.set name value).bindingAt i key = s.bindingAt i key := by
      intro i
      rw [set, bindingAt_setAt, if_neg fun h => hname h.2.2]
    simp only [hslot]

/-- The same records, and the same slots in all of them but the active one. -/
structure Surrounds (s t : Scopes α) : Prop where
  size_eq : t.size = s.size
  parent_eq : ∀ i, 0 < i → t.parentAt i = s.parentAt i
  slots_eq : ∀ i < s.active, ∀ name, t.bindingAt i name = s.bindingAt i name

namespace Surrounds

/-- The same scope is active on both sides. -/
theorem active_eq (h : Surrounds s t) : t.active = s.active := by
  rw [active, active, h.size_eq]

theorem refl (s : Scopes α) : Surrounds s s := ⟨rfl, fun _ _ => rfl, fun _ _ _ => rfl⟩

/-- The surroundings of a run are those of its first part and of its second. -/
theorem trans (h : Surrounds s t) (h' : Surrounds t u) : Surrounds s u where
  size_eq := h'.size_eq.trans h.size_eq
  parent_eq i hi := (h'.parent_eq i hi).trans (h.parent_eq i hi)
  slots_eq i hi name :=
    (h'.slots_eq i (by rw [h.active_eq]; exact hi) name).trans (h.slots_eq i hi name)

/-- To bind a name in the active scope is no change around it. -/
theorem set (s : Scopes α) (name : String) (value : α) : Surrounds s (s.set name value) where
  size_eq := (extends_setAt s s.active name value).size_eq
  parent_eq i _ := by
    rw [parentAt_eq, parentAt_eq, Scopes.set, (extends_setAt s s.active name value).labels_eq]
  slots_eq i hi key := by
    rw [Scopes.set, bindingAt_setAt, if_neg (by omega)]

end Surrounds

namespace Matches

variable {R : α → β → Prop} {r : Scopes β}

/-- Scopes that hold the same surround each other. -/
theorem surrounds (h : Matches Eq s t) : Surrounds t s where
  size_eq := h.size_eq
  parent_eq := h.parent_eq
  slots_eq i _ name := by
    have hslot := h.slots i name
    generalize s.bindingAt i name = a, t.bindingAt i name = b at hslot
    cases hslot with
    | some heq => rw [heq]
    | none => rfl

theorem refl (s : Scopes α) : Matches Eq s s := by
  refine ⟨rfl, fun _ _ => rfl, fun i name => ?_⟩
  cases s.bindingAt i name with
  | none => exact .none
  | some value => exact .some rfl

theorem get_eq (h : Matches Eq s t) (name : String) : s.get name = t.get name := by
  have hget := h.get name
  generalize s.get name = a, t.get name = b at hget
  cases hget with
  | some heq => rw [heq]
  | none => rfl

/-- Scopes that hold the same may stand for one another in any match. -/
theorem trans_left (h : Matches Eq s t) (h' : Matches R s r) : Matches R t r := by
  refine ⟨h.size_eq.symm.trans h'.size_eq, fun i hi =>
    (h.parent_eq i hi).symm.trans (h'.parent_eq i hi), fun i name => ?_⟩
  have hslot := h.slots i name
  have hslot' := h'.slots i name
  generalize s.bindingAt i name = a, t.bindingAt i name = b, r.bindingAt i name = c at *
  cases hslot with
  | some heq =>
    subst heq
    exact hslot'
  | none => exact hslot'

theorem symm (h : Matches Eq s t) : Matches Eq t s :=
  h.trans_left (refl s)

theorem trans (h : Matches Eq s t) (h' : Matches Eq t u) : Matches Eq s u :=
  h.symm.trans_left h'

end Matches

/-- What was done in a new scope is gone with it. -/
theorem Surrounds.truncate {name : String} (hsize : 0 < s.size) (h : Surrounds (s.push name) t) :
    Matches Eq (t.truncate s.size) s := by
  have htsize : t.size = s.size + 1 := by rw [h.size_eq, push, size_pushAt]
  have hactive : (s.push name).active = s.size := active_pushAt ..
  refine ⟨?_, fun i hi => ?_, fun i key => ?_⟩
  · rw [← length_labels, labels_truncate_max, List.length_take, length_labels, htsize]
    omega
  · rw [parentAt_eq, labels_truncate_max, List.getElem?_take]
    split
    · have hparent := h.parent_eq i hi
      rw [push, parentAt_eq, parentAt_eq, labels_pushAt, List.getElem?_append_left (by
        rw [length_labels]
        omega)] at hparent
      rw [hparent, parentAt_eq]
    · rw [parentAt, Array.getElem?_eq_none (show s.records.size ≤ i by rw [size] at *; omega)]
      rfl
  · have hslot : (t.truncate s.size).bindingAt i key = s.bindingAt i key := by
      rw [bindingAt_truncate]
      split
      · rw [h.slots_eq i (by omega), push, bindingAt_pushAt]
      · rw [bindingAt_of_size_le (by omega)]
    rw [hslot]
    exact (Matches.refl s).slots i key

theorem Surrounds.pop {name : String} (hsize : 0 < s.size) (h : Surrounds (s.push name) t) :
    Matches Eq t.pop s := by
  have hactive : t.active = s.size := h.active_eq.trans (active_pushAt ..)
  rw [Scopes.pop, hactive]
  exact h.truncate hsize

end Scopes

end GradualScript
