import GradualScript.Proofs.Typing.Frames
import GradualScript.Proofs.Scopes.Slots

/-!
# Scopes that match

Two scopes match under a relation if they have the same tree of records, and each slot is
empty in both or holds related values in both. Then they take the same lookups, and each
operation on both leaves scopes that match again.
-/
namespace GradualScript.Scopes

variable {α β : Type} {R : α → β → Prop} {s : Scopes α} {t : Scopes β}

/-- The parent of the root is left out: no lookup goes on from there. -/
structure Matches (R : α → β → Prop) (s : Scopes α) (t : Scopes β) : Prop where
  size_eq : s.size = t.size
  parent_eq : ∀ i, 0 < i → s.parentAt i = t.parentAt i
  slots : ∀ i name, Option.Rel R (s.bindingAt i name) (t.bindingAt i name)

namespace Matches

/-- A weaker relation is matched as well. -/
theorem mono {S : α → β → Prop} (h : Matches R s t) (hS : ∀ a b, R a b → S a b) :
    Matches S s t := by
  refine ⟨h.size_eq, h.parent_eq, fun i name => ?_⟩
  have hslot := h.slots i name
  generalize s.bindingAt i name = a, t.bindingAt i name = b at hslot
  cases hslot with
  | some hab => exact .some (hS _ _ hab)
  | none => exact .none

theorem active_eq (h : Matches R s t) : s.active = t.active := by
  rw [active, active, h.size_eq]

theorem chain_eq (h : Matches R s t) : s.chain = t.chain := by
  rw [chain, chain, h.active_eq]
  exact chainFrom_congr fun i hi _ => h.parent_eq i hi

/-- A lookup stops at the same place in both. -/
theorem find? (h : Matches R s t) (name : String) :
    Option.Rel (fun found found' => found.1 = found'.1 ∧ R found.2 found'.2)
      (s.find? name) (t.find? name) := by
  rw [Scopes.find?, Scopes.find?, h.chain_eq]
  induction t.chain with
  | nil => exact .none
  | cons i rest ih =>
    have hslots := h.slots i name
    rw [List.findSome?_cons, List.findSome?_cons]
    generalize s.bindingAt i name = a, t.bindingAt i name = b at hslots
    cases hslots with
    | some hrel => exact .some ⟨rfl, hrel⟩
    | none => exact ih

/-- A name is bound on both sides, to related values, or on neither. -/
theorem get (h : Matches R s t) (name : String) : Option.Rel R (s.get name) (t.get name) := by
  have hfind := h.find? name
  rw [Scopes.get, Scopes.get]
  generalize s.find? name = a, t.find? name = b at hfind
  cases hfind with
  | some hrel => exact .some hrel.2
  | none => exact .none

theorem setAt (h : Matches R s t) (index : Nat) (name : String) {a : α} {b : β} (hab : R a b) :
    Matches R (s.setAt index name a) (t.setAt index name b) := by
  refine ⟨?_, fun i hi => ?_, fun i key => ?_⟩
  · rw [(extends_setAt s index name a).size_eq, (extends_setAt t index name b).size_eq, h.size_eq]
  · rw [parentAt_eq, parentAt_eq, (extends_setAt s index name a).labels_eq,
      (extends_setAt t index name b).labels_eq, ← parentAt_eq, ← parentAt_eq, h.parent_eq i hi]
  · rw [bindingAt_setAt, bindingAt_setAt, h.size_eq]
    split
    · exact .some hab
    · exact h.slots i key

theorem set (h : Matches R s t) (name : String) {a : α} {b : β} (hab : R a b) :
    Matches R (s.set name a) (t.set name b) := by
  rw [Scopes.set, Scopes.set, h.active_eq]
  exact h.setAt t.active name hab

/-- An assignment finds its name in both or in neither. -/
theorem assign (h : Matches R s t) (name : String) {a : α} {b : β} (hab : R a b) :
    Option.Rel (fun found found' => Matches R found.2 found'.2)
      (s.assign name a) (t.assign name b) := by
  have hfind := h.find? name
  rw [Scopes.assign, Scopes.assign]
  generalize s.find? name = x, t.find? name = y at hfind
  cases hfind with
  | @some found found' hrel =>
    have hset := h.setAt found'.1 name hab
    refine .some ?_
    dsimp only
    rwa [hrel.1]
  | none => exact .none

theorem push (h : Matches R s t) (name : String) : Matches R (s.push name) (t.push name) := by
  refine ⟨?_, fun i hi => ?_, fun i key => ?_⟩
  · rw [Scopes.push, Scopes.push, size_pushAt, size_pushAt, h.size_eq]
  · have hparent := h.parent_eq i hi
    rw [Scopes.push, Scopes.push, parentAt_eq, parentAt_eq, labels_pushAt, labels_pushAt,
      List.getElem?_append, List.getElem?_append, length_labels, length_labels, h.size_eq,
      h.active_eq]
    rw [parentAt_eq, parentAt_eq] at hparent
    split
    · exact hparent
    · cases i - t.size <;> rfl
  · rw [Scopes.push, Scopes.push, bindingAt_pushAt, bindingAt_pushAt]
    exact h.slots i key

theorem truncate (h : Matches R s t) (size : Nat) :
    Matches R (s.truncate size) (t.truncate size) := by
  refine ⟨?_, fun i hi => ?_, fun i key => ?_⟩
  · rw [← length_labels, ← length_labels, labels_truncate_max, labels_truncate_max,
      List.length_take, List.length_take, length_labels, length_labels, h.size_eq]
  · have hparent := h.parent_eq i hi
    rw [parentAt_eq, parentAt_eq] at hparent
    rw [parentAt_eq, parentAt_eq, labels_truncate_max, labels_truncate_max,
      List.getElem?_take, List.getElem?_take]
    split
    · exact hparent
    · rfl
  · rw [bindingAt_truncate, bindingAt_truncate]
    split
    · exact h.slots i key
    · exact .none

/-- Closing the active scope on both sides. -/
theorem pop (h : Matches R s t) : Matches R s.pop t.pop := by
  rw [Scopes.pop, Scopes.pop, h.active_eq]
  exact h.truncate t.active

end Matches

/-- In a lone root scope, a lookup is one in the root. -/
theorem get_root (hsize : s.size = 1) (name : String) : s.get name = s.bindingAt 0 name := by
  have hactive : s.active = 0 := by rw [active, hsize]
  rw [get, find?, chain, hactive, chainFrom_zero, List.findSome?_cons]
  cases s.bindingAt 0 name <;> rfl

theorem bindingAt_of_size_le {i : Nat} (hi : s.size ≤ i) (name : String) :
    s.bindingAt i name = none := by
  rw [bindingAt, Array.getElem?_eq_none hi]
  rfl

end GradualScript.Scopes
