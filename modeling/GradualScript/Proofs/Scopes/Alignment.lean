import Mathlib.Data.List.Forall2
import GradualScript.Proofs.Scopes.Matching

/-!
# Scopes above a base

What happens in the scopes above a base, whose outermost have the root as their parent,
does not depend on the scopes between the root and the base: no chain goes through them.
So two arrays can be kept in step that agree in the root and above their bases, whatever
each holds in between.
-/
namespace GradualScript.Scopes

variable {α : Type} {P : α → Prop} {b c i j k : Nat} {s s' t t' : Scopes α}

/-- Places that correspond: both roots, or places equally far above the bases. -/
inductive Twin (b c : Nat) : Nat → Nat → Prop
  | root : Twin b c 0 0
  | above (k : Nat) : Twin b c (b + k) (c + k)

/-- Twins stand at the same height above their frames, so both are below a new one or
neither is. -/
theorem Twin.lt_iff (h : Twin b c i j) (hb : 0 < b) (hc : 0 < c) : i < b + k ↔ j < c + k := by
  cases h with
  | root => omega
  | above => omega

/-- A scope has one twin. -/
theorem Twin.eq_iff {p q : Nat} (h : Twin b c i j) (h' : Twin b c p q) (hb : 0 < b) (hc : 0 < c) :
    i = p ↔ j = q := by
  cases h with
  | root => cases h' <;> omega
  | above => cases h' <;> omega

/-- Truncation keeps a prefix, and at least the root. -/
theorem getElem?_truncate (s : Scopes α) (n index : Nat) :
    (s.truncate n).records[index]? = if index < max n 1 then s.records[index]? else none := by
  rw [truncate, ← Array.getElem?_toList, Array.toList_shrink, List.getElem?_take,
    Array.getElem?_toList]

/-- No record between the root and the base has changed. -/
def Spared (b : Nat) (s t : Scopes α) : Prop :=
  ∀ i, 0 < i → i < b → t.records[i]? = s.records[i]?

namespace Spared

theorem refl (b : Nat) (s : Scopes α) : Spared b s s := fun _ _ _ => rfl

/-- What two runs in a row spare, both of them spare. -/
theorem trans (h : Spared b s s') (h' : Spared b s' t) : Spared b s t :=
  fun i hpos hi => (h' i hpos hi).trans (h i hpos hi)

/-- A scope that has a twin is the root or above the frame, so the spared ones do not
change. -/
theorem setAt (s : Scopes α) (h : Twin b c i j) (name : String) (value : α) :
    Spared b s (s.setAt i name value) := by
  intro p hpos hp
  have hne : i ≠ p := by
    cases h <;> omega
  rw [Scopes.setAt, Array.getElem?_modify, if_neg hne]

theorem pushAt (h : b ≤ s.size) (name : String) (parent : Nat) :
    Spared b s (s.pushAt name parent) := by
  intro p _ hp
  have hne : p ≠ s.records.size := Nat.ne_of_lt (Nat.lt_of_lt_of_le hp h)
  rw [Scopes.pushAt, Array.getElem?_push, if_neg hne]

theorem truncate {n : Nat} (h : b ≤ n) (s : Scopes α) : Spared b s (s.truncate n) := by
  intro p _ hp
  rw [getElem?_truncate, if_pos (by omega)]

end Spared

theorem parentAt_setAt (s : Scopes α) (index place : Nat) (name : String) (value : α) :
    (s.setAt index name value).parentAt place = s.parentAt place := by
  rw [parentAt_eq, parentAt_eq, (extends_setAt s index name value).labels_eq]

theorem parentAt_pushAt (s : Scopes α) (name : String) (parent place : Nat) :
    (s.pushAt name parent).parentAt place =
      if place = s.size then some parent else s.parentAt place := by
  rw [parentAt, pushAt, Array.getElem?_push, size]
  split
  · rfl
  · rfl

theorem parentAt_truncate (s : Scopes α) (n place : Nat) :
    (s.truncate n).parentAt place = if place < max n 1 then s.parentAt place else none := by
  rw [parentAt_eq, parentAt_eq, labels_truncate_max, List.getElem?_take]
  split
  · rfl
  · rfl

theorem parentAt_of_size_le (h : s.size ≤ i) : s.parentAt i = none := by
  rw [parentAt, Array.getElem?_eq_none h]
  rfl

theorem size_truncate {n : Nat} (hn : 0 < n) (h : n ≤ s.size) : (s.truncate n).size = n := by
  rw [← length_labels, labels_truncate s hn, List.length_take, length_labels, Nat.min_eq_left h]

/-- The same scopes above the bases, with the same bindings as the roots, and values of
the property `P`. -/
structure Aligned (b c : Nat) (P : α → Prop) (s t : Scopes α) : Prop where
  base_pos : 0 < b ∧ 0 < c
  base_le : b ≤ s.size
  size_eq : s.size + c = t.size + b
  active : Twin b c s.active t.active
  parents : ∀ k, Option.Rel (fun i j => Twin b c i j ∧ i < b + k) (s.parentAt (b + k))
    (t.parentAt (c + k))
  slots : ∀ {i j}, Twin b c i j → ∀ name, t.bindingAt j name = s.bindingAt i name
  good : ∀ {i j}, Twin b c i j → ∀ name value, s.bindingAt i name = some value → P value

namespace Aligned

theorem size_pos (h : Aligned b c P s t) : 0 < s.size ∧ 0 < t.size := by
  have hpos := h.base_pos
  have hle := h.base_le
  have hsize := h.size_eq
  omega

/-- A scope exists if its twin does. -/
theorem lt_size_iff (h : Aligned b c P s t) (hij : Twin b c i j) : i < s.size ↔ j < t.size := by
  have hsize := h.size_eq
  have hle := h.base_le
  have hpos := h.base_pos
  cases hij with
  | root => omega
  | above => omega

/-- Chains go through places that correspond. -/
theorem chainFrom (h : Aligned b c P s t) (hij : Twin b c i j) :
    List.Forall₂ (Twin b c) (s.chainFrom i) (t.chainFrom j) := by
  induction i using Nat.strongRecOn generalizing j with
  | ind i ih =>
    cases hij with
    | root =>
      rw [chainFrom_zero, chainFrom_zero]
      exact .cons .root .nil
    | above k =>
      have hparents := h.parents k
      rw [Scopes.chainFrom, Scopes.chainFrom]
      generalize s.parentAt (b + k) = p, t.parentAt (c + k) = q at hparents
      cases hparents with
      | none => exact .cons (.above k) .nil
      | @some p q hpq =>
        obtain ⟨htwin, hlt⟩ := hpq
        have hlt' : q < c + k := (htwin.lt_iff h.base_pos.1 h.base_pos.2).mp hlt
        simp only [hlt, hlt', if_true]
        exact .cons (.above k) (ih p hlt htwin)

/-- A name is found in twins, with the same value. -/
theorem find? (h : Aligned b c P s t) (name : String) :
    Option.Rel (fun found found' => Twin b c found.1 found'.1 ∧ found'.2 = found.2)
      (s.find? name) (t.find? name) := by
  have hchain := h.chainFrom h.active
  rw [Scopes.find?, Scopes.find?, chain, chain]
  generalize s.chainFrom s.active = places, t.chainFrom t.active = places' at hchain
  induction hchain with
  | nil => exact .none
  | @cons i j _ _ hij _ ih =>
    rw [List.findSome?_cons, List.findSome?_cons, h.slots hij name]
    cases s.bindingAt i name with
    | some value => exact .some ⟨hij, rfl⟩
    | none => exact ih

theorem get (h : Aligned b c P s t) (name : String) : t.get name = s.get name := by
  have hfind := h.find? name
  rw [Scopes.get, Scopes.get]
  generalize s.find? name = x, t.find? name = y at hfind
  cases hfind with
  | some hrel => exact congrArg some hrel.2
  | none => rfl

theorem good_of_get (h : Aligned b c P s t) {name : String} {value : α}
    (hget : s.get name = some value) : P value := by
  have hfind := h.find? name
  rw [Scopes.get, Option.map_eq_some_iff] at hget
  obtain ⟨found, hfound, rfl⟩ := hget
  rw [hfound] at hfind
  generalize t.find? name = y at hfind
  cases hfind with
  | some hrel => exact h.good hrel.1 name _ (bindingAt_of_find? hfound)

/-- An assignment to twins leaves the scopes aligned. -/
theorem setAt (h : Aligned b c P s t) (hij : Twin b c i j) (name : String) {value : α}
    (hvalue : P value) : Aligned b c P (s.setAt i name value) (t.setAt j name value) where
  base_pos := h.base_pos
  base_le := by
    rw [(extends_setAt s i name value).size_eq]
    exact h.base_le
  size_eq := by
    rw [(extends_setAt s i name value).size_eq, (extends_setAt t j name value).size_eq, h.size_eq]
  active := by
    rw [(extends_setAt s i name value).active_eq, (extends_setAt t j name value).active_eq]
    exact h.active
  parents k := by
    rw [parentAt_setAt, parentAt_setAt]
    exact h.parents k
  slots hpq key := by
    rw [bindingAt_setAt, bindingAt_setAt, h.slots hpq key]
    simp only [hij.eq_iff hpq h.base_pos.1 h.base_pos.2, h.lt_size_iff hpq]
  good hpq key found hfound := by
    rw [bindingAt_setAt] at hfound
    split at hfound
    · cases hfound
      exact hvalue
    · exact h.good hpq key found hfound

theorem set (h : Aligned b c P s t) (name : String) {value : α} (hvalue : P value) :
    Aligned b c P (s.set name value) (t.set name value) := h.setAt h.active name hvalue

theorem foldl_set {entries : List (String × α)} (h : Aligned b c P s t)
    (hentries : ∀ entry ∈ entries, P entry.2) :
    Aligned b c P (entries.foldl (fun s entry => s.set entry.1 entry.2) s)
      (entries.foldl (fun s entry => s.set entry.1 entry.2) t) := by
  induction entries generalizing s t with
  | nil => exact h
  | cons entry entries ih =>
    rw [List.forall_mem_cons] at hentries
    exact ih (h.set entry.1 hentries.1) hentries.2

theorem spared_set (h : Aligned b c P s t) (name : String) (value : α) :
    Spared b s (s.set name value) := .setAt s h.active name value

theorem spared_foldl_set {entries : List (String × α)} (h : Aligned b c P s t)
    (hentries : ∀ entry ∈ entries, P entry.2) :
    Spared b s (entries.foldl (fun s entry => s.set entry.1 entry.2) s) := by
  induction entries generalizing s t with
  | nil => exact .refl b s
  | cons entry entries ih =>
    rw [List.forall_mem_cons] at hentries
    exact (h.spared_set entry.1 entry.2).trans (ih (h.set entry.1 hentries.1) hentries.2)

/-- An assignment finds its name in both or in neither, and not below the base. -/
theorem assign (h : Aligned b c P s t) (name : String) {value : α} (hvalue : P value) :
    Option.Rel (fun found found' => Aligned b c P found.2 found'.2 ∧ Spared b s found.2)
      (s.assign name value) (t.assign name value) := by
  have hfind := h.find? name
  rw [Scopes.assign, Scopes.assign]
  generalize s.find? name = x, t.find? name = y at hfind
  cases hfind with
  | some hrel => exact .some ⟨h.setAt hrel.1 name hvalue, .setAt s hrel.1 name value⟩
  | none => exact .none

/-- A new scope on either side is the twin of the other, if their parents are twins. -/
theorem pushAt (h : Aligned b c P s t) (hij : Twin b c i j) (hi : i < s.size) (name : String) :
    Aligned b c P (s.pushAt name i) (t.pushAt name j) where
  base_pos := h.base_pos
  base_le := by
    rw [size_pushAt]
    exact Nat.le_succ_of_le h.base_le
  size_eq := by
    have hsize := h.size_eq
    rw [size_pushAt, size_pushAt]
    omega
  active := by
    have hsize := h.size_eq
    have hle := h.base_le
    rw [active_pushAt, active_pushAt, show s.size = b + (s.size - b) by omega,
      show t.size = c + (s.size - b) by omega]
    exact .above _
  parents k := by
    have hsize := h.size_eq
    have hnew : c + k = t.size ↔ b + k = s.size := by omega
    rw [parentAt_pushAt, parentAt_pushAt]
    simp only [hnew]
    split
    · next heq => exact .some ⟨hij, heq ▸ hi⟩
    · exact h.parents k
  slots hpq key := by
    rw [bindingAt_pushAt, bindingAt_pushAt]
    exact h.slots hpq key
  good hpq key found hfound := by
    rw [bindingAt_pushAt] at hfound
    exact h.good hpq key found hfound

theorem push (h : Aligned b c P s t) (name : String) :
    Aligned b c P (s.push name) (t.push name) :=
  h.pushAt h.active (Nat.sub_lt h.size_pos.1 Nat.one_pos) name

/-- What was opened since is closed again. -/
theorem truncate (h : Aligned b c P s t) (h' : Aligned b c P s' t') (hs : s.size ≤ s'.size) :
    Aligned b c P (s'.truncate s.size) (t'.truncate t.size) := by
  have hsize := h.size_eq
  have hsize' := h'.size_eq
  obtain ⟨hspos, htpos⟩ := h.size_pos
  have hs' := size_truncate hspos hs
  have ht' := size_truncate htpos (show t.size ≤ t'.size by omega)
  have hmax : max s.size 1 = s.size := Nat.max_eq_left hspos
  have hmax' : max t.size 1 = t.size := Nat.max_eq_left htpos
  refine ⟨h.base_pos, ?_, ?_, ?_, fun k => ?_, fun hpq key => ?_, fun hpq key value hvalue => ?_⟩
  · rw [hs']
    exact h.base_le
  · rw [hs', ht', hsize]
  · rw [Scopes.active, Scopes.active, hs', ht']
    exact h.active
  · have hlt := h.lt_size_iff (Twin.above (b := b) (c := c) k)
    rw [parentAt_truncate, parentAt_truncate, hmax, hmax']
    simp only [hlt]
    split
    · exact h'.parents k
    · exact .none
  · rw [bindingAt_truncate, bindingAt_truncate, hmax, hmax', h'.slots hpq key]
    simp only [h.lt_size_iff hpq]
  · rw [bindingAt_truncate] at hvalue
    split at hvalue
    · exact h'.good hpq key value hvalue
    · cases hvalue

end Aligned

/-- Frames under roots that agree. Everything below them but the root is out of reach. -/
theorem aligned_frame (hs : 0 < s.size) (ht : 0 < t.size)
    (hroot : ∀ name, t.bindingAt 0 name = s.bindingAt 0 name)
    (hgood : ∀ name value, s.bindingAt 0 name = some value → P value) (name : String) :
    Aligned s.size t.size P (s.pushAt name 0) (t.pushAt name 0) where
  base_pos := ⟨hs, ht⟩
  base_le := by
    rw [size_pushAt]
    exact Nat.le_succ s.size
  size_eq := by
    rw [size_pushAt, size_pushAt]
    omega
  active := by
    rw [active_pushAt, active_pushAt]
    exact .above 0
  parents k := by
    rw [parentAt_pushAt, parentAt_pushAt]
    cases k with
    | zero =>
      simp only [Nat.add_zero, if_true]
      exact .some ⟨.root, hs⟩
    | succ k =>
      rw [if_neg (by omega), if_neg (by omega), parentAt_of_size_le (by omega),
        parentAt_of_size_le (by omega)]
      exact .none
  slots hij key := by
    rw [bindingAt_pushAt, bindingAt_pushAt]
    cases hij with
    | root => exact hroot key
    | above k => rw [bindingAt_of_size_le (by omega), bindingAt_of_size_le (by omega)]
  good hij key value hvalue := by
    rw [bindingAt_pushAt] at hvalue
    cases hij with
    | root => exact hgood key value hvalue
    | above k =>
      rw [bindingAt_of_size_le (by omega)] at hvalue
      cases hvalue

/-- A lone root beside itself. -/
theorem aligned_root (hsize : s.size = 1) (hgood : s.AllBound P) : Aligned 1 1 P s s where
  base_pos := ⟨Nat.one_pos, Nat.one_pos⟩
  base_le := Nat.le_of_eq hsize.symm
  size_eq := rfl
  active := by
    rw [Scopes.active, hsize]
    exact .root
  parents k := by
    rw [parentAt_of_size_le (by omega)]
    exact .none
  slots hij key := by
    cases hij with
    | root => rfl
    | above => rfl
  good {i _} _ key value hvalue := hgood i key value hvalue

end GradualScript.Scopes
