import GradualScript.Evaluation.Machine
import GradualScript.Proofs.Scopes.Slots

/-!
# What a run leaves of the scopes

A run opens scopes and closes them again. `Extends` says what is left: the same
records, and in them the same names, but for names that were added to one record.
-/
namespace GradualScript

namespace Bindings

variable {α : Type}

/-- Binding a name keeps the names that were bound, in their order. -/
theorem names_put (name : String) (value : α) (entries : List (String × α)) :
    (put name value entries).map Prod.fst =
      if name ∈ entries.map Prod.fst then entries.map Prod.fst
      else entries.map Prod.fst ++ [name] := by
  induction entries with
  | nil => rfl
  | cons entry rest ih =>
    rw [put]
    by_cases h : entry.1 = name
    · subst h
      simp
    · have hne : ¬ name = entry.1 := fun he => h he.symm
      rw [if_neg h, List.map_cons, ih]
      simp only [List.map_cons, List.mem_cons, hne, false_or]
      split <;> rfl

theorem names_insert (b : Bindings α) (name : String) (value : α) :
    (b.insert name value).names = if name ∈ b.names then b.names else b.names ++ [name] :=
  names_put name value b.entries

end Bindings

namespace Scopes

variable {α : Type}

/-- The name, the parent and the serial number of each record. -/
def labels (s : Scopes α) : List (String × Option Nat × UInt32) :=
  s.records.toList.map fun r => (r.name, r.parent, r.serial)

/-- The names bound in the record at a place. -/
def namesAt (s : Scopes α) (index : Nat) : List String :=
  (s.records[index]?.map fun r => r.bindings.names).getD []

/-- The records are those of before. So are the names in each, except that there may
be more in the record at the place `grown`. -/
structure Extends (grown : Option Nat) (before after : Scopes α) : Prop where
  labels_eq : after.labels = before.labels
  names_eq : ∀ i, grown ≠ some i → after.namesAt i = before.namesAt i
  grows : ∀ i, before.namesAt i <+: after.namesAt i

theorem length_labels (s : Scopes α) : s.labels.length = s.size := by
  simp [labels, size]

variable {grown : Option Nat} {before mid after s t : Scopes α}

theorem Extends.size_eq (h : Extends grown before after) : after.size = before.size := by
  rw [← length_labels, h.labels_eq, length_labels]

theorem Extends.active_eq (h : Extends grown before after) : after.active = before.active := by
  rw [active, h.size_eq, active]

theorem Extends.refl (grown : Option Nat) (s : Scopes α) : Extends grown s s :=
  ⟨rfl, fun _ _ => rfl, fun _ => List.prefix_rfl⟩

theorem Extends.trans (h : Extends grown before mid) (h' : Extends grown mid after) :
    Extends grown before after where
  labels_eq := h'.labels_eq.trans h.labels_eq
  names_eq i hi := (h'.names_eq i hi).trans (h.names_eq i hi)
  grows i := (h.grows i).trans (h'.grows i)

/-- Keeping all names is the strongest of these. -/
theorem Extends.weaken (h : Extends none before after) (grown : Option Nat) :
    Extends grown before after where
  labels_eq := h.labels_eq
  names_eq i _ := h.names_eq i nofun
  grows := h.grows

/-- Binding keeps every record, and the names in all but one. -/
theorem extends_setAt (s : Scopes α) (index : Nat) (name : String) (value : α) :
    Extends (some index) s (s.setAt index name value) where
  labels_eq := by
    apply List.ext_getElem?
    intro i
    simp only [labels, setAt, List.getElem?_map, Array.getElem?_toList, Array.getElem?_modify]
    split
    · rw [Option.map_map]
      rfl
    · rfl
  names_eq i hi := by
    have hne : index ≠ i := fun h => hi (congrArg some h)
    rw [namesAt, setAt, Array.getElem?_modify, if_neg hne, namesAt]
  grows i := by
    rw [namesAt, namesAt, setAt, Array.getElem?_modify]
    split
    · cases s.records[i]? with
      | none => exact List.prefix_rfl
      | some r =>
        simp only [Option.map_some, Option.getD_some, Bindings.names_insert]
        split
        · exact List.prefix_rfl
        · exact List.prefix_append ..
    · exact List.prefix_rfl

/-- Binding a name that is bound there keeps the names. -/
theorem extends_setAt_bound {index : Nat} {name : String} (value : α)
    (h : (s.bindingAt index name).isSome) : Extends none s (s.setAt index name value) where
  labels_eq := (extends_setAt s index name value).labels_eq
  grows := (extends_setAt s index name value).grows
  names_eq i _ := by
    by_cases hi : index = i
    · subst hi
      rw [bindingAt] at h
      rw [namesAt, namesAt, setAt, Array.getElem?_modify, if_pos rfl]
      cases hr : s.records[index]? with
      | none => rfl
      | some r =>
        rw [hr, Option.bind_some] at h
        have hmem : name ∈ r.bindings.names := (r.bindings.mem_names_iff name).mpr h
        simp only [Option.map_some, Option.getD_some, Bindings.names_insert, if_pos hmem]
    · exact (extends_setAt s index name value).names_eq i (fun he => hi (Option.some.inj he))

theorem extends_assign {name : String} {value old : α} (h : s.assign name value = some (old, t)) :
    Extends none s t := by
  obtain ⟨place, hbound, rfl⟩ := exists_slot_of_assign h
  exact extends_setAt_bound value (by rw [hbound]; rfl)

theorem size_pushAt (s : Scopes α) (name : String) (parent : Nat) :
    (s.pushAt name parent).size = s.size + 1 := Array.size_push ..

theorem active_pushAt (s : Scopes α) (name : String) (parent : Nat) :
    (s.pushAt name parent).active = s.size := by
  rw [active, size_pushAt, Nat.add_sub_cancel]

theorem namesAt_pushAt (s : Scopes α) (name : String) (parent : Nat) {i : Nat} (hi : i < s.size) :
    (s.pushAt name parent).namesAt i = s.namesAt i := by
  have hne : i ≠ s.records.size := Nat.ne_of_lt hi
  rw [namesAt, pushAt, Array.getElem?_push, if_neg hne, namesAt]

theorem namesAt_of_size_le (s : Scopes α) {i : Nat} (hi : s.size ≤ i) : s.namesAt i = [] := by
  rw [namesAt, Array.getElem?_eq_none hi]
  rfl

/-- The root scope stays. -/
theorem labels_truncate_max (s : Scopes α) (n : Nat) :
    (s.truncate n).labels = s.labels.take (max n 1) := by
  rw [labels, truncate, Array.toList_shrink, List.map_take, labels]

theorem labels_truncate (s : Scopes α) {n : Nat} (hn : 0 < n) :
    (s.truncate n).labels = s.labels.take n := by
  rw [labels_truncate_max, Nat.max_eq_left hn]

theorem namesAt_truncate (s : Scopes α) {n i : Nat} (hi : i < n) :
    (s.truncate n).namesAt i = s.namesAt i := by
  have hlt : i < max n 1 := Nat.lt_of_lt_of_le hi (Nat.le_max_left ..)
  rw [namesAt, truncate, ← Array.getElem?_toList, Array.toList_shrink, List.getElem?_take,
    if_pos hlt, Array.getElem?_toList, namesAt]

/-- A scope that is opened, extended and closed leaves nothing behind. -/
theorem extends_truncate {name : String} {parent : Nat} (hsize : 0 < s.size)
    (h : Extends (some s.size) (s.pushAt name parent) t) : Extends none s (t.truncate s.size) := by
  have hlabels : (t.truncate s.size).labels = s.labels := by
    rw [labels_truncate t hsize, h.labels_eq, labels, pushAt, Array.toList_push, List.map_append,
      List.take_append_of_le_length (by simp [size]), ← labels, ← length_labels, List.take_length]
  have hnames : ∀ i, (t.truncate s.size).namesAt i = s.namesAt i := by
    intro i
    by_cases hi : i < s.size
    · have hne : some s.size ≠ some i := fun he => Nat.ne_of_gt hi (Option.some.inj he)
      rw [namesAt_truncate t hi, h.names_eq i hne, namesAt_pushAt s name parent hi]
    · have hsizes : (t.truncate s.size).size = s.size := by
        rw [← length_labels, hlabels, length_labels]
      rw [namesAt_of_size_le _ (by omega), namesAt_of_size_le _ (by omega)]
  exact ⟨hlabels, fun i _ => hnames i, fun i => (hnames i).symm ▸ List.prefix_rfl⟩

/-- Binding names in the active scope, one after the other. -/
theorem extends_foldl_set (entries : List (String × α)) (s : Scopes α) :
    Extends (some s.active) s (entries.foldl (fun s entry => s.set entry.1 entry.2) s) := by
  induction entries generalizing s with
  | nil => exact .refl _ s
  | cons entry entries ih =>
    have hset : Extends (some s.active) s (s.set entry.1 entry.2) := extends_setAt ..
    have hrest := ih (s.set entry.1 entry.2)
    rw [hset.active_eq] at hrest
    exact hset.trans hrest

end Scopes

end GradualScript
