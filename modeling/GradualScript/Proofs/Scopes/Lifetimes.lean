import Mathlib
import GradualScript.Proofs.Scopes.Chains

/-!
# Lifetimes of scopes

A place in the array of scopes is used again once its scope is gone. An identifier that
was taken at some moment is live later exactly while its own scope is still there: the
serial numbers of all scopes that were ever pushed differ, as long as they do not wrap.
-/
namespace GradualScript.Scopes

variable {α : Type}

/-- What can be done to scopes. -/
inductive Operation (α : Type) where
  | push (name : String)
  | pushUnder (name : String) (parent : ScopeId)
  | pop
  | truncate (size : Nat)
  | set (name : String) (value : α)
  | assign (name : String) (value : α)

/-- The operation opens a scope. -/
def Operation.isPush : Operation α → Bool
  | push _ | pushUnder _ _ => true
  | _ => false

/-- An assignment to a name that is not bound changes nothing. -/
def apply (s : Scopes α) : Operation α → Scopes α
  | .push name => s.push name
  | .pushUnder name parent => s.pushUnder name parent
  | .pop => s.pop
  | .truncate size => s.truncate size
  | .set name value => s.set name value
  | .assign name value => ((s.assign name value).map Prod.snd).getD s

/-- The scopes after some operations, one after the other. -/
def after (s : Scopes α) (ops : List (Operation α)) : Scopes α := ops.foldl apply s

/-- The number of scopes that the operations open. -/
def pushes (ops : List (Operation α)) : Nat := ops.countP Operation.isPush

/-- The scope at the place is there from now until all operations are done. A scope goes
when the array shrinks to its place or below. -/
def Stays (s : Scopes α) (index : Nat) (ops : List (Operation α)) : Prop :=
  ∀ done, done <+: ops → index < (s.after done).size

/-- The name of the scope at a place. -/
def nameAt (s : Scopes α) (index : Nat) : Option String := s.records[index]?.map Scope.name

/-- The identifiers of the scope at a place and of its ancestors. -/
def ancestry (s : Scopes α) (index : Nat) : List ScopeId := (s.chainFrom index).map s.idAt

@[simp] theorem after_nil (s : Scopes α) : s.after [] = s := rfl

@[simp] theorem after_concat (s : Scopes α) (ops : List (Operation α)) (op : Operation α) :
    s.after (ops ++ [op]) = (s.after ops).apply op := by
  simp [after]

theorem after_append (s : Scopes α) (ops more : List (Operation α)) :
    s.after (ops ++ more) = (s.after ops).after more := by
  simp [after]

@[simp] theorem pushes_concat (ops : List (Operation α)) (op : Operation α) :
    pushes (ops ++ [op]) = pushes ops + if op.isPush then 1 else 0 := by
  simp [pushes, List.countP_append, List.countP_singleton]

theorem nameAt_eq (s : Scopes α) (index : Nat) :
    s.nameAt index = s.labels[index]?.map Prod.fst := by
  rw [getElem?_labels, Option.map_map]
  rfl

/-- Scopes with the same labels up to a place have the same scope there, with the same
ancestors. -/
theorem ancestry_congr {s t : Scopes α} {index : Nat}
    (h : s.labels.take (index + 1) = t.labels.take (index + 1)) :
    s.ancestry index = t.ancestry index := by
  have hlabel : ∀ i ≤ index, s.labels[i]? = t.labels[i]? := by
    intro i hi
    have hi' := congrArg (·[i]?) h
    simpa [List.getElem?_take, Nat.lt_succ_of_le hi] using hi'
  have hchain : s.chainFrom index = t.chainFrom index :=
    chainFrom_congr fun i _ hi => by rw [parentAt_eq, parentAt_eq, hlabel i hi]
  rw [ancestry, ancestry, hchain]
  refine List.map_congr_left fun i hi => ?_
  rw [idAt_eq, idAt_eq, hlabel i (t.mem_chainFrom_le index i hi)]

/-- An operation either appends one scope, under one that is there, or keeps some of the
first scopes. -/
theorem labels_apply {s : Scopes α} (hsize : 0 < s.size) (op : Operation α) :
    (op.isPush = true ∧ ∃ name parent, parent < s.size ∧
      (s.apply op).labels = s.labels ++ [(name, some parent, s.nextSerial)] ∧
      (s.apply op).nextSerial = s.nextSerial + 1) ∨
    (op.isPush = false ∧ ∃ n, 0 < n ∧ (s.apply op).labels = s.labels.take n ∧
      (s.apply op).nextSerial = s.nextSerial) := by
  have hall : s.labels.take s.size = s.labels := by rw [← length_labels, List.take_length]
  cases op with
  | push name =>
    exact .inl ⟨rfl, name, s.active, by rw [active]; omega, s.labels_pushAt name s.active, rfl⟩
  | pushUnder name parent =>
    refine .inl ⟨rfl, name, _, ?_, s.labels_pushAt name _, rfl⟩
    split
    · next hlive =>
      obtain ⟨label, hlabel, -⟩ := (s.isLive_iff parent).mp hlive
      rw [← length_labels]
      exact (List.getElem?_eq_some_iff.mp hlabel).1
    · exact hsize
  | pop => exact .inr ⟨rfl, max s.active 1, by omega, s.labels_truncate_max s.active, rfl⟩
  | truncate n => exact .inr ⟨rfl, max n 1, by omega, s.labels_truncate_max n, rfl⟩
  | set name value =>
    exact .inr ⟨rfl, s.size, hsize, (extends_setAt s s.active name value).labels_eq.trans hall.symm,
      rfl⟩
  | assign name value =>
    refine .inr ⟨rfl, s.size, hsize, ?_⟩
    rw [hall, apply]
    cases h : s.assign name value with
    | none => exact ⟨rfl, rfl⟩
    | some result =>
      obtain ⟨place, -, heq⟩ := exists_slot_of_assign (t := result.2) h
      exact ⟨(extends_assign (t := result.2) h).labels_eq, by simp [heq, setAt]⟩

/-- The scopes form a tree with its root at the first place. -/
structure Rooted (s : Scopes α) : Prop where
  first : ∃ name, s.labels[0]? = some (name, none, 0)
  parents : ∀ i label, 0 < i → s.labels[i]? = some label → ∃ parent < i, label.2.1 = some parent

/-- After `pushed` pushes, the next serial number is the next one, and no scope has a
later one. -/
structure Numbered (pushed : Nat) (s : Scopes α) : Prop where
  next : s.nextSerial = UInt32.ofNat (pushed + 1)
  serials : ∀ (i : Nat) (label : String × Option Nat × UInt32), s.labels[i]? = some label →
    label.2.2.toNat ≤ pushed

theorem Rooted.size_pos {s : Scopes α} (h : s.Rooted) : 0 < s.size := by
  obtain ⟨name, hname⟩ := h.first
  rw [← length_labels]
  exact (List.getElem?_eq_some_iff.mp hname).1

theorem rooted_new (name : String) : (new name : Scopes α).Rooted := by
  refine ⟨⟨name, rfl⟩, fun i label hi h => ?_⟩
  have hlt := (List.getElem?_eq_some_iff.mp h).1
  simp [labels, new] at hlt
  omega

theorem numbered_new (name : String) : (new name : Scopes α).Numbered 0 := by
  refine ⟨rfl, fun i label h => ?_⟩
  have hlabel : label = (name, none, 0) := by
    simpa [labels, new] using List.mem_of_getElem? h
  rw [hlabel]
  exact Nat.le_refl 0

theorem Rooted.apply {s : Scopes α} (h : s.Rooted) (op : Operation α) : (s.apply op).Rooted := by
  obtain ⟨name, hroot⟩ := h.first
  rcases labels_apply h.size_pos op with ⟨-, new, parent, hparent, hlabels, -⟩ | ⟨-, n, hn, hlabels, -⟩
  · rw [← length_labels] at hparent
    refine ⟨⟨name, ?_⟩, fun i label hi hlabel => ?_⟩
    · rw [hlabels, List.getElem?_append_left (by omega), hroot]
    · rw [hlabels, List.getElem?_append] at hlabel
      split at hlabel
      · exact h.parents i label hi hlabel
      · have hlabel' := List.mem_singleton.mp (List.mem_of_getElem? hlabel)
        exact ⟨parent, by omega, by rw [hlabel']⟩
  · refine ⟨⟨name, by rw [hlabels, List.getElem?_take, if_pos hn, hroot]⟩, fun i label hi hlabel => ?_⟩
    rw [hlabels, List.getElem?_take] at hlabel
    split at hlabel
    · exact h.parents i label hi hlabel
    · cases hlabel

theorem Rooted.after {s : Scopes α} (h : s.Rooted) (ops : List (Operation α)) :
    (s.after ops).Rooted := by
  induction ops generalizing s with
  | nil => exact h
  | cons op ops ih => exact ih (h.apply op)

theorem toNat_serial {pushed : Nat} {s : Scopes α} (h : s.Numbered pushed)
    (hbound : pushed + 1 < 2 ^ 32) : s.nextSerial.toNat = pushed + 1 := by
  rw [h.next, UInt32.toNat_ofNat', Nat.mod_eq_of_lt hbound]

theorem Numbered.apply {pushed : Nat} {s : Scopes α} (h : s.Numbered pushed) (hrooted : s.Rooted)
    (op : Operation α) (hbound : pushed + (if op.isPush then 1 else 0) < 2 ^ 32) :
    (s.apply op).Numbered (pushed + if op.isPush then 1 else 0) := by
  rcases labels_apply hrooted.size_pos op with
    ⟨hpush, new, parent, -, hlabels, hnext⟩ | ⟨hpush, n, -, hlabels, hnext⟩
  · rw [hpush, if_pos rfl] at hbound ⊢
    refine ⟨by rw [hnext, h.next, ← UInt32.ofNat_one, ← UInt32.ofNat_add], fun i label hlabel => ?_⟩
    rw [hlabels, List.getElem?_append] at hlabel
    split at hlabel
    · exact Nat.le_succ_of_le (h.serials i label hlabel)
    · have hnew := List.mem_singleton.mp (List.mem_of_getElem? hlabel)
      exact Nat.le_of_eq (by rw [hnew, toNat_serial h hbound])
  · rw [hpush, if_neg Bool.false_ne_true, Nat.add_zero]
    refine ⟨hnext.trans h.next, fun i label hlabel => ?_⟩
    rw [hlabels, List.getElem?_take] at hlabel
    split at hlabel
    · exact h.serials i label hlabel
    · cases hlabel

theorem pushes_append (ops more : List (Operation α)) :
    pushes (ops ++ more) = pushes ops + pushes more := List.countP_append

theorem numbered_after (name : String) (ops : List (Operation α)) (hbound : pushes ops < 2 ^ 32) :
    ((new name).after ops).Numbered (pushes ops) := by
  induction ops using List.reverseRecOn with
  | nil => exact numbered_new name
  | append_singleton ops op ih =>
    rw [pushes_concat] at hbound ⊢
    rw [after_concat]
    exact (ih (by omega)).apply ((rooted_new name).after ops) op hbound

theorem stays_nil {s : Scopes α} {index : Nat} : s.Stays index [] ↔ index < s.size := by
  simp [Stays]

theorem stays_concat {s : Scopes α} {index : Nat} {ops : List (Operation α)} {op : Operation α} :
    s.Stays index (ops ++ [op]) ↔
      s.Stays index ops ∧ index < (s.after (ops ++ [op])).size := by
  simp only [Stays, List.prefix_concat_iff]
  constructor
  · exact fun h => ⟨fun done hdone => h done (.inr hdone), h _ (.inl rfl)⟩
  · rintro ⟨hearlier, hlast⟩ done (rfl | hdone)
    · exact hlast
    · exact hearlier done hdone

theorem Stays.lt_size {s : Scopes α} {index : Nat} {ops : List (Operation α)}
    (h : s.Stays index ops) : index < (s.after ops).size := h ops List.prefix_rfl

/-- A scope that stays keeps its label, and so do all below it. -/
theorem Stays.labels_eq {s : Scopes α} (hs : s.Rooted) {index : Nat} {ops : List (Operation α)}
    (h : s.Stays index ops) :
    (s.after ops).labels.take (index + 1) = s.labels.take (index + 1) := by
  induction ops using List.reverseRecOn with
  | nil => rfl
  | append_singleton ops op ih =>
    obtain ⟨hearlier, hlast⟩ := stays_concat.mp h
    have hthere := hearlier.lt_size
    rw [← length_labels] at hlast hthere
    rw [after_concat] at hlast ⊢
    rw [← ih hearlier]
    rcases labels_apply (hs.after ops).size_pos op with
      ⟨-, name, parent, -, hlabels, -⟩ | ⟨-, n, -, hlabels, -⟩
    · rw [hlabels, List.take_append_of_le_length (by omega)]
    · rw [hlabels, List.length_take] at hlast
      rw [hlabels, List.take_take, Nat.min_eq_left (by omega)]

/-- Where a scope has gone, only scopes with later serial numbers come. -/
theorem serial_of_not_stays {rootName : String} {before since : List (Operation α)} {index : Nat}
    {label : String × Option Nat × UInt32} (hbound : pushes (before ++ since) < 2 ^ 32)
    (h : ¬((new rootName).after before).Stays index since)
    (hlabel : (((new rootName).after before).after since).labels[index]? = some label) :
    pushes before < label.2.2.toNat := by
  induction since using List.reverseRecOn with
  | nil =>
    have hlt := (List.getElem?_eq_some_iff.mp hlabel).1
    rw [length_labels] at hlt
    exact absurd (stays_nil.mpr hlt) h
  | append_singleton since op ih =>
    have hlt := (List.getElem?_eq_some_iff.mp hlabel).1
    rw [length_labels] at hlt
    -- There is a scope at the place now, so the other one went before the last operation.
    have hgone : ¬((new rootName).after before).Stays index since :=
      fun hstays => h (stays_concat.mpr ⟨hstays, hlt⟩)
    rw [← List.append_assoc, pushes_concat] at hbound
    have hearlier := ih (by omega) hgone
    have hnumbered := numbered_after rootName (before ++ since) (by omega)
    rw [after_append] at hnumbered
    rw [after_concat] at hlabel
    have hrooted := ((rooted_new rootName).after before).after since
    rcases labels_apply hrooted.size_pos op with
      ⟨hpush, name, parent, -, hlabels, -⟩ | ⟨-, n, -, hlabels, -⟩
    · rw [hlabels, List.getElem?_append] at hlabel
      split at hlabel
      · exact hearlier hlabel
      · rw [hpush, if_pos rfl] at hbound
        rw [List.mem_singleton.mp (List.mem_of_getElem? hlabel), toNat_serial hnumbered hbound,
          pushes_append]
        omega
    · rw [hlabels, List.getElem?_take] at hlabel
      split at hlabel
      · exact hearlier hlabel
      · cases hlabel

theorem Rooted.isLive_root {s : Scopes α} (h : s.Rooted) : s.isLive root = true := by
  obtain ⟨name, hname⟩ := h.first
  exact (s.isLive_iff root).mpr ⟨_, hname, rfl⟩

theorem Rooted.isLive_current {s : Scopes α} (h : s.Rooted) : s.isLive s.current = true := by
  have hlt : s.active < s.labels.length := by
    have hpos := h.size_pos
    rw [length_labels, active]
    omega
  refine (s.isLive_iff s.current).mpr ⟨s.labels[s.active], List.getElem?_eq_getElem hlt, ?_⟩
  rw [current, idAt_eq, List.getElem?_eq_getElem hlt]
  rfl

theorem Rooted.chainFrom_getLast? {s : Scopes α} (h : s.Rooted) {index : Nat}
    (hindex : index < s.size) : (s.chainFrom index).getLast? = some 0 := by
  induction index using Nat.strongRecOn with
  | ind index ih =>
    rw [← length_labels] at hindex
    rw [chainFrom, parentAt_eq]
    by_cases hzero : index = 0
    · obtain ⟨name, hname⟩ := h.first
      subst hzero
      simp [hname]
    · obtain ⟨parent, hlt, hparent⟩ :=
        h.parents index s.labels[index] (by omega) (List.getElem?_eq_getElem hindex)
      rw [List.getElem?_eq_getElem hindex, Option.bind_some, hparent]
      simp only [hlt, if_true]
      rw [List.getLast?_cons, ih parent hlt (by rw [← length_labels]; omega)]
      rfl

/-- The ancestors of every scope end with the root. -/
theorem Rooted.ancestry_getLast? {s : Scopes α} (h : s.Rooted) {index : Nat}
    (hindex : index < s.size) : (s.ancestry index).getLast? = some root := by
  obtain ⟨name, hname⟩ := h.first
  rw [ancestry, List.getLast?_map, h.chainFrom_getLast? hindex, Option.map_some, idAt_eq, hname]
  rfl

/-- An identifier was taken at some moment, of the root or of the active scope: a push
gives that of the scope it opened, which is then active. Later it is live exactly if its
scope has stayed ever since, and then the scope has the name and the ancestors that it
had. The root is always live. Fewer than `2 ^ 32` scopes are pushed in all, so no serial
number comes twice. -/
theorem isLive_iff_stays (rootName : String) (before since : List (Operation α)) (id : ScopeId)
    (hbound : pushes (before ++ since) < 2 ^ 32)
    (hid : id = root ∨ id = ((new rootName).after before).current) :
    let taken := (new rootName).after before
    let later := taken.after since
    (later.isLive id = true ↔ taken.Stays id.index since) ∧
      (later.isLive id = true →
        later.nameAt id.index = taken.nameAt id.index ∧
          later.ancestry id.index = taken.ancestry id.index ∧
          (later.ancestry id.index).head? = some id ∧
          (later.ancestry id.index).getLast? = some root) ∧
      later.isLive root = true := by
  intro taken later
  have hrooted : taken.Rooted := (rooted_new rootName).after before
  have hlive : taken.isLive id = true := by
    rcases hid with rfl | rfl
    · exact hrooted.isLive_root
    · exact hrooted.isLive_current
  obtain ⟨label, hlabel, hserial⟩ := (taken.isLive_iff id).mp hlive
  have hlive_iff : later.isLive id = true ↔ taken.Stays id.index since := by
    rw [isLive_iff]
    constructor
    · rintro ⟨found, hfound, heq⟩
      by_contra hgone
      have hlater := serial_of_not_stays hbound hgone hfound
      rw [pushes_append] at hbound
      have hearlier := (numbered_after rootName before (by omega)).serials id.index label hlabel
      rw [heq, ← hserial] at hlater
      omega
    · intro hstays
      have hsame := congrArg (·[id.index]?) (hstays.labels_eq hrooted)
      simp only [List.getElem?_take, Nat.lt_succ_self, if_true] at hsame
      exact ⟨label, hsame.trans hlabel, hserial⟩
  refine ⟨hlive_iff, fun h => ?_, (hrooted.after since).isLive_root⟩
  have hstays := hlive_iff.mp h
  have hlabels := hstays.labels_eq hrooted
  obtain ⟨found, hfound, heq⟩ := (later.isLive_iff id).mp h
  refine ⟨?_, ancestry_congr hlabels, ?_, (hrooted.after since).ancestry_getLast? hstays.lt_size⟩
  · have hsame := congrArg (·[id.index]?) hlabels
    simp only [List.getElem?_take, Nat.lt_succ_self, if_true] at hsame
    rw [nameAt_eq, nameAt_eq, hsame]
  · rw [ancestry, List.head?_map, chainFrom_head?, Option.map_some, idAt_eq, hfound,
      Option.map_some, heq]
    rfl

/-- The frame of a call comes to the place of a block that was closed. -/
theorem isLive_iff_stays_reused :
    let before : List (Operation Nat) := [.push "decl", .set "x" 1, .push "block"]
    let since : List (Operation Nat) := [.pop, .pushUnder "frame" ⟨1, 1⟩, .assign "x" 2]
    let taken := (new "global").after before
    let later := taken.after since
    pushes (before ++ since) < 2 ^ 32 ∧ (⟨2, 2⟩ = root ∨ ⟨2, 2⟩ = taken.current) ∧
      (later.isLive ⟨2, 2⟩ = true ↔ taken.Stays 2 since) ∧
      (later.isLive ⟨2, 2⟩ = true →
        later.nameAt 2 = taken.nameAt 2 ∧ later.ancestry 2 = taken.ancestry 2 ∧
          (later.ancestry 2).head? = some ⟨2, 2⟩ ∧ (later.ancestry 2).getLast? = some root) ∧
      later.isLive root = true :=
  ⟨by decide, .inr (by decide),
    isLive_iff_stays "global" _ _ ⟨2, 2⟩ (by decide) (.inr (by decide))⟩

end GradualScript.Scopes
