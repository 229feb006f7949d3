import Mathlib.Data.List.Basic
import GradualScript.Proofs.Scopes.Matching

/-!
# Scopes up to their places

Two runs may keep the same scopes at different places of their arrays, and one of them
may have empty scopes in between that the other does without. A renaming sends the places
of the second to those of the first, and the places of extra scopes nowhere. Then lookups
find the same bindings, and identifiers that correspond are live together: a scope that
is opened gets a serial number that no identifier has, until the numbers are used up.
-/
namespace GradualScript.Scopes

variable {α β : Type}

/-- The last serial number that was given out. -/
def issued (s : Scopes α) : Nat := (s.nextSerial - 1).toNat

/-- All scopes have serial numbers that were given out. -/
def Dated (s : Scopes α) : Prop :=
  ∀ (i : Nat) (label : String × Option Nat × UInt32), s.labels[i]? = some label →
    label.2.2.toNat ≤ s.issued

/-- The same scopes, after more serial numbers have been given out. -/
structure Later (s t : Scopes α) : Prop where
  labels_eq : t.labels = s.labels
  issued_le : s.issued ≤ t.issued

variable {s s' : Scopes α} {t t' : Scopes β} {id : ScopeId}

theorem toNat_nextSerial (h : s.nextSerial ≠ 0) : s.nextSerial.toNat = s.issued + 1 := by
  have hpos : s.nextSerial.toNat ≠ 0 := fun hzero => h (UInt32.toNat_inj.mp hzero)
  have hle : (1 : UInt32) ≤ s.nextSerial := by
    rw [UInt32.le_iff_toNat_le]
    show 1 ≤ _
    omega
  rw [issued, UInt32.toNat_sub_of_le _ _ hle]
  show _ = _ - 1 + 1
  omega

/-- Numbers that are left for one array are left for an array with fewer scopes opened. -/
theorem nextSerial_ne_zero (hle : s.issued ≤ t.issued) (h : t.nextSerial ≠ 0) :
    s.nextSerial ≠ 0 := by
  have ht := toNat_nextSerial h
  have hlt := t.nextSerial.toNat_lt
  intro hzero
  rw [issued, hzero] at hle
  have hlast : ((0 : UInt32) - 1).toNat = 2 ^ 32 - 1 := by decide
  omega

theorem issued_pushAt (h : s.nextSerial ≠ 0) (name : String) (parent : Nat) :
    (s.pushAt name parent).issued = s.issued + 1 := by
  rw [← toNat_nextSerial h, issued, pushAt, UInt32.add_sub_cancel]

theorem Dated.pushAt (h : s.Dated) (hnext : s.nextSerial ≠ 0) (name : String) (parent : Nat) :
    (s.pushAt name parent).Dated := by
  intro i label hlabel
  rw [issued_pushAt hnext]
  rw [labels_pushAt, List.getElem?_append] at hlabel
  split at hlabel
  · have hold := h i label hlabel
    omega
  · have hnew := toNat_nextSerial hnext
    rw [List.mem_singleton.mp (List.mem_of_getElem? hlabel)]
    exact Nat.le_of_eq hnew

/-- An identifier that was given out before is not taken for a scope that is opened now. -/
theorem isLive_pushAt (hid : id.serial.toNat ≤ s.issued) (hnext : s.nextSerial ≠ 0) (name : String)
    (parent : Nat) : (s.pushAt name parent).isLive id = s.isLive id := by
  rw [Bool.eq_iff_iff, isLive_iff, isLive_iff, labels_pushAt]
  by_cases hold : id.index < s.labels.length
  · rw [List.getElem?_append_left hold]
  · rw [List.getElem?_append_right (by omega),
      List.getElem?_eq_none (by omega : s.labels.length ≤ id.index)]
    constructor
    · rintro ⟨label, hlabel, hserial⟩
      rw [List.mem_singleton.mp (List.mem_of_getElem? hlabel)] at hserial
      rw [← hserial, toNat_nextSerial hnext] at hid
      omega
    · rintro ⟨label, hlabel, -⟩
      cases hlabel

theorem isLive_idAt {i : Nat} (hi : i < s.size) : s.isLive (s.idAt i) = true := by
  rw [← length_labels] at hi
  rw [isLive_iff, idAt_eq, List.getElem?_eq_getElem hi]
  exact ⟨_, rfl, rfl⟩

theorem lt_size_of_isLive (h : s.isLive id = true) : id.index < s.size := by
  obtain ⟨label, hlabel, -⟩ := (s.isLive_iff id).mp h
  rw [← length_labels]
  exact (List.getElem?_eq_some_iff.mp hlabel).1

theorem isLive_truncate {n : Nat} (hn : 0 < n) :
    (s.truncate n).isLive id = true ↔ s.isLive id = true ∧ id.index < n := by
  rw [isLive_iff, isLive_iff, labels_truncate s hn, List.getElem?_take]
  split
  · next hlt => simp [hlt]
  · next hlt => simp [hlt]

namespace Later

variable {u : Scopes α}

theorem refl (s : Scopes α) : Later s s := ⟨rfl, Nat.le_refl _⟩

theorem trans (h : Later s s') (h' : Later s' u) : Later s u :=
  ⟨h'.labels_eq.trans h.labels_eq, Nat.le_trans h.issued_le h'.issued_le⟩

theorem size_eq (h : Later s s') : s'.size = s.size := by
  rw [← length_labels, h.labels_eq, length_labels]

theorem active_eq (h : Later s s') : s'.active = s.active := by
  rw [active, h.size_eq, active]

theorem isLive_eq (h : Later s s') (id : ScopeId) : s'.isLive id = s.isLive id := by
  rw [Bool.eq_iff_iff, isLive_iff, isLive_iff, h.labels_eq]

theorem chainFrom_eq (h : Later s s') (i : Nat) : s'.chainFrom i = s.chainFrom i :=
  chainFrom_congr fun j _ _ => by rw [parentAt_eq, parentAt_eq, h.labels_eq]

theorem dated (h : Later s s') (hs : s.Dated) : s'.Dated := by
  intro i label hlabel
  rw [h.labels_eq] at hlabel
  exact Nat.le_trans (hs i label hlabel) h.issued_le

/-- What was opened and closed again leaves the same scopes. -/
theorem truncate {name : String} {parent : Nat} (hsize : 0 < s.size) (hnext : s.nextSerial ≠ 0)
    (h : Later (s.pushAt name parent) s') : Later s (s'.truncate s.size) where
  labels_eq := by
    rw [labels_truncate s' hsize, h.labels_eq, labels_pushAt,
      List.take_append_of_le_length (Nat.le_of_eq (length_labels s).symm), ← length_labels,
      List.take_length]
  issued_le := by
    have hle := h.issued_le
    rw [issued_pushAt hnext] at hle
    show s.issued ≤ s'.issued
    omega

end Later

variable {σ : Nat → Option Nat} {i j : Nat} {a b : ScopeId}

/-- The places of `t` go to places of `s` with the same ancestors, but for extra scopes,
which go nowhere. No fewer serial numbers were given out for `t` than for `s`. -/
structure Renames (σ : Nat → Option Nat) (s : Scopes α) (t : Scopes β) : Prop where
  root : σ 0 = some 0
  within : ∀ {i j}, σ j = some i → i < s.size ∧ j < t.size
  inj : ∀ {i j k}, σ j = some i → σ k = some i → j = k
  chains : ∀ {i j}, σ j = some i → (t.chainFrom j).filterMap σ = s.chainFrom i
  dated : s.Dated
  dated' : t.Dated
  issued_le : s.issued ≤ t.issued

/-- Lookups from one place take the course of those from the other. -/
def Level (σ : Nat → Option Nat) (s : Scopes α) (t : Scopes β) (i j : Nat) : Prop :=
  i < s.size ∧ j < t.size ∧ (t.chainFrom j).filterMap σ = s.chainFrom i

/-- A renaming after a scope was opened in both. -/
def opening (σ : Nat → Option Nat) (s : Scopes α) (t : Scopes β) : Nat → Option Nat :=
  Function.update σ t.size (some s.size)

/-- The scopes of both identifiers are live or not, and if so they are at places that
belong together. -/
structure Corresponds (σ : Nat → Option Nat) (s : Scopes α) (t : Scopes β) (a b : ScopeId) :
    Prop where
  live_eq : s.isLive a = t.isLive b
  place : s.isLive a = true → σ b.index = some a.index
  issued : a.serial.toNat ≤ s.issued
  issued' : b.serial.toNat ≤ t.issued

theorem opening_new (σ : Nat → Option Nat) (s : Scopes α) (t : Scopes β) :
    opening σ s t t.size = some s.size := Function.update_self ..

theorem opening_old (hj : j < t.size) : opening σ s t j = σ j :=
  Function.update_of_ne (Nat.ne_of_lt hj) ..

theorem chainFrom_pushAt (hi : i < s.size) (name : String) (parent : Nat) :
    (s.pushAt name parent).chainFrom i = s.chainFrom i := by
  refine chainFrom_congr fun k _ hk => ?_
  rw [parentAt_eq, parentAt_eq, labels_pushAt,
    List.getElem?_append_left (by rw [length_labels]; omega)]

/-- Of the places on a chain the new scope is none. -/
theorem filterMap_opening (hj : j < t.size) :
    (t.chainFrom j).filterMap (opening σ s t) = (t.chainFrom j).filterMap σ := by
  refine List.filterMap_congr fun k hk => ?_
  have hle := t.mem_chainFrom_le j k hk
  exact opening_old (by omega)

namespace Renames

theorem size_pos (h : Renames σ s t) : 0 < s.size ∧ 0 < t.size := h.within h.root

theorem level (h : Renames σ s t) (hij : σ j = some i) : Level σ s t i j :=
  ⟨(h.within hij).1, (h.within hij).2, h.chains hij⟩

theorem level_root (h : Renames σ s t) : Level σ s t Scopes.root.index Scopes.root.index :=
  h.level h.root

/-- With time the places stay. -/
theorem later (h : Renames σ s t) (hs : Later s s') (ht : Later t t')
    (hle : s'.issued ≤ t'.issued) : Renames σ s' t' where
  root := h.root
  within hij := by
    rw [hs.size_eq, ht.size_eq]
    exact h.within hij
  inj := h.inj
  chains hij := by
    rw [ht.chainFrom_eq, hs.chainFrom_eq]
    exact h.chains hij
  dated := hs.dated h.dated
  dated' := ht.dated h.dated'
  issued_le := hle

/-- A scope is opened in both. -/
theorem pushAt (h : Renames σ s t) (hlevel : Level σ s t i j) (hnext : t.nextSerial ≠ 0)
    (name name' : String) :
    Renames (opening σ s t) (s.pushAt name i) (t.pushAt name' j) := by
  have hnext' := nextSerial_ne_zero h.issued_le hnext
  obtain ⟨hi, hj, hchain⟩ := hlevel
  have hcases : ∀ {k l}, opening σ s t l = some k →
      (l = t.size ∧ k = s.size) ∨ (σ l = some k ∧ k < s.size ∧ l < t.size) := by
    intro k l hkl
    by_cases hl : l = t.size
    · rw [hl, opening_new] at hkl
      exact .inl ⟨hl, (Option.some.inj hkl).symm⟩
    · rw [opening, Function.update_of_ne hl] at hkl
      exact .inr ⟨hkl, h.within hkl⟩
  refine ⟨?_, fun hkl => ?_, fun hjk hlk => ?_, fun {k l} hkl => ?_, h.dated.pushAt hnext' name i,
    h.dated'.pushAt hnext name' j, ?_⟩
  · rw [opening_old h.size_pos.2, h.root]
  · rw [size_pushAt, size_pushAt]
    rcases hcases hkl with ⟨rfl, rfl⟩ | ⟨-, hk, hl⟩
    · omega
    · omega
  · rcases hcases hjk with ⟨rfl, rfl⟩ | ⟨hold, hk, -⟩
    · rcases hcases hlk with ⟨rfl, -⟩ | ⟨-, hk, -⟩
      · rfl
      · omega
    · rcases hcases hlk with ⟨-, rfl⟩ | ⟨hold', -, -⟩
      · omega
      · exact h.inj hold hold'
  · rcases hcases hkl with ⟨rfl, rfl⟩ | ⟨hold, hk, hl⟩
    · have hnew := chain_pushAt hi name
      have hnew' := chain_pushAt hj name'
      rw [chain, active_pushAt] at hnew hnew'
      rw [hnew, hnew', List.filterMap_cons_some (opening_new σ s t), filterMap_opening hj, hchain]
    · rw [chainFrom_pushAt hk, chainFrom_pushAt hl, filterMap_opening hl, h.chains hold]
  · rw [issued_pushAt hnext, issued_pushAt hnext']
    exact Nat.succ_le_succ h.issued_le

/-- An extra scope is opened in one. -/
theorem pushExtra (h : Renames σ s t) (hnext : t.nextSerial ≠ 0) (name : String) (parent : Nat) :
    Renames σ s (t.pushAt name parent) where
  root := h.root
  within hij := by
    rw [size_pushAt]
    exact ⟨(h.within hij).1, Nat.lt_succ_of_lt (h.within hij).2⟩
  inj := h.inj
  chains hij := by
    rw [chainFrom_pushAt (h.within hij).2]
    exact h.chains hij
  dated := h.dated
  dated' := h.dated'.pushAt hnext name parent
  issued_le := by
    rw [issued_pushAt hnext]
    exact Nat.le_succ_of_le h.issued_le

end Renames

/-- From an extra scope a lookup goes on as from its parent. -/
theorem Level.pushExtra (h : Level σ s t i j) (hR : Renames σ s t) (name : String) :
    Level σ s (t.pushAt name j) i t.size := by
  obtain ⟨hi, hj, hchain⟩ := h
  have hnew := chain_pushAt hj name
  have hextra : σ t.size = none := by
    cases hσ : σ t.size with
    | none => rfl
    | some k => exact absurd (hR.within hσ).2 (Nat.lt_irrefl _)
  rw [chain, active_pushAt] at hnew
  refine ⟨hi, by rw [size_pushAt]; omega, ?_⟩
  rw [hnew, List.filterMap_cons_none hextra, hchain]

theorem Level.later (h : Level σ s t i j) (hs : Later s s') (ht : Later t t') :
    Level σ s' t' i j := by
  rw [Level, hs.size_eq, ht.size_eq, ht.chainFrom_eq, hs.chainFrom_eq]
  exact h

namespace Corresponds

/-- The active scopes belong together, so their identifiers do. -/
theorem current (h : Renames σ s t) (hactive : σ t.active = some s.active) :
    Corresponds σ s t s.current t.current := by
  obtain ⟨hi, hj⟩ := h.within hactive
  have hlive := isLive_idAt hi
  have hlive' := isLive_idAt hj
  have hserial : ∀ {γ : Type} {u : Scopes γ} {k : Nat}, u.Dated → k < u.size →
      (u.idAt k).serial.toNat ≤ u.issued := by
    intro γ u k hdated hk
    rw [← length_labels] at hk
    rw [idAt_eq, List.getElem?_eq_getElem hk]
    exact hdated k _ (List.getElem?_eq_getElem hk)
  exact ⟨hlive.trans hlive'.symm, fun _ => hactive, hserial h.dated hi, hserial h.dated' hj⟩

theorem later (h : Corresponds σ s t a b) (hs : Later s s') (ht : Later t t') :
    Corresponds σ s' t' a b where
  live_eq := by rw [hs.isLive_eq, ht.isLive_eq, h.live_eq]
  place hlive := h.place (by rwa [hs.isLive_eq] at hlive)
  issued := Nat.le_trans h.issued hs.issued_le
  issued' := Nat.le_trans h.issued' ht.issued_le

theorem pushAt (h : Corresponds σ s t a b) (hR : Renames σ s t) (hnext : t.nextSerial ≠ 0)
    (name name' : String) (i j : Nat) :
    Corresponds (opening σ s t) (s.pushAt name i) (t.pushAt name' j) a b := by
  have hnext' := nextSerial_ne_zero hR.issued_le hnext
  refine ⟨?_, fun hlive => ?_, ?_, ?_⟩
  · rw [isLive_pushAt h.issued hnext', isLive_pushAt h.issued' hnext, h.live_eq]
  · rw [isLive_pushAt h.issued hnext'] at hlive
    have hplace := h.place hlive
    rw [opening_old (hR.within hplace).2, hplace]
  · rw [issued_pushAt hnext']
    exact Nat.le_succ_of_le h.issued
  · rw [issued_pushAt hnext]
    exact Nat.le_succ_of_le h.issued'

theorem pushExtra (h : Corresponds σ s t a b) (hnext : t.nextSerial ≠ 0) (name : String) (j : Nat) :
    Corresponds σ s (t.pushAt name j) a b where
  live_eq := by rw [isLive_pushAt h.issued' hnext, h.live_eq]
  place := h.place
  issued := h.issued
  issued' := by
    rw [issued_pushAt hnext]
    exact Nat.le_succ_of_le h.issued'

/-- Scopes that were opened in both are gone in both. -/
theorem truncate (h : Corresponds (opening σ s t) s' t' a b) (hR : Renames σ s t) :
    Corresponds σ (s'.truncate s.size) (t'.truncate t.size) a b := by
  have hold : s'.isLive a = true →
      σ b.index = some a.index ∨ (b.index = t.size ∧ a.index = s.size) := by
    intro hlive
    have hplace := h.place hlive
    by_cases hb : b.index = t.size
    · rw [hb, opening_new] at hplace
      exact .inr ⟨hb, (Option.some.inj hplace).symm⟩
    · rw [opening, Function.update_of_ne hb] at hplace
      exact .inl hplace
  have hiff := h.live_eq
  refine ⟨?_, fun hlive => ?_, h.issued, h.issued'⟩
  · rw [Bool.eq_iff_iff, isLive_truncate hR.size_pos.1, isLive_truncate hR.size_pos.2, ← hiff]
    refine and_congr_right fun hlive => ?_
    rcases hold hlive with hplace | ⟨hb, ha⟩
    · exact iff_of_true (hR.within hplace).1 (hR.within hplace).2
    · omega
  · obtain ⟨hlive, hlt⟩ := (isLive_truncate hR.size_pos.1).mp hlive
    rcases hold hlive with hplace | ⟨-, ha⟩
    · exact hplace
    · omega

/-- An extra scope has no partner that outlives it. -/
theorem truncateExtra (h : Corresponds σ s' t' a b) (hR : Renames σ s t) :
    Corresponds σ s' (t'.truncate t.size) a b where
  live_eq := by
    rw [Bool.eq_iff_iff, isLive_truncate hR.size_pos.2, ← h.live_eq]
    exact ⟨fun hlive => ⟨hlive, (hR.within (h.place hlive)).2⟩, And.left⟩
  place := h.place
  issued := h.issued
  issued' := h.issued'

end Corresponds

variable {R : α → β → Prop}

/-- Places that belong together bind related values to the same names, and the extra
scopes bind nothing. -/
structure Slots (σ : Nat → Option Nat) (R : α → β → Prop) (s : Scopes α) (t : Scopes β) :
    Prop where
  paired : ∀ {i j}, σ j = some i → ∀ name,
    Option.Rel R (s.bindingAt i name) (t.bindingAt j name)
  empty : ∀ {j}, σ j = none → ∀ name, t.bindingAt j name = none

namespace Slots

theorem mono {S : α → β → Prop} (h : Slots σ R s t) (hRS : ∀ x y, R x y → S x y) :
    Slots σ S s t := by
  refine ⟨fun {i j} hij name => ?_, h.empty⟩
  have hslot := h.paired hij name
  generalize s.bindingAt i name = x, t.bindingAt j name = y at hslot
  cases hslot with
  | some hxy => exact .some (hRS _ _ hxy)
  | none => exact .none

/-- A lookup stops at places that belong together. -/
theorem find? (h : Slots σ R s t) (hlevel : Level σ s t s.active t.active) (name : String) :
    Option.Rel (fun found found' => σ found'.1 = some found.1 ∧ R found.2 found'.2)
      (s.find? name) (t.find? name) := by
  rw [Scopes.find?, Scopes.find?, chain, ← hlevel.2.2, ← chain]
  induction t.chain with
  | nil => exact .none
  | cons k rest ih =>
    cases hk : σ k with
    | none =>
      rw [List.filterMap_cons_none hk, List.findSome?_cons, h.empty hk]
      exact ih
    | some i =>
      have hslot := h.paired hk name
      rw [List.filterMap_cons_some hk, List.findSome?_cons, List.findSome?_cons]
      generalize s.bindingAt i name = x, t.bindingAt k name = y at hslot
      cases hslot with
      | some hxy => exact .some ⟨hk, hxy⟩
      | none => exact ih

theorem get (h : Slots σ R s t) (hlevel : Level σ s t s.active t.active) (name : String) :
    Option.Rel R (s.get name) (t.get name) := by
  have hfind := h.find? hlevel name
  rw [Scopes.get, Scopes.get]
  generalize s.find? name = x, t.find? name = y at hfind
  cases hfind with
  | some hxy => exact .some hxy.2
  | none => exact .none

theorem setAt (h : Slots σ R s t) (hR : Renames σ s t) (hij : σ j = some i) (name : String)
    {x : α} {y : β} (hxy : R x y) : Slots σ R (s.setAt i name x) (t.setAt j name y) := by
  refine ⟨fun {k l} hkl key => ?_, fun {l} hl key => ?_⟩
  · rw [bindingAt_setAt, bindingAt_setAt]
    have hplace : i = k ↔ j = l := by
      constructor
      · rintro rfl
        exact hR.inj hij hkl
      · rintro rfl
        exact Option.some.inj (hij.symm.trans hkl)
    have hwithin := hR.within hkl
    simp only [hplace, hwithin.1, hwithin.2, true_and]
    split
    · exact .some hxy
    · exact h.paired hkl key
  · have hne : ¬ j = l := by
      rintro rfl
      rw [hij] at hl
      cases hl
    rw [bindingAt_setAt, if_neg fun hall => hne hall.1]
    exact h.empty hl key

/-- An assignment finds its name in both or in neither. -/
theorem assign (h : Slots σ R s t) (hR : Renames σ s t) (hlevel : Level σ s t s.active t.active)
    (name : String) {x : α} {y : β} (hxy : R x y) :
    Option.Rel (fun found found' => Slots σ R found.2 found'.2)
      (s.assign name x) (t.assign name y) := by
  have hfind := h.find? hlevel name
  rw [Scopes.assign, Scopes.assign]
  generalize s.find? name = p, t.find? name = q at hfind
  cases hfind with
  | some hpq => exact .some (h.setAt hR hpq.1 name hxy)
  | none => exact .none

theorem pushAt (h : Slots σ R s t) (name name' : String) (i j : Nat) :
    Slots (opening σ s t) R (s.pushAt name i) (t.pushAt name' j) := by
  refine ⟨fun {k l} hkl key => ?_, fun {l} hl key => ?_⟩
  · rw [bindingAt_pushAt, bindingAt_pushAt]
    by_cases hnew : l = t.size
    · subst hnew
      rw [opening_new] at hkl
      obtain rfl := Option.some.inj hkl
      rw [bindingAt_of_size_le (Nat.le_refl _), bindingAt_of_size_le (Nat.le_refl _)]
      exact .none
    · rw [opening, Function.update_of_ne hnew] at hkl
      exact h.paired hkl key
  · rw [bindingAt_pushAt]
    by_cases hnew : l = t.size
    · subst hnew
      rw [opening_new] at hl
      cases hl
    · rw [opening, Function.update_of_ne hnew] at hl
      exact h.empty hl key

theorem pushExtra (h : Slots σ R s t) (name : String) (j : Nat) :
    Slots σ R s (t.pushAt name j) := by
  refine ⟨fun hij key => ?_, fun hj key => ?_⟩
  · rw [bindingAt_pushAt]
    exact h.paired hij key
  · rw [bindingAt_pushAt]
    exact h.empty hj key

theorem truncate (h : Slots (opening σ s t) R s' t') (hR : Renames σ s t) :
    Slots σ R (s'.truncate s.size) (t'.truncate t.size) := by
  refine ⟨fun {i j} hij key => ?_, fun {j} hj key => ?_⟩
  · obtain ⟨hi, hlt⟩ := hR.within hij
    rw [bindingAt_truncate, bindingAt_truncate, if_pos (by omega), if_pos (by omega)]
    exact h.paired (by rw [opening_old hlt, hij]) key
  · rw [bindingAt_truncate]
    split
    · next hlt =>
      have hpos := hR.size_pos.2
      exact h.empty (by rw [opening_old (by omega), hj]) key
    · rfl

theorem truncateExtra (h : Slots σ R s' t') (hR : Renames σ s t) :
    Slots σ R s' (t'.truncate t.size) := by
  refine ⟨fun {i j} hij key => ?_, fun {j} hj key => ?_⟩
  · obtain ⟨-, hlt⟩ := hR.within hij
    rw [bindingAt_truncate, if_pos (by omega)]
    exact h.paired hij key
  · rw [bindingAt_truncate, h.empty hj key, ite_self]

end Slots

/-- Every scope has the place that it has. -/
def standing (s : Scopes α) (j : Nat) : Option Nat := if j < s.size then some j else none

theorem standing_eq_some : standing s j = some i ↔ j = i ∧ i < s.size := by
  rw [standing]
  split
  · next hlt =>
    constructor
    · intro h
      obtain rfl := Option.some.inj h
      exact ⟨rfl, hlt⟩
    · rintro ⟨rfl, -⟩
      rfl
  · next hlt =>
    constructor
    · intro h
      cases h
    · rintro ⟨rfl, hi⟩
      exact absurd hi hlt

theorem renames_standing (hsize : 0 < s.size) (hdated : s.Dated) : Renames (standing s) s s where
  root := standing_eq_some.mpr ⟨rfl, hsize⟩
  within hij := by
    obtain ⟨rfl, hi⟩ := standing_eq_some.mp hij
    exact ⟨hi, hi⟩
  inj hij hik := (standing_eq_some.mp hij).1.trans (standing_eq_some.mp hik).1.symm
  chains {i j} hij := by
    obtain ⟨rfl, hi⟩ := standing_eq_some.mp hij
    have hstays : ∀ k ∈ s.chainFrom j, standing s k = some k := by
      intro k hk
      have hle := s.mem_chainFrom_le j k hk
      exact standing_eq_some.mpr ⟨rfl, by omega⟩
    rw [List.filterMap_congr hstays, List.filterMap_some]
  dated := hdated
  dated' := hdated
  issued_le := Nat.le_refl _

theorem corresponds_standing (hid : id.serial.toNat ≤ s.issued) :
    Corresponds (standing s) s s id id where
  live_eq := rfl
  place hlive := standing_eq_some.mpr ⟨rfl, lt_size_of_isLive hlive⟩
  issued := hid
  issued' := hid

theorem slots_standing {R : α → α → Prop} (hR : s.AllBound fun x => R x x) :
    Slots (standing s) R s s := by
  refine ⟨fun {i j} hij name => ?_, fun {j} hj name => ?_⟩
  · obtain ⟨rfl, -⟩ := standing_eq_some.mp hij
    cases hbound : s.bindingAt j name with
    | some x => exact .some (hR j name x hbound)
    | none => exact .none
  · refine bindingAt_of_size_le (Nat.le_of_not_lt fun hlt => ?_) name
    rw [standing, if_pos hlt] at hj
    cases hj

end GradualScript.Scopes
