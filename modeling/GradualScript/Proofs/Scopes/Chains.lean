import GradualScript.Proofs.Evaluation.Frames

/-!
# Chains of scopes

The chain from a place to the root, the identifiers of its scopes and the names that are
visible from it. Chains and identifiers hang on the labels of the records alone.
-/
namespace GradualScript.Scopes

variable {α : Type}

theorem getElem?_labels (s : Scopes α) (index : Nat) :
    s.labels[index]? = s.records[index]?.map fun r => (r.name, r.parent, r.serial) := by
  rw [labels, List.getElem?_map, Array.getElem?_toList]

/-- Parents are labels, so whatever keeps labels keeps the chain. -/
theorem parentAt_eq (s : Scopes α) (index : Nat) :
    s.parentAt index = s.labels[index]?.bind fun label => label.2.1 := by
  rw [getElem?_labels, Option.bind_map]
  rfl

theorem serialAt_eq (s : Scopes α) (index : Nat) :
    s.records[index]?.map Scope.serial = s.labels[index]?.map fun label => label.2.2 := by
  rw [getElem?_labels, Option.map_map]
  rfl

theorem idAt_eq (s : Scopes α) (index : Nat) :
    s.idAt index = ⟨index, (s.labels[index]?.map fun label => label.2.2).getD 0⟩ := by
  rw [idAt, serialAt_eq]

theorem isLive_iff (s : Scopes α) (id : ScopeId) :
    s.isLive id = true ↔ ∃ label, s.labels[id.index]? = some label ∧ label.2.2 = id.serial := by
  rw [isLive, serialAt_eq, decide_eq_true_iff, Option.map_eq_some_iff]

theorem mem_chainFrom_le (s : Scopes α) (index : Nat) : ∀ i ∈ s.chainFrom index, i ≤ index := by
  induction index using Nat.strongRecOn with
  | ind index ih =>
    intro i hi
    rw [chainFrom] at hi
    split at hi
    · next parent _ =>
      split at hi
      · next hlt =>
        rcases List.mem_cons.mp hi with rfl | hi
        · exact Nat.le_refl i
        · exact Nat.le_trans (ih parent hlt i hi) (Nat.le_of_lt hlt)
      · simp_all
    · simp_all

/-- A chain begins with the scope it is the chain of. -/
theorem chainFrom_head? (s : Scopes α) (index : Nat) : (s.chainFrom index).head? = some index := by
  rw [chainFrom]
  split
  · split <;> rfl
  · rfl

theorem chainFrom_zero (s : Scopes α) : s.chainFrom 0 = [0] := by
  rw [chainFrom]
  split <;> simp

/-- Scopes with the same parents have the same chains. That of the root does not count. -/
theorem chainFrom_congr {β : Type} {s : Scopes α} {t : Scopes β} {index : Nat}
    (h : ∀ i, 0 < i → i ≤ index → s.parentAt i = t.parentAt i) :
    s.chainFrom index = t.chainFrom index := by
  induction index using Nat.strongRecOn with
  | ind index ih =>
    by_cases hroot : index = 0
    · rw [hroot, chainFrom_zero, chainFrom_zero]
    · rw [chainFrom, chainFrom, h index (by omega) (Nat.le_refl index)]
      cases t.parentAt index with
      | none => rfl
      | some parent =>
        dsimp only
        split
        · next hlt =>
          rw [ih parent hlt fun i hpos hi => h i hpos (Nat.le_trans hi (Nat.le_of_lt hlt))]
        · rfl

theorem labels_pushAt (s : Scopes α) (name : String) (parent : Nat) :
    (s.pushAt name parent).labels = s.labels ++ [(name, some parent, s.nextSerial)] := by
  simp [labels, pushAt]

/-- A lookup finds the name. -/
def Shows (s : Scopes α) (name : String) : Prop := (s.get name).isSome

theorem isSome_bindingAt (s : Scopes α) (index : Nat) (name : String) :
    (s.bindingAt index name).isSome ↔ name ∈ s.namesAt index := by
  rw [bindingAt, namesAt]
  cases s.records[index]? with
  | none => simp
  | some r => exact (r.bindings.mem_names_iff name).symm

/-- A name is shown if a scope on the chain binds it. -/
theorem shows_iff (s : Scopes α) (name : String) :
    s.Shows name ↔ ∃ i ∈ s.chain, name ∈ s.namesAt i := by
  rw [Shows, get, Option.isSome_map, find?, List.findSome?_isSome_iff]
  simp [isSome_bindingAt]

theorem isSome_assign (s : Scopes α) (name : String) (value : α) :
    (s.assign name value).isSome ↔ s.Shows name := by
  rw [Shows, get, Option.isSome_map, assign, Option.isSome_map]

variable {grown : Option Nat} {s t : Scopes α}

theorem chain_congr (h : t.labels = s.labels) : t.chain = s.chain := by
  have hactive : t.active = s.active := by
    rw [active, active, ← length_labels, ← length_labels, h]
  rw [chain, chain, hactive]
  exact chainFrom_congr fun i _ _ => by rw [parentAt_eq, parentAt_eq, h]

/-- No name is lost where scopes are only extended. -/
theorem Extends.shows (h : Extends grown s t) {name : String} (hshows : s.Shows name) :
    t.Shows name := by
  rw [shows_iff] at hshows ⊢
  obtain ⟨i, hi, hname⟩ := hshows
  exact ⟨i, chain_congr h.labels_eq ▸ hi, (h.grows i).subset hname⟩

theorem Extends.shows_iff (h : Extends none s t) (name : String) : t.Shows name ↔ s.Shows name := by
  have hnames : ∀ i, t.namesAt i = s.namesAt i := fun i => h.names_eq i nofun
  rw [Scopes.shows_iff, Scopes.shows_iff, chain_congr h.labels_eq]
  simp only [hnames]

theorem active_mem_chain (s : Scopes α) : s.active ∈ s.chain :=
  List.mem_of_mem_head? (chainFrom_head? s s.active)

theorem namesAt_setAt (s : Scopes α) {index : Nat} (h : index < s.size) (name key : String)
    (value : α) (place : Nat) :
    key ∈ (s.setAt index name value).namesAt place ↔
      key ∈ s.namesAt place ∨ (place = index ∧ key = name) := by
  rw [← isSome_bindingAt, ← isSome_bindingAt, bindingAt_setAt]
  grind

/-- Binding a name in the active scope makes it visible, and no other. -/
theorem shows_set (hsize : 0 < s.size) (name : String) (value : α) (key : String) :
    (s.set name value).Shows key ↔ s.Shows key ∨ key = name := by
  have hchain : (s.set name value).chain = s.chain :=
    chain_congr (extends_setAt s s.active name value).labels_eq
  have hnames := namesAt_setAt s (show s.active < s.size by rw [active]; omega) name key value
  rw [shows_iff, shows_iff, hchain]
  simp only [Scopes.set, hnames]
  constructor
  · rintro ⟨i, hi, hkey | ⟨-, rfl⟩⟩
    · exact .inl ⟨i, hi, hkey⟩
    · exact .inr rfl
  · rintro (⟨i, hi, hkey⟩ | rfl)
    · exact ⟨i, hi, .inl hkey⟩
    · exact ⟨s.active, s.active_mem_chain, .inr ⟨rfl, rfl⟩⟩

/-- A lookup goes from a new scope on to its parent. -/
theorem chain_pushAt {parent : Nat} (hparent : parent < s.size) (name : String) :
    (s.pushAt name parent).chain = s.size :: s.chainFrom parent := by
  have hparents : ∀ i, 0 < i → i ≤ parent → (s.pushAt name parent).parentAt i = s.parentAt i := by
    intro i _ hi
    have hlt : i < s.labels.length := by rw [length_labels]; omega
    rw [parentAt_eq, parentAt_eq, labels_pushAt, List.getElem?_append_left hlt]
  rw [chain, active_pushAt, chainFrom, parentAt_eq, labels_pushAt, ← length_labels,
    List.getElem?_concat_length, length_labels, Option.bind_some]
  simp only [hparent, if_true]
  rw [chainFrom_congr hparents]

/-- A new scope is empty: what is visible in it is what is visible from its parent. -/
theorem shows_pushAt {parent : Nat} (hparent : parent < s.size) (name key : String) :
    (s.pushAt name parent).Shows key ↔ ∃ i ∈ s.chainFrom parent, key ∈ s.namesAt i := by
  have hchain := chain_pushAt hparent name
  have hnew : (s.pushAt name parent).namesAt s.size = [] := by
    simp [namesAt, pushAt, size, Bindings.names, Bindings.empty]
  rw [shows_iff, hchain]
  constructor
  · rintro ⟨i, hi, hkey⟩
    rcases List.mem_cons.mp hi with rfl | hi
    · simp [hnew] at hkey
    · have hle := s.mem_chainFrom_le parent i hi
      rw [namesAt_pushAt s name parent (by omega)] at hkey
      exact ⟨i, hi, hkey⟩
  · rintro ⟨i, hi, hkey⟩
    have hle := s.mem_chainFrom_le parent i hi
    rw [← namesAt_pushAt s name parent (by omega)] at hkey
    exact ⟨i, List.mem_cons_of_mem _ hi, hkey⟩

/-- A new scope hides nothing as long as it is empty. -/
theorem shows_push (hsize : 0 < s.size) (name key : String) :
    (s.push name).Shows key ↔ s.Shows key := by
  rw [push, shows_pushAt (by rw [active]; omega), shows_iff]
  rfl

/-- Whether the root is live or not, a scope is opened under it. -/
theorem pushUnder_root (s : Scopes α) (name : String) {parent : ScopeId}
    (hparent : parent.index = 0) :
    s.pushUnder name parent = s.pushAt name 0 := by
  have hplace : (if s.isLive parent then parent.index else root.index) = 0 := by
    rw [hparent]
    exact ite_self _
  rw [pushUnder, hplace]

/-- A scope under the root shows what the root binds. -/
theorem shows_pushUnder_root (hsize : 0 < s.size) (name : String) {parent : ScopeId}
    (hparent : parent.index = 0) (key : String) :
    (s.pushUnder name parent).Shows key ↔ key ∈ s.namesAt 0 := by
  rw [pushUnder_root s name hparent, shows_pushAt hsize, chainFrom_zero]
  simp

/-- In a lone root scope, the visible names are the bound ones. -/
theorem shows_iff_root (hsize : s.size = 1) (key : String) : s.Shows key ↔ key ∈ s.namesAt 0 := by
  have hactive : s.active = 0 := by rw [active, hsize]
  rw [shows_iff, chain, hactive, chainFrom_zero]
  simp

theorem shows_foldl_set (entries : List (String × α)) (hsize : 0 < s.size) (key : String) :
    (entries.foldl (fun s entry => s.set entry.1 entry.2) s).Shows key ↔
      s.Shows key ∨ key ∈ entries.map Prod.fst := by
  induction entries generalizing s with
  | nil => simp
  | cons entry entries ih =>
    have hset : Extends (some s.active) s (s.set entry.1 entry.2) := extends_setAt ..
    rw [List.foldl_cons, ih (by rw [hset.size_eq]; exact hsize), shows_set hsize, List.map_cons,
      List.mem_cons, or_assoc]

end GradualScript.Scopes
