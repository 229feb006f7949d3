import GradualScript.Proofs.Scopes.Alignment
import GradualScript.Proofs.Scopes.Lifetimes
import GradualScript.Proofs.Scopes.Surroundings

/-!
# Scopes are a lexical environment

Every parent lies below its children, so the chain of a lookup descends from the active
scope to the root. A name means its first binding on the chain, and an assignment writes to
that binding and to no other. What is done in new scopes only is gone when they are closed.
-/
namespace GradualScript.Scopes

variable {α : Type} {s t : Scopes α} {place : Nat} {name : String} {value old : α}

/-- The first scope on the chain that binds the name is that at the place, to this value. -/
def Owns (s : Scopes α) (place : Nat) (name : String) (value : α) : Prop :=
  ∃ inner outer, s.chain = inner ++ place :: outer ∧
    (∀ i ∈ inner, s.bindingAt i name = none) ∧ s.bindingAt place name = some value

/-- The operation works on no scope below the place `base`. An assignment to a name that is
not bound works on none at all. -/
def Operation.Inside (base : Nat) (s : Scopes α) : Operation α → Prop
  | .push _ | .pushUnder _ _ => True
  | .pop | .set _ _ => base ≤ s.active
  | .truncate size => base ≤ size
  | .assign name _ => ∀ place value, s.Owns place name value → base ≤ place

/-- All operations, one after the other, work on no scope below the place `base`. -/
def RunsInside (base : Nat) (s : Scopes α) : List (Operation α) → Prop
  | [] => True
  | op :: ops => op.Inside base s ∧ RunsInside base (s.apply op) ops

/-- Each place on a chain is followed by its parent, which lies below. -/
theorem isChain_chainFrom (s : Scopes α) (index : Nat) :
    (s.chainFrom index).IsChain fun i j => s.parentAt i = some j ∧ j < i := by
  induction index using Nat.strongRecOn with
  | ind index ih =>
    rw [chainFrom]
    cases hparent : s.parentAt index with
    | none => exact .singleton index
    | some parent =>
      dsimp only
      split
      · next hlt =>
        refine List.isChain_cons.mpr ⟨fun next hnext => ?_, ih parent hlt⟩
        rw [chainFrom_head?, Option.mem_some_iff] at hnext
        exact hnext ▸ ⟨hparent, hlt⟩
      · exact .singleton index

theorem Rooted.parentAt_root (h : s.Rooted) : s.parentAt 0 = none := by
  obtain ⟨name, hname⟩ := h.first
  rw [parentAt_eq, hname]
  rfl

theorem Rooted.exists_parent (h : s.Rooted) {i : Nat} (hpos : 0 < i) (hi : i < s.size) :
    ∃ parent < i, s.parentAt i = some parent := by
  rw [← length_labels] at hi
  obtain ⟨parent, hlt, hparent⟩ := h.parents i s.labels[i] hpos (List.getElem?_eq_getElem hi)
  refine ⟨parent, hlt, ?_⟩
  rw [parentAt_eq, List.getElem?_eq_getElem hi, Option.bind_some, hparent]

theorem Rooted.active_lt_size (h : s.Rooted) : s.active < s.size := by
  have hpos := h.size_pos
  rw [active]
  omega

theorem find?_eq_some_iff : s.find? name = some (place, value) ↔ s.Owns place name value := by
  rw [find?, List.findSome?_eq_some_iff, Owns]
  constructor
  · rintro ⟨inner, i, outer, hchain, hbound, hinner⟩
    obtain ⟨found, hfound, heq⟩ := Option.map_eq_some_iff.mp hbound
    cases heq
    exact ⟨inner, outer, hchain, fun i hi => by simpa using hinner i hi, hfound⟩
  · rintro ⟨inner, outer, hchain, hinner, hbound⟩
    exact ⟨inner, place, outer, hchain, by rw [hbound, Option.map_some], fun i hi => by
      rw [hinner i hi, Option.map_none]⟩

theorem get_eq_some_iff : s.get name = some value ↔ ∃ place, s.Owns place name value := by
  simp only [get, Option.map_eq_some_iff, Prod.exists, find?_eq_some_iff, exists_eq_right]

/-- An assignment succeeds where a lookup does, with the value that the lookup finds. -/
theorem map_assign (s : Scopes α) (name : String) (value : α) :
    (s.assign name value).map Prod.fst = s.get name := by
  rw [assign, get, Option.map_map]
  rfl

theorem assign_eq_some_iff :
    s.assign name value = some (old, t) ↔
      ∃ place, s.Owns place name old ∧ t = s.setAt place name value := by
  simp only [assign, Option.map_eq_some_iff, Prod.exists, Prod.mk.injEq, find?_eq_some_iff]
  constructor
  · rintro ⟨place, found, howns, rfl, rfl⟩
    exact ⟨place, howns, rfl⟩
  · rintro ⟨place, howns, rfl⟩
    exact ⟨place, old, howns, rfl, rfl⟩

theorem Owns.lt_size (h : s.Owns place name value) : place < s.size := by
  obtain ⟨inner, outer, -, -, hbound⟩ := h
  by_contra hsize
  rw [bindingAt_of_size_le (Nat.le_of_not_lt hsize)] at hbound
  cases hbound

/-- Writing to the binding that a name means keeps the place of its meaning. -/
theorem Owns.setAt (h : s.Owns place name old) (value : α) :
    (s.setAt place name value).Owns place name value := by
  have hsize := h.lt_size
  obtain ⟨inner, outer, hchain, hinner, hbound⟩ := h
  refine ⟨inner, outer, ?_, fun i hi => ?_, ?_⟩
  · rw [chain_congr (extends_setAt s place name value).labels_eq, hchain]
  · have hne : place ≠ i := by
      rintro rfl
      rw [hinner place hi] at hbound
      cases hbound
    rw [bindingAt_setAt, if_neg fun h => hne h.1, hinner i hi]
  · rw [bindingAt_setAt, if_pos ⟨rfl, hsize, rfl⟩]

/-- The new value is found, and no other slot has changed. -/
theorem assigned (h : s.assign name value = some (old, t)) :
    t.get name = some value ∧ t.labels = s.labels ∧ ∃ place, s.Owns place name old ∧
      ∀ i key, t.bindingAt i key =
        if i = place ∧ key = name then some value else s.bindingAt i key := by
  obtain ⟨place, howns, rfl⟩ := assign_eq_some_iff.mp h
  have hsize := howns.lt_size
  refine ⟨get_eq_some_iff.mpr ⟨place, howns.setAt value⟩,
    (extends_setAt s place name value).labels_eq, place, howns, fun i key => ?_⟩
  rw [bindingAt_setAt]
  grind

/-- The records below the place `base` are there, and as before. -/
structure Preserves (base : Nat) (s t : Scopes α) : Prop where
  size_le : base ≤ t.size
  records_eq : ∀ i < base, t.records[i]? = s.records[i]?

namespace Preserves

variable {base : Nat} {u : Scopes α}

theorem trans (h : Preserves base s t) (h' : Preserves base t u) : Preserves base s u :=
  ⟨h'.size_le, fun i hi => (h'.records_eq i hi).trans (h.records_eq i hi)⟩

theorem setAt (hsize : base ≤ s.size) (hplace : base ≤ place) (name : String) (value : α) :
    Preserves base s (s.setAt place name value) where
  size_le := by rwa [(extends_setAt s place name value).size_eq]
  records_eq i hi := by
    have hne : place ≠ i := by omega
    rw [Scopes.setAt, Array.getElem?_modify, if_neg hne]

theorem pushAt (hsize : base ≤ s.size) (name : String) (parent : Nat) :
    Preserves base s (s.pushAt name parent) where
  size_le := by
    rw [size_pushAt]
    omega
  records_eq i hi := by
    have hne : i ≠ s.records.size := Nat.ne_of_lt (Nat.lt_of_lt_of_le hi hsize)
    rw [Scopes.pushAt, Array.getElem?_push, if_neg hne]

theorem truncate (hsize : base ≤ s.size) {n : Nat} (hn : base ≤ n) :
    Preserves base s (s.truncate n) where
  size_le := by
    rw [← length_labels, labels_truncate_max, List.length_take, length_labels]
    omega
  records_eq i hi := by rw [getElem?_truncate, if_pos (by omega)]

/-- An operation inside leaves what is outside. -/
theorem apply (hsize : base ≤ s.size) {op : Operation α} (h : op.Inside base s) :
    Preserves base s (s.apply op) := by
  cases op with
  | push name => exact pushAt hsize name s.active
  | pushUnder name parent => exact pushAt hsize name _
  | pop => exact truncate hsize h
  | truncate n => exact truncate hsize h
  | set name value => exact setAt hsize h name value
  | assign name value =>
    rw [Scopes.apply]
    cases hassign : s.assign name value with
    | none => exact ⟨hsize, fun _ _ => rfl⟩
    | some result =>
      obtain ⟨old, t⟩ := result
      obtain ⟨place, howns, rfl⟩ := assign_eq_some_iff.mp hassign
      exact setAt hsize (h place old howns) name value

/-- So do operations inside, however many. -/
theorem after {ops : List (Operation α)} (hsize : base ≤ s.size) (h : RunsInside base s ops) :
    Preserves base s (s.after ops) := by
  induction ops generalizing s with
  | nil => exact ⟨hsize, fun _ _ => rfl⟩
  | cons op ops ih =>
    have hfirst := apply hsize h.1
    exact hfirst.trans (ih hfirst.size_le h.2)

/-- Once all scopes above are closed, the records are those of before. -/
theorem records_truncate (hpos : 0 < s.size) (h : Preserves s.size s t) :
    (t.truncate s.size).records = s.records := by
  apply Array.ext_getElem?
  intro i
  rw [getElem?_truncate, Nat.max_eq_left hpos]
  split
  · next hi => exact h.records_eq i hi
  · next hi => exact (Array.getElem?_eq_none (Nat.le_of_not_lt hi)).symm

end Preserves

/-- Lookups depend on the records alone. -/
theorem get_congr (h : t.records = s.records) (name : String) : t.get name = s.get name := by
  have hchain : t.chain = s.chain := chain_congr (by rw [labels, labels, h])
  rw [get, get, find?, find?, hchain]
  simp only [bindingAt, h]

/-- A tree of scopes with its root at the first place, in which names are looked up and
assigned from the active scope outwards. -/
structure Lexical (s : Scopes α) : Prop where
  root_parent : s.parentAt 0 = none
  parent_lt : ∀ i < s.size, 0 < i → ∃ parent < i, s.parentAt i = some parent
  /-- The chain starts at the active scope, which is there, goes from each scope to its
  parent, always downwards, and ends at the root. -/
  active_lt : s.active < s.size
  chain_head : s.chain.head? = some s.active
  chain_descends : s.chain.IsChain fun i j => s.parentAt i = some j ∧ j < i
  chain_last : s.chain.getLast? = some 0
  /-- A lookup finds the first binding on the chain. -/
  get_iff : ∀ name value, s.get name = some value ↔ ∃ place, s.Owns place name value
  /-- An assignment succeeds just where a lookup does, and gives the value found. -/
  assign_old : ∀ name value, (s.assign name value).map Prod.fst = s.get name
  /-- Afterwards the lookup finds the new value, the scopes are the same, and so is every
  slot but the one that was found. -/
  assign_new : ∀ name value old t, s.assign name value = some (old, t) →
    t.get name = some value ∧ t.labels = s.labels ∧ ∃ place, s.Owns place name old ∧
      ∀ i key, t.bindingAt i key =
        if i = place ∧ key = name then some value else s.bindingAt i key
  /-- An assignment to a name that is not bound changes nothing. -/
  assign_unbound : ∀ name value, s.get name = none → s.apply (.assign name value) = s
  /-- Whatever is done in a new scope and in scopes above it, once they are closed every
  lookup finds what it found before. -/
  get_closed : ∀ op more, op.isPush = true → RunsInside s.size (s.apply op) more →
    ∀ name, ((s.after (op :: more)).truncate s.size).get name = s.get name

theorem Rooted.get_closed (h : s.Rooted) {op : Operation α} {more : List (Operation α)}
    (hop : op.isPush = true) (hmore : RunsInside s.size (s.apply op) more) (name : String) :
    ((s.after (op :: more)).truncate s.size).get name = s.get name := by
  have hinside : op.Inside s.size s := by
    cases op with
    | push | pushUnder => trivial
    | _ => cases hop
  have hall : RunsInside s.size s (op :: more) := ⟨hinside, hmore⟩
  have hkept := Preserves.after (Nat.le_refl s.size) hall
  exact get_congr (hkept.records_truncate h.size_pos) name

/-- All scopes that are reached from a lone root are a lexical environment. -/
theorem lexical_after (rootName : String) (ops : List (Operation α)) :
    ((new rootName).after ops).Lexical := by
  have hrooted : ((new rootName : Scopes α).after ops).Rooted := (rooted_new rootName).after ops
  generalize (new rootName : Scopes α).after ops = s at hrooted
  refine {
    root_parent := hrooted.parentAt_root
    parent_lt := fun i hi hpos => hrooted.exists_parent hpos hi
    active_lt := hrooted.active_lt_size
    chain_head := chainFrom_head? s s.active
    chain_descends := isChain_chainFrom s s.active
    chain_last := hrooted.chainFrom_getLast? hrooted.active_lt_size
    get_iff := fun name value => get_eq_some_iff
    assign_old := map_assign s
    assign_new := fun name value old t => assigned
    assign_unbound := fun name value hget => ?_
    get_closed := fun op more => hrooted.get_closed }
  have hnone : s.assign name value = none := by
    rw [← Option.map_eq_none_iff (f := Prod.fst), map_assign, hget]
  rw [apply, hnone]
  rfl

/-- In the frame of a call, whose parent is gone, a variable of the caller is declared
again, a block is opened under the caller and closed, and the frame is left. -/
theorem lexical_after_frame :
    let before : List (Operation Nat) := [.set "x" 1, .push "decl", .set "y" 2]
    let frame : Operation Nat := .pushUnder "frame" ⟨2, 9⟩
    let more : List (Operation Nat) :=
      [.set "y" 5, .pushUnder "block" ⟨1, 1⟩, .set "x" 7, .pop, .truncate 2]
    let s := (new "global").after before
    RunsInside s.size (s.apply frame) more ∧
      ∀ name, ((s.after (frame :: more)).truncate s.size).get name = s.get name := by
  intro before frame more s
  have hmore : RunsInside s.size (s.apply frame) more :=
    ⟨Nat.le_refl 2, trivial, Nat.le_succ 2, Nat.le_succ 2, Nat.le_refl 2, trivial⟩
  exact ⟨hmore, (lexical_after "global" before).get_closed frame more rfl hmore⟩

end GradualScript.Scopes
