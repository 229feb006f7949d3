import Mathlib.Data.List.Forall2
import GradualScript.Proofs.Evaluation.Budgets
import GradualScript.Proofs.Scopes.Renaming
import GradualScript.Proofs.Typing.Described

/-!
# Values and machines up to the places of scopes

Function values remember where their scope is, so values of two runs that keep their
scopes at different places are the same up to a renaming of the places. Nothing that a
program does tells such values apart: what a primitive step does to two machines that
are the same up to a renaming leaves two such machines, and related results.
-/
namespace GradualScript

open Scopes

/-- Whatever the budget, a scope is opened only while there is a serial number for it
that was not given out before. The numbers start with 1 on a fresh machine and come back
to 0 after `2 ^ 32 - 1` openings, so these are the runs that open fewer than `2 ^ 32`
scopes, counting those that were opened on the machine before. -/
def Task.FewScopes (limit : Option Nat) (task : Task) (m : Machine) : Prop :=
  ∀ n mid last, Run.Reaches limit ⟨n, task, m⟩ mid → Run.Starts limit mid last →
    mid.machine.scopes.size < last.machine.scopes.size → mid.machine.scopes.nextSerial ≠ 0

namespace Task.FewScopes

variable {limit : Option Nat} {task task' : Task} {m m' : Machine}

theorem nextSerial_ne_zero (h : task.FewScopes limit m) (n : Nat)
    (hstart : Run.Starts limit ⟨n + 1, task, m⟩ ⟨n, task', m'⟩)
    (hgrows : m.scopes.size < m'.scopes.size) : m.scopes.nextSerial ≠ 0 :=
  h (n + 1) _ _ (.refl _) hstart hgrows

/-- A part of the run opens few scopes too, whatever budget it was started with. -/
theorem starts (h : task.FewScopes limit m) (n : Nat)
    (hstart : Run.Starts limit ⟨n + 1, task, m⟩ ⟨n, task', m'⟩) : task'.FewScopes limit m' := by
  intro k mid last hreach hlast hgrows
  obtain ⟨j, hj, hreach'⟩ := hreach.mono (Nat.le_max_right n k)
  have hbudget := hlast.budget_eq
  obtain ⟨j, rfl⟩ : ∃ i, j = i + 1 := ⟨j - 1, by omega⟩
  have hfirst : Run.Starts limit ⟨max n k + 1, task, m⟩ ⟨max n k, task', m'⟩ :=
    hstart.mono (Nat.le_max_left n k)
  exact h _ ⟨j + 1, mid.task, mid.machine⟩ ⟨j, last.task, last.machine⟩ (.step hfirst hreach')
    (hlast.mono (by omega)) hgrows

/-- If the parts that a run starts itself open few scopes, so does the run. -/
theorem intro (h : ∀ n task' m', Run.Starts limit ⟨n + 1, task, m⟩ ⟨n, task', m'⟩ →
    (m.scopes.size < m'.scopes.size → m.scopes.nextSerial ≠ 0) ∧ task'.FewScopes limit m') :
    task.FewScopes limit m := by
  intro n mid last hreach hstart hgrows
  cases hreach with
  | refl =>
    obtain rfl : n = last.budget + 1 := hstart.budget_eq
    exact (h _ _ _ hstart).1 hgrows
  | @step _ next _ hfirst hrest =>
    obtain rfl : n = next.budget + 1 := hfirst.budget_eq
    exact (h _ _ _ hfirst).2 _ _ _ hrest hstart hgrows

/-- A part that starts in the scopes of the run adds nothing to what `intro` asks for. -/
theorem stays (h : task.FewScopes limit m) :
    (m.scopes.size < m.scopes.size → m.scopes.nextSerial ≠ 0) ∧ task.FewScopes limit m :=
  ⟨fun hlt => absurd hlt (Nat.lt_irrefl _), h⟩

end Task.FewScopes

variable {σ : Nat → Option Nat} {s s' t t' : Scopes Value}

/-- The same value, but for the scope that a function remembers. -/
inductive Value.Renamed (σ : Nat → Option Nat) (s t : Scopes Value) : Value → Value → Prop
  | plain {v : Value} : v.kind ≠ .function → Renamed σ s t v v
  | function {f : Function} {id : ScopeId} : Corresponds σ s t f.closure id →
      Renamed σ s t (.function f) (.function { f with closure := id })

namespace Value.Renamed

variable {τ : Nat → Option Nat} {v v' w w' : Value}

theorem imp (h : Value.Renamed σ s t v v')
    (hid : ∀ {a b}, Corresponds σ s t a b → Corresponds τ s' t' a b) :
    Value.Renamed τ s' t' v v' := by
  cases h with
  | plain hplain => exact .plain hplain
  | function hclosure => exact .function (hid hclosure)

theorem later (h : Value.Renamed σ s t v v') (hs : Later s s') (ht : Later t t') :
    Value.Renamed σ s' t' v v' := h.imp fun hid => hid.later hs ht

theorem isTruthy_eq (h : Value.Renamed σ s t v v') : v'.isTruthy = v.isTruthy := by
  cases h <;> rfl

theorem text_eq (h : Value.Renamed σ s t v v') : v'.text = v.text := by cases h <;> rfl

theorem same_eq (h : Value.Renamed σ s t v v') (h' : Value.Renamed σ s t w w') :
    v'.same w' = v.same w := by
  cases h with
  | plain => cases h' with
    | plain => rfl
    | function => cases v <;> rfl
  | function => cases h' with
    | plain => cases w <;> rfl
    | function => rfl

end Value.Renamed

/-- The same end of a statement, with the same value. -/
inductive Completion.Renamed (σ : Nat → Option Nat) (s t : Scopes Value) :
    Completion → Completion → Prop
  | normal : Renamed σ s t .normal .normal
  | returned {v v' : Value} : v.Renamed σ s t v' → Renamed σ s t (.returned v) (.returned v')

namespace Completion.Renamed

variable {τ : Nat → Option Nat} {c c' : Completion}

theorem imp (h : Completion.Renamed σ s t c c')
    (hid : ∀ {a b}, Corresponds σ s t a b → Corresponds τ s' t' a b) :
    Completion.Renamed τ s' t' c c' := by
  cases h with
  | normal => exact .normal
  | returned hv => exact .returned (hv.imp hid)

theorem value (h : Completion.Renamed σ s t c c') : c.value.Renamed σ s t c'.value := by
  cases h with
  | normal => exact .plain (by simp [Completion.value, Value.kind])
  | returned hv => exact hv

end Completion.Renamed

namespace Operator

variable {op : Operator} {u v v' w w' : Value}

/-- Operators see no scopes. -/
theorem applyUnary_renamed (h : v.Renamed σ s t v') : op.applyUnary v' = op.applyUnary v := by
  cases h with
  | plain => rfl
  | function => cases op <;> rfl

theorem applyBinary_renamed (hand : op ≠ .and) (hor : op ≠ .or) (hv : v.Renamed σ s t v')
    (hw : w.Renamed σ s t w') : op.applyBinary v' w' = op.applyBinary v w := by
  have hsame := hv.same_eq hw
  cases op with
  | and => exact absurd rfl hand
  | or => exact absurd rfl hor
  | equal | notEqual => simp only [applyBinary, hsame]
  | _ =>
    cases hv with
    | plain =>
      cases hw with
      | plain => rfl
      | function => cases v <;> rfl
    | function =>
      cases hw with
      | plain => cases w <;> rfl
      | function => rfl

end Operator

/-- The same machine, but for the places of its scopes and for empty extra scopes on the
right. -/
structure Machine.Renames (σ : Nat → Option Nat) (m m' : Machine) : Prop where
  places : Scopes.Renames σ m.scopes m'.scopes
  level : Level σ m.scopes m'.scopes m.scopes.active m'.scopes.active
  slots : Slots σ (Value.Renamed σ m.scopes m'.scopes) m.scopes m'.scopes
  sink_eq : m'.sink = m.sink
  calls_eq : m'.calls = m.calls
  declared_eq : m'.declared = m.declared

/-- The active scopes belong together: neither of them is an extra scope. -/
def Machine.Paired (σ : Nat → Option Nat) (m m' : Machine) : Prop :=
  σ m'.scopes.active = some m.scopes.active

theorem Scopes.later_setAt (s : Scopes Value) (i : Nat) (name : String) (v : Value) :
    Later s (s.setAt i name v) :=
  ⟨(extends_setAt s i name v).labels_eq, Nat.le_refl s.issued⟩

theorem Scopes.later_foldl_set (bindings : List (String × Value)) (s : Scopes Value) :
    Later s (bindings.foldl (fun s binding => s.set binding.1 binding.2) s) := by
  induction bindings generalizing s with
  | nil => exact .refl s
  | cons binding rest ih => exact (later_setAt s s.active _ _).trans (ih _)

namespace Machine

variable {m m' inner inner' : Machine} {i j : Nat}

theorem Paired.later (h : m.Paired σ m') (hs : Later m.scopes inner.scopes)
    (ht : Later m'.scopes inner'.scopes) : inner.Paired σ inner' := by
  rw [Paired, hs.active_eq, ht.active_eq]
  exact h

theorem paired_pushAt (σ : Nat → Option Nat) (m m' : Machine) (name name' : String) (i j : Nat) :
    Machine.Paired (opening σ m.scopes m'.scopes) { m with scopes := m.scopes.pushAt name i }
      { m' with scopes := m'.scopes.pushAt name' j } := by
  rw [Paired, active_pushAt, active_pushAt]
  exact opening_new ..

theorem paired_enter (σ : Nat → Option Nat) (m m' : Machine) (f : Function) (id : ScopeId)
    (args args' : List Value) :
    Machine.Paired (opening σ m.scopes m'.scopes) (m.enter f args)
      (m'.enter { f with closure := id } args') := by
  have hs : Later (m.scopes.pushUnder f.name f.closure) (m.enter f args).scopes :=
    later_foldl_set ..
  have ht : Later (m'.scopes.pushUnder f.name id)
      (m'.enter { f with closure := id } args').scopes := later_foldl_set ..
  rw [Paired, hs.active_eq, ht.active_eq, pushUnder, pushUnder, active_pushAt, active_pushAt]
  exact opening_new ..

namespace Renames

theorem later (h : m.Renames σ m') (hs : Later m.scopes s) (ht : Later m'.scopes t)
    (hle : s.issued ≤ t.issued) (hslots : Slots σ (Value.Renamed σ m.scopes m'.scopes) s t) :
    Machine.Renames σ { m with scopes := s } { m' with scopes := t } where
  places := h.places.later hs ht hle
  level := by
    rw [hs.active_eq, ht.active_eq]
    exact h.level.later hs ht
  slots := hslots.mono fun _ _ hv => hv.later hs ht
  sink_eq := h.sink_eq
  calls_eq := h.calls_eq
  declared_eq := h.declared_eq

theorem set (h : m.Renames σ m') (hpaired : m.Paired σ m') (name : String) {v v' : Value}
    (hv : v.Renamed σ m.scopes m'.scopes v') :
    Machine.Renames σ { m with scopes := m.scopes.set name v }
      { m' with scopes := m'.scopes.set name v' } :=
  h.later (later_setAt ..) (later_setAt ..) h.places.issued_le
    (h.slots.setAt h.places hpaired name hv)

theorem foldl_set {args args' : List Value} (h : m.Renames σ m') (hpaired : m.Paired σ m')
    (hargs : List.Forall₂ (Value.Renamed σ m.scopes m'.scopes) args args') (params : List String) :
    Machine.Renames σ
      { m with scopes := (params.zip args).foldl (fun s b => s.set b.1 b.2) m.scopes }
      { m' with scopes := (params.zip args').foldl (fun s b => s.set b.1 b.2) m'.scopes } := by
  induction params generalizing m m' args args' with
  | nil => exact h
  | cons name params ih =>
    cases hargs with
    | nil => exact h
    | @cons v v' _ _ hv hrest =>
      have hs : Later m.scopes (m.scopes.set name v) := later_setAt ..
      have ht : Later m'.scopes (m'.scopes.set name v') := later_setAt ..
      exact ih (h.set hpaired name hv) (hpaired.later hs ht)
        (hrest.imp fun _ _ hw => hw.later hs ht)

/-- A scope is opened in both, under scopes of one level. -/
theorem pushAt (h : m.Renames σ m') (hlevel : Level σ m.scopes m'.scopes i j)
    (hnext : m'.scopes.nextSerial ≠ 0) (name name' : String) :
    Machine.Renames (opening σ m.scopes m'.scopes) { m with scopes := m.scopes.pushAt name i }
      { m' with scopes := m'.scopes.pushAt name' j } where
  places := h.places.pushAt hlevel hnext name name'
  level := by
    rw [active_pushAt, active_pushAt]
    exact (h.places.pushAt hlevel hnext name name').level (opening_new ..)
  slots := (h.slots.pushAt name name' i j).mono fun _ _ hv =>
    hv.imp fun hid => hid.pushAt h.places hnext name name' i j
  sink_eq := h.sink_eq
  calls_eq := h.calls_eq
  declared_eq := h.declared_eq

/-- What was opened in both is closed in both. -/
theorem closeFrom {name name' : String} (h : m.Renames σ m') (hnext : m'.scopes.nextSerial ≠ 0)
    (hinner : inner.Renames (opening σ m.scopes m'.scopes) inner')
    (hlater : Later (m.scopes.pushAt name i) inner.scopes)
    (hlater' : Later (m'.scopes.pushAt name' j) inner'.scopes) :
    (inner.closeFrom m.scopes.size).Renames σ (inner'.closeFrom m'.scopes.size) := by
  have hs := hlater.truncate h.places.size_pos.1
    (Scopes.nextSerial_ne_zero h.places.issued_le hnext)
  have ht := hlater'.truncate h.places.size_pos.2 hnext
  refine ⟨h.places.later hs ht hinner.places.issued_le, ?_, ?_, hinner.sink_eq, hinner.calls_eq,
    hinner.declared_eq⟩
  · show Level σ (inner.scopes.truncate _) (inner'.scopes.truncate _)
      (inner.scopes.truncate _).active (inner'.scopes.truncate _).active
    rw [hs.active_eq, ht.active_eq]
    exact h.level.later hs ht
  · exact (hinner.slots.truncate h.places).mono fun _ _ hv =>
      hv.imp fun hid => hid.truncate h.places

/-- An extra scope is opened on the right. -/
theorem pushExtra (h : m.Renames σ m') (hnext : m'.scopes.nextSerial ≠ 0) (name : String) :
    m.Renames σ (m'.opened name) where
  places := h.places.pushExtra hnext name _
  level := by
    have hactive : (m'.opened name).scopes.active = m'.scopes.size := active_pushAt ..
    rw [hactive]
    exact h.level.pushExtra h.places name
  slots := (h.slots.pushExtra name _).mono fun _ _ hv =>
    hv.imp fun hid => hid.pushExtra hnext name _
  sink_eq := h.sink_eq
  calls_eq := h.calls_eq
  declared_eq := h.declared_eq

theorem closeExtra {name : String} (h : m.Renames σ m') (hnext : m'.scopes.nextSerial ≠ 0)
    (hinner : inner.Renames σ inner') (hlater : Later m.scopes inner.scopes)
    (hlater' : Later (m'.opened name).scopes inner'.scopes) :
    inner.Renames σ (inner'.closeFrom m'.scopes.size) := by
  have ht : Later m'.scopes (inner'.scopes.truncate m'.scopes.size) :=
    Later.truncate h.places.size_pos.2 hnext hlater'
  refine ⟨h.places.later hlater ht hinner.places.issued_le, ?_, ?_, hinner.sink_eq,
    hinner.calls_eq, hinner.declared_eq⟩
  · show Level σ inner.scopes (inner'.scopes.truncate _) inner.scopes.active
      (inner'.scopes.truncate _).active
    rw [hlater.active_eq, ht.active_eq]
    exact h.level.later hlater ht
  · exact (hinner.slots.truncateExtra h.places).mono fun _ _ hv =>
      hv.imp fun hid => hid.truncateExtra h.places

/-- The frames of related functions. -/
theorem enter (h : m.Renames σ m') (hnext : m'.scopes.nextSerial ≠ 0) {f : Function} {id : ScopeId}
    (hclosure : Corresponds σ m.scopes m'.scopes f.closure id) {args args' : List Value}
    (hargs : List.Forall₂ (Value.Renamed σ m.scopes m'.scopes) args args') :
    (m.enter f args).Renames (opening σ m.scopes m'.scopes)
      (m'.enter { f with closure := id } args') := by
  have hlevel : Level σ m.scopes m'.scopes
      (if m.scopes.isLive f.closure then f.closure.index else Scopes.root.index)
      (if m'.scopes.isLive id then id.index else Scopes.root.index) := by
    rw [← hclosure.live_eq]
    split
    · next hlive => exact h.places.level (hclosure.place hlive)
    · exact h.places.level_root
  have hframe := h.pushAt hlevel hnext f.name f.name
  have hbound := hframe.foldl_set (paired_pushAt ..)
    (hargs.imp fun _ _ hv => hv.imp fun hid => hid.pushAt h.places hnext f.name f.name _ _) f.params
  exact ⟨hbound.places, hbound.level, hbound.slots, h.sink_eq, congrArg (· + 1) h.calls_eq,
    h.declared_eq⟩

end Renames

end Machine

/-- If the value is a function, its scope got one of the serial numbers up to `issued`. -/
def Value.Dated (issued : Nat) (v : Value) : Prop :=
  ∀ f, v = .function f → f.closure.serial.toNat ≤ issued

theorem Value.Renamed.dated {v v' : Value} (h : v.Renamed σ s t v') : v.Dated s.issued := by
  intro f hf
  cases h with
  | plain hplain =>
    subst hf
    exact absurd rfl hplain
  | function hclosure =>
    cases hf
    exact hclosure.issued

/-- Every serial number in the machine was given out by it. A fresh machine is dated, and
so is every machine that a run with few scopes leaves. -/
structure Machine.Dated (m : Machine) : Prop where
  size_pos : 0 < m.scopes.size
  scopes : m.scopes.Dated
  values : m.scopes.AllBound (Value.Dated m.scopes.issued)

namespace Machine

variable {m inner : Machine}

theorem dated_fresh (name : String) (sink : Sink) : (Machine.fresh name sink).Dated := by
  refine ⟨Nat.zero_lt_one, fun i label hlabel => ?_, allBound_new name⟩
  cases i with
  | zero =>
    cases hlabel
    exact Nat.zero_le _
  | succ i => cases hlabel

theorem Dated.paired (h : m.Dated) : m.Paired (standing m.scopes) m := by
  have hpos := h.size_pos
  exact standing_eq_some.mpr ⟨rfl, by rw [active]; omega⟩

theorem Dated.renames (h : m.Dated) : m.Renames (standing m.scopes) m where
  places := renames_standing h.size_pos h.scopes
  level := (renames_standing h.size_pos h.scopes).level h.paired
  slots := slots_standing fun i name v hbound => by
    have hdated := h.values i name v hbound
    cases v with
    | function f => exact .function (corresponds_standing (hdated f rfl))
    | _ => exact .plain (by simp [Value.kind])
  sink_eq := rfl
  calls_eq := rfl
  declared_eq := rfl

theorem Renames.dated (h : inner.Renames (standing m.scopes) inner)
    (hsize : inner.scopes.size = m.scopes.size) : inner.Dated := by
  refine ⟨h.places.size_pos.1, h.places.dated, fun i name v hbound => ?_⟩
  have hi : i < m.scopes.size := by
    rw [← hsize]
    by_contra hlt
    rw [bindingAt_of_size_le (Nat.le_of_not_lt hlt)] at hbound
    cases hbound
  have hslot := h.slots.paired (standing_eq_some.mpr ⟨rfl, hi⟩) name
  rw [hbound] at hslot
  cases hslot with
  | some hv => exact hv.dated

end Machine

/-- Two runs end in the same way, with related results. -/
inductive Outcome.Rel {ε α β : Type} (R : α → β → Prop) : Outcome ε α → Outcome ε β → Prop
  | finished {a : α} {b : β} : R a b → Rel R (.finished a) (.finished b)
  | failed (e : ε) : Rel R (.failed e) (.failed e)
  | unfinished : Rel R .unfinished .unfinished

theorem Outcome.Rel.imp {ε α β : Type} {R S : α → β → Prop} {x : Outcome ε α} {y : Outcome ε β}
    (h : x.Rel R y) (hRS : ∀ a b, R a b → S a b) : x.Rel S y := by
  cases h with
  | finished hab => exact .finished (hRS _ _ hab)
  | failed e => exact .failed e
  | unfinished => exact .unfinished

theorem Outcome.Rel.unfinished_iff {ε α β : Type} {R : α → β → Prop} {x : Outcome ε α}
    {y : Outcome ε β} (h : x.Rel R y) : x = .unfinished ↔ y = .unfinished := by
  cases h with
  | unfinished => exact iff_of_true rfl rfl
  | _ => exact iff_of_false nofun nofun

/-- Runs from `m` and `m'` with these results leave the scopes that were there, the same
machine up to the renaming, and related results. -/
structure Agrees {α β : Type} (σ : Nat → Option Nat)
    (R : Scopes Value → Scopes Value → α → β → Prop) (m m' : Machine)
    (result : Outcome RuntimeError α × Machine)
    (result' : Outcome RuntimeError β × Machine) : Prop where
  later : Later m.scopes result.2.scopes
  later' : Later m'.scopes result'.2.scopes
  machines : result.2.Renames σ result'.2
  outcome : result.1.Rel (R result.2.scopes result'.2.scopes) result'.1

namespace Agrees

variable {α β γ δ : Type} {R : Scopes Value → Scopes Value → α → β → Prop}
  {S : Scopes Value → Scopes Value → γ → δ → Prop} {m m' mid mid' : Machine} {a : α} {b : β}

theorem value (h : Agrees σ R m m' (.finished a, mid) (.finished b, mid')) :
    R mid.scopes mid'.scopes a b := by
  have houtcome := h.outcome
  cases houtcome with
  | finished hab => exact hab

/-- Runs from where the first ones ended. -/
theorem trans {first : Outcome RuntimeError α × Machine}
    {first' : Outcome RuntimeError β × Machine} {last : Outcome RuntimeError γ × Machine}
    {last' : Outcome RuntimeError δ × Machine} (h : Agrees σ R m m' first first')
    (hlast : Agrees σ S first.2 first'.2 last last') : Agrees σ S m m' last last' :=
  ⟨h.later.trans hlast.later, h.later'.trans hlast.later', hlast.machines, hlast.outcome⟩

theorem bind {run : Eval α} {run' : Eval β} {f : α → Eval γ} {g : β → Eval δ}
    (h : Agrees σ R m m' (run m) (run' m'))
    (hrest : ∀ {a b mid mid'}, run' m' = (.finished b, mid') →
      Agrees σ R m m' (.finished a, mid) (.finished b, mid') →
      Agrees σ S mid mid' (f a mid) (g b mid')) :
    Agrees σ S m m' ((run >>= f) m) ((run' >>= g) m') := by
  have houtcome := h.outcome
  cases hrun : run m with
  | mk result mid =>
    cases hrun' : run' m' with
    | mk result' mid' =>
      rw [hrun, hrun'] at h houtcome
      cases houtcome with
      | finished hab =>
        rw [Eval.bind_finished hrun, Eval.bind_finished hrun']
        exact h.trans (hrest hrun' h)
      | failed e =>
        rw [Eval.bind_fails hrun, Eval.bind_fails hrun']
        exact ⟨h.later, h.later', h.machines, .failed e⟩
      | unfinished =>
        have hbind : (run >>= f) m = (.unfinished, mid) := by
          show Eval.bind run f m = _
          rw [Eval.bind, hrun]
        have hbind' : (run' >>= g) m' = (.unfinished, mid') := by
          show Eval.bind run' g m' = _
          rw [Eval.bind, hrun']
        rw [hbind, hbind']
        exact ⟨h.later, h.later', h.machines, .unfinished⟩

end Agrees

section

variable {α β : Type} {R : Scopes Value → Scopes Value → α → β → Prop} {m m' : Machine}
  {v v' w w' : Value}

/-- Nothing has changed. -/
theorem agrees_stay (hM : m.Renames σ m') {result : Outcome RuntimeError α}
    {result' : Outcome RuntimeError β} (h : result.Rel (R m.scopes m'.scopes) result') :
    Agrees σ R m m' (result, m) (result', m') :=
  ⟨.refl _, .refl _, hM, h⟩

theorem agrees_pure (hM : m.Renames σ m') {a : α} {b : β} (h : R m.scopes m'.scopes a b) :
    Agrees σ R m m' ((pure a : Eval α) m) ((pure b : Eval β) m') := agrees_stay hM (.finished h)

theorem agrees_fail (hM : m.Renames σ m') (fault : RuntimeFault) (position : Position) :
    Agrees σ R m m' (Eval.fail fault position m) (Eval.fail fault position m') :=
  agrees_stay hM (.failed _)

theorem agrees_ofExcept (hM : m.Renames σ m') {result : Except RuntimeFault Value}
    (hplain : ∀ v, result = .ok v → v.kind ≠ .function) (position : Position) :
    Agrees σ (Value.Renamed σ) m m' (Eval.ofExcept position result m)
      (Eval.ofExcept position result m') := by
  cases result with
  | error fault => exact agrees_fail hM fault position
  | ok v => exact agrees_pure hM (.plain (hplain v rfl))

theorem agrees_unary (hM : m.Renames σ m') (hv : v.Renamed σ m.scopes m'.scopes v') (op : Operator)
    (position : Position) :
    Agrees σ (Value.Renamed σ) m m' (Eval.ofExcept position (op.applyUnary v) m)
      (Eval.ofExcept position (op.applyUnary v') m') := by
  rw [Operator.applyUnary_renamed hv]
  exact agrees_ofExcept hM (fun _ => Operator.applyUnary_plain) position

theorem agrees_binary (hM : m.Renames σ m') (hv : v.Renamed σ m.scopes m'.scopes v')
    (hw : w.Renamed σ m.scopes m'.scopes w') (op : Operator) (position : Position) :
    Agrees σ (Value.Renamed σ) m m' (Eval.ofExcept position (op.applyBinary v w) m)
      (Eval.ofExcept position (op.applyBinary v' w') m') := by
  have htruthy := hv.isTruthy_eq
  by_cases hand : op = .and
  · simp only [hand, Operator.applyBinary, htruthy]
    split
    · exact agrees_pure hM hw
    · exact agrees_pure hM hv
  · by_cases hor : op = .or
    · simp only [hor, Operator.applyBinary, htruthy]
      split
      · exact agrees_pure hM hv
      · exact agrees_pure hM hw
    · rw [Operator.applyBinary_renamed hand hor hv hw]
      exact agrees_ofExcept hM (fun _ => Operator.applyBinary_plain hand hor) position

theorem agrees_lookup (hM : m.Renames σ m') (name : String) (position : Position) :
    Agrees σ (Value.Renamed σ) m m' (Eval.lookup name position m)
      (Eval.lookup name position m') := by
  have hget := hM.slots.get hM.level name
  rw [Eval.lookup, Eval.lookup]
  generalize m.scopes.get name = x, m'.scopes.get name = y at hget
  cases hget with
  | some hv => exact agrees_pure hM hv
  | none => exact agrees_fail hM _ position

theorem agrees_assign (hM : m.Renames σ m') (hv : v.Renamed σ m.scopes m'.scopes v')
    (name : String) (position : Position) :
    Agrees σ (fun _ _ _ _ => True) m m' (Eval.assign name v position m)
      (Eval.assign name v' position m') := by
  have hslots := hM.slots.assign hM.places hM.level name hv
  rw [Eval.assign, Eval.assign]
  cases hfound : m.scopes.assign name v with
  | none =>
    rw [hfound] at hslots
    cases hfound' : m'.scopes.assign name v' with
    | none => exact agrees_fail hM _ position
    | some found' =>
      rw [hfound'] at hslots
      cases hslots
  | some found =>
    rw [hfound] at hslots
    cases hfound' : m'.scopes.assign name v' with
    | none =>
      rw [hfound'] at hslots
      cases hslots
    | some found' =>
      rw [hfound'] at hslots
      cases hslots with
      | some hafter =>
        obtain ⟨i, -, hset⟩ := exists_slot_of_assign hfound
        obtain ⟨j, -, hset'⟩ := exists_slot_of_assign hfound'
        have hs : Later m.scopes found.2 := hset ▸ later_setAt ..
        have ht : Later m'.scopes found'.2 := hset' ▸ later_setAt ..
        have hissued : found.2.issued ≤ found'.2.issued := by
          rw [hset, hset']
          exact hM.places.issued_le
        exact ⟨hs, ht, hM.later hs ht hissued hafter, .finished trivial⟩

theorem agrees_define (hM : m.Renames σ m') (hpaired : m.Paired σ m')
    (hv : v.Renamed σ m.scopes m'.scopes v') (name : String) :
    Agrees σ (fun _ _ _ _ => True) m m' (Eval.define name v m) (Eval.define name v' m') :=
  ⟨later_setAt .., later_setAt .., hM.set hpaired name hv, .finished trivial⟩

theorem agrees_print (hM : m.Renames σ m') (hv : v.Renamed σ m.scopes m'.scopes v') :
    Agrees σ (fun _ _ _ _ => True) m m' (Eval.print v m) (Eval.print v' m') := by
  refine ⟨.refl _, .refl _, ⟨hM.places, hM.level, hM.slots, ?_, hM.calls_eq, hM.declared_eq⟩,
    .finished trivial⟩
  show m'.sink.println v'.text = m.sink.println v.text
  rw [hM.sink_eq, hv.text_eq]

theorem agrees_declare (hM : m.Renames σ m') (hpaired : m.Paired σ m') (name : String)
    (params : List String) (body : List Stmt) :
    Agrees σ (fun _ _ _ _ => True) m m' (Eval.declare name params body m)
      (Eval.declare name params body m') := by
  have hcurrent : Corresponds σ m.scopes m'.scopes m.scopes.current m'.scopes.current :=
    .current hM.places hpaired
  have hvalue : Value.Renamed σ m.scopes m'.scopes
      (.function ⟨m.declared, name, params, body, m.scopes.current⟩)
      (.function ⟨m'.declared, name, params, body, m'.scopes.current⟩) := by
    rw [hM.declared_eq]
    exact .function hcurrent
  have hset := hM.set hpaired name hvalue
  exact ⟨later_setAt .., later_setAt .., ⟨hset.places, hset.level, hset.slots, hM.sink_eq,
    hM.calls_eq, congrArg (· + 1) hM.declared_eq⟩, .finished trivial⟩

variable {run run' : Eval Completion} {f : Function} {id : ScopeId} {args args' : List Value}

/-- A scope of its own for each of the runs. -/
theorem agrees_inScope (hM : m.Renames σ m') (hnext : m'.scopes.nextSerial ≠ 0)
    (name name' : String)
    (hrun : Agrees (opening σ m.scopes m'.scopes)
      (Completion.Renamed (opening σ m.scopes m'.scopes)) (m.opened name) (m'.opened name')
      (run (m.opened name)) (run' (m'.opened name'))) :
    Agrees σ (Completion.Renamed σ) m m' (Eval.inScope name run m)
      (Eval.inScope name' run' m') where
  later := hrun.later.truncate hM.places.size_pos.1
    (Scopes.nextSerial_ne_zero hM.places.issued_le hnext)
  later' := hrun.later'.truncate hM.places.size_pos.2 hnext
  machines := hM.closeFrom hnext hrun.machines hrun.later hrun.later'
  outcome := hrun.outcome.imp fun _ _ hc => hc.imp fun hid => hid.truncate hM.places

/-- An extra scope for the run on the right. -/
theorem agrees_inExtra (hM : m.Renames σ m') (hnext : m'.scopes.nextSerial ≠ 0) (name : String)
    (hrun : Agrees σ (Completion.Renamed σ) m (m'.opened name) (run m) (run' (m'.opened name))) :
    Agrees σ (Completion.Renamed σ) m m' (run m) (Eval.inScope name run' m') where
  later := hrun.later
  later' := hrun.later'.truncate hM.places.size_pos.2 hnext
  machines := hM.closeExtra hnext hrun.machines hrun.later hrun.later'
  outcome := hrun.outcome.imp fun _ _ hc => hc.imp fun hid => hid.truncateExtra hM.places

/-- The frames of related functions. -/
theorem agrees_inFrame (hM : m.Renames σ m') (hnext : m'.scopes.nextSerial ≠ 0)
    (hrun : Agrees (opening σ m.scopes m'.scopes)
      (Completion.Renamed (opening σ m.scopes m'.scopes)) (m.enter f args)
      (m'.enter { f with closure := id } args') (run (m.enter f args))
      (run' (m'.enter { f with closure := id } args'))) :
    Agrees σ (Completion.Renamed σ) m m' (Eval.inFrame f args run m)
      (Eval.inFrame { f with closure := id } args' run' m') := by
  have hlater : Later (m.scopes.pushUnder f.name f.closure) (run (m.enter f args)).2.scopes :=
    (later_foldl_set ..).trans hrun.later
  have hlater' : Later (m'.scopes.pushUnder f.name id)
      (run' (m'.enter { f with closure := id } args')).2.scopes :=
    (later_foldl_set ..).trans hrun.later'
  have hclosed := hM.closeFrom hnext hrun.machines hlater hlater'
  have hcalls : (run' (m'.enter { f with closure := id } args')).2.calls - 1 =
      (run (m.enter f args)).2.calls - 1 := congrArg (· - 1) hrun.machines.calls_eq
  refine ⟨hlater.truncate hM.places.size_pos.1
    (Scopes.nextSerial_ne_zero hM.places.issued_le hnext),
    hlater'.truncate hM.places.size_pos.2 hnext,
    ⟨hclosed.places, hclosed.level, hclosed.slots, hclosed.sink_eq, hcalls,
      hclosed.declared_eq⟩, ?_⟩
  exact hrun.outcome.imp fun _ _ hc => hc.imp fun hid => hid.truncate hM.places

theorem agrees_andThen {c c' : Completion} (hM : m.Renames σ m')
    (hc : c.Renamed σ m.scopes m'.scopes c')
    (hrun : c = .normal → c' = .normal →
      Agrees σ (Completion.Renamed σ) m m' (run m) (run' m')) :
    Agrees σ (Completion.Renamed σ) m m' (c.andThen run m) (c'.andThen run' m') := by
  cases hc with
  | normal => exact hrun rfl rfl
  | returned hv => exact agrees_pure hM (.returned hv)

end

end GradualScript
