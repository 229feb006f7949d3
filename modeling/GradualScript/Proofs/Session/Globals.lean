import GradualScript.Proofs.Evaluation.Declared
import GradualScript.Proofs.Session.Commits

/-!
# One set of global names

A session binds its global names twice: to types and to values. Checking a statement and
running it add the same name, and the types of a statement are committed only if it
finished. So both root scopes bind the same names between inputs, however these ended.
-/
namespace GradualScript

open Scopes Checked

/-- Only the root scopes are open, and they bind the same names in the same order. -/
structure SameNames (types : TypeEnv) (m : Machine) : Prop where
  types_size : types.size = 1
  scopes_size : m.scopes.size = 1
  names_eq : types.namesAt 0 = m.scopes.namesAt 0

namespace SameNames

variable {types types' : TypeEnv} {m mid last : Machine} {s : Stmt} {ss : List Stmt}
  {limit : Option Nat} {budget : Nat}

theorem fresh (name : String) (sink : Sink) : SameNames .fresh (.fresh name sink) :=
  ⟨rfl, rfl, rfl⟩

theorem types_pos (h : SameNames types m) : 0 < types.size := by
  rw [h.types_size]
  exact Nat.one_pos

theorem scopes_pos (h : SameNames types m) : 0 < m.scopes.size := by
  rw [h.scopes_size]
  exact Nat.one_pos

/-- A declaration that both sides make. -/
theorem grow {declared : Option String} (h : SameNames types m)
    (htypes : Grows declared types types') (hscopes : Grows declared m.scopes last.scopes) :
    SameNames types' last := by
  have htypesActive : types.active = 0 := by rw [active, h.types_size]
  have hscopesActive : m.scopes.active = 0 := by rw [active, h.scopes_size]
  have htypesNames := htypes.names_eq
  have hscopesNames := hscopes.names_eq
  rw [htypesActive] at htypesNames
  rw [hscopesActive] at hscopesNames
  refine ⟨htypes.extends_active.size_eq.trans h.types_size,
    hscopes.extends_active.size_eq.trans h.scopes_size, ?_⟩
  rw [htypesNames, hscopesNames, h.names_eq]

/-- A statement that finished is committed. -/
theorem commit {c : Completion} (h : SameNames types m) (hplaced : s.Placed false)
    (hcheck : (s.check .any types).verdict = .ok ())
    (hrun : s.exec limit budget m = (.finished c, last)) :
    SameNames (s.check .any types).env last :=
  h.grow (s.grows_check h.types_pos hplaced hcheck) (Stmt.grows_exec h.scopes_pos hplaced hrun)

/-- A statement that stopped leaves both sides as they were. -/
theorem stop (h : SameNames types m) (hplaced : s.Placed false)
    (hstops : ∀ c, (s.exec limit budget m).1 ≠ .finished c) :
    SameNames types (s.exec limit budget m).2 :=
  h.grow (Extends.refl none types).grows_none
    (Stmt.extends_exec_of_stopped h.scopes_pos hplaced hstops).grows_none

theorem completes (h : SameNames types m) (hss : Completes limit budget m ss last)
    (hplaced : Stmt.PlacedIn false ss) (hcheck : (Program.check ss types).verdict = .ok ()) :
    SameNames (Program.check ss types).env last := by
  induction hss generalizing types with
  | nil m => exact h
  | @cons m mid last s ss hs _ ih =>
    rw [Program.check_cons] at hcheck ⊢
    obtain ⟨⟨⟩, hfirst, hrest⟩ := next_ok hcheck
    simp only [next_eq hfirst]
    exact ih (h.commit hplaced.1 hfirst hs) hplaced.2 hrest

/-- The statements before the one that stopped are committed. -/
theorem stops {session : Session} {source : String} {done : List Stmt}
    (h : SameNames session.types session.machine)
    (hstop : session.StopsIn budget source done s mid) :
    SameNames (Program.check done session.types).env (s.exec session.limit budget mid).2 := by
  obtain ⟨rest, hread, hcheck⟩ := hstop.passed
  have hplaced := Stmt.placedIn_iff.mp (placedIn_of_readProgram hread)
  rw [List.forall_mem_append, List.forall_mem_cons] at hplaced
  have hmid := h.completes hstop.completes (Stmt.placedIn_iff.mpr hplaced.1)
    (Program.check_ok_of_append hcheck)
  exact hmid.stop hplaced.2.1 hstop.stops

end SameNames

namespace Session

theorem sameNames_run {session : Session} (h : SameNames session.types session.machine)
    (budget : Nat) (source : String) :
    SameNames (session.run budget source).2.types (session.run budget source).2.machine := by
  rcases session.run_ends budget source with
    ⟨e, -, hrun⟩ | ⟨p, last, hread, hcheck, hall, hrun⟩ | ⟨done, s, mid, hstop, hlater, -⟩
  · rw [hrun]
    exact h
  · rw [hrun]
    exact h.completes hall (placedIn_of_readProgram hread) hcheck
  · rw [hlater]
    exact h.stops hstop

theorem sameNames_after (sink : Sink) (limit : Option Nat) (history : List (Nat × String)) :
    SameNames ((fresh sink limit).after history).types ((fresh sink limit).after history).machine :=
  after_induction (P := fun session => SameNames session.types session.machine)
    (Q := fun _ => True) (SameNames.fresh globalScope sink) (fun _ _ => trivial)
    fun _ budget source h _ => sameNames_run h budget source

/-- After any inputs, whatever they did and however they ended, only the root scopes are
left of the types and of the values. They bind the same names, in the same order: a name
has a type exactly if it has a value. -/
theorem binds_same_names (sink : Sink) (limit : Option Nat) (history : List (Nat × String)) :
    let session := (Session.fresh sink limit).after history
    session.types.size = 1 ∧ session.machine.scopes.size = 1 ∧
      session.types.namesAt 0 = session.machine.scopes.namesAt 0 ∧
      ∀ name, (session.types.get name).isSome = (session.global name).isSome := by
  intro session
  have h : SameNames session.types session.machine := sameNames_after sink limit history
  refine ⟨h.types_size, h.scopes_size, h.names_eq, fun name => Bool.eq_iff_iff.mpr ?_⟩
  calc
    session.types.Shows name ↔ name ∈ session.types.namesAt 0 := shows_iff_root h.types_size name
    _ ↔ name ∈ session.machine.scopes.namesAt 0 := by rw [h.names_eq]
    _ ↔ session.machine.scopes.Shows name := (shows_iff_root h.scopes_size name).symm

end Session

end GradualScript
