import GradualScript.Proofs.Evaluation.Tracked
import GradualScript.Proofs.Session.Names

/-!
# Types of straight sessions

In a session of straight inputs, the committed types describe the values of the globals as
long as no statement stops after it gave a global a value of another type. A statement
that stops is not committed, but the assignments that it made before remain.
-/
namespace GradualScript

open Scopes Checked

/-- A text that denotes a program of straight statements, if any. -/
def StraightText (source : String) : Prop :=
  ∀ p, readProgram source = .ok p → Stmt.StraightIn p

mutual

theorem Stmt.Straight.functionFree : ∀ s : Stmt, s.Straight → s.FunctionFree
  | .expression _ _, _ | .print _ _, _ | .var _ _ _, _ => trivial
  | .block _ ss, hs => Stmt.StraightIn.functionFree ss hs

theorem Stmt.StraightIn.functionFree : ∀ ss : List Stmt, Stmt.StraightIn ss →
    Stmt.FunctionFreeIn ss
  | [], _ => trivial
  | s :: ss, hss => ⟨Stmt.Straight.functionFree s hss.1, Stmt.StraightIn.functionFree ss hss.2⟩

end

theorem Stmt.Straight.functionsOnTop {s : Stmt} (hs : s.Straight) : s.FunctionsOnTop := by
  cases s with
  | function p name params body result => cases hs
  | _ => exact Stmt.Straight.functionFree _ hs

theorem Stmt.straightIn_iff {ss : List Stmt} : Stmt.StraightIn ss ↔ ∀ s ∈ ss, s.Straight := by
  induction ss with
  | nil => simp [StraightIn]
  | cons s ss ih => simp [StraightIn, ih]

theorem StraightText.functionsOnTop {source : String} (h : StraightText source) :
    FunctionsOnTop source :=
  fun p hp s hs => (Stmt.straightIn_iff.mp (h p hp) s hs).functionsOnTop

namespace Session

variable {budget : Nat} {session : Session} {source : String}

/-- The type of every global has a tag that its value has. -/
def Described (session : Session) : Prop :=
  ∀ name v, session.global name = some v → ∃ t, session.types.get name = some t ∧ t.Holds v

/-- If a statement stops that assigns to a global a value of another type than the
committed one, the global is left with a value of the committed type all the same. -/
def StopsClean (budget : Nat) (session : Session) (source : String) : Prop :=
  ∀ done s mid, StopsIn budget session source done s mid → ∀ name t v,
    (session.run budget source).2.types.get name = some t →
    (session.run budget source).2.global name = some v →
    ¬(s.check .any (Program.check done session.types).env).tree.All (Expr.Retains name t) →
    t.Holds v

/-- The types of a described session match its values. -/
theorem Described.matches (h : session.Described) (hbound : Bound session.types session.machine) :
    Matches TypeSet.Holds session.types session.machine.scopes := by
  have hsize := hbound.types_size
  have hsize' := hbound.scopes_size
  refine ⟨hsize.trans hsize'.symm, fun i hi => ?_, fun i name => ?_⟩
  · rw [parentAt, parentAt, Array.getElem?_eq_none (by rw [size] at hsize; omega),
      Array.getElem?_eq_none (by rw [size] at hsize'; omega)]
    rfl
  · by_cases hi : i = 0
    · subst hi
      rw [← get_root hsize, ← get_root hsize']
      cases hv : session.machine.scopes.get name with
      | some v =>
        obtain ⟨t, ht, hholds⟩ := h name v hv
        rw [ht]
        exact .some hholds
      | none =>
        cases ht : session.types.get name with
        | none => exact .none
        | some t =>
          have hshows := hbound.shows name (Option.isSome_iff_exists.mpr ⟨t, ht⟩)
          rw [Shows, hv] at hshows
          cases hshows
    · rw [bindingAt_of_size_le (by omega), bindingAt_of_size_le (by omega)]
      exact .none

theorem described_of_matches
    (h : Matches TypeSet.Holds session.types session.machine.scopes) : session.Described := by
  intro name v hv
  have hrel := h.get name
  rw [show session.machine.scopes.get name = some v from hv] at hrel
  generalize session.types.get name = found at hrel
  cases hrel with
  | some hholds => exact ⟨_, rfl, hholds⟩

/-- Straight statements that complete leave the values with the types that checking found. -/
theorem matches_of_completes {limit : Option Nat} {types : TypeEnv} {m last : Machine}
    {ss : List Stmt} (hss : Completes limit budget m ss last) (hstraight : Stmt.StraightIn ss)
    (hsize : 0 < types.size) (hm : Matches TypeSet.Holds types m.scopes)
    (hcheck : (Program.check ss types).verdict = .ok ()) :
    Matches TypeSet.Holds (Program.check ss types).env last.scopes := by
  induction hss generalizing types with
  | nil m => exact hm
  | @cons m mid last s ss hs _ ih =>
    rw [Program.check_cons] at hcheck ⊢
    obtain ⟨⟨⟩, hfirst, hrest⟩ := next_ok hcheck
    obtain ⟨reached, hrun⟩ := (tracking limit budget).exec hstraight.1 hsize hm hfirst
      (.inl (Nat.le_refl _))
    rw [hs] at hrun
    obtain ⟨rfl, -⟩ := hrun.finished .normal rfl
    simp only [next_eq hfirst]
    exact ih hstraight.2 ((s.extends_check .any hsize).size_pos hsize) hrun.matched hrest

/-- A statement that stops has changed the types of those globals only to which it
assigns a value of another type, and it stopped at a division by zero or for lack of
budget. -/
theorem StopsIn.follows {done : List Stmt} {s : Stmt} {mid : Machine}
    (h : StopsIn budget session source done s mid) (hstraight : StraightText source)
    (hbound : Bound session.types session.machine) (hdescribed : session.Described) :
    ∃ reached, Eval.Follows 1 (Program.check done session.types).env
      (s.check .any (Program.check done session.types).env).env reached
      (fun name t =>
        (s.check .any (Program.check done session.types).env).tree.All (Expr.Retains name t))
      (· = .normal) (s.exec session.limit budget mid) := by
  obtain ⟨rest, hread, hcheck⟩ := h.passed
  have hall := Stmt.straightIn_iff.mp (hstraight _ hread)
  rw [List.forall_mem_append, List.forall_mem_cons] at hall
  have hdone := matches_of_completes h.completes (Stmt.straightIn_iff.mpr hall.1) hbound.size_pos
    (hdescribed.matches hbound) (Program.check_ok_of_append hcheck)
  have hsize := (Stmt.extends_checkAll .any done hbound.size_pos).size_pos hbound.size_pos
  exact (tracking session.limit budget).exec hall.2.1 hsize hdone (Program.check_stmt_ok hcheck)
    (.inr h.stops)

/-- A global that the stopped statement retains has a value of its committed type. -/
theorem StopsIn.described {done : List Stmt} {s : Stmt} {mid : Machine} {later : Session}
    (h : StopsIn budget session source done s mid) (hstraight : StraightText source)
    (hbound : Bound session.types session.machine) (hdescribed : session.Described)
    (htypes : later.types = (Program.check done session.types).env)
    (hmachine : later.machine = (s.exec session.limit budget mid).2)
    (hlater : Bound later.types later.machine)
    (hclean : ∀ name t v, later.types.get name = some t → later.global name = some v →
      ¬(s.check .any (Program.check done session.types).env).tree.All (Expr.Retains name t) →
      t.Holds v) : later.Described := by
  intro name v hv
  obtain ⟨reached, hrun⟩ := h.follows hstraight hbound hdescribed
  have hslot := hrun.matched.slots 0 name
  rw [← hmachine, ← get_root hlater.scopes_size, show later.machine.scopes.get name = some v from hv] at hslot
  generalize hu : reached.bindingAt 0 name = found at hslot
  cases hslot with
  | @some u _ hholds =>
    -- The value has the type `u` that checking knew where the statement stopped. The
    -- committed type `t` is older.
    obtain ⟨t, ht, hkept⟩ := hrun.kept 0 Nat.one_pos name u hu
    rw [← htypes, ← get_root hlater.types_size] at ht
    refine ⟨t, ht, ?_⟩
    by_cases hretains :
        (s.check .any (Program.check done session.types).env).tree.All (Expr.Retains name t)
    · exact hkept hretains ▸ hholds
    · exact hclean name t v ht hv hretains

/-- An input that stops cleanly, if at all, keeps the globals described. -/
theorem described_run (hstraight : StraightText source)
    (hbound : Bound session.types session.machine) (hdescribed : session.Described)
    (hclean : StopsClean budget session source) : (session.run budget source).2.Described := by
  have hlater := (bound_run hbound hstraight.functionsOnTop budget).1
  rcases session.run_ends budget source with
    ⟨e, -, hrun⟩ | ⟨p, last, hread, hcheck, hall, hrun⟩ | ⟨done, s, mid, hstop, hleft, -⟩
  · rw [hrun]
    exact hdescribed
  · rw [hrun]
    exact described_of_matches (matches_of_completes hall (hstraight p hread) hbound.size_pos
      (hdescribed.matches hbound) hcheck)
  · exact hstop.described hstraight hbound hdescribed (by rw [hleft]) (by rw [hleft]) hlater
      (hclean done s mid hstop)

/-- While the globals are described, a straight input that passed fails at divisions only. -/
theorem fails_dividing (hstraight : StraightText source)
    (hbound : Bound session.types session.machine) (hdescribed : session.Described)
    {e : RuntimeError} (herror : (session.run budget source).1 = .failed (.run e)) :
    e.cause = .divideByZero := by
  rcases session.run_ends budget source with
    ⟨e', hphase, hrun⟩ | ⟨p, last, -, -, -, hrun⟩ | ⟨done, s, mid, hstop, -, hfail⟩
  · rw [hrun] at herror
    cases herror
    exact absurd rfl hphase
  · rw [hrun] at herror
    cases herror
  · obtain ⟨reached, hrun⟩ := hstop.follows hstraight hbound hdescribed
    exact hrun.failed e (hfail e herror)

theorem described_fresh (sink : Sink) (limit : Option Nat) : (fresh sink limit).Described := by
  intro name v hv
  have hnone : (fresh sink limit).global name = none := get_root rfl name
  rw [hnone] at hv
  cases hv

/-- In a session of straight inputs, the types describe the globals after every input if
and only if every statement that stops does so cleanly: wherever it assigns to a global a
value of another type than the committed one, it leaves a value of the committed type. And
while they do, an input that passed never meets wrong operands: it fails at divisions
only. -/
theorem described_iff_stopsClean (sink : Sink) (limit : Option Nat)
    (history : List (Nat × String)) (hhistory : ∀ input ∈ history, StraightText input.2) :
    ((∀ earlier, earlier <+: history → ((fresh sink limit).after earlier).Described) ↔
      ∀ earlier input, earlier ++ [input] <+: history →
        StopsClean input.1 ((fresh sink limit).after earlier) input.2) ∧
    (((fresh sink limit).after history).Described →
      ∀ budget source, StraightText source → ∀ e,
        (((fresh sink limit).after history).run budget source).1 = .failed (.run e) →
          e.cause = .divideByZero) := by
  have hbound {earlier : List (Nat × String)} (hwithin : earlier <+: history) :
      Bound ((fresh sink limit).after earlier).types ((fresh sink limit).after earlier).machine :=
    bound_after sink limit fun input hinput =>
      (hhistory input (hwithin.subset hinput)).functionsOnTop
  have hsnoc (earlier : List (Nat × String)) (input : Nat × String) :
      (fresh sink limit).after (earlier ++ [input]) =
        (((fresh sink limit).after earlier).run input.1 input.2).2 := by
    rw [after, List.foldl_append]
    rfl
  refine ⟨⟨fun hdescribed earlier input hwithin => ?_, fun hclean earlier => ?_⟩,
    fun hdescribed budget source hstraight e =>
      fails_dividing hstraight (hbound List.prefix_rfl) hdescribed⟩
  · intro done s mid _ name t v ht hv _
    have hlater := hdescribed _ hwithin
    rw [hsnoc] at hlater
    obtain ⟨u, hu, hholds⟩ := hlater name v hv
    rw [ht] at hu
    cases hu
    exact hholds
  · induction earlier using List.reverseRecOn with
    | nil => exact fun _ => described_fresh sink limit
    | append_singleton earlier input ih =>
      intro hwithin
      have hearlier : earlier <+: history := (List.prefix_append earlier [input]).trans hwithin
      have hstraight : StraightText input.2 :=
        hhistory input (hwithin.subset (by simp))
      rw [hsnoc]
      exact described_run hstraight (hbound hearlier) (ih hearlier) (hclean earlier input hwithin)

end Session

def numberInput : String := "var x = 0;"

/-- The assignment is made before the division fails. -/
def retypingInput : String := "\x7b x = \"s\"; print 0 / 0; \x7d"

def addingInput : String := "print x + 0;"

def numberTree : Program := [.var ⟨1, 1⟩ "x" (.number (.unchecked ⟨1, 9⟩) ⟨0⟩)]

def retypingTree : Program :=
  [.block ⟨1, 1⟩
    [.expression ⟨1, 3⟩ (.assign (.unchecked ⟨1, 3⟩) "x" (.string (.unchecked ⟨1, 7⟩) "s")),
      .print ⟨1, 12⟩ (.binary (.unchecked ⟨1, 18⟩) .divide (.number (.unchecked ⟨1, 18⟩) ⟨0⟩)
        (.number (.unchecked ⟨1, 22⟩) ⟨0⟩))]]

def addingTree : Program :=
  [.print ⟨1, 1⟩ (.binary (.unchecked ⟨1, 7⟩) .add (.name (.unchecked ⟨1, 7⟩) "x")
    (.number (.unchecked ⟨1, 11⟩) ⟨0⟩))]

theorem readProgram_number : readProgram numberInput = .ok numberTree := by cbv

theorem readProgram_retyping : readProgram retypingInput = .ok retypingTree := by cbv

theorem readProgram_adding : readProgram addingInput = .ok addingTree := by cbv

def retypingHistory : List (Nat × String) := [(8, numberInput), (8, retypingInput)]

theorem straightText_retypingHistory : ∀ input ∈ retypingHistory, StraightText input.2 := by
  have hnumber : StraightText numberInput :=
    forall_of_read readProgram_number (by
      simp [numberTree, Stmt.StraightIn, Stmt.Straight, Expr.All, Expr.Plain])
  have hretyping : StraightText retypingInput :=
    forall_of_read readProgram_retyping (by
      simp [retypingTree, Stmt.StraightIn, Stmt.Straight, Expr.All, Expr.Plain])
  simp [retypingHistory, hnumber, hretyping]

theorem straightText_adding : StraightText addingInput :=
  forall_of_read readProgram_adding (by
    simp [addingTree, Stmt.StraightIn, Stmt.Straight, Expr.All, Expr.Plain])

namespace Session

/-- An input whose program passes is run. -/
theorem run_of_read {budget : Nat} {session : Session} {source : String} {p : Program}
    (hread : readProgram source = .ok p) (hcheck : (p.check session.types).verdict = .ok ()) :
    session.run budget source = runAll budget session p := by
  rw [run, hread]
  simp only [hcheck]

/-- The session with the number, and then with the string in its place. -/
def numberSession : Session :=
  (runAll 8 (fresh .silent (some defaultCallLimit)) numberTree).2

def retypedSession : Session := (runAll 8 numberSession retypingTree).2

theorem after_retypingHistory :
    (fresh .silent (some defaultCallLimit)).after retypingHistory = retypedSession := by
  have hnumber : ((fresh .silent (some defaultCallLimit)).run 8 numberInput).2 = numberSession := by
    rw [run_of_read readProgram_number (by with_unfolding_all rfl)]
    rfl
  have hretyping : (numberSession.run 8 retypingInput).2 = retypedSession := by
    rw [run_of_read readProgram_retyping (by with_unfolding_all rfl)]
    rfl
  rw [← hretyping, ← hnumber]
  rfl

theorem described_iff_stopsClean_retyping :
    (∀ input ∈ retypingHistory, StraightText input.2) ∧
      ((∀ earlier, earlier <+: retypingHistory →
          ((fresh .silent (some defaultCallLimit)).after earlier).Described) ↔
        ∀ earlier input, earlier ++ [input] <+: retypingHistory →
          StopsClean input.1 ((fresh .silent (some defaultCallLimit)).after earlier) input.2) :=
  ⟨straightText_retypingHistory,
    (described_iff_stopsClean .silent (some defaultCallLimit) retypingHistory
      straightText_retypingHistory).1⟩

/-- The type of `x` is still that of numbers after its value has become a string, so the
sum passes, and its run ends with wrong operands. -/
theorem wrongOperands_after_retyping :
    (∀ input ∈ retypingHistory, StraightText input.2) ∧ StraightText addingInput ∧
      ¬((fresh .silent (some defaultCallLimit)).after retypingHistory).Described ∧
      (((fresh .silent (some defaultCallLimit)).after retypingHistory).run 8 addingInput).1 =
        .failed (.run ⟨.wrongOperands .add [.string, .numeric], ⟨1, 7⟩⟩) := by
  have hvalue : retypedSession.global "x" = some (.string "s") := by with_unfolding_all rfl
  have htype : retypedSession.types.get "x" = some .numeric := by with_unfolding_all rfl
  rw [after_retypingHistory]
  refine ⟨straightText_retypingHistory, straightText_adding, fun hdescribed => ?_, ?_⟩
  · obtain ⟨t, ht, hholds⟩ := hdescribed "x" (.string "s") hvalue
    rw [htype] at ht
    cases ht
    exact absurd hholds.2 (by decide)
  · rw [run_of_read readProgram_adding (by with_unfolding_all rfl)]
    with_unfolding_all rfl

end Session

end GradualScript
