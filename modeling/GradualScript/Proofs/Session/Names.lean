import Mathlib
import GradualScript.Proofs.Evaluation.Resolved
import GradualScript.Proofs.Session.Commits

/-!
# Names that passed are bound

Between inputs, the root scope of the values binds every name that the types show, and
the functions of a session are closed under these names. An input keeps this however it
ends, if it declares functions at its top level only. So no input that passed misses a
name, whatever came before it.
-/
namespace GradualScript

open Scopes Checked

/-- What holds of the program that a text was read as holds of every such program. -/
theorem forall_of_read {Q : Program → Prop} {source : String} {p : Program}
    (hread : readProgram source = .ok p) (hp : Q p) : ∀ q, readProgram source = .ok q → Q q := by
  intro q hq
  rw [hread] at hq
  cases hq
  exact hp

/-- All function declarations of a text are top-level statements. -/
def FunctionsOnTop (source : String) : Prop :=
  ∀ p, readProgram source = .ok p → ∀ s ∈ p, s.FunctionsOnTop

/-- Between top-level statements, only the root scopes are open, and the machine is
closed under the names that the types show. -/
structure Bound (types : TypeEnv) (m : Machine) : Prop where
  types_size : types.size = 1
  scopes_size : m.scopes.size = 1
  closed : m.Closed types.Shows

namespace Bound

variable {types : TypeEnv} {m last : Machine} {s : Stmt} {limit : Option Nat} {budget : Nat}

theorem fresh (name : String) (sink : Sink) : Bound .fresh (.fresh name sink) := by
  refine ⟨rfl, rfl, Nat.one_pos, fun n hn => ?_, allBound_new name⟩
  exact (shows_iff_root (s := TypeEnv.fresh) rfl n).mp hn

theorem size_pos (h : Bound types m) : 0 < types.size := by
  rw [h.types_size]
  exact Nat.one_pos

/-- The names that the types show are visible in the machine too. -/
theorem shows (h : Bound types m) (n : String) (hn : types.Shows n) : m.scopes.Shows n :=
  (shows_iff_root h.scopes_size n).mpr (h.closed.globals_bound n hn)

theorem size_exec (h : Bound types m) (s : Stmt) (limit : Option Nat) (budget : Nat) :
    (s.exec limit budget m).2.scopes.size = 1 := by
  rw [((disciplined limit budget).exec s m h.closed.size_pos).scopes.size_eq]
  exact h.scopes_size

theorem size_check (h : Bound types m) (s : Stmt) : (s.check .any types).env.size = 1 := by
  rw [(s.extends_check .any h.size_pos).size_eq]
  exact h.types_size

theorem resolves (h : Bound types m) (hplaced : s.Placed false) (hfree : s.FunctionFree)
    (hcheck : (s.check .any types).verdict = .ok ()) (limit : Option Nat) (budget : Nat) :
    Eval.Resolved types.Shows (declaring types.Shows s.declared)
      (Completion.Closed types.Shows) (s.exec limit budget m) :=
  (resolving types.Shows limit budget).exec
    (Stmt.closed_of_check h.size_pos hplaced hfree hcheck) m h.closed h.shows

/-- The types of a statement are committed after it has declared its name. -/
theorem commit (h : Bound types m) (hplaced : s.Placed false) (hclosed : last.Closed types.Shows)
    (hsize : last.scopes.size = 1)
    (hshows : ∀ n, declaring types.Shows s.declared n → last.scopes.Shows n) :
    Bound (s.check .any types).env last := by
  refine ⟨h.size_check s, hsize, hclosed.mono (fun n hn => ?_) fun n hn => ?_⟩
  · exact (s.extends_check .any h.size_pos).shows hn
  · exact (shows_iff_root hsize n).mp (hshows n (Stmt.shows_check .any h.size_pos hplaced n hn))

/-- A function of the top level is closed under its own name and those before it. -/
theorem declare (h : Bound types m) {p : Position} {name : String} {params : List String}
    {body : List Stmt} {result : TypeSet}
    (hplaced : (Stmt.function p name params body result).Placed false)
    (hfree : Stmt.FunctionFreeIn body)
    (hcheck : ((Stmt.function p name params body result).check .any types).verdict = .ok ()) :
    Bound ((Stmt.function p name params body result).check .any types).env
      (m.declare name params body) := by
  have hactive : m.scopes.active = 0 := by rw [active, h.scopes_size]
  have hextends : Extends (some m.scopes.active) m.scopes (m.declare name params body).scopes :=
    extends_setAt ..
  have hsize : (m.declare name params body).scopes.size = 1 := hextends.size_eq.trans h.scopes_size
  have hbound : ∀ n, ((Stmt.function p name params body result).check .any types).env.Shows n →
      n ∈ (m.declare name params body).scopes.namesAt 0 := by
    intro n hn
    refine (shows_iff_root hsize n).mp ((shows_set h.closed.size_pos name _ n).mpr ?_)
    exact (Stmt.shows_check .any h.size_pos hplaced n hn).imp (h.shows n)
      fun heq => (Option.some.inj heq).symm
  have hkept : ∀ n, types.Shows n →
      ((Stmt.function p name params body result).check .any types).env.Shows n := fun n hn =>
    (Stmt.extends_check .any (.function p name params body result) h.size_pos).shows hn
  have hvalues := h.closed.values.mono fun v hv => Value.Closed.mono hv hkept
  exact ⟨h.size_check _, hsize, hextends.size_pos h.closed.size_pos, hbound,
    hvalues.set name ⟨hactive, Stmt.closedIn_body_of_check h.size_pos hplaced hfree hcheck⟩⟩

/-- A top-level statement misses no name, and leaves the machine and the types bound: the
new types if it finished, else the old ones. -/
theorem exec (h : Bound types m) (hplaced : s.Placed false) (htop : s.FunctionsOnTop)
    (hcheck : (s.check .any types).verdict = .ok ()) (limit : Option Nat) (budget : Nat) :
    (∀ c, (s.exec limit budget m).1 = .finished c →
      Bound (s.check .any types).env (s.exec limit budget m).2) ∧
    ((∀ c, (s.exec limit budget m).1 ≠ .finished c) → Bound types (s.exec limit budget m).2) ∧
    ∀ n position, (s.exec limit budget m).1 ≠ .failed ⟨.undefinedVariable n, position⟩ := by
  by_cases hfree : s.FunctionFree
  · have hrun := h.resolves hplaced hfree hcheck limit budget
    have hsize := h.size_exec s limit budget
    exact ⟨fun c hc => h.commit hplaced hrun.machine hsize (hrun.shows c hc),
      fun _ => ⟨h.types_size, hsize, hrun.machine⟩, hrun.finds⟩
  · -- What is not free of functions is the declaration of one, done in a single step.
    cases s with
    | function p name params body result =>
      cases budget with
      | zero => exact ⟨nofun, fun _ => h, nofun⟩
      | succ budget =>
        exact ⟨fun _ _ => h.declare hplaced htop hcheck, fun hc => absurd rfl (hc .normal), nofun⟩
    | _ => exact absurd htop hfree

theorem completes {ss : List Stmt} (h : Bound types m) (hss : Completes limit budget m ss last)
    (hplaced : Stmt.PlacedIn false ss) (htop : ∀ s ∈ ss, s.FunctionsOnTop)
    (hcheck : (Program.check ss types).verdict = .ok ()) :
    Bound (Program.check ss types).env last := by
  induction hss generalizing types with
  | nil m => exact h
  | @cons m mid last s ss hs _ ih =>
    rw [List.forall_mem_cons] at htop
    rw [Program.check_cons] at hcheck ⊢
    obtain ⟨⟨⟩, hfirst, hrest⟩ := next_ok hcheck
    have hmid := (h.exec hplaced.1 htop.1 hfirst limit budget).1 .normal (by rw [hs])
    rw [hs] at hmid
    simp only [next_eq hfirst]
    exact ih hmid hplaced.2 htop.2 hrest

/-- The statements before the one that stopped are committed. -/
theorem stops {session : Session} {source : String} {done : List Stmt} {mid : Machine}
    (h : Bound session.types session.machine) (htop : FunctionsOnTop source)
    (hstop : session.StopsIn budget source done s mid) :
    Bound (Program.check done session.types).env (s.exec session.limit budget mid).2 ∧
      ∀ n position,
        (s.exec session.limit budget mid).1 ≠ .failed ⟨.undefinedVariable n, position⟩ := by
  obtain ⟨rest, hread, hcheck⟩ := hstop.passed
  have htops := htop _ hread
  have hplaced := Stmt.placedIn_iff.mp (placedIn_of_readProgram hread)
  rw [List.forall_mem_append, List.forall_mem_cons] at htops hplaced
  have hmid := h.completes hstop.completes (Stmt.placedIn_iff.mpr hplaced.1) htops.1
    (Program.check_ok_of_append hcheck)
  obtain ⟨-, hleft, hfinds⟩ := hmid.exec hplaced.2.1 htops.2.1 (Program.check_stmt_ok hcheck)
    session.limit budget
  exact ⟨hleft hstop.stops, hfinds⟩

end Bound

namespace Session

/-- An input that declares functions on top only misses no name, and leaves the session
bound. -/
theorem bound_run {session : Session} (h : Bound session.types session.machine)
    {source : String} (htop : FunctionsOnTop source) (budget : Nat) :
    Bound (session.run budget source).2.types (session.run budget source).2.machine ∧
      ∀ n position,
        (session.run budget source).1 ≠ .failed (.run ⟨.undefinedVariable n, position⟩) := by
  rcases session.run_ends budget source with
    ⟨e, hphase, hrun⟩ | ⟨p, last, hread, hcheck, hall, hrun⟩ | ⟨done, s, mid, hstop, hlater, hfail⟩
  · rw [hrun]
    refine ⟨h, fun n position heq => ?_⟩
    cases heq
    exact hphase rfl
  · rw [hrun]
    exact ⟨h.completes hall (placedIn_of_readProgram hread) (htop p hread) hcheck, nofun⟩
  · obtain ⟨hleft, hfinds⟩ := h.stops htop hstop
    rw [hlater]
    exact ⟨hleft, fun n position heq => hfinds n position (hfail _ heq)⟩

theorem bound_after {history : List (Nat × String)} (sink : Sink) (limit : Option Nat)
    (hhistory : ∀ input ∈ history, FunctionsOnTop input.2) :
    Bound ((fresh sink limit).after history).types ((fresh sink limit).after history).machine :=
  after_induction (P := fun session => Bound session.types session.machine)
    (Bound.fresh globalScope sink) hhistory
    fun _ budget _ h htop => (bound_run h htop budget).1

/-- In a session whose inputs declare functions at top level only, no run ends with an
undefined variable, whatever the inputs before it did and however they ended. -/
theorem run_finds_names (sink : Sink) (limit : Option Nat) (history : List (Nat × String))
    (budget : Nat) (source : String) (hhistory : ∀ input ∈ history, FunctionsOnTop input.2)
    (hsource : FunctionsOnTop source) (n : String) (position : Position) :
    (((Session.fresh sink limit).after history).run budget source).1 ≠
      .failed (.run ⟨.undefinedVariable n, position⟩) :=
  (bound_run (bound_after sink limit hhistory) hsource budget).2 n position

end Session

/-- The function is called after the input that declared it and the global it uses. -/
def declaringInput : String := "var g; fun f(n) \x7b return g; \x7d"

theorem functionsOnTop_declaringInput : FunctionsOnTop declaringInput := by
  have hread : readProgram declaringInput = .ok
      [.var ⟨1, 1⟩ "g" (.nil (.unchecked ⟨1, 5⟩)),
        .function ⟨1, 8⟩ "f" ["n"] [.ret ⟨1, 19⟩ (some (.name (.unchecked ⟨1, 26⟩) "g"))] .any] := by
    cbv
  refine forall_of_read hread ?_
  simp [Stmt.FunctionsOnTop, Stmt.FunctionFree, Stmt.FunctionFreeIn]

def callingInput : String := "print f(g);"

theorem functionsOnTop_callingInput : FunctionsOnTop callingInput := by
  have hread : readProgram callingInput = .ok
      [.print ⟨1, 1⟩ (.call (.unchecked ⟨1, 7⟩) (.name (.unchecked ⟨1, 7⟩) "f")
        [.name (.unchecked ⟨1, 9⟩) "g"])] := by
    cbv
  refine forall_of_read hread ?_
  simp [Stmt.FunctionsOnTop, Stmt.FunctionFree]

theorem run_finds_names_call :
    (∀ input ∈ [(9, declaringInput)], FunctionsOnTop input.2) ∧ FunctionsOnTop callingInput ∧
      (((Session.fresh .silent none).after [(9, declaringInput)]).run 9 callingInput).1 ≠
        .failed (.run ⟨.undefinedVariable "g", ⟨1, 26⟩⟩) := by
  have hhistory : ∀ input ∈ [(9, declaringInput)], FunctionsOnTop input.2 :=
    List.forall_mem_singleton.mpr functionsOnTop_declaringInput
  exact ⟨hhistory, functionsOnTop_callingInput, Session.run_finds_names .silent none
    [(9, declaringInput)] 9 callingInput hhistory functionsOnTop_callingInput "g" ⟨1, 26⟩⟩

end GradualScript
