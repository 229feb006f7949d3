import GradualScript.Proofs.Evaluation.Runs
import GradualScript.Proofs.Session.Batch

/-!
# Every statement is reached

A statement of a program that was parsed never ends with a return, and a call takes up the
return of the body that it runs, wherever the called function comes from. So a program goes
on to its next statement unless one fails or runs forever.
-/
namespace GradualScript

section

variable {limit : Option Nat} {n : Nat} {m mid : Machine}

/-- The statements of a list up to one that stops: it fails with some budget, or ends with
none. -/
def Stops (limit : Option Nat) (m : Machine) (ss : List Stmt) : Prop :=
  ∃ done s rest budget mid, ss = done ++ s :: rest ∧ Completes limit budget m done mid ∧
    ((∃ k e last, s.exec limit k mid = (.failed e, last)) ∨
      ∀ k, (s.exec limit k mid).1 = .unfinished)

theorem Stops.cons {s : Stmt} {ss : List Stmt}
    (hs : s.exec limit n m = (.finished .normal, mid)) (h : Stops limit mid ss) :
    Stops limit m (s :: ss) := by
  obtain ⟨done, t, rest, budget, last, rfl, hdone, hstops⟩ := h
  exact ⟨s :: done, t, rest, max n budget, last, rfl,
    .cons (Stmt.exec_mono hs (Nat.le_max_left n budget))
      (hdone.mono (Nat.le_max_right n budget)), hstops⟩

/-- Statements that do not return complete, or one of them stops. -/
theorem completes_or_stops {ss : List Stmt} (hplaced : Stmt.PlacedIn false ss) (m : Machine) :
    (∃ budget last, Completes limit budget m ss last) ∨ Stops limit m ss := by
  induction ss generalizing m with
  | nil => exact .inl ⟨0, m, .nil m⟩
  | cons s ss ih =>
    by_cases hforever : ∀ k, (s.exec limit k m).1 = .unfinished
    · exact .inr ⟨[], s, ss, 0, m, rfl, .nil m, .inr hforever⟩
    · obtain ⟨n, hends⟩ := not_forall.mp hforever
      cases hrun : s.exec limit n m with
      | mk outcome mid =>
        rw [hrun] at hends
        cases outcome with
        | unfinished => exact absurd rfl hends
        | failed e => exact .inr ⟨[], s, ss, n, m, rfl, .nil m, .inl ⟨n, e, mid, hrun⟩⟩
        | finished c =>
          obtain rfl : c = .normal := (proceeding limit n).exec s hplaced.1 m c mid hrun
          rcases ih hplaced.2 mid with ⟨budget, last, hss⟩ | hstops
          · exact .inl ⟨max n budget, last,
              .cons (Stmt.exec_mono hrun (Nat.le_max_left n budget))
                (hss.mono (Nat.le_max_right n budget))⟩
          · exact .inr (hstops.cons hrun)

/-- With statements that complete before it, a statement runs. -/
theorem Completes.reaches {done rest : List Stmt} {s : Stmt} {k : Nat}
    (h : Completes limit n m done mid) (hk : n ≤ k) :
    Run.Reaches limit ⟨k + done.length + 1, .execAll (done ++ s :: rest), m⟩ ⟨k, .exec s, mid⟩ := by
  induction h with
  | nil m => exact .step .first (.refl _)
  | @cons m mid last t ss ht _ ih =>
    have hle : n ≤ k + (t :: ss).length := by omega
    exact .step (.rest (Stmt.exec_mono ht hle)) ih

/-- After statements that complete, the list ends as the next statement and those behind
it do. -/
theorem Completes.execAll_append_cons {done : List Stmt} {k : Nat}
    (h : Completes limit n m done mid) (hk : n ≤ k) (s : Stmt) (rest : List Stmt) :
    Stmt.execAll limit (k + done.length + 1) (done ++ s :: rest) m =
      (do let c ← s.exec limit k; c.andThen (Stmt.execAll limit k rest)) mid := by
  rw [Nat.add_right_comm, h.execAll (Nat.le_succ_of_le hk), execAll_cons]

end

/-- In a program that was parsed, no statement returns, whatever the machine and the limit.
A call of a function value is refused or ends as its body does, with the value of the
return. So each statement runs, unless one before it fails or runs forever: the program goes on
to it, and ends as it does together with those behind it. -/
theorem parse_confines_returns {tokens : List Token} {p : Program} (h : parse tokens = .ok p)
    (limit : Option Nat) (m : Machine) :
    (∀ s ∈ p, ∀ budget c last, s.exec limit budget m = (.finished c, last) → c = .normal) ∧
    (∀ (f : Function) (args : List Value) (position : Position) (budget : Nat),
      (∃ fault, Value.call limit (budget + 1) (.function f) args position m =
        (.failed ⟨fault, position⟩, m)) ∨
      ∃ outcome last, Stmt.execAll limit budget f.body (m.enter f args) = (outcome, last) ∧
        Value.call limit (budget + 1) (.function f) args position m =
          (outcome.map Completion.value, (last.closeFrom m.scopes.size).leave)) ∧
    ∀ done s rest, p = done ++ s :: rest →
      (∃ budget mid, Completes limit budget m done mid ∧ ∀ k, budget ≤ k →
        Run.Reaches limit ⟨k + done.length + 1, .execAll p, m⟩ ⟨k, .exec s, mid⟩ ∧
          Stmt.execAll limit (k + done.length + 1) p m =
            (do let c ← s.exec limit k; c.andThen (Stmt.execAll limit k rest)) mid) ∨
      Stops limit m done := by
  have hplaced := placedIn_of_parse h
  refine ⟨fun s hs budget c last hrun => ?_, fun f args position budget => ?_,
    fun done s rest heq => ?_⟩
  · exact (proceeding limit budget).exec s (Stmt.placedIn_iff.mp hplaced s hs) m c last hrun
  · by_cases harity : args.length = f.arity
    · cases hlimit : limitReached? limit m.calls with
      | some depth => exact .inl ⟨_, call_limit harity hlimit⟩
      | none => exact .inr ⟨_, _, rfl, call_function_eq harity hlimit⟩
    · exact .inl ⟨_, congrFun (call_arity harity position) m⟩
  · have hdone : Stmt.PlacedIn false done := Stmt.placedIn_iff.mpr fun t ht =>
      Stmt.placedIn_iff.mp hplaced t (heq ▸ List.mem_append_left _ ht)
    rcases completes_or_stops hdone m with ⟨budget, mid, hcompletes⟩ | hstops
    · subst heq
      exact .inl ⟨budget, mid, hcompletes, fun k hk =>
        ⟨hcompletes.reaches hk, hcompletes.execAll_append_cons hk s rest⟩⟩
    · exact .inr hstops

/-- A return inside a loop inside a function. -/
def loopReturnTokens : List Token :=
  match scan "fun f(n) { while (true) { return n; } } f(nil); print f;" with
  | .ok tokens => tokens
  | .error _ => []

def loopReturnTree : Program :=
  [.function ⟨1, 1⟩ "f" ["n"]
      [.whileLoop ⟨1, 12⟩ (.boolean (.unchecked ⟨1, 19⟩) true)
        (.block ⟨1, 25⟩ [.ret ⟨1, 27⟩ (some (.name (.unchecked ⟨1, 34⟩) "n"))])] .any,
    .expression ⟨1, 41⟩ (.call (.unchecked ⟨1, 41⟩) (.name (.unchecked ⟨1, 41⟩) "f")
      [.nil (.unchecked ⟨1, 43⟩)]),
    .print ⟨1, 49⟩ (.name (.unchecked ⟨1, 55⟩) "f")]

theorem parse_loopReturn : parse loopReturnTokens = .ok loopReturnTree := by cbv

theorem parse_confines_returns_loop :
    parse loopReturnTokens = .ok loopReturnTree ∧
      (∀ s ∈ loopReturnTree, ∀ budget c last,
        s.exec none budget (.fresh globalScope .silent) = (.finished c, last) → c = .normal) ∧
      ∀ done s rest, loopReturnTree = done ++ s :: rest →
        (∃ budget mid, Completes none budget (.fresh globalScope .silent) done mid ∧
          ∀ k, budget ≤ k → Run.Reaches none
            ⟨k + done.length + 1, .execAll loopReturnTree, .fresh globalScope .silent⟩
            ⟨k, .exec s, mid⟩ ∧
            Stmt.execAll none (k + done.length + 1) loopReturnTree
                (.fresh globalScope .silent) =
              (do let c ← s.exec none k; c.andThen (Stmt.execAll none k rest)) mid) ∨
        Stops none (.fresh globalScope .silent) done :=
  have hall := parse_confines_returns parse_loopReturn none (.fresh globalScope .silent)
  ⟨parse_loopReturn, hall.1, hall.2.2⟩

end GradualScript
