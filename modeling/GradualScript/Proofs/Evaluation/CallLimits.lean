import Mathlib
import GradualScript.Proofs.Evaluation.Budgets
import GradualScript.Proofs.Evaluation.Discipline
import GradualScript.Proofs.Evaluation.Failures
import GradualScript.Proofs.Typing.Described

/-!
# The limit on nested calls

The machine counts the calls whose bodies run, at every moment of a run. So no more of
them nest than the limit allows, and a call is refused only inside as many calls as the
limit names. A run in which none is refused does not depend on the limit.
-/
namespace GradualScript

open Eval

section

variable {limit looser : Option Nat} {calls depth : Nat}

theorem limitReached?_eq_some_iff :
    limitReached? limit calls = some depth ↔ limit = some depth ∧ depth ≤ calls := by
  simp [limitReached?, Option.filter_eq_some_iff]

theorem limitReached?_eq_none_iff : limitReached? limit calls = none ↔ ∀ d ∈ limit, calls < d := by
  simp [limitReached?, Option.filter_eq_none_iff]

/-- The fault of one call too many. -/
def RuntimeFault.IsCallLimit (fault : RuntimeFault) : Prop :=
  ∃ depth, fault = .callLimitReached depth

/-- A limit that is no smaller, or none, forbids less. -/
theorem loosens_of_le (h : ∀ k ∈ looser, ∃ d ∈ limit, d ≤ k) :
    Loosens RuntimeFault.IsCallLimit limit looser where
  allows calls hlimit := by
    rw [limitReached?_eq_none_iff] at hlimit ⊢
    intro k hk
    obtain ⟨d, hd, hle⟩ := h k hk
    exact Nat.lt_of_lt_of_le (hlimit d hd) hle
  forbids _ depth _ hcounts := absurd ⟨depth, rfl⟩ hcounts

end

theorem Eval.Within.keeps {α : Type} {reach : Reach} {run : Eval α} {m mid : Machine}
    {outcome : Outcome RuntimeError α} (h : Within reach run) (hroot : 0 < m.scopes.size)
    (hrun : run m = (outcome, mid)) : 0 < mid.scopes.size ∧ mid.calls = m.calls := by
  have hkept := h m hroot
  rw [hrun] at hkept
  exact ⟨hkept.scopes.size_eq ▸ hroot, hkept.calls_eq⟩

/-- How many calls a task begins before what it starts: a call runs its body inside it. -/
def Task.begins : Task → Nat
  | .call .. => 1
  | _ => 0

namespace Run

variable {limit : Option Nat} {r r' last : Run} {k d : Nat}

/-- The count goes up where a body starts, and nowhere else: what ran before left it. -/
theorem Starts.calls_eq (hs : Starts limit r r') (hroot : 0 < r.machine.scopes.size) :
    0 < r'.machine.scopes.size ∧ r'.machine.calls = r.machine.calls + r.task.begins := by
  have hkeeps := fun n => disciplined limit n
  cases hs with
  | operand | left | inner | assigned | callee | firstArgument | expression | print | init | cond
  | returned | whileLoop | first | test => exact ⟨hroot, rfl⟩
  | right hv | arguments hv | moreArguments hv | yes hv | no hv =>
    exact ((hkeeps _).eval _).keeps hroot hv
  | call hf hargs =>
    obtain ⟨hmid, hcalls⟩ := ((hkeeps _).eval _).keeps hroot hf
    obtain ⟨hlast, hcalls'⟩ := ((hkeeps _).evalAll _).keeps hmid hargs
    exact ⟨hlast, hcalls'.trans hcalls⟩
  | @body _ m f args => exact ⟨m.size_enter f args ▸ Nat.succ_pos _, rfl⟩
  | @block _ m => exact ⟨m.size_opened "block" ▸ Nat.succ_pos _, rfl⟩
  | @begin _ m => exact ⟨m.size_opened "for" ▸ Nat.succ_pos _, rfl⟩
  | @forLoop _ m _ _ _ _ _ _ hbegin =>
    have hopened : 0 < (m.opened "for").scopes.size := m.size_opened "for" ▸ Nat.succ_pos _
    have hmid := ((hkeeps _).within_begin _).keeps hopened hbegin
    exact ⟨hmid.1, hmid.2⟩
  | rest hfirst => exact ((hkeeps _).exec _).keeps hroot hfirst
  | round htest => exact ((hkeeps _).within_test _).keeps hroot htest
  | advance htest hbody =>
    obtain ⟨hmid, hcalls⟩ := ((hkeeps _).within_test _).keeps hroot htest
    obtain ⟨hlast, hcalls'⟩ := ((hkeeps _).exec _).keeps hmid hbody
    exact ⟨hlast, hcalls'.trans hcalls⟩
  | again htest hbody hadvance =>
    obtain ⟨hmid, hcalls⟩ := ((hkeeps _).within_test _).keeps hroot htest
    obtain ⟨hmid', hcalls'⟩ := ((hkeeps _).exec _).keeps hmid hbody
    obtain ⟨hlast, hcalls''⟩ := ((hkeeps _).within_advance _).keeps hmid' hadvance
    exact ⟨hlast, (hcalls''.trans hcalls').trans hcalls⟩

/-- A call begins where the limit allows it. -/
theorem Starts.calls_lt (hs : Starts (some d) r r') (hcalls : r.machine.calls ≤ d) :
    r.machine.calls + r.task.begins ≤ d := by
  cases hs with
  | body _ hlimit => exact limitReached?_eq_none_iff.mp hlimit d rfl
  | _ => exact hcalls

/-- The second run is inside the first, and inside the bodies of `k` calls begun since. -/
inductive Nests (limit : Option Nat) : Nat → Run → Run → Prop
  | refl (r : Run) : Nests limit 0 r r
  | step {k : Nat} {r mid last : Run} : Starts limit r mid → Nests limit k mid last →
      Nests limit (r.task.begins + k) r last

theorem Reaches.nests (h : Reaches limit r last) : ∃ k, Nests limit k r last := by
  induction h with
  | refl => exact ⟨0, .refl _⟩
  | step hs _ ih => exact ⟨_, .step hs ih.choose_spec⟩

theorem Nests.reaches (h : Nests limit k r last) : Reaches limit r last := by
  induction h with
  | refl => exact .refl _
  | step hs _ ih => exact .step hs ih

/-- The machine counts the calls that a run is inside of. -/
theorem Nests.calls_eq (h : Nests limit k r last) (hroot : 0 < r.machine.scopes.size) :
    last.machine.calls = r.machine.calls + k := by
  induction h with
  | refl => rfl
  | step hs _ ih =>
    obtain ⟨hmid, hcalls⟩ := hs.calls_eq hroot
    rw [ih hmid, hcalls, Nat.add_assoc]

theorem Nests.calls_le (h : Nests (some d) k r last) (hroot : 0 < r.machine.scopes.size)
    (hcalls : r.machine.calls ≤ d) : last.machine.calls ≤ d := by
  induction h with
  | refl => exact hcalls
  | step hs _ ih =>
    obtain ⟨hmid, hbegun⟩ := hs.calls_eq hroot
    exact ih hmid (hbegun ▸ hs.calls_lt hcalls)

/-- Operators never complain about the limit. -/
theorem Raises.callLimit_inv {depth : Nat} {position : Position}
    (h : r.Raises limit ⟨.callLimitReached depth, position⟩) :
    ∃ n f args m, r = ⟨n + 1, .call (.function f) args position, m⟩ ∧
      args.length = f.arity ∧ limitReached? limit m.calls = some depth := by
  cases h with
  | callLimit harity hlimit => exact ⟨_, _, _, _, rfl, harity, hlimit⟩
  | unary _ hop => cases Operator.applyUnary_fault hop
  | binary _ _ hop => rcases Operator.applyBinary_fault hop with h | ⟨_, _, h⟩ <;> cases h

/-- A call is refused where as many are in progress as the limit names. -/
theorem fails_callLimit_iff {position : Position} {depth : Nat} :
    r.Fails limit ⟨.callLimitReached depth, position⟩ ↔
      ∃ k n f args m, Nests limit k r ⟨n + 1, .call (.function f) args position, m⟩ ∧
        args.length = f.arity ∧ limit = some depth ∧ depth ≤ m.calls := by
  rw [fails_iff]
  constructor
  · rintro ⟨r', hreaches, hraises⟩
    obtain ⟨k, hnests⟩ := hreaches.nests
    obtain ⟨n, f, args, m, rfl, harity, hlimit⟩ := hraises.callLimit_inv
    exact ⟨k, n, f, args, m, hnests, harity, limitReached?_eq_some_iff.mp hlimit⟩
  · rintro ⟨k, n, f, args, m, hnests, harity, hlimit⟩
    exact ⟨_, hnests.reaches, .callLimit harity (limitReached?_eq_some_iff.mpr hlimit)⟩

end Run

theorem Program.execute_failed_iff {p : Program} {limit : Option Nat} {budget : Nat} {m : Machine}
    {e : RuntimeError} : (p.execute limit budget m).1 = .failed e ↔
      Run.Fails limit ⟨budget, .execAll p, m⟩ e := by
  constructor
  · intro h
    rcases bind_cases h with h | ⟨_, _, _, h⟩
    · exact h
    · cases h
  · exact bind_failed

/-- What the limit `d` on nested calls does to a program. A run that ends without being
stopped at the limit is the same, in its outcome and in all that it leaves, with every
larger limit and without one. All runs inside it are within at most `d` calls, which the
machine counts. A run is stopped at the limit exactly if the limit is `d` and a function is called
inside `d` calls, with as many arguments as it takes. -/
theorem Program.limits_calls (p : Program) (budget : Nat) (m : Machine)
    (hroot : 0 < m.scopes.size) (hcalls : m.calls = 0) (d : Nat) :
    (∀ looser : Option Nat, (∀ k ∈ looser, d ≤ k) →
      (p.execute (some d) budget m).1.Decides RuntimeFault.IsCallLimit →
        p.execute looser budget m = p.execute (some d) budget m) ∧
    (∀ k r, Run.Nests (some d) k ⟨budget, .execAll p, m⟩ r → r.machine.calls = k ∧ k ≤ d) ∧
    ∀ depth position,
      (p.execute (some d) budget m).1 = .failed ⟨.callLimitReached depth, position⟩ ↔
        depth = d ∧ ∃ n f args mid, args.length = f.arity ∧
          Run.Nests (some d) d ⟨budget, .execAll p, m⟩
            ⟨n + 1, .call (.function f) args position, mid⟩ := by
  have hcount : ∀ k r, Run.Nests (some d) k ⟨budget, .execAll p, m⟩ r →
      r.machine.calls = k ∧ k ≤ d := by
    intro k r hnests
    have hcalled : r.machine.calls = m.calls + k := hnests.calls_eq hroot
    have hle := hnests.calls_le hroot (hcalls ▸ Nat.zero_le d)
    omega
  refine ⟨fun looser hle => ?_, hcount, fun depth position => ?_⟩
  · have hcovers := covers_of_le (loosens_of_le fun k hk => ⟨d, rfl, hle k hk⟩) (Nat.le_refl budget)
    exact ((hcovers.execAll p).bind fun _ => .refl _) m
  · rw [Program.execute_failed_iff, Run.fails_callLimit_iff]
    constructor
    · rintro ⟨k, n, f, args, mid, hnests, harity, hlimit, hdepth⟩
      obtain rfl := Option.some.inj hlimit
      obtain ⟨hcalled, hle⟩ := hcount _ _ hnests
      obtain rfl : k = d := Nat.le_antisymm hle (hcalled ▸ hdepth)
      exact ⟨rfl, n, f, args, mid, harity, hnests⟩
    · rintro ⟨rfl, n, f, args, mid, harity, hnests⟩
      exact ⟨_, n, f, args, mid, hnests, harity, rfl,
        Nat.le_of_eq (hcount _ _ hnests).1.symm⟩

/-- A function that calls another: `fun g() {} fun f() { g(); } f();`. -/
def nestedCalls : Program :=
  [.function ⟨1, 1⟩ "g" [] [] .any,
    .function ⟨1, 12⟩ "f" []
      [.expression ⟨1, 22⟩ (.call (.unchecked ⟨1, 22⟩) (.name (.unchecked ⟨1, 22⟩) "g") [])] .any,
    .expression ⟨1, 29⟩ (.call (.unchecked ⟨1, 29⟩) (.name (.unchecked ⟨1, 29⟩) "f") [])]

/-- Under the limit 1 the inner call is refused, inside the outer one. The limit 2 is enough. -/
theorem Program.limits_calls_nested :
    0 < (Machine.fresh globalScope .silent).scopes.size ∧
      (Machine.fresh globalScope .silent).calls = 0 ∧
      (∃ n f args mid, args.length = f.arity ∧
        Run.Nests (some 1) 1 ⟨12, .execAll nestedCalls, .fresh globalScope .silent⟩
          ⟨n + 1, .call (.function f) args ⟨1, 22⟩, mid⟩) ∧
      nestedCalls.execute none 12 (.fresh globalScope .silent) =
        nestedCalls.execute (some 2) 12 (.fresh globalScope .silent) := by
  have hlimits := nestedCalls.limits_calls 12 (.fresh globalScope .silent) (by decide) rfl
  have hrefused : (nestedCalls.execute (some 1) 12 (.fresh globalScope .silent)).1 =
      .failed ⟨.callLimitReached 1, ⟨1, 22⟩⟩ := by cbv
  have hends : (nestedCalls.execute (some 2) 12 (.fresh globalScope .silent)).1 = .finished () := by
    cbv
  exact ⟨by decide, rfl, (((hlimits 1).2.2 1 ⟨1, 22⟩).mp hrefused).2,
    (hlimits 2).1 none (by simp) (by rw [hends]; trivial)⟩

end GradualScript
