import GradualScript.Proofs.Evaluation.Runs

/-!
# Larger budgets and looser limits

A run that ends does so with every larger budget, in the same way. So it does not matter
which budget a run is given, as long as it ends. Nor does the limit on nested calls matter
to a run that does not fail at it.
-/
namespace GradualScript

/-- Ended, and not with a fault that is exempt. -/
def Outcome.Decides {α : Type} (exempt : RuntimeFault → Prop) : Outcome RuntimeError α → Prop
  | .finished _ => True
  | .failed e => ¬ exempt e.cause
  | .unfinished => False

/-- Without exempt faults, every outcome decides but the unfinished one. -/
theorem Outcome.decides_never {α : Type} {outcome : Outcome RuntimeError α} :
    outcome.Decides (fun _ => False) ↔ outcome ≠ .unfinished := by
  cases outcome <;> simp [Outcome.Decides]

namespace Eval

variable {α β : Type} {exempt : RuntimeFault → Prop}

/-- Where the first run ends without an exempt fault, the second is the same. -/
def ApproximatesBut (exempt : RuntimeFault → Prop) (run more : Eval α) : Prop :=
  ∀ m, (run m).1.Decides exempt → more m = run m

namespace ApproximatesBut

theorem refl (run : Eval α) : ApproximatesBut exempt run run := fun _ _ => rfl

theorem unfinished (run : Eval α) : ApproximatesBut exempt unfinished run :=
  fun _ hends => hends.elim

/-- A run that decides has decided in its first part, or finished it and decided in its
second. -/
theorem bind {run more : Eval α} {f g : α → Eval β} (h : ApproximatesBut exempt run more)
    (hf : ∀ a, ApproximatesBut exempt (f a) (g a)) :
    ApproximatesBut exempt (run >>= f) (more >>= g) := by
  intro m hends
  rcases bind_outcome run f m with ⟨a, mid, hrun, hbind⟩ | ⟨e, mid, hrun, hbind⟩ |
    ⟨mid, -, hbind⟩
  · have hmore : more m = (.finished a, mid) := by rw [h m (by rw [hrun]; trivial), hrun]
    rw [hbind] at hends ⊢
    rw [bind_finished hmore]
    exact hf a mid hends
  · rw [hbind] at hends ⊢
    have hmore : more m = (.failed e, mid) := by rw [h m (by rw [hrun]; exact hends), hrun]
    rw [bind_fails hmore]
  · rw [hbind] at hends
    exact hends.elim

/-- To open and close a scope decides nothing. -/
theorem inScope {run more : Eval α} (h : ApproximatesBut exempt run more) (name : String) :
    ApproximatesBut exempt (inScope name run) (inScope name more) := by
  intro m hends
  have hsame : more (m.opened name) = run (m.opened name) := h _ hends
  exact congrArg (fun result => (result.1, result.2.closeFrom m.scopes.size)) hsame

theorem inFrame {run more : Eval α} (h : ApproximatesBut exempt run more) (f : Function)
    (args : List Value) : ApproximatesBut exempt (inFrame f args run) (inFrame f args more) := by
  intro m hends
  have hsame : more (m.enter f args) = run (m.enter f args) := h _ hends
  exact congrArg (fun result => (result.1, (result.2.closeFrom m.scopes.size).leave)) hsame

theorem andThen {more most : Eval Completion} (h : ApproximatesBut exempt more most)
    (c : Completion) : ApproximatesBut exempt (c.andThen more) (c.andThen most) := by
  cases c with
  | normal => exact h
  | returned v => exact .refl _

end ApproximatesBut

/-- Where the first run ends, the second is the same. -/
def Approximates (run more : Eval α) : Prop :=
  ∀ m, (run m).1 ≠ .unfinished → more m = run m

/-- To approximate is to do so but for no fault. -/
theorem approximatesBut_never {run more : Eval α} :
    ApproximatesBut (fun _ => False) run more ↔ Approximates run more :=
  forall_congr' fun _ => imp_congr_left Outcome.decides_never

theorem Approximates.refl (run : Eval α) : Approximates run run := fun _ _ => rfl

theorem approximates_unfinished (run : Eval α) : Approximates unfinished run :=
  fun _ hends => absurd rfl hends

/-- What decides with a budget decides with a larger one, and with a larger one still. -/
theorem Approximates.trans {run more most : Eval α} (h : Approximates run more)
    (h' : Approximates more most) : Approximates run most := by
  intro m hends
  have hmore := h m hends
  rw [h' m (by rwa [hmore]), hmore]

theorem Approximates.bind {run more : Eval α} {f g : α → Eval β} (h : Approximates run more)
    (hf : ∀ a, Approximates (f a) (g a)) : Approximates (run >>= f) (more >>= g) :=
  approximatesBut_never.mp <|
    (approximatesBut_never.mpr h).bind fun a => approximatesBut_never.mpr (hf a)

theorem Approximates.inScope {run more : Eval α} (h : Approximates run more) (name : String) :
    Approximates (inScope name run) (inScope name more) :=
  approximatesBut_never.mp ((approximatesBut_never.mpr h).inScope name)

theorem Approximates.andThen {more most : Eval Completion} (h : Approximates more most)
    (c : Completion) : Approximates (c.andThen more) (c.andThen most) :=
  approximatesBut_never.mp ((approximatesBut_never.mpr h).andThen c)

end Eval

open Eval

/-- Where the first limit allows a call the second does, and where the first forbids one
the second says the same, if the fault counts. -/
structure Loosens (exempt : RuntimeFault → Prop) (limit looser : Option Nat) : Prop where
  allows : ∀ calls, limitReached? limit calls = none → limitReached? looser calls = none
  forbids : ∀ calls depth, limitReached? limit calls = some depth →
    ¬ exempt (.callLimitReached depth) → limitReached? looser calls = some depth

/-- All runs with the first limit and budget are those with the second, if they end without
an exempt fault. -/
structure Covers (exempt : RuntimeFault → Prop) (limit looser : Option Nat) (n k : Nat) : Prop where
  eval : ∀ e : Expr, ApproximatesBut exempt (e.eval limit n) (e.eval looser k)
  evalAll : ∀ es, ApproximatesBut exempt (Expr.evalAll limit n es) (Expr.evalAll looser k es)
  call : ∀ f args position, ApproximatesBut exempt (Value.call limit n f args position)
    (Value.call looser k f args position)
  exec : ∀ s : Stmt, ApproximatesBut exempt (s.exec limit n) (s.exec looser k)
  execAll : ∀ ss, ApproximatesBut exempt (Stmt.execAll limit n ss) (Stmt.execAll looser k ss)
  rounds : ∀ cond body increment, ApproximatesBut exempt (Stmt.rounds limit n cond body increment)
    (Stmt.rounds looser k cond body increment)

namespace Covers

variable {exempt : RuntimeFault → Prop} {limit looser : Option Nat} {n k : Nat}

theorem test (h : Covers exempt limit looser n k) (cond : Option Expr) :
    ApproximatesBut exempt (Stmt.test limit n cond) (Stmt.test looser k cond) := by
  cases cond with
  | none => exact .refl _
  | some c => exact (h.eval c).bind fun v => .refl _

theorem advance (h : Covers exempt limit looser n k) (increment : Option Expr) :
    ApproximatesBut exempt (Stmt.advance limit n increment) (Stmt.advance looser k increment) := by
  cases increment with
  | none => exact .refl _
  | some e => exact (h.eval e).bind fun _ => .refl _

theorem begin (h : Covers exempt limit looser n k) (init : Option Stmt) :
    ApproximatesBut exempt (Stmt.begin limit n init) (Stmt.begin looser k init) := by
  cases init with
  | none => exact .refl _
  | some s => exact h.exec s

/-- Parts of an expression run with one step less on both sides. -/
theorem eval_succ (h : Covers exempt limit looser n k) (e : Expr) :
    ApproximatesBut exempt (e.eval limit (n + 1)) (e.eval looser (k + 1)) := by
  cases e with
  | number | string | boolean | nil | name => exact .refl _
  | unary m op operand => exact (h.eval operand).bind fun v => .refl _
  | binary m op left right =>
    rw [eval_binary, eval_binary]
    refine (h.eval left).bind fun l => ?_
    split
    · exact (h.eval right).bind fun r => .refl _
    · exact .refl _
  | grouping m inner => exact h.eval inner
  | assign m name value => exact (h.eval value).bind fun v => .refl _
  | call m callee args =>
    exact (h.eval callee).bind fun f => (h.evalAll args).bind fun vs => h.call f vs m.position

theorem evalAll_succ (h : Covers exempt limit looser n k) (es : List Expr) :
    ApproximatesBut exempt (Expr.evalAll limit (n + 1) es) (Expr.evalAll looser (k + 1) es) := by
  cases es with
  | nil => exact .refl _
  | cons e es => exact (h.eval e).bind fun v => (h.evalAll es).bind fun vs => .refl _

/-- The only step that asks for the limit. -/
theorem call_succ (h : Covers exempt limit looser n k) (hlimits : Loosens exempt limit looser)
    (callee : Value) (args : List Value) (position : Position) :
    ApproximatesBut exempt (Value.call limit (n + 1) callee args position)
      (Value.call looser (k + 1) callee args position) := by
  cases callee with
  | function f =>
    by_cases harity : args.length = f.arity
    · intro m
      cases hlimit : limitReached? limit m.calls with
      | none =>
        rw [call_function harity hlimit, call_function harity (hlimits.allows _ hlimit)]
        exact ((h.execAll f.body).inFrame f args).bind (fun c => .refl (pure c.value)) m
      | some depth =>
        rw [call_limit harity hlimit]
        intro hcounts
        rw [call_limit harity (hlimits.forbids _ _ hlimit hcounts)]
    · rw [call_arity harity, call_arity harity]
      exact .refl _
  | _ => exact .refl _

theorem exec_succ (h : Covers exempt limit looser n k) (s : Stmt) :
    ApproximatesBut exempt (s.exec limit (n + 1)) (s.exec looser (k + 1)) := by
  cases s with
  | expression p e => exact (h.eval e).bind fun _ => .refl _
  | print p e => exact (h.eval e).bind fun v => .refl _
  | var p name init => exact (h.eval init).bind fun v => .refl _
  | block p body => exact (h.execAll body).inScope "block"
  | ifElse p cond yes no =>
    refine (h.eval cond).bind fun c => ?_
    split
    · exact h.exec yes
    · cases no with
      | none => exact .refl _
      | some s => exact h.exec s
  | whileLoop p cond body => exact h.rounds (some cond) body none
  | forLoop p init cond increment body =>
    rw [exec_forLoop, exec_forLoop]
    exact ((h.begin init).bind (h.rounds cond body increment).andThen).inScope "for"
  | function p name params body result => exact .refl _
  | ret p value =>
    cases value with
    | none => exact .refl _
    | some e => exact (h.eval e).bind fun v => .refl _

theorem execAll_succ (h : Covers exempt limit looser n k) (ss : List Stmt) :
    ApproximatesBut exempt (Stmt.execAll limit (n + 1) ss) (Stmt.execAll looser (k + 1) ss) := by
  cases ss with
  | nil => exact .refl _
  | cons s ss =>
    refine (h.exec s).bind fun c => ?_
    cases c with
    | normal => exact h.execAll ss
    | returned v => exact .refl _

theorem rounds_succ (h : Covers exempt limit looser n k) (cond : Option Expr) (body : Stmt)
    (increment : Option Expr) :
    ApproximatesBut exempt (Stmt.rounds limit (n + 1) cond body increment)
      (Stmt.rounds looser (k + 1) cond body increment) := by
  rw [GradualScript.rounds_succ, GradualScript.rounds_succ]
  refine (h.test cond).bind fun go => ?_
  cases go with
  | false => exact .refl _
  | true =>
    refine (h.exec body).bind fun c => ApproximatesBut.andThen ?_ c
    exact (h.advance increment).bind fun _ => h.rounds cond body increment

end Covers

/-- With no budget no run ends; with one more step, the parts have had the smaller of two
budgets before. -/
theorem covers_of_le {exempt : RuntimeFault → Prop} {limit looser : Option Nat}
    (hlimits : Loosens exempt limit looser) {n k : Nat} (h : n ≤ k) :
    Covers exempt limit looser n k := by
  induction n generalizing k with
  | zero => constructor <;> intros <;> exact .unfinished _
  | succ n ih =>
    obtain ⟨k, rfl⟩ : ∃ j, k = j + 1 := ⟨k - 1, by omega⟩
    have hparts := ih (by omega : n ≤ k)
    exact ⟨hparts.eval_succ, hparts.evalAll_succ, hparts.call_succ hlimits, hparts.exec_succ,
      hparts.execAll_succ, hparts.rounds_succ⟩

/-- All runs with the first budget are those with the second, if they end. -/
def Suffices (limit : Option Nat) (n k : Nat) : Prop := Covers (fun _ => False) limit limit n k

theorem suffices_of_le (limit : Option Nat) {n k : Nat} (h : n ≤ k) : Suffices limit n k :=
  covers_of_le ⟨fun _ => id, fun _ _ hlimit _ => hlimit⟩ h

namespace Suffices

variable {limit : Option Nat} {n k : Nat}

theorem eval (h : Suffices limit n k) (e : Expr) : Approximates (e.eval limit n) (e.eval limit k) :=
  approximatesBut_never.mp (Covers.eval h e)

theorem evalAll (h : Suffices limit n k) (es : List Expr) :
    Approximates (Expr.evalAll limit n es) (Expr.evalAll limit k es) :=
  approximatesBut_never.mp (Covers.evalAll h es)

theorem exec (h : Suffices limit n k) (s : Stmt) :
    Approximates (s.exec limit n) (s.exec limit k) :=
  approximatesBut_never.mp (Covers.exec h s)

theorem execAll (h : Suffices limit n k) (ss : List Stmt) :
    Approximates (Stmt.execAll limit n ss) (Stmt.execAll limit k ss) :=
  approximatesBut_never.mp (Covers.execAll h ss)

theorem test (h : Suffices limit n k) (cond : Option Expr) :
    Approximates (Stmt.test limit n cond) (Stmt.test limit k cond) :=
  approximatesBut_never.mp (Covers.test h cond)

theorem advance (h : Suffices limit n k) (increment : Option Expr) :
    Approximates (Stmt.advance limit n increment) (Stmt.advance limit k increment) :=
  approximatesBut_never.mp (Covers.advance h increment)

theorem begin (h : Suffices limit n k) (init : Option Stmt) :
    Approximates (Stmt.begin limit n init) (Stmt.begin limit k init) :=
  approximatesBut_never.mp (Covers.begin h init)

end Suffices

/-- Runs that differ in their budget only are the same if they end. -/
theorem Eval.ends_unique {α : Type} {run : Nat → Eval α}
    (hrun : ∀ {n k}, n ≤ k → Approximates (run n) (run k)) {n k : Nat} {m : Machine}
    (h : (run n m).1 ≠ .unfinished) (h' : (run k m).1 ≠ .unfinished) : run n m = run k m :=
  (hrun (Nat.le_max_left n k) m h).symm.trans (hrun (Nat.le_max_right n k) m h')

theorem Eval.finished_unique {α : Type} {run : Nat → Eval α}
    (hrun : ∀ {n k}, n ≤ k → Approximates (run n) (run k)) {n k : Nat} {m mid last : Machine}
    {a b : α} (h : run n m = (.finished a, mid)) (h' : run k m = (.finished b, last)) :
    a = b ∧ mid = last := by
  have hsame := Eval.ends_unique hrun (n := n) (k := k) (m := m) (by simp [h]) (by simp [h'])
  rw [h, h'] at hsame
  cases hsame
  exact ⟨rfl, rfl⟩

/-- A statement that ended does so with a larger budget. -/
theorem Stmt.exec_mono {limit : Option Nat} {n k : Nat} {s : Stmt} {m mid : Machine}
    {c : Completion} (h : s.exec limit n m = (.finished c, mid)) (hk : n ≤ k) :
    s.exec limit k m = (.finished c, mid) :=
  ((suffices_of_le limit hk).exec s m (by simp [h])).trans h

namespace Run

variable {limit : Option Nat} {n k : Nat}

/-- A part that ended is the same with a larger budget. -/
theorem finished_mono {α : Type} {run more : Eval α} {m mid : Machine} {a : α}
    (h : run m = (.finished a, mid)) (hmore : Approximates run more) :
    more m = (.finished a, mid) := (hmore m (by simp [h])).trans h

/-- With a larger budget a run starts the same runs, with larger budgets. -/
theorem Starts.mono {r r' : Run} (h : Starts limit r r') (hk : r'.budget ≤ k) :
    Starts limit ⟨k + 1, r.task, r.machine⟩ ⟨k, r'.task, r'.machine⟩ := by
  have hall := suffices_of_le limit hk
  cases h with
  | operand => exact .operand
  | left => exact .left
  | right hl hneeds => exact .right (finished_mono hl (hall.eval _)) hneeds
  | inner => exact .inner
  | assigned => exact .assigned
  | callee => exact .callee
  | arguments hf => exact .arguments (finished_mono hf (hall.eval _))
  | call hf hargs =>
    exact .call (finished_mono hf (hall.eval _)) (finished_mono hargs (hall.evalAll _))
  | firstArgument => exact .firstArgument
  | moreArguments he => exact .moreArguments (finished_mono he (hall.eval _))
  | body harity hlimit => exact .body harity hlimit
  | expression => exact .expression
  | print => exact .print
  | init => exact .init
  | block => exact .block
  | cond => exact .cond
  | yes hc htruthy => exact .yes (finished_mono hc (hall.eval _)) htruthy
  | no hc htruthy => exact .no (finished_mono hc (hall.eval _)) htruthy
  | whileLoop => exact .whileLoop
  | begin => exact .begin
  | forLoop hinit => exact .forLoop (finished_mono hinit (hall.begin _))
  | returned => exact .returned
  | first => exact .first
  | rest hs => exact .rest (finished_mono hs (hall.exec _))
  | test => exact .test
  | round hc => exact .round (finished_mono hc (hall.test _))
  | advance hc hbody =>
    exact .advance (finished_mono hc (hall.test _)) (finished_mono hbody (hall.exec _))
  | again hc hbody hincrement =>
    exact .again (finished_mono hc (hall.test _)) (finished_mono hbody (hall.exec _))
      (finished_mono hincrement (hall.advance _))

theorem Starts.budget_eq {r r' : Run} (h : Starts limit r r') : r.budget = r'.budget + 1 := by
  cases h with
  | _ => rfl

/-- A run that is reached is reached with a larger budget, and then has one as large. -/
theorem Reaches.mono {r r' : Run} (h : Reaches limit r r') (hk : r.budget ≤ k) :
    ∃ j, r'.budget ≤ j ∧ Reaches limit ⟨k, r.task, r.machine⟩ ⟨j, r'.task, r'.machine⟩ := by
  induction h generalizing k with
  | refl r => exact ⟨k, hk, .refl _⟩
  | @step r mid last hstart _ ih =>
    have hbudget := hstart.budget_eq
    obtain ⟨k, rfl⟩ : ∃ j, k = j + 1 := ⟨k - 1, by omega⟩
    obtain ⟨j, hj, hreach⟩ := ih (by omega : mid.budget ≤ k)
    exact ⟨j, hj, .step (hstart.mono (by omega)) hreach⟩

end Run

end GradualScript
