import Mathlib
import GradualScript.Proofs.Evaluation.Moved
import GradualScript.Proofs.Typing.Described
import GradualScript.Session

/-!
# Types and runs

Checking goes through a program once, in the order of the text, and gives a variable the
type of what was assigned last; a run may skip that assignment. So a variable can hold a
value that the type recorded on a later read does not describe. In a program without
wildcards, operators fault on such values only.
-/
namespace GradualScript

section

variable (P : Expr → Prop)

/-- The property holds of every expression that the task runs. Calls run the bodies of
functions, of which nothing is known. -/
def Task.All : Task → Prop
  | .eval e => e.All P
  | .evalAll es => Expr.AllIn P es
  | .call .. => False
  | .exec s => s.All P
  | .execAll ss => Stmt.AllIn P ss
  | .rounds cond body increment =>
      Expr.AllOption P cond ∧ body.All P ∧ Expr.AllOption P increment

variable {P}

/-- What holds of all expressions of a task holds of those of its parts. -/
theorem Run.Starts.all {limit : Option Nat} {r r' : Run} (hs : Run.Starts limit r r')
    (hcall : ∀ k f args, r.task ≠ .eval (.call k f args)) (h : r.task.All P) : r'.task.All P := by
  cases hs with
  | operand | inner | assigned => exact h.2
  | left => exact h.2.1
  | right => exact h.2.2
  | callee | arguments | call => exact absurd rfl (hcall _ _ _)
  | firstArgument => exact h.1
  | moreArguments => exact h.2
  | body => exact h.elim
  | expression | print | init | block | returned => exact h
  | cond => exact h.1
  | yes => exact h.2.1
  | no => exact h.2.2
  | whileLoop => exact ⟨h.1, h.2, trivial⟩
  | begin => exact h.1
  | forLoop => exact ⟨h.2.1, h.2.2.2, h.2.2.1⟩
  | first => exact h.1
  | rest => exact h.2
  | test => exact h.1
  | round => exact h.2.1
  | advance => exact h.2.2
  | again => exact h

end

/-- The type recorded on the expression describes the value. -/
def Expr.Describes (e : Expr) (v : Value) : Prop :=
  ∃ t, e.type = some t ∧ t.describes v = true

/-- The expression has a type that is not the wildcard, or none. -/
def Expr.Known (e : Expr) : Prop := e.type ≠ some .any

/-- The types recorded on all expressions of the task fit together, and none is the
wildcard. -/
structure Task.Settled (t : Task) : Prop where
  consistent : t.All Expr.Consistent
  known : t.All Expr.Known

/-- The recorded type of a call is the wildcard. -/
theorem Task.Settled.ne_call {k : Mark} {f : Expr} {args : List Expr}
    (h : Task.Settled (.eval (.call k f args))) : False :=
  h.known.1 h.consistent.1

theorem Task.Settled.starts {limit : Option Nat} {r r' : Run} (h : r.task.Settled)
    (hs : Run.Starts limit r r') : r'.task.Settled := by
  have hcall : ∀ k f args, r.task ≠ .eval (.call k f args) := by
    intro k f args heq
    rw [heq] at h
    exact h.ne_call
  exact ⟨hs.all hcall h.consistent, hs.all hcall h.known⟩

theorem Task.Settled.operand {k : Mark} {op : Operator} {x : Expr}
    (h : Task.Settled (.eval (.unary k op x))) : Task.Settled (.eval x) :=
  ⟨h.consistent.2, h.known.2⟩

theorem Task.Settled.left {k : Mark} {op : Operator} {l r : Expr}
    (h : Task.Settled (.eval (.binary k op l r))) : Task.Settled (.eval l) :=
  ⟨h.consistent.2.1, h.known.2.1⟩

theorem Task.Settled.right {k : Mark} {op : Operator} {l r : Expr}
    (h : Task.Settled (.eval (.binary k op l r))) : Task.Settled (.eval r) :=
  ⟨h.consistent.2.2, h.known.2.2⟩

/-- A settled expression has a type, which is concrete. -/
theorem Task.Settled.exists_type {e : Expr} (h : Task.Settled (.eval e)) :
    ∃ t, e.type = some t ∧ t ≠ .any := by
  obtain ⟨t, ht⟩ := Expr.exists_type h.consistent
  refine ⟨t, ht, ?_⟩
  rintro rfl
  exact Expr.All.self h.known ht

theorem Expr.describes_iff (e : Expr) {t : TypeSet} (ht : e.type = some t) (v : Value) :
    e.Describes v ↔ t.describes v = true := by
  rw [Describes, ht]
  simp

/-- A variable is read whose value the type recorded on the read does not describe. -/
inductive Run.ReadsStale : Run → Prop
  | read {n : Nat} {m : Machine} {k : Mark} {name : String} {v : Value} :
      m.scopes.get name = some v → ¬(Expr.name k name).Describes v →
      ReadsStale ⟨n + 1, .eval (.name k name), m⟩

/-- An operator that restricts its operands is applied to one that its recorded type does
not describe, and not to two operands that it joins. -/
inductive Run.Misapplies (limit : Option Nat) :
    Run → Operator → List ValueKind → Position → Prop
  | unary {n : Nat} {m mid : Machine} {k : Mark} {op : Operator} {x : Expr} {v : Value} :
      x.eval limit n m = (.finished v, mid) → op ≠ .negate → ¬x.Describes v →
      Misapplies limit ⟨n + 1, .eval (.unary k op x), m⟩ op [v.kind] k.position
  | binary {n : Nat} {m mid last : Machine} {k : Mark} {op : Operator} {l r : Expr} {v w : Value} :
      l.eval limit n m = (.finished v, mid) → r.eval limit n mid = (.finished w, last) →
      op.restricts = true → ¬(l.Describes v ∧ r.Describes w) → ¬op.Joins v w →
      Misapplies limit ⟨n + 1, .eval (.binary k op l r), m⟩ op [v.kind, w.kind] k.position

section

variable {limit : Option Nat} {n : Nat} {m mid last : Machine} {k : Mark} {op : Operator}

/-- The run reads a stale variable somewhere. -/
def Run.FindsStale (limit : Option Nat) (r : Run) : Prop :=
  ∃ r', Run.Reaches limit r r' ∧ r'.ReadsStale

theorem Run.Starts.findsStale {r r' : Run} (hs : Run.Starts limit r r')
    (h : r'.FindsStale limit) : r.FindsStale limit := by
  obtain ⟨last, hreaches, hstale⟩ := h
  exact ⟨last, .step hs hreaches, hstale⟩

theorem findsStale_unary {x : Expr} {v : Value}
    (h : Task.Settled (.eval (.unary k op x)))
    (ih : ∀ v mid, x.eval limit n m = (.finished v, mid) → ¬x.Describes v →
      Run.FindsStale limit ⟨n, .eval x, m⟩)
    (hrun : (Expr.unary k op x).eval limit (n + 1) m = (.finished v, mid))
    (hwrong : ¬(Expr.unary k op x).Describes v) :
    Run.FindsStale limit ⟨n + 1, .eval (.unary k op x), m⟩ := by
  obtain ⟨⟨t, u, ht, hop, hu⟩, -⟩ := h.consistent
  obtain ⟨w, last, hx, hresult⟩ := Eval.bind_finished_cases hrun
  have happly := Eval.ofExcept_finished hresult
  refine Run.Starts.operand.findsStale (ih w last hx fun hdescribes => hwrong ?_)
  rw [x.describes_iff ht] at hdescribes
  rw [(Expr.unary k op x).describes_iff hu]
  exact Operator.describes_unary hop happly hdescribes

theorem findsStale_binary {l r : Expr} {v : Value}
    (h : Task.Settled (.eval (.binary k op l r)))
    (ihl : ∀ v mid, l.eval limit n m = (.finished v, mid) → ¬l.Describes v →
      Run.FindsStale limit ⟨n, .eval l, m⟩)
    (ihr : ∀ mid w last, r.eval limit n mid = (.finished w, last) → ¬r.Describes w →
      Run.FindsStale limit ⟨n, .eval r, mid⟩)
    (hrun : (Expr.binary k op l r).eval limit (n + 1) m = (.finished v, last))
    (hwrong : ¬(Expr.binary k op l r).Describes v) :
    Run.FindsStale limit ⟨n + 1, .eval (.binary k op l r), m⟩ := by
  obtain ⟨⟨t, u, result, ht, hu, hop, hresult⟩, -⟩ := h.consistent
  rw [(Expr.binary k op l r).describes_iff hresult] at hwrong
  obtain ⟨a, mid, hl, -⟩ := Eval.bind_finished_cases hrun
  by_cases hdescribes : l.Describes a
  · have ha := (l.describes_iff ht a).mp hdescribes
    cases hneeds : op.needsRight a with
    | false =>
      rw [eval_binary_left hl hneeds] at hrun
      cases hrun
      exact absurd (Operator.describes_left hop hneeds ha) hwrong
    | true =>
      rw [eval_binary_right hl hneeds] at hrun
      obtain ⟨w, last, hr, hrest⟩ := Eval.bind_finished_cases hrun
      have happly := Eval.ofExcept_finished hrest
      refine (Run.Starts.right hl hneeds).findsStale (ihr mid w last hr fun hw => hwrong ?_)
      exact Operator.describes_binary hop happly ha ((r.describes_iff hu w).mp hw)
  · exact Run.Starts.left.findsStale (ihl a mid hl hdescribes)

/-- A value that the type of its expression does not describe comes from a stale variable
that was read for it. -/
theorem findsStale_of_eval {e : Expr} {v : Value} (h : Task.Settled (.eval e))
    (hrun : e.eval limit n m = (.finished v, mid)) (hwrong : ¬e.Describes v) :
    Run.FindsStale limit ⟨n, .eval e, m⟩ := by
  -- On the budget, not on the tree: what is reached are runs, and a part has one step less.
  induction n generalizing e m v mid with
  | zero => cases hrun
  | succ n ih =>
    cases e with
    | number | string | boolean | nil =>
      cases hrun
      exact absurd ⟨_, h.consistent, rfl⟩ hwrong
    | unary k op x => exact findsStale_unary h (fun _ _ => ih h.operand) hrun hwrong
    | binary k op l r =>
      exact findsStale_binary h (fun _ _ => ih h.left) (fun _ _ _ => ih h.right) hrun hwrong
    | grouping k x =>
      have hx : Task.Settled (.eval x) := ⟨h.consistent.2, h.known.2⟩
      obtain ⟨⟨t, ht, hk⟩, -⟩ := h.consistent
      rw [(Expr.grouping k x).describes_iff hk, ← x.describes_iff ht] at hwrong
      exact Run.Starts.inner.findsStale (ih hx hrun hwrong)
    | name k name =>
      change Eval.lookup name k.position m = _ at hrun
      unfold Eval.lookup at hrun
      split at hrun
      · next hget =>
        cases hrun
        exact ⟨_, .refl _, .read hget hwrong⟩
      · cases hrun
    | assign k name x =>
      have hx : Task.Settled (.eval x) := ⟨h.consistent.2, h.known.2⟩
      obtain ⟨⟨t, ht, hk⟩, -⟩ := h.consistent
      rw [(Expr.assign k name x).describes_iff hk, ← x.describes_iff ht] at hwrong
      obtain ⟨w, last, hvalue, hrest⟩ := Eval.bind_finished_cases hrun
      obtain ⟨⟨⟩, after, -, hreturn⟩ := Eval.bind_finished_cases hrest
      cases hreturn
      exact Run.Starts.assigned.findsStale (ih hx hvalue hwrong)
    | call k f args => exact h.ne_call.elim

theorem unary_fault_iff {x : Expr} (h : Task.Settled (.eval (.unary k op x))) (v : Value)
    (op' : Operator) (kinds : List ValueKind) :
    op.applyUnary v = .error (.wrongOperands op' kinds) ↔
      op ≠ .negate ∧ ¬x.Describes v ∧ op' = op ∧ kinds = [v.kind] := by
  obtain ⟨⟨t, u, ht, hop, -⟩, -⟩ := h.consistent
  obtain ⟨t', ht', hany⟩ := h.operand.exists_type
  have heq : t' = t := Option.some.inj (ht'.symm.trans ht)
  subst heq
  rw [x.describes_iff ht]
  exact Operator.applyUnary_fault_iff hop hany v op' kinds

theorem binary_fault_iff {l r : Expr} (h : Task.Settled (.eval (.binary k op l r))) (v w : Value)
    (op' : Operator) (kinds : List ValueKind) :
    op.applyBinary v w = .error (.wrongOperands op' kinds) ↔
      op.restricts = true ∧ ¬(l.Describes v ∧ r.Describes w) ∧ ¬op.Joins v w ∧
        op' = op ∧ kinds = [v.kind, w.kind] := by
  obtain ⟨⟨t, u, result, ht, hu, hop, -⟩, -⟩ := h.consistent
  obtain ⟨t', ht', hanyt⟩ := h.left.exists_type
  obtain ⟨u', hu', hanyu⟩ := h.right.exists_type
  have heqt : t' = t := Option.some.inj (ht'.symm.trans ht)
  have hequ : u' = u := Option.some.inj (hu'.symm.trans hu)
  subst heqt hequ
  rw [l.describes_iff ht, r.describes_iff hu]
  exact Operator.applyBinary_fault_iff hop hanyt hanyu v w op' kinds

/-- A run of settled expressions makes the error of wrong operands exactly if it
misapplies the operator. -/
theorem Run.raises_wrongOperands_iff {r : Run} (h : r.task.Settled) (op : Operator)
    (kinds : List ValueKind) (position : Position) :
    r.Raises limit ⟨.wrongOperands op kinds, position⟩ ↔ r.Misapplies limit op kinds position := by
  constructor
  · intro hraises
    cases hraises with
    | unary hx hfault =>
      obtain ⟨hnegate, hwrong, rfl, rfl⟩ := (unary_fault_iff h _ op kinds).mp hfault
      exact .unary hx hnegate hwrong
    | binary hl hr hfault =>
      obtain ⟨hrestricts, hwrong, hjoins, rfl, rfl⟩ := (binary_fault_iff h _ _ op kinds).mp hfault
      exact .binary hl hr hrestricts hwrong hjoins
  · intro hmisapplies
    cases hmisapplies with
    | unary hx hnegate hwrong =>
      exact .unary hx ((unary_fault_iff h _ _ _).mpr ⟨hnegate, hwrong, rfl, rfl⟩)
    | binary hl hr hrestricts hwrong hjoins =>
      exact .binary hl hr ((binary_fault_iff h _ _ _ _).mpr ⟨hrestricts, hwrong, hjoins, rfl, rfl⟩)

/-- A misapplied operator found a stale variable for one of its operands. -/
theorem Run.Misapplies.findsStale {r : Run} {kinds : List ValueKind} {position : Position}
    (hr : r.task.Settled) (h : r.Misapplies limit op kinds position) : r.FindsStale limit := by
  cases h with
  | unary hx _ hwrong =>
    exact Run.Starts.operand.findsStale (findsStale_of_eval hr.operand hx hwrong)
  | @binary _ _ _ _ _ _ x y v w hl hy hrestricts hwrong _ =>
    by_cases hdescribes : x.Describes v
    · have hneeds : op.needsRight v = true := by
        cases op <;> first | rfl | cases hrestricts
      have hw : ¬y.Describes w := fun hw => hwrong ⟨hdescribes, hw⟩
      exact (Run.Starts.right hl hneeds).findsStale (findsStale_of_eval hr.right hy hw)
    · exact Run.Starts.left.findsStale (findsStale_of_eval hr.left hl hdescribes)

end

/-- The run of a checked program in a fresh machine. -/
def Program.checkedRun (p : Program) (budget : Nat) (sink : Sink) : Run :=
  ⟨budget, .execAll (p.check .fresh).tree, .fresh globalScope sink⟩

theorem Program.fails_execute_iff (p : Program) (limit : Option Nat) (budget : Nat) (m : Machine)
    (e : RuntimeError) :
    (p.execute limit budget m).1 = .failed e ↔ Run.Fails limit ⟨budget, .execAll p, m⟩ e := by
  constructor
  · intro h
    rcases Eval.bind_cases h with h | ⟨_, _, _, h⟩
    · exact h
    · cases h
  · exact Eval.bind_failed

/-- What running a text that passed ends with, in terms of the runs inside it. -/
theorem runSource_fails_iff {source : String} {p : Program} (hread : readProgram source = .ok p)
    (hcheck : (p.check .fresh).verdict = .ok ()) (budget : Nat) (sink : Sink) (e : RuntimeError) :
    (runSource budget source sink).1 = .failed (.run e) ↔
      Run.Fails (some defaultCallLimit) (p.checkedRun budget sink) e := by
  have hsame := p.execute_check .fresh (some defaultCallLimit) budget globalScope sink
  have hrun : (runSource budget source sink).1 =
      (p.execute (some defaultCallLimit) budget (.fresh globalScope sink)).1.mapError .run := by
    rw [runSource, hread]
    simp only [hcheck]
  rw [hrun, Program.checkedRun, ← Program.fails_execute_iff, hsame]
  cases (p.execute (some defaultCallLimit) budget (.fresh globalScope sink)).1 <;>
    simp [Outcome.mapError]

theorem Program.settled_checkedRun {p : Program} (hcheck : (p.check .fresh).verdict = .ok ())
    (hknown : Stmt.AllIn Expr.Known (p.check .fresh).tree) (budget : Nat) (sink : Sink) :
    (p.checkedRun budget sink).task.Settled :=
  ⟨Program.consistent_of_check hcheck, hknown⟩

/-- A text passed, and no recorded type is the wildcard. Running it ends with the error of
wrong operands exactly if a run inside it applies an operator that restricts its operands
to one that its recorded type does not describe, and not to two operands that `+` joins.
Each time, that operand was found by reading a variable whose value the type recorded on
the read does not describe. -/
theorem wrongOperands_iff_misapplies {source : String} {p : Program}
    (hread : readProgram source = .ok p) (hcheck : (p.check .fresh).verdict = .ok ())
    (hknown : Stmt.AllIn Expr.Known (p.check .fresh).tree) (budget : Nat) (sink : Sink) :
    (∀ op kinds position,
      (runSource budget source sink).1 = .failed (.run ⟨.wrongOperands op kinds, position⟩) ↔
        ∃ r, Run.Reaches (some defaultCallLimit) (p.checkedRun budget sink) r ∧
          r.Misapplies (some defaultCallLimit) op kinds position) ∧
      ∀ r op kinds position,
        Run.Reaches (some defaultCallLimit) (p.checkedRun budget sink) r →
          r.Misapplies (some defaultCallLimit) op kinds position →
            ∃ r', Run.Reaches (some defaultCallLimit) r r' ∧ r'.ReadsStale := by
  have hstart := Program.settled_checkedRun hcheck hknown budget sink
  have hsettled {r : Run}
      (h : Run.Reaches (some defaultCallLimit) (p.checkedRun budget sink) r) : r.task.Settled :=
    Run.Reaches.invariant (P := fun r => r.task.Settled) (fun hr hs => hr.starts hs) h hstart
  refine ⟨fun op kinds position => ?_, fun r op kinds position hreaches hmisapplies => ?_⟩
  · rw [runSource_fails_iff hread hcheck, Run.fails_iff]
    constructor
    · rintro ⟨r, hreaches, hraises⟩
      exact ⟨r, hreaches, (Run.raises_wrongOperands_iff (hsettled hreaches) ..).mp hraises⟩
    · rintro ⟨r, hreaches, hmisapplies⟩
      exact ⟨r, hreaches, (Run.raises_wrongOperands_iff (hsettled hreaches) ..).mpr hmisapplies⟩
  · exact hmisapplies.findsStale (hsettled hreaches)

/-- The assignment in the branch is skipped, and is the last before `x` is read. -/
def skippedAssignment : String := "var x = true; if (false) x = \"s\"; print x + \"a\";"

def skippedAssignmentTree : Program :=
  [.var ⟨1, 1⟩ "x" (.boolean (.unchecked ⟨1, 9⟩) true),
    .ifElse ⟨1, 15⟩ (.boolean (.unchecked ⟨1, 19⟩) false)
      (.expression ⟨1, 26⟩
        (.assign (.unchecked ⟨1, 26⟩) "x" (.string (.unchecked ⟨1, 30⟩) "s"))) none,
    .print ⟨1, 35⟩ (.binary (.unchecked ⟨1, 41⟩) .add (.name (.unchecked ⟨1, 41⟩) "x")
      (.string (.unchecked ⟨1, 45⟩) "a"))]

theorem readProgram_skippedAssignment :
    readProgram skippedAssignment = .ok skippedAssignmentTree := by
  cbv

theorem check_skippedAssignment : (skippedAssignmentTree.check .fresh).verdict = .ok () := by
  cbv

theorem known_skippedAssignment :
    Stmt.AllIn Expr.Known (skippedAssignmentTree.check .fresh).tree := by
  cbv
  simp

theorem wrongOperands_iff_misapplies_skipped :
    readProgram skippedAssignment = .ok skippedAssignmentTree ∧
      (skippedAssignmentTree.check .fresh).verdict = .ok () ∧
      Stmt.AllIn Expr.Known (skippedAssignmentTree.check .fresh).tree ∧
      (∀ op kinds position,
        (runSource 8 skippedAssignment .silent).1 =
            .failed (.run ⟨.wrongOperands op kinds, position⟩) ↔
          ∃ r, Run.Reaches (some defaultCallLimit) (skippedAssignmentTree.checkedRun 8 .silent) r ∧
            r.Misapplies (some defaultCallLimit) op kinds position) ∧
      ∀ r op kinds position,
        Run.Reaches (some defaultCallLimit) (skippedAssignmentTree.checkedRun 8 .silent) r →
          r.Misapplies (some defaultCallLimit) op kinds position →
            ∃ r', Run.Reaches (some defaultCallLimit) r r' ∧ r'.ReadsStale :=
  ⟨readProgram_skippedAssignment, check_skippedAssignment, known_skippedAssignment,
    wrongOperands_iff_misapplies readProgram_skippedAssignment check_skippedAssignment
      known_skippedAssignment 8 .silent⟩

/-- Checking passes the text without a wildcard, and its run ends with wrong operands. -/
theorem runSource_skippedAssignment :
    readProgram skippedAssignment = .ok skippedAssignmentTree ∧
      (skippedAssignmentTree.check .fresh).verdict = .ok () ∧
      Stmt.AllIn Expr.Known (skippedAssignmentTree.check .fresh).tree ∧
      (runSource 8 skippedAssignment .silent).1 =
        .failed (.run ⟨.wrongOperands .add [.boolean, .string], ⟨1, 41⟩⟩) :=
  ⟨readProgram_skippedAssignment, check_skippedAssignment, known_skippedAssignment, by cbv⟩

end GradualScript
