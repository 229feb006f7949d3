import GradualScript.Proofs.Evaluation.Simulation
import GradualScript.Proofs.Grammar.Placement
import GradualScript.Proofs.Scopes.Surroundings

/-!
# `for` in terms of `while`

A `for` loop does what a block does that runs the first clause and then a `while` loop,
whose body is a block of the loop's body and the last clause. The block takes the place of
the loop's own scope, but each round opens a scope that the loop does without. So the runs
keep their scopes at different places, and agree up to a renaming. The budgets differ too:
in between stands a loop with the budgets of `for` and the scopes of `while`.
-/
namespace GradualScript

open Scopes Eval

/-- The condition of a loop, or `true` if it has none. -/
def Expr.orTrue (p : Position) (cond : Option Expr) : Expr :=
  cond.getD (.boolean (.unchecked p) true)

/-- The body of a loop and the clause after it, in a block. -/
def Stmt.roundBlock (p : Position) (body : Stmt) (increment : Option Expr) : Stmt :=
  .block p (body :: (increment.map (Stmt.expression p)).toList)

/-- What a `for` loop is short for. -/
def Stmt.lowered (p : Position) (init : Option Stmt) (cond increment : Option Expr) (body : Stmt) :
    Stmt :=
  .block p (init.toList ++
    [.whileLoop p (.orTrue p cond) (.roundBlock p body increment)])

/-- Where the grammar keeps declarations out, nothing is declared in the scope around. -/
theorem Stmt.Placed.declaresNothing {inFunction : Bool} {s : Stmt} (h : s.Placed inFunction)
    (hnone : s.declared = none) : s.DeclaresNothing := by
  fun_induction Stmt.DeclaresNothing s with
  | case1 => cases hnone
  | case2 => cases hnone
  | case3 p c yes ih => exact ih h.2.1 h.1
  | case4 p c yes no ih ih' => exact ⟨ih h.2.1 h.1, ih' h.2.2.1 (h.2.2.2 no rfl)⟩
  | case5 p c body ih => exact ih h.2 h.1
  | case6 => trivial

/-- The body of every loop that the parser makes is such a place. -/
theorem Stmt.Parsed.forLoop_body {p : Position} {init : Option Stmt}
    {cond increment : Option Expr} {body : Stmt}
    (h : (Stmt.forLoop p init cond increment body).Parsed) : body.DeclaresNothing := by
  obtain ⟨inside, -, hnone, hbody⟩ := h.placed
  exact hbody.declaresNothing hnone

/-- The body of a loop and the clause after it. -/
def Stmt.round (limit : Option Nat) (n : Nat) (body : Stmt) (increment : Option Expr) :
    Eval Completion := do
  let c ← body.exec limit n
  c.andThen do
    let _ ← Stmt.advance limit n increment
    return .normal

/-- The rounds of a loop, each in a scope of its own. -/
def Stmt.roundsApart (limit : Option Nat) :
    Nat → Option Expr → Stmt → Option Expr → Eval Completion
  | 0, _, _, _ => .unfinished
  | n + 1, cond, body, increment => do
      let go ← Stmt.test limit n cond
      if go then
        let c ← Eval.inScope "block" (Stmt.round limit n body increment)
        c.andThen (Stmt.roundsApart limit n cond body increment)
      else return .normal

/-- A loop with its clause before the rounds, in a scope of its own. -/
def Stmt.loopApart (limit : Option Nat) (n : Nat) (init : Option Stmt) (cond : Option Expr)
    (body : Stmt) (increment : Option Expr) : Eval Completion :=
  Eval.inScope "block" do
    let c ← Stmt.begin limit n init
    c.andThen (Stmt.roundsApart limit n cond body increment)

section

variable {limit : Option Nat} {n : Nat}

theorem Completion.normal_andThen (more : Eval Completion) :
    Completion.normal.andThen more = more := rfl

theorem Completion.andThen_bind (c : Completion) (run more : Eval Completion) :
    (c.andThen run >>= fun d => d.andThen more) = c.andThen (run >>= fun d => d.andThen more) := by
  cases c <;> rfl

theorem rounds_eq (cond : Option Expr) (body : Stmt) (increment : Option Expr) :
    Stmt.rounds limit (n + 1) cond body increment = (do
      let go ← Stmt.test limit n cond
      if go then
        let c ← Stmt.round limit n body increment
        c.andThen (Stmt.rounds limit n cond body increment)
      else return .normal) := by
  rw [rounds_succ]
  simp only [Stmt.round, bind_assoc, Completion.andThen_bind, pure_bind, Completion.normal_andThen]

variable {σ : Nat → Option Nat} {m m' : Machine}

theorem agrees_round {body : Stmt} {increment : Option Expr} {p : Position} (hM : m.Renames σ m')
    (hbody : body.DeclaresNothing)
    (hfew : (Task.execAll (body :: (increment.map (Stmt.expression p)).toList)).FewScopes
      limit m') :
    Agrees σ (Completion.Renamed σ) m m' (Stmt.round limit n body increment m)
      (Stmt.round limit n body increment m') := by
  have hagrees := (simulated limit n).exec body hM (.inl hbody) (hfew.starts n .first)
  refine hagrees.bind fun hrun hc => ?_
  refine agrees_andThen hc.machines hc.value fun _ hnormal => ?_
  subst hnormal
  have hadvance := (simulated limit n).advance increment hc.machines fun e he => by
    subst he
    exact ((hfew.starts n (.rest hrun)).starts n .first).starts n .expression
  exact hadvance.bind fun _ he => agrees_pure he.machines .normal

theorem exec_roundBlock (p : Position) (body : Stmt) (increment : Option Expr) :
    (Stmt.roundBlock p body increment).exec limit (n + 4) = Eval.inScope "block" (do
      let c ← body.exec limit (n + 2)
      c.andThen do
        let _ ← Stmt.advance limit n increment
        return .normal) := by
  have hlast : Stmt.execAll limit (n + 2) (increment.map (Stmt.expression p)).toList = (do
      let _ ← Stmt.advance limit n increment
      return .normal) := by
    cases increment with
    | none => rfl
    | some e =>
      refine (execAll_singleton (.expression p e)).trans ?_
      simp only [Stmt.advance, bind_assoc, pure_bind]
      rfl
  show Eval.inScope "block" (Stmt.execAll limit (n + 3) (body :: _)) = _
  rw [execAll_cons, hlast]

/-- A round in a scope of its own is the block's run with somewhat larger budgets. -/
theorem round_approximates (p : Position) (body : Stmt) (increment : Option Expr) :
    Approximates (Eval.inScope "block" (Stmt.round limit n body increment))
      ((Stmt.roundBlock p body increment).exec limit (n + 4)) := by
  rw [exec_roundBlock]
  refine Approximates.inScope ?_ "block"
  exact ((suffices_of_le limit (by omega)).exec body).bind fun c => .refl _

theorem approximates_round (p : Position) (body : Stmt) (increment : Option Expr) :
    Approximates ((Stmt.roundBlock p body increment).exec limit n)
      (Eval.inScope "block" (Stmt.round limit (n + 2) body increment)) := by
  refine ((suffices_of_le limit (by omega : n ≤ n + 4)).exec _).trans ?_
  rw [exec_roundBlock]
  refine Approximates.inScope (Approximates.bind (.refl _) fun c => ?_) "block"
  refine Approximates.andThen ?_ c
  exact ((suffices_of_le limit (by omega)).advance increment).bind fun _ => .refl _

theorem test_approximates (p : Position) (cond : Option Expr) :
    Approximates (Stmt.test limit n cond)
      (Stmt.test limit (n + 4) (some (.orTrue p cond))) := by
  cases cond with
  | none => exact fun m _ => rfl
  | some c => exact (suffices_of_le limit (by omega)).test (some c)

theorem approximates_test (p : Position) (cond : Option Expr) :
    Approximates (Stmt.test limit n (some (.orTrue p cond)))
      (Stmt.test limit (n + 2) cond) := by
  cases cond with
  | none =>
    cases n with
    | zero => exact approximates_unfinished _
    | succ n => exact .refl _
  | some c => exact (suffices_of_le limit (by omega)).test (some c)

/-- The rounds of the `while` loop need larger budgets, which `for` could have as well. -/
theorem rounds_approximates (p : Position) (cond : Option Expr) (body : Stmt)
    (increment : Option Expr) :
    Approximates (Stmt.roundsApart limit n cond body increment)
      (Stmt.rounds limit (n + 4) (some (.orTrue p cond))
        (.roundBlock p body increment) none) := by
  induction n with
  | zero => exact approximates_unfinished _
  | succ n ih =>
    have hbudget : n + 1 + 4 = (n + 4) + 1 := by omega
    rw [hbudget, rounds_succ, Stmt.roundsApart]
    refine (test_approximates p cond).bind fun go => ?_
    cases go with
    | false => exact .refl _
    | true => exact (round_approximates p body increment).bind fun c => Approximates.andThen ih c

theorem approximates_rounds (p : Position) (cond : Option Expr) (body : Stmt)
    (increment : Option Expr) :
    Approximates (Stmt.rounds limit n (some (.orTrue p cond))
      (.roundBlock p body increment) none)
      (Stmt.roundsApart limit (n + 2) cond body increment) := by
  induction n with
  | zero => exact approximates_unfinished _
  | succ n ih =>
    have hbudget : n + 1 + 2 = (n + 2) + 1 := by omega
    rw [hbudget, rounds_succ, Stmt.roundsApart]
    refine (approximates_test p cond).bind fun go => ?_
    cases go with
    | false => exact .refl _
    | true => exact (approximates_round p body increment).bind fun c => Approximates.andThen ih c

theorem exec_lowered (p : Position) (init : Option Stmt) (cond increment : Option Expr)
    (body : Stmt) :
    (Stmt.lowered p init cond increment body).exec limit (n + 3 + init.toList.length) =
      Eval.inScope "block" (do
        let c ← Stmt.begin limit (n + 2) init
        c.andThen (Stmt.rounds limit n (some (.orTrue p cond)) (.roundBlock p body increment)
          none)) := by
  cases init with
  | none =>
    show Eval.inScope "block" (Stmt.execAll limit (n + 2) [_]) = _
    rw [execAll_singleton]
    rfl
  | some s =>
    show Eval.inScope "block" (Stmt.execAll limit (n + 3) [s, _]) = _
    rw [execAll_cons, execAll_singleton]
    rfl

/-- A run that ends in between ends as the block with the `while` loop, and conversely. -/
theorem loop_approximates (p : Position) (init : Option Stmt) (cond increment : Option Expr)
    (body : Stmt) :
    Approximates (Stmt.loopApart limit n init cond body increment)
      ((Stmt.lowered p init cond increment body).exec limit (n + 8)) := by
  have hlength : init.toList.length ≤ 1 := by cases init <;> simp
  have hbegin := (suffices_of_le limit (by omega : n ≤ n + 4 + 2)).begin init
  have hexec := (suffices_of_le limit (by omega : n + 4 + 3 + init.toList.length ≤ n + 8)).exec
    (.lowered p init cond increment body)
  rw [exec_lowered] at hexec
  refine Approximates.trans (Approximates.inScope (hbegin.bind fun c => ?_) "block") hexec
  exact (rounds_approximates p cond body increment).andThen c

theorem approximates_loop (p : Position) (init : Option Stmt) (cond increment : Option Expr)
    (body : Stmt) :
    Approximates ((Stmt.lowered p init cond increment body).exec limit n)
      (Stmt.loopApart limit (n + 2) init cond body increment) := by
  refine ((suffices_of_le limit (by omega : n ≤ n + 3 + init.toList.length)).exec _).trans ?_
  rw [exec_lowered]
  refine Approximates.inScope (Approximates.bind (.refl _) fun c => ?_) "block"
  exact (approximates_rounds p cond body increment).andThen c

/-- Round by round, the loop with scopes of its own agrees with the loop without: what is
extra on the right is one scope in each round, gone before the next. -/
theorem agrees_rounds {p : Position} {cond increment : Option Expr} {body : Stmt}
    (hbody : body.DeclaresNothing) (hM : m.Renames σ m')
    (hfew : (Task.rounds (some (.orTrue p cond)) (.roundBlock p body increment) none).FewScopes
      limit m') :
    Agrees σ (Completion.Renamed σ) m m' (Stmt.rounds limit n cond body increment m)
      (Stmt.roundsApart limit n cond body increment m') := by
  induction n generalizing m m' with
  | zero => exact agrees_stay hM .unfinished
  | succ n ih =>
    have htest := (simulated limit n).test cond hM fun c hc => by
      subst hc
      exact hfew.starts n .test
    rw [rounds_eq, Stmt.roundsApart]
    refine htest.bind fun {go go' mid mid'} hrun hgo => ?_
    obtain rfl : go' = go := hgo.value
    cases go' with
    | false => exact agrees_pure hgo.machines .normal
    | true =>
      -- The `while` loop takes the same turn with a larger budget: its parts open few scopes.
      have hrun' := Run.finished_mono hrun (test_approximates p cond)
      have hblock := hfew.starts (n + 4) (.round hrun')
      have hnext := hblock.nextSerial_ne_zero n .block (mid'.size_lt_opened "block")
      have hround := agrees_round (n := n) (hgo.machines.pushExtra hnext "block") hbody
        (hblock.starts n .block)
      refine (agrees_inExtra hgo.machines hnext "block" hround).bind fun hrunRound hc => ?_
      refine agrees_andThen hc.machines hc.value fun _ hnormal => ?_
      subst hnormal
      have hrunRound' := Run.finished_mono hrunRound (round_approximates p body increment)
      exact ih hc.machines (hfew.starts (n + 4) (.again hrun' hrunRound' rfl))

theorem agrees_loop {p : Position} {init : Option Stmt} {cond increment : Option Expr} {body : Stmt}
    (hbody : body.DeclaresNothing) (hM : m.Renames σ m')
    (hfew : (Task.exec (.lowered p init cond increment body)).FewScopes limit m') :
    Agrees σ (Completion.Renamed σ) m m'
      ((Stmt.forLoop p init cond increment body).exec limit (n + 1) m)
      (Stmt.loopApart limit n init cond body increment m') := by
  have hnext := hfew.nextSerial_ne_zero n .block (m'.size_lt_opened "block")
  have hinner := hfew.starts n .block
  have hopened := hM.pushAt hM.level hnext "for" "block"
  have hpaired := Machine.paired_pushAt σ m m' "for" "block" m.scopes.active m'.scopes.active
  have hbegin := (simulated limit n).begin init hopened hpaired fun s hs => by
    subst hs
    exact hinner.starts n .first
  rw [exec_forLoop]
  refine agrees_inScope hM hnext "for" "block" (hbegin.bind fun {c c' mid mid'} hrun hc => ?_)
  refine agrees_andThen hc.machines hc.value fun _ hnormal => ?_
  subst hnormal
  refine agrees_rounds hbody hc.machines (p := p) ?_
  cases init with
  | none =>
    cases hrun
    exact (hinner.starts n .first).starts n .whileLoop
  | some s => exact ((hinner.starts n (.rest hrun)).starts n .first).starts n .whileLoop

end

/-- A run of the statement ends, with this result. -/
def Stmt.Ends (limit : Option Nat) (s : Stmt) (m : Machine)
    (result : Outcome RuntimeError Completion × Machine) : Prop :=
  result.1 ≠ .unfinished ∧ ∃ n, s.exec limit n m = result

/-- The budget plays no part in how a run ends. -/
theorem Stmt.Ends.unique {limit : Option Nat} {s : Stmt} {m : Machine}
    {result result' : Outcome RuntimeError Completion × Machine} (h : s.Ends limit m result)
    (h' : s.Ends limit m result') : result = result' := by
  obtain ⟨hends, n, rfl⟩ := h
  obtain ⟨hends', n', rfl⟩ := h'
  exact Eval.ends_unique (fun h => (suffices_of_le limit h).exec s) hends hends'

/-- The same value, in two machines with these scopes. Functions are the same if they
come from the same run of the same declaration, and if the scopes that they remember are
live in both machines or in neither. -/
inductive Value.SameFor (s t : Scopes Value) : Value → Value → Prop
  | plain {v : Value} : v.kind ≠ .function → SameFor s t v v
  | function {f g : Function} : g.identity = f.identity → g.name = f.name → g.params = f.params →
      g.body = f.body → t.isLive g.closure = s.isLive f.closure →
      SameFor s t (.function f) (.function g)

inductive Completion.SameFor (s t : Scopes Value) : Completion → Completion → Prop
  | normal : SameFor s t .normal .normal
  | returned {v w : Value} : v.SameFor s t w → SameFor s t (.returned v) (.returned w)

/-- Two runs end alike: normally, with the same value, or with the same error in the same
place. They have printed the same, and the scopes that they leave bind the same values. -/
structure EndsAlike (result result' : Outcome RuntimeError Completion × Machine) : Prop where
  outcome : result.1.Rel (Completion.SameFor result.2.scopes result'.2.scopes) result'.1
  sink_eq : result'.2.sink = result.2.sink
  labels_eq : result'.2.scopes.labels = result.2.scopes.labels
  bindings : ∀ place name, Option.Rel (Value.SameFor result.2.scopes result'.2.scopes)
    (result.2.scopes.bindingAt place name) (result'.2.scopes.bindingAt place name)

section

variable {limit : Option Nat} {m : Machine} {σ : Nat → Option Nat} {s t : Scopes Value}

theorem Value.Renamed.sameFor {v w : Value} (h : v.Renamed σ s t w) : v.SameFor s t w := by
  cases h with
  | plain hplain => exact .plain hplain
  | function hclosure => exact .function rfl rfl rfl rfl hclosure.live_eq.symm

theorem Completion.Renamed.sameFor {c d : Completion} (h : c.Renamed σ s t d) :
    c.SameFor s t d := by
  cases h with
  | normal => exact .normal
  | returned hv => exact .returned hv.sameFor

/-- Runs from one machine that agree end alike: all its scopes have their places in both. -/
theorem Agrees.endsAlike {result result' : Outcome RuntimeError Completion × Machine}
    (h : Agrees (standing m.scopes) (Completion.Renamed (standing m.scopes)) m m result result') :
    EndsAlike result result' := by
  refine ⟨h.outcome.imp fun _ _ hc => hc.sameFor, h.machines.sink_eq,
    h.later'.labels_eq.trans h.later.labels_eq.symm, fun place name => ?_⟩
  by_cases hplace : place < m.scopes.size
  · have hslot := h.machines.slots.paired (standing_eq_some.mpr ⟨rfl, hplace⟩) name
    generalize result.2.scopes.bindingAt place name = x,
      result'.2.scopes.bindingAt place name = y at hslot
    cases hslot with
    | some hv => exact .some hv.sameFor
    | none => exact .none
  · rw [bindingAt_of_size_le (by rw [h.later.size_eq]; omega),
      bindingAt_of_size_le (by rw [h.later'.size_eq]; omega)]
    exact .none

variable {p : Position} {init : Option Stmt} {cond increment : Option Expr} {body : Stmt}
  {result result' : Outcome RuntimeError Completion × Machine}

/-- Where a `for` loop ends, so does the loop that it is short for. -/
theorem ends_lowered (hm : m.Dated) (hbody : body.DeclaresNothing)
    (hfew : (Task.exec (.lowered p init cond increment body)).FewScopes limit m)
    (h : (Stmt.forLoop p init cond increment body).Ends limit m result) :
    ∃ result', (Stmt.lowered p init cond increment body).Ends limit m result' ∧
      EndsAlike result result' := by
  obtain ⟨hends, n, rfl⟩ := h
  cases n with
  | zero => exact absurd rfl hends
  | succ n =>
    have hagrees := agrees_loop (n := n) hbody hm.renames hfew
    have hends' := mt hagrees.outcome.unfinished_iff.mpr hends
    have hrun := loop_approximates p init cond increment body m hends'
    exact ⟨_, ⟨hends', n + 8, hrun⟩, hagrees.endsAlike⟩

theorem ends_forLoop (hm : m.Dated) (hbody : body.DeclaresNothing)
    (hfew : (Task.exec (.lowered p init cond increment body)).FewScopes limit m)
    (h : (Stmt.lowered p init cond increment body).Ends limit m result') :
    ∃ result, (Stmt.forLoop p init cond increment body).Ends limit m result := by
  obtain ⟨hends, n, rfl⟩ := h
  have hrun := approximates_loop p init cond increment body m hends
  have hagrees := agrees_loop (n := n + 2) hbody hm.renames hfew
  have hends' : (Stmt.loopApart limit (n + 2) init cond body increment m).1 ≠ .unfinished := by
    rwa [hrun]
  exact ⟨_, mt hagrees.outcome.unfinished_iff.mp hends', n + 3, rfl⟩

/-- A `for` loop does what the `while` loop does that it is short for: from every machine,
with every limit on calls and whichever clauses it has, one ends if the other does, and
they end alike, if serial numbers are left for the scopes that the longer one opens. The
loop may be any that the parser makes, and any other whose body declares nothing in the
scope around it. -/
theorem Stmt.forLoop_lowered (p : Position) (init : Option Stmt) (cond increment : Option Expr)
    (hm : m.Dated)
    (hmade : body.DeclaresNothing ∨ (Stmt.forLoop p init cond increment body).Parsed)
    (hfew : (Task.exec (.lowered p init cond increment body)).FewScopes limit m) :
    ((∃ result, (Stmt.forLoop p init cond increment body).Ends limit m result) ↔
      ∃ result, (Stmt.lowered p init cond increment body).Ends limit m result) ∧
    ∀ result result', (Stmt.forLoop p init cond increment body).Ends limit m result →
      (Stmt.lowered p init cond increment body).Ends limit m result' →
      EndsAlike result result' := by
  have hbody : body.DeclaresNothing := hmade.elim id Stmt.Parsed.forLoop_body
  refine ⟨⟨?_, ?_⟩, fun result result' h h' => ?_⟩
  · rintro ⟨result, h⟩
    obtain ⟨result', h', -⟩ := ends_lowered hm hbody hfew h
    exact ⟨result', h'⟩
  · rintro ⟨result', h'⟩
    exact ends_forLoop hm hbody hfew h'
  · obtain ⟨found, hfound, halike⟩ := ends_lowered hm hbody hfew h
    rw [h'.unique hfound]
    exact halike

end

/-- The first clause of a loop that returns from its first round,
`for (var i = true; i;) return i;`. -/
def returningInit : Stmt := .var ⟨1, 6⟩ "i" (.boolean (.unchecked ⟨1, 14⟩) true)

def returningCond : Expr := .name (.unchecked ⟨1, 20⟩) "i"

def returningBody : Stmt := .ret ⟨1, 24⟩ (some (.name (.unchecked ⟨1, 31⟩) "i"))

/-- What the loop becomes runs this block in each round. -/
def returningRound : Stmt := .roundBlock ⟨1, 1⟩ returningBody none

/-- The machine before the first round, inside the scope of the loop. -/
def returningStart : Machine :=
  let m := (Machine.fresh "root" .silent).opened "block"
  { m with scopes := m.scopes.set "i" (.boolean true) }

theorem get_returningStart : returningStart.scopes.get "i" = some (.boolean true) :=
  (get_set (by decide) "i" (Value.boolean true) "i").trans (if_pos rfl)

theorem lookup_of_get {name : String} {v : Value} {m : Machine} (h : m.scopes.get name = some v)
    (position : Position) : Eval.lookup name position m = (.finished v, m) := by
  rw [Eval.lookup, h]

theorem test_returningCond :
    Stmt.test none 2 (some returningCond) returningStart = (.finished true, returningStart) :=
  bind_finished (lookup_of_get get_returningStart ⟨1, 20⟩)

theorem exec_returningBody :
    returningBody.exec none 2 (returningStart.opened "block") =
      (.finished (.returned (.boolean true)), returningStart.opened "block") :=
  have hget : (returningStart.opened "block").scopes.get "i" = some (.boolean true) :=
    (get_push (by decide) "block" "i").trans get_returningStart
  bind_finished (lookup_of_get hget ⟨1, 31⟩)

/-- The only round ends with a return. -/
theorem exec_returningRound :
    returningRound.exec none 4 returningStart =
      (.finished (.returned (.boolean true)),
        (returningStart.opened "block").closeFrom returningStart.scopes.size) := by
  have hbody : Stmt.execAll none 3 [returningBody] (returningStart.opened "block") =
      (.finished (.returned (.boolean true)), returningStart.opened "block") :=
    bind_finished exec_returningBody
  exact congrArg (fun result => (result.1, result.2.closeFrom returningStart.scopes.size)) hbody

section

variable (m : Machine)

theorem fewScopes_nil : (Task.execAll []).FewScopes none m := .intro fun _ _ _ h => nomatch h

theorem fewScopes_name (k : Mark) (name : String) : (Task.eval (.name k name)).FewScopes none m :=
  .intro fun _ _ _ h => nomatch h

theorem fewScopes_returningInit : (Task.exec returningInit).FewScopes none m := by
  have hvalue (k : Mark) (b : Bool) : (Task.eval (.boolean k b)).FewScopes none m :=
    .intro fun _ _ _ h => nomatch h
  refine .intro fun _ _ _ h => ?_
  cases h
  exact (hvalue _ true).stays

theorem fewScopes_returningBody : (Task.exec returningBody).FewScopes none m := by
  refine .intro fun _ _ _ h => ?_
  cases h
  exact (fewScopes_name m _ "i").stays

end

/-- A round opens the scope of its block, and none inside. -/
theorem fewScopes_returningRound :
    (Task.exec returningRound).FewScopes none returningStart := by
  refine .intro fun _ _ _ h => ?_
  cases h
  refine ⟨fun _ => by decide, .intro fun _ _ _ h => ?_⟩
  cases h with
  | first => exact (fewScopes_returningBody _).stays
  | rest => exact ⟨fun _ => by decide, fewScopes_nil _⟩

/-- There is no second round. -/
theorem fewScopes_returningRounds :
    (Task.rounds (some returningCond) returningRound none).FewScopes none returningStart := by
  have htests {n k} (h : n ≤ k) := (suffices_of_le none h).test (some returningCond)
  refine .intro fun _ _ _ h => ?_
  cases h with
  | test => exact (fewScopes_name _ _ "i").stays
  | round h =>
    obtain ⟨-, rfl⟩ := Eval.finished_unique htests h test_returningCond
    exact fewScopes_returningRound.stays
  | again h hend =>
    obtain ⟨-, rfl⟩ := Eval.finished_unique htests h test_returningCond
    have hunique := Eval.finished_unique (fun h => (suffices_of_le none h).exec _) hend
      exec_returningRound
    cases hunique.1

/-- The `while` loop runs in the scope that its block has opened. -/
theorem fewScopes_returningWhile :
    (Task.execAll [.whileLoop ⟨1, 1⟩ returningCond returningRound]).FewScopes none
      returningStart := by
  refine .intro fun _ _ _ h => ?_
  cases h with
  | rest => exact ⟨fun _ => by decide, fewScopes_nil _⟩
  | first =>
    refine Task.FewScopes.stays (.intro fun _ _ _ h => ?_)
    cases h
    exact fewScopes_returningRounds.stays

/-- The run opens a scope for the loop and one for its only round. -/
theorem fewScopes_returningLoop :
    (Task.exec (.lowered ⟨1, 1⟩ (some returningInit) (some returningCond) none
      returningBody)).FewScopes none (.fresh "root" .silent) := by
  have hrun : returningInit.exec none 2 ((Machine.fresh "root" .silent).opened "block") =
      (.finished .normal, returningStart) := rfl
  refine .intro fun _ _ _ h => ?_
  cases h
  refine ⟨fun _ => by decide, .intro fun _ _ _ h => ?_⟩
  cases h with
  | first => exact (fewScopes_returningInit _).stays
  | rest h =>
    obtain ⟨-, rfl⟩ := Eval.finished_unique (fun h => (suffices_of_le none h).exec _) h hrun
    exact ⟨fun _ => by decide, fewScopes_returningWhile⟩

theorem forLoop_lowered_returning :
    (Machine.fresh "root" .silent).Dated ∧ returningBody.DeclaresNothing ∧
    (Task.exec (.lowered ⟨1, 1⟩ (some returningInit) (some returningCond) none
      returningBody)).FewScopes none (.fresh "root" .silent) ∧
    ((∃ result, (Stmt.forLoop ⟨1, 1⟩ (some returningInit) (some returningCond) none
        returningBody).Ends none (.fresh "root" .silent) result) ↔
      ∃ result, (Stmt.lowered ⟨1, 1⟩ (some returningInit) (some returningCond) none
        returningBody).Ends none (.fresh "root" .silent) result) ∧
    ∀ result result', (Stmt.forLoop ⟨1, 1⟩ (some returningInit) (some returningCond) none
        returningBody).Ends none (.fresh "root" .silent) result →
      (Stmt.lowered ⟨1, 1⟩ (some returningInit) (some returningCond) none
        returningBody).Ends none (.fresh "root" .silent) result' → EndsAlike result result' :=
  have hdated : (Machine.fresh "root" .silent).Dated := Machine.dated_fresh "root" .silent
  ⟨hdated, trivial, fewScopes_returningLoop,
    Stmt.forLoop_lowered ⟨1, 1⟩ (some returningInit) (some returningCond) none hdated
      (.inl trivial) fewScopes_returningLoop⟩

end GradualScript
