import Mathlib
import GradualScript.Proofs.Evaluation.Returns
import GradualScript.Proofs.Typing.Kept
import GradualScript.Proofs.Typing.Soundness

/-!
# Soundness where variables keep their types

In a program without functions whose variables keep their types, every variable holds a
value of its type at every moment, whichever branches were taken and however often a
loop went round. So every expression has a value that its recorded type describes, every
variable is found, and an operator meets wrong operands only where one of them has the
wildcard for its type.
-/
namespace GradualScript

open Scopes

/-- The type describes the value, which is no function. -/
def TypeSet.Covers (t : TypeSet) (v : Value) : Prop :=
  t.describes v = true ∧ v.kind ≠ .function

/-- The recorded type of the expression covers the value. -/
def Expr.Covers (e : Expr) (v : Value) : Prop := ∃ t, e.type = some t ∧ t.Covers v

theorem Expr.Covers.describes {e : Expr} {v : Value} (h : e.Covers v) : e.Describes v := by
  obtain ⟨t, ht, hv⟩ := h
  exact ⟨t, ht, hv.1⟩

theorem Expr.Covers.type {e : Expr} {v : Value} {t : TypeSet} (h : e.Covers v)
    (ht : e.type = some t) : t.Covers v := by
  obtain ⟨u, hu, hv⟩ := h
  have heq : u = t := Option.some.inj (hu.symm.trans ht)
  exact heq ▸ hv

namespace Operator

variable {op : Operator} {t u w : TypeSet} {v x y : Value}

/-- Of values that are no functions operators make no functions. -/
theorem applyBinary_ne_function (h : op.applyBinary v x = .ok y) (hv : v.kind ≠ .function)
    (hx : x.kind ≠ .function) : y.kind ≠ .function := by
  by_cases hlogical : op = .and ∨ op = .or
  · rcases hlogical with rfl | rfl <;> cases h <;> split <;> assumption
  · rw [not_or] at hlogical
    exact applyBinary_plain hlogical.1 hlogical.2 h

end Operator

section

variable {limit : Option Nat} {n : Nat} {m mid last : Machine} {env : TypeEnv}

/-- A value that is no function cannot be called. -/
theorem call_ne_finished {callee : Value} {args : List Value} {position : Position} {v : Value}
    (hcallee : callee.kind ≠ .function) :
    Value.call limit n callee args position m ≠ (.finished v, last) := by
  intro h
  cases n with
  | zero => cases h
  | succ n =>
    cases callee with
    | function f => exact hcallee rfl
    | _ => cases h

/-- What runs of one budget leave behind if they finish: values that the recorded types
cover, and a machine whose values are covered by the types of their names. -/
structure Sound (limit : Option Nat) (n : Nat) : Prop where
  eval : ∀ {env : TypeEnv} {e : Expr} {m last : Machine} {v : Value},
    e.All (Expr.Fits env.get) → Matches TypeSet.Covers env m.scopes →
    e.eval limit n m = (.finished v, last) → e.Covers v ∧ Matches TypeSet.Covers env last.scopes
  evalAll : ∀ {env : TypeEnv} {es : List Expr} {m last : Machine} {vs : List Value},
    Expr.AllIn (Expr.Fits env.get) es → Matches TypeSet.Covers env m.scopes →
    Expr.evalAll limit n es m = (.finished vs, last) → Matches TypeSet.Covers env last.scopes
  exec : ∀ {env : TypeEnv} {s : Stmt} {m last : Machine} {c : Completion},
    0 < env.size → s.Fits env.get → Matches TypeSet.Covers env m.scopes →
    s.exec limit n m = (.finished c, last) →
    c = .normal ∧ Matches TypeSet.Covers (env.bind s.binds) last.scopes
  execAll : ∀ {env : TypeEnv} {ss : List Stmt} {m last : Machine} {c : Completion},
    0 < env.size → Stmt.FitsIn env.get ss → Matches TypeSet.Covers env m.scopes →
    Stmt.execAll limit n ss m = (.finished c, last) →
    c = .normal ∧ ∃ after, Surrounds env after ∧ Matches TypeSet.Covers after last.scopes
  rounds : ∀ {env : TypeEnv} {cond increment : Option Expr} {body : Stmt} {m last : Machine}
    {c : Completion}, 0 < env.size → Expr.AllOption (Expr.Fits env.get) cond →
    Expr.AllOption (Expr.Fits env.get) increment → body.Fits env.get → body.binds = none →
    Matches TypeSet.Covers env m.scopes →
    Stmt.rounds limit n cond body increment m = (.finished c, last) →
    c = .normal ∧ Matches TypeSet.Covers env last.scopes

namespace Sound

theorem sound_unary (h : Sound limit n) {k : Mark} {op : Operator} {x : Expr} {v : Value}
    (he : (Expr.unary k op x).All (Expr.Fits env.get))
    (hm : Matches TypeSet.Covers env m.scopes)
    (hrun : (Expr.unary k op x).eval limit (n + 1) m = (.finished v, last)) :
    (Expr.unary k op x).Covers v ∧ Matches TypeSet.Covers env last.scopes := by
  obtain ⟨⟨t, u, ht, hop, hu⟩, -⟩ := he.1
  obtain ⟨a, mid, hx, hresult⟩ := Eval.bind_finished_cases hrun
  obtain ⟨hcovers, hmid⟩ := h.eval he.2 hm hx
  obtain ⟨hdescribes, -⟩ := hcovers.type ht
  have happly := Eval.ofExcept_finished hresult
  have hlast := Eval.ofExcept_machine k.position (op.applyUnary a) mid
  rw [hresult] at hlast
  subst hlast
  exact ⟨⟨u, hu, Operator.describes_unary hop happly hdescribes,
    Operator.applyUnary_plain happly⟩, hmid⟩

theorem sound_binary (h : Sound limit n) {k : Mark} {op : Operator} {l r : Expr} {v : Value}
    (he : (Expr.binary k op l r).All (Expr.Fits env.get))
    (hm : Matches TypeSet.Covers env m.scopes)
    (hrun : (Expr.binary k op l r).eval limit (n + 1) m = (.finished v, last)) :
    (Expr.binary k op l r).Covers v ∧ Matches TypeSet.Covers env last.scopes := by
  obtain ⟨⟨t, u, result, ht, hu, hop, hresult⟩, -⟩ := he.1
  obtain ⟨a, mid, hl, -⟩ := Eval.bind_finished_cases hrun
  obtain ⟨hcovers, hmid⟩ := h.eval he.2.1 hm hl
  obtain ⟨hdescribes, hkind⟩ := hcovers.type ht
  cases hneeds : op.needsRight a with
  | false =>
    rw [eval_binary_left hl hneeds] at hrun
    cases hrun
    exact ⟨⟨result, hresult, Operator.describes_left hop hneeds hdescribes, hkind⟩, hmid⟩
  | true =>
    rw [eval_binary_right hl hneeds] at hrun
    obtain ⟨b, after, hr, hrest⟩ := Eval.bind_finished_cases hrun
    obtain ⟨hcovers', hafter⟩ := h.eval he.2.2 hmid hr
    obtain ⟨hdescribes', hkind'⟩ := hcovers'.type hu
    have happly := Eval.ofExcept_finished hrest
    have hlast := Eval.ofExcept_machine k.position (op.applyBinary a b) after
    rw [hrest] at hlast
    subst hlast
    exact ⟨⟨result, hresult, Operator.describes_binary hop happly hdescribes hdescribes',
      Operator.applyBinary_ne_function happly hkind hkind'⟩, hafter⟩

theorem sound_name {k : Mark} {name : String} {v : Value}
    (he : (Expr.name k name).All (Expr.Fits env.get)) (hm : Matches TypeSet.Covers env m.scopes)
    (hrun : Eval.lookup name k.position m = (.finished v, last)) :
    (Expr.name k name).Covers v ∧ Matches TypeSet.Covers env last.scopes := by
  obtain ⟨⟨t, ht⟩, hagrees⟩ := he
  have hrel := hm.get name
  rw [show env.get name = some t from hagrees.trans ht] at hrel
  unfold Eval.lookup at hrun
  split at hrun
  · next found hfound =>
    cases hrun
    rw [hfound] at hrel
    cases hrel with
    | some hcovers => exact ⟨⟨t, ht, hcovers⟩, hm⟩
  · cases hrun

/-- An assignment finds its variable, and the types cover the values as before. -/
theorem exists_assign {name : String} {t : TypeSet} {v : Value} (hget : env.get name = some t)
    (hv : t.Covers v) (hm : Matches TypeSet.Covers env m.scopes) :
    ∃ old scopes, m.scopes.assign name v = some (old, scopes) ∧
      Matches TypeSet.Covers env scopes := by
  have hrel := hm.assign name hv
  rw [assign_same hget] at hrel
  generalize m.scopes.assign name v = found at hrel
  cases hrel with
  | @some _ found hmatches => exact ⟨found.1, found.2, rfl, hmatches⟩

theorem sound_assign (h : Sound limit n) {k : Mark} {name : String} {x : Expr} {v : Value}
    (he : (Expr.assign k name x).All (Expr.Fits env.get))
    (hm : Matches TypeSet.Covers env m.scopes)
    (hrun : (Expr.assign k name x).eval limit (n + 1) m = (.finished v, last)) :
    (Expr.assign k name x).Covers v ∧ Matches TypeSet.Covers env last.scopes := by
  obtain ⟨⟨t, ht, hk⟩, hagrees⟩ := he.1
  obtain ⟨a, mid, hx, hrest⟩ := Eval.bind_finished_cases hrun
  obtain ⟨hcovers, hmid⟩ := h.eval he.2 hm hx
  obtain ⟨⟨⟩, after, hassign, hreturn⟩ := Eval.bind_finished_cases hrest
  cases hreturn
  obtain ⟨old, scopes, hfound, hafter⟩ := exists_assign (hagrees.trans hk) (hcovers.type ht) hmid
  rw [Eval.assign, hfound] at hassign
  cases hassign
  exact ⟨⟨t, hk, hcovers.type ht⟩, hafter⟩

theorem sound_eval (h : Sound limit n) {e : Expr} {v : Value}
    (he : e.All (Expr.Fits env.get)) (hm : Matches TypeSet.Covers env m.scopes)
    (hrun : e.eval limit (n + 1) m = (.finished v, last)) :
    e.Covers v ∧ Matches TypeSet.Covers env last.scopes := by
  cases e with
  | number | string | boolean | nil =>
    cases hrun
    exact ⟨⟨_, he.1, rfl, nofun⟩, hm⟩
  | unary k op x => exact h.sound_unary he hm hrun
  | binary k op l r => exact h.sound_binary he hm hrun
  | grouping k x =>
    obtain ⟨⟨t, ht, hk⟩, -⟩ := he.1
    obtain ⟨hcovers, hlast⟩ := h.eval he.2 hm hrun
    exact ⟨⟨t, hk, hcovers.type ht⟩, hlast⟩
  | name k name => exact sound_name he hm hrun
  | assign k name x => exact h.sound_assign he hm hrun
  | call k f args =>
    obtain ⟨callee, mid, hf, hrest⟩ := Eval.bind_finished_cases hrun
    obtain ⟨vs, after, -, hcall⟩ := Eval.bind_finished_cases hrest
    obtain ⟨⟨t, -, -, hkind⟩, -⟩ := h.eval he.2.1 hm hf
    exact absurd hcall (call_ne_finished hkind)

theorem sound_evalAll (h : Sound limit n) {es : List Expr} {vs : List Value}
    (hes : Expr.AllIn (Expr.Fits env.get) es) (hm : Matches TypeSet.Covers env m.scopes)
    (hrun : Expr.evalAll limit (n + 1) es m = (.finished vs, last)) :
    Matches TypeSet.Covers env last.scopes := by
  cases es with
  | nil =>
    cases hrun
    exact hm
  | cons e es =>
    obtain ⟨v, mid, he, hrest⟩ := Eval.bind_finished_cases hrun
    obtain ⟨vs, after, hall, hreturn⟩ := Eval.bind_finished_cases hrest
    cases hreturn
    exact h.evalAll hes.2 (h.eval hes.1 hm he).2 hall

theorem sound_test (h : Sound limit n) {cond : Option Expr} {go : Bool}
    (hcond : Expr.AllOption (Expr.Fits env.get) cond) (hm : Matches TypeSet.Covers env m.scopes)
    (hrun : Stmt.test limit n cond m = (.finished go, last)) :
    Matches TypeSet.Covers env last.scopes := by
  cases cond with
  | none =>
    cases hrun
    exact hm
  | some c =>
    obtain ⟨v, mid, hc, hreturn⟩ := Eval.bind_finished_cases hrun
    cases hreturn
    exact (h.eval hcond hm hc).2

theorem sound_advance (h : Sound limit n) {increment : Option Expr}
    (hincrement : Expr.AllOption (Expr.Fits env.get) increment)
    (hm : Matches TypeSet.Covers env m.scopes)
    (hrun : Stmt.advance limit n increment m = (.finished (), last)) :
    Matches TypeSet.Covers env last.scopes := by
  cases increment with
  | none =>
    cases hrun
    exact hm
  | some e =>
    obtain ⟨v, mid, he, hreturn⟩ := Eval.bind_finished_cases hrun
    cases hreturn
    exact (h.eval hincrement hm he).2

theorem sound_begin (h : Sound limit n) {init : Option Stmt} {c : Completion}
    (hsize : 0 < env.size) (hinit : Stmt.FitsOption env.get init)
    (hm : Matches TypeSet.Covers env m.scopes)
    (hrun : Stmt.begin limit n init m = (.finished c, last)) :
    c = .normal ∧ Matches TypeSet.Covers (env.bind (init.bind Stmt.binds)) last.scopes := by
  cases init with
  | none =>
    cases hrun
    exact ⟨rfl, hm⟩
  | some s => exact h.exec hsize hinit hm hrun

/-- A new scope in both, closed in both, leaves the scopes around it covered. -/
theorem matches_closed {name : String} {after : TypeEnv} {inner : Machine}
    (hsize : 0 < env.size) (hm : Matches TypeSet.Covers env m.scopes)
    (haround : Surrounds (env.push name) after)
    (hinner : Matches TypeSet.Covers after inner.scopes) :
    Matches TypeSet.Covers env (inner.closeFrom m.scopes.size).scopes := by
  have hclosed := hinner.truncate env.size
  rw [hm.size_eq] at hclosed
  exact (hm.size_eq ▸ haround.truncate hsize).trans_left hclosed

/-- The loop of a `for` runs in its own scope, in which the first clause may have
declared a variable. -/
theorem get_begun {name : String} (hsize : 0 < env.size)
    (declared : Option (String × TypeSet)) :
    (TypeEnv.bind (env.push name) declared).get = retyped env.get declared := by
  rw [TypeEnv.get_bind (size_push_pos env name), funext (get_push hsize name)]

theorem sound_forLoop (h : Sound limit n) {p : Position} {init : Option Stmt}
    {cond increment : Option Expr} {body : Stmt} {c : Completion} (hsize : 0 < env.size)
    (hs : (Stmt.forLoop p init cond increment body).Fits env.get)
    (hm : Matches TypeSet.Covers env m.scopes)
    (hrun : (Stmt.forLoop p init cond increment body).exec limit (n + 1) m =
      (.finished c, last)) :
    c = .normal ∧ Matches TypeSet.Covers env last.scopes := by
  obtain ⟨hinit, hcond, hincrement, hbody, hnone⟩ := hs
  have hpushed := size_push_pos env "for"
  have haround := TypeEnv.surrounds_bind (env.push "for") (init.bind Stmt.binds)
  rw [exec_forLoop] at hrun
  obtain ⟨inner, hloop, rfl⟩ := Eval.inScope_finished hrun
  obtain ⟨k, mid, hbegin, hrounds⟩ := Eval.bind_finished_cases hloop
  rw [← funext (get_push hsize "for")] at hinit
  obtain ⟨rfl, hbegun⟩ := h.sound_begin hpushed hinit (hm.push "for") hbegin
  rw [← get_begun hsize] at hcond hincrement hbody
  obtain ⟨rfl, hinner⟩ := h.rounds (haround.size_eq ▸ hpushed) hcond hincrement hbody hnone
    hbegun hrounds
  exact ⟨rfl, matches_closed hsize hm haround hinner⟩

theorem sound_exec (h : Sound limit n) {s : Stmt} {c : Completion} (hsize : 0 < env.size)
    (hs : s.Fits env.get) (hm : Matches TypeSet.Covers env m.scopes)
    (hrun : s.exec limit (n + 1) m = (.finished c, last)) :
    c = .normal ∧ Matches TypeSet.Covers (env.bind s.binds) last.scopes := by
  cases s with
  | expression p e =>
    obtain ⟨v, mid, he, hreturn⟩ := Eval.bind_finished_cases hrun
    cases hreturn
    exact ⟨rfl, (h.eval hs hm he).2⟩
  | print p e =>
    obtain ⟨v, mid, he, hrest⟩ := Eval.bind_finished_cases hrun
    obtain ⟨⟨⟩, after, hprint, hreturn⟩ := Eval.bind_finished_cases hrest
    cases hprint
    cases hreturn
    exact ⟨rfl, (h.eval hs hm he).2⟩
  | var p name init =>
    obtain ⟨v, mid, hinit, hrest⟩ := Eval.bind_finished_cases hrun
    obtain ⟨⟨⟩, after, hdefine, hreturn⟩ := Eval.bind_finished_cases hrest
    cases hdefine
    cases hreturn
    obtain ⟨⟨t, ht, hcovers⟩, hmid⟩ := h.eval hs hm hinit
    rw [Stmt.binds, ht]
    exact ⟨rfl, hmid.set name hcovers⟩
  | block p ss =>
    obtain ⟨inner, hbody, rfl⟩ := Eval.inScope_finished hrun
    have hfits : Stmt.FitsIn (env.push "block").get ss := by
      rwa [funext (get_push hsize "block")]
    obtain ⟨rfl, after, haround, hinner⟩ :=
      h.execAll (size_push_pos env "block") hfits (hm.push "block") hbody
    exact ⟨rfl, matches_closed hsize hm haround hinner⟩
  | ifElse p cond yes no =>
    obtain ⟨hcond, ⟨hyes, hnone⟩, hno, hnone'⟩ := hs
    obtain ⟨v, mid, hc, hrest⟩ := Eval.bind_finished_cases hrun
    have hmid := (h.eval hcond hm hc).2
    split at hrest
    · have hrun' := h.exec hsize hyes hmid hrest
      rwa [hnone] at hrun'
    · cases no with
      | none =>
        cases hrest
        exact ⟨rfl, hmid⟩
      | some no =>
        have hrun' := h.exec hsize hno hmid hrest
        rwa [show no.binds = none from hnone'] at hrun'
  | whileLoop p cond body =>
    have hcond : Expr.AllOption (Expr.Fits env.get) (some cond) := hs.1
    have hincrement : Expr.AllOption (Expr.Fits env.get) none := trivial
    exact h.rounds hsize hcond hincrement hs.2.1 hs.2.2 hm hrun
  | forLoop p init cond increment body => exact h.sound_forLoop hsize hs hm hrun
  | function | ret => exact hs.elim

theorem sound_execAll (h : Sound limit n) {ss : List Stmt} {c : Completion} (hsize : 0 < env.size)
    (hss : Stmt.FitsIn env.get ss) (hm : Matches TypeSet.Covers env m.scopes)
    (hrun : Stmt.execAll limit (n + 1) ss m = (.finished c, last)) :
    c = .normal ∧ ∃ after, Surrounds env after ∧ Matches TypeSet.Covers after last.scopes := by
  cases ss with
  | nil =>
    cases hrun
    exact ⟨rfl, env, .refl env, hm⟩
  | cons s ss =>
    rw [execAll_cons] at hrun
    obtain ⟨k, mid, hs, hrest⟩ := Eval.bind_finished_cases hrun
    obtain ⟨rfl, hmid⟩ := h.exec hsize hss.1 hm hs
    have haround := env.surrounds_bind s.binds
    have hfits := hss.2
    rw [← TypeEnv.get_bind hsize] at hfits
    obtain ⟨rfl, after, haround', hlast⟩ := h.execAll (haround.size_eq ▸ hsize) hfits hmid hrest
    exact ⟨rfl, after, haround.trans haround', hlast⟩

theorem sound_rounds (h : Sound limit n) {cond increment : Option Expr} {body : Stmt}
    {c : Completion} (hsize : 0 < env.size) (hcond : Expr.AllOption (Expr.Fits env.get) cond)
    (hincrement : Expr.AllOption (Expr.Fits env.get) increment) (hbody : body.Fits env.get)
    (hnone : body.binds = none) (hm : Matches TypeSet.Covers env m.scopes)
    (hrun : Stmt.rounds limit (n + 1) cond body increment m = (.finished c, last)) :
    c = .normal ∧ Matches TypeSet.Covers env last.scopes := by
  rw [rounds_succ] at hrun
  obtain ⟨go, tested, htest, hrest⟩ := Eval.bind_finished_cases hrun
  have htested := h.sound_test hcond hm htest
  cases go with
  | false =>
    cases hrest
    exact ⟨rfl, htested⟩
  | true =>
    obtain ⟨k, done, hdone, hrest⟩ := Eval.bind_finished_cases hrest
    obtain ⟨rfl, hround⟩ := h.exec hsize hbody htested hdone
    rw [hnone] at hround
    obtain ⟨⟨⟩, advanced, hadvance, hagain⟩ := Eval.bind_finished_cases hrest
    exact h.rounds hsize hcond hincrement hbody hnone
      (h.sound_advance hincrement hround hadvance) hagain

end Sound

/-- A run with one more step puts together what its parts were shown to do. -/
theorem sound (limit : Option Nat) (n : Nat) : Sound limit n := by
  induction n with
  | zero =>
    exact ⟨(fun _ _ h => by cases h), (fun _ _ h => by cases h), (fun _ _ _ h => by cases h),
      (fun _ _ _ h => by cases h), (fun _ _ _ _ _ _ h => by cases h)⟩
  | succ n ih =>
    exact ⟨ih.sound_eval, ih.sound_evalAll, ih.sound_exec, ih.sound_execAll, ih.sound_rounds⟩

/-- All expressions of the task fit the types of the names around them, and it calls no
function. -/
def Task.Fits (types : String → Option TypeSet) : Task → Prop
  | .eval e => e.All (Expr.Fits types)
  | .evalAll es => Expr.AllIn (Expr.Fits types) es
  | .call callee _ _ => callee.kind ≠ .function
  | .exec s => s.Fits types
  | .execAll ss => Stmt.FitsIn types ss
  | .rounds cond body increment =>
      Expr.AllOption (Expr.Fits types) cond ∧ Expr.AllOption (Expr.Fits types) increment ∧
        body.Fits types ∧ body.binds = none

/-- The run starts where the values of all names are covered by types that its task fits. -/
def Run.Kept (r : Run) : Prop :=
  ∃ env : TypeEnv, 0 < env.size ∧ r.task.Fits env.get ∧
    Matches TypeSet.Covers env r.machine.scopes

/-- The parts of such a run are such runs. -/
theorem Run.Starts.kept {r r' : Run} (hs : Run.Starts limit r r') (h : r.Kept) : r'.Kept := by
  obtain ⟨env, hsize, hfits, hm⟩ := h
  have heval {n : Nat} {e : Expr} {m last : Machine} {v : Value} (he : e.All (Expr.Fits env.get))
      (hm : Matches TypeSet.Covers env m.scopes) (hrun : e.eval limit n m = (.finished v, last)) :
      Matches TypeSet.Covers env last.scopes := ((sound limit n).eval he hm hrun).2
  cases hs with
  | operand | inner | assigned => exact ⟨env, hsize, hfits.2, hm⟩
  | left => exact ⟨env, hsize, hfits.2.1, hm⟩
  | right hl _ => exact ⟨env, hsize, hfits.2.2, heval hfits.2.1 hm hl⟩
  | callee => exact ⟨env, hsize, hfits.2.1, hm⟩
  | arguments hf => exact ⟨env, hsize, hfits.2.2, heval hfits.2.1 hm hf⟩
  | call hf hargs =>
    obtain ⟨⟨t, -, -, hkind⟩, hmid⟩ := (sound limit _).eval hfits.2.1 hm hf
    exact ⟨env, hsize, hkind, (sound limit _).evalAll hfits.2.2 hmid hargs⟩
  | firstArgument => exact ⟨env, hsize, hfits.1, hm⟩
  | moreArguments he => exact ⟨env, hsize, hfits.2, heval hfits.1 hm he⟩
  | body => exact absurd rfl hfits
  | expression | print | init => exact ⟨env, hsize, hfits, hm⟩
  | block =>
    refine ⟨env.push "block", size_push_pos env "block", ?_, hm.push "block"⟩
    rw [funext (get_push hsize "block")]
    exact hfits
  | cond => exact ⟨env, hsize, hfits.1, hm⟩
  | yes hc _ => exact ⟨env, hsize, hfits.2.1.1, heval hfits.1 hm hc⟩
  | no hc _ => exact ⟨env, hsize, hfits.2.2.1, heval hfits.1 hm hc⟩
  | whileLoop => exact ⟨env, hsize, ⟨hfits.1, trivial, hfits.2⟩, hm⟩
  | begin =>
    refine ⟨env.push "for", size_push_pos env "for", ?_, hm.push "for"⟩
    rw [funext (get_push hsize "for")]
    exact hfits.1
  | @forLoop n m mid p init c increment body hbegin =>
    obtain ⟨hinit, hcond, hincrement, hbody⟩ := hfits
    have hpushed := size_push_pos env "for"
    rw [← funext (get_push hsize "for")] at hinit
    have hbegun := ((sound limit n).sound_begin hpushed hinit (hm.push "for") hbegin).2
    refine ⟨TypeEnv.bind (env.push "for") (init.bind Stmt.binds), ?_, ?_, hbegun⟩
    · rw [(TypeEnv.surrounds_bind ..).size_eq]
      exact hpushed
    · rw [Sound.get_begun hsize]
      exact ⟨hcond, hincrement, hbody⟩
  | returned => exact hfits.elim
  | first => exact ⟨env, hsize, hfits.1, hm⟩
  | @rest n m mid s ss hfirst =>
    have hmid := ((sound limit n).exec hsize hfits.1 hm hfirst).2
    refine ⟨env.bind s.binds, ?_, ?_, hmid⟩
    · rw [(env.surrounds_bind s.binds).size_eq]
      exact hsize
    · rw [TypeEnv.get_bind hsize]
      exact hfits.2
  | test => exact ⟨env, hsize, hfits.1, hm⟩
  | round htest => exact ⟨env, hsize, hfits.2.2.1, (sound limit _).sound_test hfits.1 hm htest⟩
  | @advance n m mid last c increment body htest hdone =>
    have hmid := (sound limit n).sound_test hfits.1 hm htest
    have hround := ((sound limit n).exec hsize hfits.2.2.1 hmid hdone).2
    rw [hfits.2.2.2] at hround
    exact ⟨env, hsize, hfits.2.1, hround⟩
  | @again n m mid mid' last c increment body htest hdone hadvance =>
    have hmid := (sound limit n).sound_test hfits.1 hm htest
    have hround := ((sound limit n).exec hsize hfits.2.2.1 hmid hdone).2
    rw [hfits.2.2.2] at hround
    exact ⟨env, hsize, hfits, (sound limit n).sound_advance hfits.2.1 hround hadvance⟩

/-- An operator is applied to operands of which one has the wildcard for its recorded type. -/
inductive Run.MeetsWildcard (limit : Option Nat) :
    Run → Operator → List ValueKind → Position → Prop
  | unary {n : Nat} {m mid : Machine} {k : Mark} {op : Operator} {x : Expr} {v : Value} :
      x.eval limit n m = (.finished v, mid) → x.type = some .any →
      MeetsWildcard limit ⟨n + 1, .eval (.unary k op x), m⟩ op [v.kind] k.position
  | binary {n : Nat} {m mid last : Machine} {k : Mark} {op : Operator} {l r : Expr} {v w : Value} :
      l.eval limit n m = (.finished v, mid) → r.eval limit n mid = (.finished w, last) →
      l.type = some .any ∨ r.type = some .any →
      MeetsWildcard limit ⟨n + 1, .eval (.binary k op l r), m⟩ op [v.kind, w.kind] k.position

theorem Run.Kept.describes {e : Expr} {v : Value} (h : Run.Kept ⟨n, .eval e, m⟩)
    (hrun : e.eval limit n m = (.finished v, last)) : e.Describes v := by
  obtain ⟨env, -, hfits, hm⟩ := h
  exact ((sound limit n).eval hfits hm hrun).1.describes

/-- Variables are found. -/
theorem Run.Kept.not_undefined {r : Run} (h : r.Kept) (name : String) (position : Position) :
    ¬r.Raises limit ⟨.undefinedVariable name, position⟩ := by
  obtain ⟨env, -, hfits, hm⟩ := h
  intro hraises
  generalize he : (⟨.undefinedVariable name, position⟩ : RuntimeError) = e at hraises
  cases hraises with
  | unary hx hfault =>
    cases he
    cases Operator.applyUnary_fault hfault
  | binary hl hr hfault =>
    cases he
    rcases Operator.applyBinary_fault hfault with h | ⟨_, _, h⟩ <;> cases h
  | @name n m k name hnone =>
    obtain ⟨⟨t, ht⟩, hagrees⟩ := hfits
    have hrel := hm.get name
    rw [show env.get name = some t from hagrees.trans ht, hnone] at hrel
    cases hrel
  | @assign n m mid k name x v hx hnone =>
    obtain ⟨⟨⟨t, ht, hk⟩, hagrees⟩, hfits⟩ := hfits
    obtain ⟨hcovers, hmid⟩ := (sound limit n).eval hfits hm hx
    obtain ⟨old, scopes, hfound, -⟩ :=
      Sound.exists_assign (hagrees.trans hk) (hcovers.type ht) hmid
    rw [hnone] at hfound
    cases hfound
  | arity | callLimit | notCallable => cases he

/-- Operators whose operands have concrete types take their operands. -/
theorem Run.Kept.meetsWildcard {r : Run} {op : Operator} {kinds : List ValueKind}
    {position : Position} (h : r.Kept)
    (hraises : r.Raises limit ⟨.wrongOperands op kinds, position⟩) :
    r.MeetsWildcard limit op kinds position := by
  obtain ⟨env, -, hfits, hm⟩ := h
  cases hraises with
  | @unary n m mid k op' x v _ hx hfault =>
    obtain ⟨⟨⟨t, u, ht, hop, -⟩, -⟩, hfits⟩ := hfits
    have hdescribes := (((sound limit n).eval hfits hm hx).1.type ht).1
    by_cases hany : t = .any
    · obtain ⟨-, -, rfl, rfl⟩ := (Operator.applyUnary_wrongOperands ..).mp hfault
      exact .unary hx (hany ▸ ht)
    · have hwrong := (Operator.applyUnary_fault_iff hop hany ..).mp hfault
      exact absurd hdescribes hwrong.2.1
  | @binary n m mid last k op' l r v w _ hl hr hfault =>
    obtain ⟨⟨⟨t, u, result, ht, hu, hop, -⟩, -⟩, hfits, hfits'⟩ := hfits
    obtain ⟨hcovers, hmid⟩ := (sound limit n).eval hfits hm hl
    obtain ⟨hcovers', -⟩ := (sound limit n).eval hfits' hmid hr
    have hnegate : op' ≠ .negate := by
      rintro rfl
      cases hop
    obtain ⟨-, -, rfl, rfl⟩ := (Operator.applyBinary_wrongOperands hnegate ..).mp hfault
    by_cases hany : t = .any ∨ u = .any
    · rcases hany with rfl | rfl
      · exact .binary hl hr (.inl ht)
      · exact .binary hl hr (.inr hu)
    · rw [not_or] at hany
      have hwrong := (Operator.applyBinary_fault_iff hop hany.1 hany.2 ..).mp hfault
      exact absurd ⟨(hcovers.type ht).1, (hcovers'.type hu).1⟩ hwrong.2.1

end

/-- The run of a program that passed starts with no names at all. -/
theorem Program.kept_checkedRun {p : Program} (hplaced : Stmt.PlacedIn false p)
    (hfree : Stmt.FunctionFreeIn p) (hcheck : (p.check .fresh).verdict = .ok ())
    (hkeeps : Stmt.KeepsTypesIn .any .fresh p) (budget : Nat) (sink : Sink) :
    (p.checkedRun budget sink).Kept := by
  have hfits := (Stmt.fits_checkAll (show 0 < TypeEnv.fresh.size by decide) hplaced hfree hkeeps
    hcheck).1
  refine ⟨.fresh, by decide, hfits, rfl, fun i _ => ?_, fun i name => ?_⟩
  · cases i <;> rfl
  · cases i <;> exact .none

/-- A text without functions passed, and each of its assignments keeps the type of its
variable. Every value in its run is described by the type recorded on its expression.
The run finds all variables, and ends with wrong operands only where an operator meets
an operand whose recorded type is the wildcard. -/
theorem describes_of_keepsTypes {source : String} {p : Program}
    (hread : readProgram source = .ok p) (hfree : Stmt.FunctionFreeIn p)
    (hcheck : (p.check .fresh).verdict = .ok ()) (hkeeps : Stmt.KeepsTypesIn .any .fresh p)
    (budget : Nat) (sink : Sink) :
    (∀ n e m v last,
      Run.Reaches (some defaultCallLimit) (p.checkedRun budget sink) ⟨n, .eval e, m⟩ →
        e.eval (some defaultCallLimit) n m = (.finished v, last) → e.Describes v) ∧
    (∀ name position,
      (runSource budget source sink).1 ≠ .failed (.run ⟨.undefinedVariable name, position⟩)) ∧
    ∀ op kinds position,
      (runSource budget source sink).1 = .failed (.run ⟨.wrongOperands op kinds, position⟩) →
        ∃ r, Run.Reaches (some defaultCallLimit) (p.checkedRun budget sink) r ∧
          r.MeetsWildcard (some defaultCallLimit) op kinds position := by
  have hstart := Program.kept_checkedRun (placedIn_of_readProgram hread) hfree hcheck hkeeps budget
    sink
  have hkept {r : Run}
      (h : Run.Reaches (some defaultCallLimit) (p.checkedRun budget sink) r) : r.Kept :=
    Run.Reaches.invariant (P := Run.Kept) (fun hr hs => hs.kept hr) h hstart
  refine ⟨fun n e m v last hreaches hrun => (hkept hreaches).describes hrun,
    fun name position hfails => ?_, fun op kinds position hfails => ?_⟩
  · rw [runSource_fails_iff hread hcheck, Run.fails_iff] at hfails
    obtain ⟨r, hreaches, hraises⟩ := hfails
    exact (hkept hreaches).not_undefined name position hraises
  · rw [runSource_fails_iff hread hcheck, Run.fails_iff] at hfails
    obtain ⟨r, hreaches, hraises⟩ := hfails
    exact ⟨r, hreaches, (hkept hreaches).meetsWildcard hraises⟩

/-- The loop gives its variable a truth value in each round. -/
def flippingLoop : String := "var more = true; while (more) more = !more; print more;"

def flippingLoopTree : Program :=
  [.var ⟨1, 1⟩ "more" (.boolean (.unchecked ⟨1, 12⟩) true),
    .whileLoop ⟨1, 18⟩ (.name (.unchecked ⟨1, 25⟩) "more")
      (.expression ⟨1, 31⟩ (.assign (.unchecked ⟨1, 31⟩) "more"
        (.unary (.unchecked ⟨1, 38⟩) .negate (.name (.unchecked ⟨1, 39⟩) "more")))),
    .print ⟨1, 45⟩ (.name (.unchecked ⟨1, 51⟩) "more")]

theorem readProgram_flippingLoop : readProgram flippingLoop = .ok flippingLoopTree := by cbv

theorem check_flippingLoop : (flippingLoopTree.check .fresh).verdict = .ok () := by cbv

theorem keepsTypes_flippingLoop : Stmt.KeepsTypesIn .any .fresh flippingLoopTree := by
  refine ⟨trivial, ⟨trivial, trivial, fun t h => ?_⟩, trivial, trivial⟩
  cbv at h ⊢
  exact congrArg some (Except.ok.inj h)

theorem describes_of_keepsTypes_flippingLoop :
    readProgram flippingLoop = .ok flippingLoopTree ∧ Stmt.FunctionFreeIn flippingLoopTree ∧
      (flippingLoopTree.check .fresh).verdict = .ok () ∧
      Stmt.KeepsTypesIn .any .fresh flippingLoopTree ∧
      (∀ n e m v last,
        Run.Reaches (some defaultCallLimit) (flippingLoopTree.checkedRun 8 .silent)
            ⟨n, .eval e, m⟩ →
          e.eval (some defaultCallLimit) n m = (.finished v, last) → e.Describes v) ∧
      (∀ name position,
        (runSource 8 flippingLoop .silent).1 ≠
          .failed (.run ⟨.undefinedVariable name, position⟩)) ∧
      ∀ op kinds position,
        (runSource 8 flippingLoop .silent).1 =
            .failed (.run ⟨.wrongOperands op kinds, position⟩) →
          ∃ r, Run.Reaches (some defaultCallLimit) (flippingLoopTree.checkedRun 8 .silent) r ∧
            r.MeetsWildcard (some defaultCallLimit) op kinds position :=
  have hfree : Stmt.FunctionFreeIn flippingLoopTree := by
    simp [flippingLoopTree, Stmt.FunctionFreeIn, Stmt.FunctionFree]
  ⟨readProgram_flippingLoop, hfree, check_flippingLoop, keepsTypes_flippingLoop,
    describes_of_keepsTypes readProgram_flippingLoop hfree check_flippingLoop
      keepsTypes_flippingLoop 8 .silent⟩

/-- The call that would fail is skipped, and its type is the wildcard. -/
def skippedCall : String := "print (true or 0()) + 0;"

def skippedCallTree : Program :=
  [.print ⟨1, 1⟩
    (.binary (.unchecked ⟨1, 7⟩) .add
      (.grouping (.unchecked ⟨1, 7⟩)
        (.binary (.unchecked ⟨1, 8⟩) .or (.boolean (.unchecked ⟨1, 8⟩) true)
          (.call (.unchecked ⟨1, 16⟩) (.number (.unchecked ⟨1, 16⟩) ⟨0⟩) [])))
      (.number (.unchecked ⟨1, 23⟩) ⟨0⟩))]

/-- No variable is there to change its type, checking passes the text, and its run ends
with wrong operands. -/
theorem runSource_skippedCall :
    readProgram skippedCall = .ok skippedCallTree ∧ Stmt.FunctionFreeIn skippedCallTree ∧
      (skippedCallTree.check .fresh).verdict = .ok () ∧
      Stmt.KeepsTypesIn .any .fresh skippedCallTree ∧
      (runSource 8 skippedCall .silent).1 =
        .failed (.run ⟨.wrongOperands .add [.boolean, .numeric], ⟨1, 7⟩⟩) :=
  ⟨by cbv, by simp [skippedCallTree, Stmt.FunctionFreeIn, Stmt.FunctionFree], by cbv,
    by simp [skippedCallTree, Stmt.KeepsTypesIn, Stmt.KeepsTypes, Expr.KeepsTypes,
      Expr.KeepsTypesIn], by cbv⟩

end GradualScript
