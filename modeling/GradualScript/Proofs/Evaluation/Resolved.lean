import GradualScript.Proofs.Evaluation.Discipline
import GradualScript.Proofs.Evaluation.Returns
import GradualScript.Proofs.Typing.Closed
import GradualScript.Proofs.Typing.Described

/-!
# Closed runs find their names

The functions that a machine holds are closed under the global names and their own
parameters, whatever scope they are called from. So a run of a closed tree finds every
name that it looks up, and again leaves such functions only.
-/
namespace GradualScript

/-- A function of the root scope that uses global names, its parameters and what it
declares itself. -/
structure Function.Closed (globals : String → Prop) (f : Function) : Prop where
  closure_eq : f.closure.index = 0
  body : Stmt.ClosedIn (fun n => globals n ∨ n ∈ f.params) f.body

def Value.Closed (globals : String → Prop) : Value → Prop
  | .function f => f.Closed globals
  | _ => True

/-- A returned value is closed. -/
def Completion.Closed (globals : String → Prop) (c : Completion) : Prop :=
  c.value.Closed globals

/-- The root scope binds all global names, and all functions are closed under them. -/
structure Machine.Closed (globals : String → Prop) (m : Machine) : Prop where
  size_pos : 0 < m.scopes.size
  globals_bound : ∀ n, globals n → n ∈ m.scopes.namesAt 0
  values : m.scopes.AllBound (Value.Closed globals)

section

variable {globals wider : String → Prop}

theorem Function.Closed.mono {f : Function} (hf : f.Closed globals)
    (h : ∀ n, globals n → wider n) : f.Closed wider :=
  ⟨hf.closure_eq, Stmt.ClosedIn.mono (fun n hn => hn.imp (h n) id) f.body hf.body⟩

theorem Value.Closed.mono {v : Value} (hv : v.Closed globals) (h : ∀ n, globals n → wider n) :
    v.Closed wider := by
  cases v with
  | function f => exact Function.Closed.mono hv h
  | _ => trivial

/-- Names may become global that the root binds. -/
theorem Machine.Closed.mono {m : Machine} (hm : m.Closed globals) (h : ∀ n, globals n → wider n)
    (hbound : ∀ n, wider n → n ∈ m.scopes.namesAt 0) : m.Closed wider :=
  ⟨hm.size_pos, hbound, hm.values.mono fun _ hv => hv.mono h⟩

/-- A change that adds bindings of closed values only. -/
theorem Machine.Closed.extend {grown : Option Nat} {m m' : Machine} (hm : m.Closed globals)
    (h : Scopes.Extends grown m.scopes m'.scopes)
    (hvalues : m'.scopes.AllBound (Value.Closed globals)) : m'.Closed globals :=
  ⟨h.size_pos hm.size_pos, fun n hn => (h.grows 0).subset (hm.globals_bound n hn), hvalues⟩

theorem Machine.Closed.opened {m : Machine} (hm : m.Closed globals) (name : String) :
    (m.opened name).Closed globals := by
  refine ⟨Scopes.size_push_pos .., fun n hn => ?_, hm.values.push name⟩
  have hnames : (m.opened name).scopes.namesAt 0 = m.scopes.namesAt 0 :=
    Scopes.namesAt_pushAt m.scopes name m.scopes.active hm.size_pos
  rw [hnames]
  exact hm.globals_bound n hn

theorem Operator.closed_applyUnary {op : Operator} {v w : Value} (h : op.applyUnary v = .ok w) :
    w.Closed globals := by
  unfold applyUnary at h
  split at h <;> cases h <;> trivial

theorem Operator.closed_applyToNumbers {op : Operator} {x y : Number} {w : Value}
    (h : op.applyToNumbers x y = .ok w) : w.Closed globals := by
  unfold applyToNumbers at h
  split at h
  case h_4 =>
    split at h <;> cases h
    trivial
  all_goals cases h
  all_goals trivial

/-- Only `and` and `or` give back a function. -/
theorem Operator.closed_applyBinary {op : Operator} {v v' w : Value} (hv : v.Closed globals)
    (hv' : v'.Closed globals) (h : op.applyBinary v v' = .ok w) : w.Closed globals := by
  unfold applyBinary at h
  split at h
  · cases h
    trivial
  · cases h
    trivial
  · cases h
    split
    · exact hv'
    · exact hv
  · cases h
    split
    · exact hv
    · exact hv'
  · split at h
    · exact closed_applyToNumbers h
    · split at h <;> cases h
      trivial
    · cases h

end

namespace Eval

variable {α β : Type} {globals known mid later : String → Prop}

/-- What a run leaves that missed no name: a closed machine and, if it finished, a good
value, with the names of `later` visible. -/
structure Resolved (globals later : String → Prop) (good : α → Prop)
    (result : Outcome RuntimeError α × Machine) : Prop where
  machine : result.2.Closed globals
  finds : ∀ n position, result.1 ≠ .failed ⟨.undefinedVariable n, position⟩
  value : ∀ a, result.1 = .finished a → good a
  shows : ∀ a, result.1 = .finished a → ∀ n, later n → result.2.scopes.Shows n

/-- From every closed machine where the names of `known` are visible, a run misses no
name. -/
def Resolves (globals known later : String → Prop) (good : α → Prop) (run : Eval α) : Prop :=
  ∀ m, m.Closed globals → (∀ n, known n → m.scopes.Shows n) →
    Resolved globals later good (run m)

variable {good : α → Prop} {good' : β → Prop} {run : Eval α}

theorem Resolves.weaken {narrower : String → Prop} (h : Resolves globals known later good run)
    (hlater : ∀ n, narrower n → later n) : Resolves globals known narrower good run := by
  intro m hm hknown
  have hrun := h m hm hknown
  exact ⟨hrun.machine, hrun.finds, hrun.value, fun a ha n hn => hrun.shows a ha n (hlater n hn)⟩

theorem Resolves.bind {f : α → Eval β} (h : Resolves globals known mid good run)
    (hf : ∀ a, good a → Resolves globals mid later good' (f a)) :
    Resolves globals known later good' (run >>= f) := by
  intro m hm hknown
  have hresult := h m hm hknown
  rcases bind_outcome run f m with
    ⟨a, mid, hrun, hbind⟩ | ⟨e, mid, hrun, hbind⟩ | ⟨mid, hrun, hbind⟩
  · rw [hrun] at hresult
    rw [hbind]
    exact hf a (hresult.value a rfl) mid hresult.machine (hresult.shows a rfl)
  · rw [hrun] at hresult
    rw [hbind]
    refine ⟨hresult.machine, fun n position heq => ?_, nofun, nofun⟩
    cases heq
    exact hresult.finds n position rfl
  · rw [hrun] at hresult
    rw [hbind]
    exact ⟨hresult.machine, nofun, nofun, nofun⟩

theorem resolves_pure {a : α} (ha : good a) : Resolves globals known known good (pure a) := by
  intro m hm hknown
  refine ⟨hm, nofun, ?_, fun _ _ => hknown⟩
  rintro _ ⟨rfl⟩
  exact ha

theorem resolves_unfinished : Resolves globals known later good (Eval.unfinished : Eval α) :=
  fun _ hm _ => ⟨hm, nofun, nofun, nofun⟩

theorem resolves_fail {fault : RuntimeFault} (position : Position)
    (h : ∀ n, fault ≠ .undefinedVariable n) :
    Resolves globals known later good (Eval.fail fault position : Eval α) := by
  refine fun _ hm _ => ⟨hm, fun n _ heq => ?_, nofun, nofun⟩
  cases heq
  exact h n rfl

theorem resolves_ofExcept {result : Except RuntimeFault α} (position : Position)
    (hgood : ∀ a, result = .ok a → good a) (hfault : ∀ n, result ≠ .error (.undefinedVariable n)) :
    Resolves globals known known good (Eval.ofExcept position result) := by
  cases result with
  | ok a => exact resolves_pure (hgood a rfl)
  | error fault =>
    exact resolves_fail position fun n heq => hfault n (congrArg Except.error heq)

theorem resolves_lookup {name : String} (position : Position) (hname : known name) :
    Resolves globals known known (Value.Closed globals) (Eval.lookup name position) := by
  intro m hm hknown
  obtain ⟨v, hv⟩ := Option.isSome_iff_exists.mp (hknown name hname)
  have hrun : Eval.lookup name position m = (.finished v, m) := by simp only [Eval.lookup, hv]
  rw [hrun]
  exact resolves_pure (hm.values.get hv) m hm hknown

theorem resolves_assign {name : String} {value : Value} (position : Position) (hname : known name)
    (hvalue : value.Closed globals) :
    Resolves globals known known (fun _ => True) (Eval.assign name value position) := by
  intro m hm hknown
  have hsome := (Scopes.isSome_assign m.scopes name value).mpr (hknown name hname)
  obtain ⟨⟨old, scopes⟩, hassign⟩ := Option.isSome_iff_exists.mp hsome
  have hrun : Eval.assign name value position m = (.finished (), { m with scopes := scopes }) := by
    simp only [Eval.assign, hassign]
  have hextends := Scopes.extends_assign hassign
  rw [hrun]
  exact ⟨hm.extend hextends (hm.values.assign hvalue hassign), nofun, fun _ _ => trivial,
    fun _ _ n hn => hextends.shows (hknown n hn)⟩

theorem resolves_print (value : Value) :
    Resolves globals known known (fun _ => True) (Eval.print value) :=
  fun _ hm hknown =>
    ⟨⟨hm.size_pos, hm.globals_bound, hm.values⟩, nofun, fun _ _ => trivial, fun _ _ => hknown⟩

/-- A definition makes its name visible. -/
theorem resolves_define (name : String) {value : Value} (hvalue : value.Closed globals) :
    Resolves globals known (declaring known (some name)) (fun _ => True)
      (Eval.define name value) := by
  intro m hm hknown
  have hset : Scopes.Extends (some m.scopes.active) m.scopes (m.scopes.set name value) :=
    Scopes.extends_setAt ..
  refine ⟨hm.extend hset (hm.values.set name hvalue), nofun, fun _ _ => trivial, ?_⟩
  rintro _ - n (hn | heq)
  · exact hset.shows (hknown n hn)
  · cases heq
    exact (Scopes.shows_set hm.size_pos name value name).mpr (.inr rfl)

/-- What is visible before a scope is opened is so inside of it and after it. -/
theorem Resolves.inScope (name : String) (h : Resolves globals known later good run)
    (hwithin : Within .activeScope run) :
    Resolves globals known known good (Eval.inScope name run) := by
  intro m hm hknown
  have hframe : Within .nowhere (Eval.inScope name run) := hwithin.inScope name
  have hextends : Scopes.Extends none m.scopes (Eval.inScope name run m).2.scopes :=
    (hframe m hm.size_pos).scopes
  have hrun := h (m.opened name) (hm.opened name) fun n hn =>
    (Scopes.shows_push hm.size_pos name n).mpr (hknown n hn)
  exact ⟨hm.extend hextends (hrun.machine.values.truncate _), hrun.finds, hrun.value,
    fun _ _ n hn => hextends.shows (hknown n hn)⟩

end Eval

/-- In the frame of a call, the global names and the parameters are visible. -/
theorem Machine.Closed.enter {globals : String → Prop} {m : Machine} (hm : m.Closed globals)
    {f : Function} (hf : f.Closed globals) {args : List Value}
    (hargs : ∀ v ∈ args, v.Closed globals) (harity : args.length = f.arity) :
    (m.enter f args).Closed globals ∧
      ∀ n, globals n ∨ n ∈ f.params → (m.enter f args).scopes.Shows n := by
  have hpushed : 0 < (m.scopes.pushUnder f.name f.closure).size := by
    rw [Scopes.pushUnder, Scopes.size_pushAt]
    exact Nat.succ_pos _
  have hbind := m.extends_enter f args
  have hnames : (f.params.zip args).map Prod.fst = f.params :=
    List.map_fst_zip (Nat.le_of_eq harity.symm)
  refine ⟨⟨hbind.size_pos hpushed, fun n hn => (hbind.grows 0).subset ?_, ?_⟩, fun n hn => ?_⟩
  · rw [Scopes.pushUnder, Scopes.namesAt_pushAt _ _ _ hm.size_pos]
    exact hm.globals_bound n hn
  · refine (hm.values.pushUnder f.name f.closure).foldl_set fun entry hentry => ?_
    exact hargs entry.2 (List.of_mem_zip hentry).2
  · have hshows := Scopes.shows_foldl_set (f.params.zip args) hpushed n
    rw [hnames, Scopes.shows_pushUnder_root hm.size_pos f.name hf.closure_eq] at hshows
    exact hshows.mpr (hn.imp (hm.globals_bound n) id)

open Eval

/-- A call does not depend on what is visible to the caller. -/
theorem Eval.Resolves.inFrame {globals known : String → Prop} {f : Function} {args : List Value}
    {run : Eval Completion} (hf : f.Closed globals) (hargs : ∀ v ∈ args, v.Closed globals)
    (harity : args.length = f.arity)
    (h : Resolves globals (fun n => globals n ∨ n ∈ f.params) (fun n => globals n ∨ n ∈ f.params)
      (Completion.Closed globals) run)
    (hwithin : Within .activeScope run) :
    Resolves globals known known (Completion.Closed globals) (Eval.inFrame f args run) := by
  intro m hm hknown
  have hframe : Within .nowhere (Eval.inFrame f args run) := hwithin.inFrame f args
  have hextends : Scopes.Extends none m.scopes (Eval.inFrame f args run m).2.scopes :=
    (hframe m hm.size_pos).scopes
  obtain ⟨hentered, hshows⟩ := hm.enter hf hargs harity
  have hrun := h (m.enter f args) hentered hshows
  exact ⟨hm.extend hextends (hrun.machine.values.truncate _), hrun.finds, hrun.value,
    fun _ _ n hn => hextends.shows (hknown n hn)⟩

/-- The parts of closed trees miss no name. -/
structure Resolving (globals : String → Prop) (limit : Option Nat) (n : Nat) : Prop where
  eval : ∀ {known} {e : Expr}, e.All (Expr.Uses known) →
    Resolves globals known known (Value.Closed globals) (e.eval limit n)
  evalAll : ∀ {known es}, Expr.AllIn (Expr.Uses known) es →
    Resolves globals known known (∀ v ∈ ·, Value.Closed globals v) (Expr.evalAll limit n es)
  call : ∀ {known f args} position, Value.Closed globals f → (∀ v ∈ args, Value.Closed globals v) →
    Resolves globals known known (Value.Closed globals) (Value.call limit n f args position)
  exec : ∀ {known} {s : Stmt}, s.Closed known →
    Resolves globals known (declaring known s.declared) (Completion.Closed globals)
      (s.exec limit n)
  execAll : ∀ {known ss}, Stmt.ClosedIn known ss →
    Resolves globals known known (Completion.Closed globals) (Stmt.execAll limit n ss)
  rounds : ∀ {known cond body increment}, Expr.AllOption (Expr.Uses known) cond →
    Stmt.Closed known body → Expr.AllOption (Expr.Uses known) increment →
    Resolves globals known known (Completion.Closed globals)
      (Stmt.rounds limit n cond body increment)

namespace Resolving

variable {globals known : String → Prop} {limit : Option Nat} {n : Nat}

theorem closed_normal : Completion.Closed globals .normal := trivial

/-- The names that were visible are so still. -/
theorem keeps {good : Completion → Prop} {declared : Option String} {run : Eval Completion}
    (h : Resolves globals known (declaring known declared) good run) :
    Resolves globals known known good run :=
  h.weaken fun _ hn => .inl hn

theorem nothing_declared {good : Completion → Prop} {run : Eval Completion}
    (h : Resolves globals known known good run) :
    Resolves globals known (declaring known none) good run :=
  h.weaken fun _ hn => hn.resolve_right nofun

theorem resolves_andThen {c : Completion} {more : Eval Completion}
    (hc : c.Closed globals) (hmore : Resolves globals known known (Completion.Closed globals) more) :
    Resolves globals known known (Completion.Closed globals) (c.andThen more) := by
  cases c with
  | normal => exact hmore
  | returned v => exact resolves_pure hc

theorem resolves_eval (h : Resolving globals limit n) {e : Expr} (he : e.All (Expr.Uses known)) :
    Resolves globals known known (Value.Closed globals) (e.eval limit (n + 1)) := by
  cases e with
  | number | string | boolean | nil => exact resolves_pure trivial
  | unary m op operand =>
    exact (h.eval he.2).bind fun v _ =>
      resolves_ofExcept _ (fun _ => Operator.closed_applyUnary) fun _ hfault =>
        nomatch Operator.applyUnary_fault hfault
  | binary m op left right =>
    refine (h.eval he.2.1).bind fun l hl => ?_
    split
    · split
      · exact h.eval he.2.2
      · exact resolves_pure hl
    · split
      · exact resolves_pure hl
      · exact h.eval he.2.2
    · exact (h.eval he.2.2).bind fun r hr =>
        resolves_ofExcept _ (fun _ => Operator.closed_applyBinary hl hr) fun _ hfault =>
          (Operator.applyBinary_fault hfault).elim nofun fun ⟨_, _, heq⟩ => nomatch heq
  | grouping m inner => exact h.eval he.2
  | name m name => exact resolves_lookup _ he
  | assign m name value =>
    exact (h.eval he.2).bind fun v hv =>
      (resolves_assign _ he.1 hv).bind fun _ _ => resolves_pure hv
  | call m callee args =>
    exact (h.eval he.2.1).bind fun f hf => (h.evalAll he.2.2).bind fun vs hvs => h.call _ hf hvs

theorem resolves_evalAll (h : Resolving globals limit n) {es : List Expr}
    (hes : Expr.AllIn (Expr.Uses known) es) :
    Resolves globals known known (∀ v ∈ ·, Value.Closed globals v)
      (Expr.evalAll limit (n + 1) es) := by
  cases es with
  | nil => exact resolves_pure nofun
  | cons e es =>
    exact (h.eval hes.1).bind fun v hv => (h.evalAll hes.2).bind fun vs hvs =>
      resolves_pure (List.forall_mem_cons.mpr ⟨hv, hvs⟩)

theorem resolves_call (h : Resolving globals limit n) {callee : Value} {args : List Value}
    (position : Position) (hcallee : callee.Closed globals)
    (hargs : ∀ v ∈ args, v.Closed globals) :
    Resolves globals known known (Value.Closed globals)
      (Value.call limit (n + 1) callee args position) := by
  cases callee with
  | function f =>
    by_cases harity : args.length = f.arity
    · intro m hm hknown
      cases hlimit : limitReached? limit m.calls with
      | none =>
        -- The body is closed under the names of its frame; those of the caller do not count.
        have hbody : Resolves globals known known (Completion.Closed globals)
            (Eval.inFrame f args (Stmt.execAll limit n f.body)) :=
          .inFrame hcallee hargs harity (h.execAll hcallee.body)
            ((disciplined limit n).execAll f.body)
        rw [call_function harity hlimit]
        exact (hbody.bind fun c (hc : c.value.Closed globals) => resolves_pure hc) m hm hknown
      | some depth =>
        rw [call_limit harity hlimit]
        refine resolves_fail position ?_ m hm hknown
        nofun
    · rw [call_arity harity]
      exact resolves_fail position nofun
  | _ => exact resolves_fail position nofun

theorem resolves_exec (h : Resolving globals limit n) {s : Stmt} (hs : s.Closed known) :
    Resolves globals known (declaring known s.declared) (Completion.Closed globals)
      (s.exec limit (n + 1)) := by
  cases s with
  | expression p e =>
    exact nothing_declared ((h.eval hs).bind fun _ _ => resolves_pure closed_normal)
  | print p e =>
    exact nothing_declared ((h.eval hs).bind fun v _ =>
      (resolves_print v).bind fun _ _ => resolves_pure closed_normal)
  | var p name init =>
    exact (h.eval hs).bind fun v hv =>
      (resolves_define name hv).bind fun _ _ => resolves_pure closed_normal
  | block p body =>
    exact nothing_declared ((h.execAll hs).inScope "block" ((disciplined limit n).execAll body))
  | ifElse p cond yes no =>
    refine nothing_declared ((h.eval hs.1).bind fun c _ => ?_)
    split
    · exact keeps (h.exec hs.2.1)
    · cases no with
      | none => exact resolves_pure closed_normal
      | some no => exact keeps (h.exec hs.2.2)
  | whileLoop p cond body => exact nothing_declared (h.rounds hs.1 hs.2 trivial)
  | forLoop p init cond increment body =>
    have hbegin : Resolves globals known (declaring known (init.bind Stmt.declared))
        (Completion.Closed globals) (Stmt.begin limit n init) := by
      cases init with
      | none => exact nothing_declared (resolves_pure closed_normal)
      | some init => exact h.exec hs.1
    have hloop := hbegin.bind fun c hc =>
      resolves_andThen hc (h.rounds hs.2.1 hs.2.2.2 hs.2.2.1)
    have hwithin := (disciplined limit n).within_loop init cond body increment
    rw [exec_forLoop]
    exact nothing_declared (hloop.inScope "for" hwithin)
  | function p name params body result => cases hs
  | ret p value =>
    cases value with
    | none => exact nothing_declared (resolves_pure trivial)
    | some e => exact nothing_declared ((h.eval hs).bind fun v hv => resolves_pure hv)

theorem resolves_execAll (h : Resolving globals limit n) {ss : List Stmt}
    (hss : Stmt.ClosedIn known ss) :
    Resolves globals known known (Completion.Closed globals) (Stmt.execAll limit (n + 1) ss) := by
  cases ss with
  | nil => exact resolves_pure closed_normal
  | cons s ss =>
    rw [execAll_cons]
    exact keeps ((h.exec hss.1).bind fun c hc => resolves_andThen hc (h.execAll hss.2))

theorem resolves_rounds (h : Resolving globals limit n) {cond : Option Expr} {body : Stmt}
    {increment : Option Expr} (hcond : Expr.AllOption (Expr.Uses known) cond)
    (hbody : body.Closed known) (hincrement : Expr.AllOption (Expr.Uses known) increment) :
    Resolves globals known known (Completion.Closed globals)
      (Stmt.rounds limit (n + 1) cond body increment) := by
  have htest : Resolves globals known known (fun _ => True) (Stmt.test limit n cond) := by
    cases cond with
    | none => exact resolves_pure trivial
    | some c => exact (h.eval hcond).bind fun v _ => resolves_pure trivial
  have hadvance : Resolves globals known known (fun _ => True) (Stmt.advance limit n increment) := by
    cases increment with
    | none => exact resolves_pure trivial
    | some e => exact (h.eval hincrement).bind fun _ _ => resolves_pure trivial
  rw [rounds_succ]
  refine htest.bind fun go _ => ?_
  cases go with
  | false => exact resolves_pure closed_normal
  | true =>
    refine (keeps (h.exec hbody)).bind fun c hc => resolves_andThen hc ?_
    exact hadvance.bind fun _ _ => h.rounds hcond hbody hincrement

end Resolving

/-- With no budget nothing happens; with one more step, the parts have run before. -/
theorem resolving (globals : String → Prop) (limit : Option Nat) (n : Nat) :
    Resolving globals limit n := by
  induction n with
  | zero => constructor <;> intros <;> exact resolves_unfinished
  | succ n ih =>
    exact ⟨ih.resolves_eval, ih.resolves_evalAll, ih.resolves_call, ih.resolves_exec,
      ih.resolves_execAll, ih.resolves_rounds⟩

end GradualScript
