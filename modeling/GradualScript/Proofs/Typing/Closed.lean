import GradualScript.Proofs.Grammar.Placement
import GradualScript.Proofs.Typing.Frames
import GradualScript.Proofs.Typing.Recorded

/-!
# Checked statements are closed

A statement is closed under some names if it uses these only, and those that it declares
itself before it uses them. Checking passes statements that are closed under the names
which its environment shows. Function declarations are left to programs, where they
stand.
-/
namespace GradualScript

/-- The name that an expression itself reads or writes is known. -/
def Expr.Uses (known : String → Prop) : Expr → Prop
  | .name _ n | .assign _ n _ => known n
  | _ => True

/-- The known names after a declaration, if there is one. -/
def declaring (known : String → Prop) (declared : Option String) (name : String) : Prop :=
  known name ∨ declared = some name

mutual

/-- The statement declares no function and uses the known names only, or those that it
declares itself. -/
def Stmt.Closed (known : String → Prop) : Stmt → Prop
  | .expression _ e | .print _ e | .var _ _ e => e.All (Expr.Uses known)
  | .block _ ss => Stmt.ClosedIn known ss
  | .ifElse _ c yes no =>
      c.All (Expr.Uses known) ∧ yes.Closed known ∧ Stmt.ClosedOption known no
  | .whileLoop _ c body => c.All (Expr.Uses known) ∧ body.Closed known
  | .forLoop _ init c increment body =>
      let inside := declaring known (init.bind Stmt.declared)
      Stmt.ClosedOption known init ∧ Expr.AllOption (Expr.Uses inside) c ∧
        Expr.AllOption (Expr.Uses inside) increment ∧ body.Closed inside
  | .function _ _ _ _ _ => False
  | .ret _ e => Expr.AllOption (Expr.Uses known) e

/-- Each statement is closed under the known names and those declared before it. -/
def Stmt.ClosedIn (known : String → Prop) : List Stmt → Prop
  | [] => True
  | s :: ss => s.Closed known ∧ Stmt.ClosedIn (declaring known s.declared) ss

def Stmt.ClosedOption (known : String → Prop) : Option Stmt → Prop
  | none => True
  | some s => s.Closed known

end

mutual

/-- No function is declared in the statement. -/
def Stmt.FunctionFree : Stmt → Prop
  | .block _ ss => Stmt.FunctionFreeIn ss
  | .ifElse _ _ yes no => yes.FunctionFree ∧ Stmt.FunctionFreeOption no
  | .whileLoop _ _ body => body.FunctionFree
  | .forLoop _ init _ _ body => Stmt.FunctionFreeOption init ∧ body.FunctionFree
  | .function _ _ _ _ _ => False
  | .expression _ _ | .print _ _ | .var _ _ _ | .ret _ _ => True

def Stmt.FunctionFreeIn : List Stmt → Prop
  | [] => True
  | s :: ss => s.FunctionFree ∧ Stmt.FunctionFreeIn ss

def Stmt.FunctionFreeOption : Option Stmt → Prop
  | none => True
  | some s => s.FunctionFree

end

/-- The statement is a function declaration with no other inside, or has none at all. -/
def Stmt.FunctionsOnTop : Stmt → Prop
  | .function _ _ _ body _ => Stmt.FunctionFreeIn body
  | s => s.FunctionFree

section

variable {known wider : String → Prop}

theorem declaring_mono (h : ∀ n, known n → wider n) (declared : Option String) :
    ∀ n, declaring known declared n → declaring wider declared n :=
  fun n hn => hn.imp (h n) id

mutual

theorem Expr.All.mono {P Q : Expr → Prop} (h : ∀ e, P e → Q e) : ∀ e : Expr, e.All P → e.All Q
  | .number _ _, he | .string _ _, he | .boolean _ _, he | .nil _, he | .name _ _, he => h _ he
  | .unary _ _ e, he | .grouping _ e, he | .assign _ _ e, he =>
      ⟨h _ he.1, Expr.All.mono h e he.2⟩
  | .binary _ _ l r, he => ⟨h _ he.1, Expr.All.mono h l he.2.1, Expr.All.mono h r he.2.2⟩
  | .call _ f es, he => ⟨h _ he.1, Expr.All.mono h f he.2.1, Expr.AllIn.mono h es he.2.2⟩

theorem Expr.AllIn.mono {P Q : Expr → Prop} (h : ∀ e, P e → Q e) :
    ∀ es : List Expr, Expr.AllIn P es → Expr.AllIn Q es
  | [], _ => trivial
  | e :: es, hes => ⟨Expr.All.mono h e hes.1, Expr.AllIn.mono h es hes.2⟩

end

theorem Expr.Uses.mono (h : ∀ n, known n → wider n) (e : Expr) (he : e.Uses known) :
    e.Uses wider := by
  cases e with
  | name | assign => exact h _ he
  | _ => trivial

theorem Expr.uses_mono (h : ∀ n, known n → wider n) {e : Expr} (he : e.All (Uses known)) :
    e.All (Uses wider) :=
  Expr.All.mono (Uses.mono h) e he

theorem Expr.usesOption_mono (h : ∀ n, known n → wider n) {e : Option Expr}
    (he : Expr.AllOption (Uses known) e) : Expr.AllOption (Uses wider) e := by
  cases e with
  | none => trivial
  | some e => exact Expr.uses_mono h he

mutual

/-- Closed under some names, a statement is closed under more. -/
theorem Stmt.Closed.mono {known wider : String → Prop} (h : ∀ n, known n → wider n) :
    ∀ s : Stmt, s.Closed known → s.Closed wider
  | .expression _ _, hs | .print _ _, hs | .var _ _ _, hs => Expr.uses_mono h hs
  | .block _ ss, hs => Stmt.ClosedIn.mono h ss hs
  | .ifElse _ _ yes no, hs =>
      ⟨Expr.uses_mono h hs.1, Stmt.Closed.mono h yes hs.2.1, Stmt.ClosedOption.mono h no hs.2.2⟩
  | .whileLoop _ _ body, hs => ⟨Expr.uses_mono h hs.1, Stmt.Closed.mono h body hs.2⟩
  | .forLoop _ init _ _ body, hs =>
      have hinside := declaring_mono h (init.bind Stmt.declared)
      ⟨Stmt.ClosedOption.mono h init hs.1, Expr.usesOption_mono hinside hs.2.1,
        Expr.usesOption_mono hinside hs.2.2.1, Stmt.Closed.mono hinside body hs.2.2.2⟩
  | .ret _ _, hs => Expr.usesOption_mono h hs

theorem Stmt.ClosedIn.mono {known wider : String → Prop} (h : ∀ n, known n → wider n) :
    ∀ ss : List Stmt, Stmt.ClosedIn known ss → Stmt.ClosedIn wider ss
  | [], _ => trivial
  | s :: ss, hss =>
      ⟨Stmt.Closed.mono h s hss.1, Stmt.ClosedIn.mono (declaring_mono h s.declared) ss hss.2⟩

theorem Stmt.ClosedOption.mono {known wider : String → Prop} (h : ∀ n, known n → wider n) :
    ∀ s : Option Stmt, Stmt.ClosedOption known s → Stmt.ClosedOption wider s
  | none, _ => trivial
  | some s, hs => Stmt.Closed.mono h s hs

end

end

open Scopes Checked

mutual

/-- A statement that declares nothing leaves all names as they are. -/
theorem Stmt.extends_check_of_declared {inFunction : Bool} (expected : TypeSet) (s : Stmt)
    {env : TypeEnv} (hsize : 0 < env.size) (hs : s.Placed inFunction) (hnone : s.declared = none) :
    Extends none env (s.check expected env).env := by
  match s with
  | .expression _ e | .print _ e | .ret _ (some e) =>
    rw [check]
    exact e.extends_check env
  | .ret _ none => exact .refl none env
  | .var _ _ _ | .function _ _ _ _ _ => cases hnone
  | .block p body =>
    rw [check]
    exact extends_pop hsize (Stmt.extends_checkAll expected body (size_push_pos ..))
  | .ifElse p cond yes no =>
    have hcond := cond.extends_check env
    have hyes : Extends none env (next (cond.check env).verdict yes (cond.check env).env fun _ =>
        yes.check expected (cond.check env).env).env :=
      env_next (P := Extends none env) hcond fun _ =>
        hcond.trans (yes.extends_check_of_declared expected (hcond.size_pos hsize) hs.2.1 hs.1)
    rw [check]
    exact env_next (P := Extends none env) hyes fun _ =>
      hyes.trans (Stmt.extends_checkOption_of_declared expected no (hyes.size_pos hsize) hs.2.2.1
        hs.2.2.2)
  | .whileLoop p cond body =>
    have hcond := cond.extends_check env
    rw [check]
    exact env_next (P := Extends none env) hcond fun _ =>
      hcond.trans (body.extends_check_of_declared expected (hcond.size_pos hsize) hs.2 hs.1)
  | .forLoop p init cond increment body =>
    exact extends_check_forLoop hsize (fun hsize => Stmt.extends_checkOption expected init hsize)
      fun hsize => body.extends_check expected hsize

theorem Stmt.extends_checkOption_of_declared {inFunction : Bool} (expected : TypeSet)
    (s : Option Stmt) {env : TypeEnv} (hsize : 0 < env.size)
    (hs : Stmt.PlacedOption inFunction s) (hnone : ∀ t, s = some t → t.declared = none) :
    Extends none env (Stmt.checkOption expected s env).env := by
  match s with
  | none => exact .refl none env
  | some s => exact s.extends_check_of_declared expected hsize hs (hnone s rfl)

end

/-- After a statement, the names are visible that were before, and the one that it
declares. -/
theorem Stmt.shows_check {inFunction : Bool} (expected : TypeSet) {s : Stmt} {env : TypeEnv}
    (hsize : 0 < env.size) (hs : s.Placed inFunction) (n : String)
    (hn : (s.check expected env).env.Shows n) : declaring env.Shows s.declared n := by
  cases hdeclared : s.declared with
  | none =>
    exact .inl (((s.extends_check_of_declared expected hsize hs hdeclared).shows_iff n).mp hn)
  | some name =>
    cases s with
    | var p name' init =>
      cases hdeclared
      have hinit := init.extends_check env
      rw [check] at hn
      revert hn
      refine env_next (P := fun env' => env'.Shows n → declaring env.Shows (some name) n)
        (fun hn => .inl ((hinit.shows_iff n).mp hn)) fun type hn => ?_
      rw [shows_set (hinit.size_pos hsize)] at hn
      exact hn.imp (hinit.shows_iff n).mp fun heq => congrArg some heq.symm
    | function p name' params body result =>
      cases hdeclared
      have hname : Extends (some env.active) env (env.set name .any) := extends_setAt ..
      have hparams := TypeEnv.extends_bindParams params ((env.set name .any).push name)
      have hbody := Stmt.extends_checkAll result body (hparams.size_pos (size_push_pos ..))
      rw [check, (extends_pop (hname.size_pos hsize) (hparams.then hbody)).shows_iff,
        shows_set hsize] at hn
      exact hn.imp id fun heq => congrArg some heq.symm
    | _ => cases hdeclared

theorem Stmt.shows_checkOption {inFunction : Bool} (expected : TypeSet) {s : Option Stmt}
    {env : TypeEnv} (hsize : 0 < env.size) (hs : Stmt.PlacedOption inFunction s) (n : String)
    (hn : (Stmt.checkOption expected s env).env.Shows n) :
    declaring env.Shows (s.bind Stmt.declared) n := by
  cases s with
  | none => exact .inl hn
  | some s => exact Stmt.shows_check expected hsize hs n hn

/-- What was checked after a part that passed. -/
theorem Checked.next_eq {τ α β : Type} {part : Except TypeError α} {a : α} (h : part = .ok a)
    (tree : τ) (env : TypeEnv) (go : α → Checked τ β) : next part tree env go = go a := by
  rw [h]
  rfl

theorem Checked.settle_ok {e : Expr} {env : TypeEnv} {verdict : Except TypeError TypeSet}
    {type : TypeSet} (h : (settle e env verdict).verdict = .ok type) : verdict = .ok type := by
  cases verdict with
  | ok found => exact h
  | error fault => cases h

/-- What is left of an expression that passed. -/
theorem Checked.settle_eq {e : Expr} {env : TypeEnv} {verdict : Except TypeError TypeSet}
    {type : TypeSet} (h : (settle e env verdict).verdict = .ok type) :
    settle e env verdict = ⟨e.record type, env, .ok type⟩ := by
  rw [settle_ok h]
  rfl

mutual

theorem Expr.closed_of_check {e : Expr} {env : TypeEnv} {type : TypeSet}
    (h : (e.check env).verdict = .ok type) : e.All (Expr.Uses env.Shows) := by
  match e with
  | .number _ _ | .string _ _ | .boolean _ _ | .nil _ => trivial
  | .name m n =>
    have hget := settle_ok (by rwa [check] at h)
    split at hget
    · next found hfound => exact Option.isSome_iff_exists.mpr ⟨found, hfound⟩
    · cases hget
  | .assign m n value =>
    rw [check] at h
    obtain ⟨found, hvalue, hrest⟩ := next_ok h
    refine ⟨?_, Expr.closed_of_check hvalue⟩
    split at hrest
    · next hassign =>
      exact ((value.extends_check env).shows_iff n).mp
        ((isSome_assign _ n found).mp (hassign ▸ rfl))
    · cases hrest
  | .unary m op operand =>
    obtain ⟨found, hoperand, -⟩ := bind_ok (settle_ok (by rwa [check] at h))
    exact ⟨trivial, Expr.closed_of_check hoperand⟩
  | .binary m op left right =>
    obtain ⟨lt, hleft, hrest⟩ := bind_ok (settle_ok (by rwa [check] at h))
    obtain ⟨rt, hright, -⟩ := bind_ok hrest
    rw [next_eq hleft] at hright
    refine ⟨trivial, Expr.closed_of_check hleft, ?_⟩
    exact Expr.uses_mono (fun n => ((left.extends_check env).shows_iff n).mp)
      (Expr.closed_of_check hright)
  | .grouping m inner =>
    exact ⟨trivial, Expr.closed_of_check (settle_ok (by rwa [check] at h))⟩
  | .call m callee args =>
    obtain ⟨⟨⟩, hargs, -⟩ := map_ok (settle_ok (by rwa [check] at h))
    obtain ⟨found, hcallee, hargs⟩ := next_ok hargs
    refine ⟨trivial, Expr.closed_of_check hcallee, ?_⟩
    exact Expr.AllIn.mono (Uses.mono fun n => ((callee.extends_check env).shows_iff n).mp) args
      (Expr.closed_of_checkAll hargs)

theorem Expr.closed_of_checkAll {es : List Expr} {env : TypeEnv}
    (h : (Expr.checkAll es env).verdict = .ok ()) : Expr.AllIn (Expr.Uses env.Shows) es := by
  match es with
  | [] => trivial
  | e :: es =>
    rw [checkAll] at h
    obtain ⟨found, he, hes⟩ := next_ok h
    refine ⟨Expr.closed_of_check he, ?_⟩
    exact Expr.AllIn.mono (Uses.mono fun n => ((e.extends_check env).shows_iff n).mp) es
      (Expr.closed_of_checkAll hes)

end

theorem Expr.closed_of_checkOption {e : Option Expr} {env : TypeEnv} {a : Unit}
    (h : (Expr.checkOption e env).verdict = .ok a) :
    Expr.AllOption (Expr.Uses env.Shows) e := by
  cases e with
  | none => trivial
  | some e =>
    obtain ⟨found, he, -⟩ := map_ok h
    exact Expr.closed_of_check he

mutual

/-- A statement that passes is closed under the names that the environment shows. -/
theorem Stmt.closed_of_check {inFunction : Bool} {expected : TypeSet} {s : Stmt} {env : TypeEnv}
    (hsize : 0 < env.size) (hs : s.Placed inFunction) (hfree : s.FunctionFree)
    (h : (s.check expected env).verdict = .ok ()) : s.Closed env.Shows := by
  match s with
  | .expression _ e | .print _ e =>
    obtain ⟨found, he, -⟩ := map_ok (by rwa [check] at h)
    exact Expr.closed_of_check he
  | .ret _ none => trivial
  | .ret _ (some e) =>
    obtain ⟨found, he, -⟩ := bind_ok (by rwa [check] at h)
    exact Expr.closed_of_check he
  | .var _ _ init =>
    obtain ⟨found, hinit, -⟩ := next_ok (by rwa [check] at h)
    exact Expr.closed_of_check hinit
  | .block _ body =>
    rw [check] at h
    have hbody := Stmt.closedIn_of_checkAll (size_push_pos ..) hs hfree h
    exact Stmt.ClosedIn.mono (fun n => (shows_push hsize "block" n).mp) body hbody
  | .ifElse _ cond yes no =>
    rw [check] at h
    obtain ⟨⟨⟩, hyes, hno⟩ := next_ok h
    obtain ⟨found, hcond, hyes⟩ := next_ok hyes
    rw [next_eq hcond] at hno
    have hextends := cond.extends_check env
    have hsize' := hextends.size_pos hsize
    have hextends' := hextends.trans (yes.extends_check_of_declared expected hsize' hs.2.1 hs.1)
    refine ⟨Expr.closed_of_check hcond, ?_, ?_⟩
    · exact Stmt.Closed.mono (fun n => (hextends.shows_iff n).mp) yes
        (Stmt.closed_of_check hsize' hs.2.1 hfree.1 hyes)
    · exact Stmt.ClosedOption.mono (fun n => (hextends'.shows_iff n).mp) no
        (Stmt.closedOption_of_check (hextends'.size_pos hsize) hs.2.2.1 hfree.2 hno)
  | .whileLoop _ cond body =>
    rw [check] at h
    obtain ⟨found, hcond, hbody⟩ := next_ok h
    have hextends := cond.extends_check env
    refine ⟨Expr.closed_of_check hcond, ?_⟩
    exact Stmt.Closed.mono (fun n => (hextends.shows_iff n).mp) body
      (Stmt.closed_of_check (hextends.size_pos hsize) hs.2 hfree hbody)
  | .forLoop _ init cond increment body =>
    have hpushed := size_push_pos env "for"
    rw [check] at h
    obtain ⟨⟨⟩, hbody, hincrement⟩ := next_ok h
    obtain ⟨⟨⟩, hcond, hbody⟩ := next_ok hbody
    obtain ⟨⟨⟩, hinit, hcond⟩ := next_ok hcond
    have hclosed := Stmt.closedOption_of_check hpushed hs.1 hfree.1 hinit
    have hinside := Stmt.shows_checkOption expected hpushed hs.1
    have hsize' := (Stmt.extends_checkOption expected init hpushed).size_pos hpushed
    simp only [next_eq hinit, next_eq hcond] at hbody hincrement
    generalize (Stmt.checkOption expected init (env.push "for")).env = inside at *
    have hshows : ∀ n, inside.Shows n → declaring env.Shows (init.bind Stmt.declared) n :=
      fun n hn => declaring_mono (fun n => (shows_push hsize "for" n).mp) _ n (hinside n hn)
    have htest := Expr.extends_checkOption cond inside
    have hround := htest.trans
      (body.extends_check_of_declared expected (htest.size_pos hsize') hs.2.2 hs.2.1)
    refine ⟨Stmt.ClosedOption.mono (fun n => (shows_push hsize "for" n).mp) init hclosed,
      Expr.usesOption_mono hshows (Expr.closed_of_checkOption hcond),
      Expr.usesOption_mono (fun n hn => hshows n ((hround.shows_iff n).mp hn))
        (Expr.closed_of_checkOption hincrement), ?_⟩
    exact Stmt.Closed.mono (fun n hn => hshows n ((htest.shows_iff n).mp hn)) body
      (Stmt.closed_of_check (htest.size_pos hsize') hs.2.2 hfree.2 hbody)
  | .function _ _ _ _ _ => exact hfree.elim

theorem Stmt.closedIn_of_checkAll {inFunction : Bool} {expected : TypeSet} {ss : List Stmt}
    {env : TypeEnv} (hsize : 0 < env.size) (hss : Stmt.PlacedIn inFunction ss)
    (hfree : Stmt.FunctionFreeIn ss) (h : (Stmt.checkAll expected ss env).verdict = .ok ()) :
    Stmt.ClosedIn env.Shows ss := by
  match ss with
  | [] => trivial
  | s :: ss =>
    rw [checkAll] at h
    obtain ⟨⟨⟩, hs, hrest⟩ := next_ok h
    refine ⟨Stmt.closed_of_check hsize hss.1 hfree.1 hs, ?_⟩
    exact Stmt.ClosedIn.mono (fun n => Stmt.shows_check expected hsize hss.1 n) ss
      (Stmt.closedIn_of_checkAll ((s.extends_check expected hsize).size_pos hsize) hss.2 hfree.2
        hrest)

theorem Stmt.closedOption_of_check {inFunction : Bool} {expected : TypeSet} {s : Option Stmt}
    {env : TypeEnv} (hsize : 0 < env.size) (hs : Stmt.PlacedOption inFunction s)
    (hfree : Stmt.FunctionFreeOption s) (h : (Stmt.checkOption expected s env).verdict = .ok ()) :
    Stmt.ClosedOption env.Shows s := by
  match s with
  | none => trivial
  | some s => exact Stmt.closed_of_check hsize hs hfree h

end

/-- The body of a function that passes is closed under its parameters and the names that
are visible after the declaration, its own among them. -/
theorem Stmt.closedIn_body_of_check {expected result : TypeSet} {p : Position} {name : String}
    {params : List String} {body : List Stmt} {env : TypeEnv} (hsize : 0 < env.size)
    (hplaced : Stmt.PlacedIn true body) (hfree : Stmt.FunctionFreeIn body)
    (h : ((Stmt.function p name params body result).check expected env).verdict = .ok ()) :
    Stmt.ClosedIn (fun n =>
      ((Stmt.function p name params body result).check expected env).env.Shows n ∨ n ∈ params)
      body := by
  have hname : Extends (some env.active) env (env.set name .any) := extends_setAt ..
  have hparams := TypeEnv.extends_bindParams params ((env.set name .any).push name)
  have hinside := hparams.size_pos (size_push_pos ..)
  have hbody := extends_pop (hname.size_pos hsize)
    (hparams.then (Stmt.extends_checkAll result body hinside))
  rw [check] at h ⊢
  refine Stmt.ClosedIn.mono (fun n hn => ?_) body (Stmt.closedIn_of_checkAll hinside hplaced hfree h)
  rw [TypeEnv.shows_bindParams params (size_push_pos ..), shows_push (hname.size_pos hsize)] at hn
  exact hn.imp hbody.shows id

end GradualScript
