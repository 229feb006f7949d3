import GradualScript.Proofs.Scopes.Surroundings
import GradualScript.Proofs.Typing.Closed

/-!
# Programs whose variables keep their types

Where every assignment gives its variable the type that it has already, checking an
expression leaves its environment as it was, and checking a statement adds at most the
variable that it declares. The recorded tree then fits the types of the names around it,
in whatever order and however often its parts are run.
-/
namespace GradualScript

open Scopes Checked

mutual

/-- Wherever checking meets an assignment, the assigned type is the one that the variable
has just before. -/
def Expr.KeepsTypes (env : TypeEnv) : Expr → Prop
  | .number _ _ | .string _ _ | .boolean _ _ | .nil _ | .name _ _ => True
  | .unary _ _ e | .grouping _ e => e.KeepsTypes env
  | .binary _ _ l r => l.KeepsTypes env ∧ r.KeepsTypes (l.check env).env
  | .assign _ n value => value.KeepsTypes env ∧
      ∀ t, (value.check env).verdict = .ok t → (value.check env).env.get n = some t
  | .call _ f es => f.KeepsTypes env ∧ Expr.KeepsTypesIn (f.check env).env es

def Expr.KeepsTypesIn (env : TypeEnv) : List Expr → Prop
  | [] => True
  | e :: es => e.KeepsTypes env ∧ Expr.KeepsTypesIn (e.check env).env es

end

def Expr.KeepsTypesOption (env : TypeEnv) : Option Expr → Prop
  | none => True
  | some e => e.KeepsTypes env

mutual

/-- All assignments in the statement keep the types of their variables. -/
def Stmt.KeepsTypes (expected : TypeSet) (env : TypeEnv) : Stmt → Prop
  | .expression _ e | .print _ e | .var _ _ e => e.KeepsTypes env
  | .block _ ss => Stmt.KeepsTypesIn expected (env.push "block") ss
  | .ifElse _ c yes no =>
      let tested := (c.check env).env
      c.KeepsTypes env ∧ yes.KeepsTypes expected tested ∧
        Stmt.KeepsTypesOption expected (yes.check expected tested).env no
  | .whileLoop _ c body => c.KeepsTypes env ∧ body.KeepsTypes expected (c.check env).env
  | .forLoop _ init c increment body =>
      let begun := (Stmt.checkOption expected init (env.push "for")).env
      let tested := (Expr.checkOption c begun).env
      Stmt.KeepsTypesOption expected (env.push "for") init ∧ Expr.KeepsTypesOption begun c ∧
        body.KeepsTypes expected tested ∧
        Expr.KeepsTypesOption (body.check expected tested).env increment
  | .function _ n params body result =>
      Stmt.KeepsTypesIn result
        (params.foldl (fun env param => env.set param .any) ((env.set n .any).push n)) body
  | .ret _ e => Expr.KeepsTypesOption env e

def Stmt.KeepsTypesIn (expected : TypeSet) (env : TypeEnv) : List Stmt → Prop
  | [] => True
  | s :: ss =>
      s.KeepsTypes expected env ∧ Stmt.KeepsTypesIn expected (s.check expected env).env ss

def Stmt.KeepsTypesOption (expected : TypeSet) (env : TypeEnv) : Option Stmt → Prop
  | none => True
  | some s => s.KeepsTypes expected env

end

/-- The type recorded on a read or an assignment is the one that the name has. -/
def Expr.Agrees (types : String → Option TypeSet) : Expr → Prop
  | .name m n | .assign m n _ => types n = m.type
  | _ => True

/-- The type recorded on the expression fits those of its operands and of its name. -/
def Expr.Fits (types : String → Option TypeSet) (e : Expr) : Prop :=
  e.Consistent ∧ e.Agrees types

/-- The variable that a checked statement declares, with its type. -/
def Stmt.binds : Stmt → Option (String × TypeSet)
  | .var _ n init => init.type.map (n, ·)
  | _ => none

/-- The types of the names after a declaration, if there is one. -/
def retyped (types : String → Option TypeSet) : Option (String × TypeSet) → String → Option TypeSet
  | some (n, t), key => if n = key then some t else types key
  | none, key => types key

mutual

/-- All expressions of the checked statement fit the types of the names around them. The
branches and the bodies of loops declare nothing, and there are no functions. -/
def Stmt.Fits (types : String → Option TypeSet) : Stmt → Prop
  | .expression _ e | .print _ e | .var _ _ e => e.All (Expr.Fits types)
  | .block _ ss => Stmt.FitsIn types ss
  | .ifElse _ c yes no =>
      c.All (Expr.Fits types) ∧ (yes.Fits types ∧ yes.binds = none) ∧
        Stmt.FitsOption types no ∧ no.bind Stmt.binds = none
  | .whileLoop _ c body => c.All (Expr.Fits types) ∧ body.Fits types ∧ body.binds = none
  | .forLoop _ init c increment body =>
      let inside := retyped types (init.bind Stmt.binds)
      Stmt.FitsOption types init ∧ Expr.AllOption (Expr.Fits inside) c ∧
        Expr.AllOption (Expr.Fits inside) increment ∧ body.Fits inside ∧ body.binds = none
  | .function _ _ _ _ _ | .ret _ _ => False

def Stmt.FitsIn (types : String → Option TypeSet) : List Stmt → Prop
  | [] => True
  | s :: ss => s.Fits types ∧ Stmt.FitsIn (retyped types s.binds) ss

def Stmt.FitsOption (types : String → Option TypeSet) : Option Stmt → Prop
  | none => True
  | some s => s.Fits types

end

/-- The environment after a declaration, if there is one. -/
def TypeEnv.bind (env : TypeEnv) : Option (String × TypeSet) → TypeEnv
  | some (n, t) => env.set n t
  | none => env

theorem TypeEnv.get_bind {env : TypeEnv} (hsize : 0 < env.size)
    (declared : Option (String × TypeSet)) :
    (env.bind declared).get = retyped env.get declared := by
  funext key
  cases declared with
  | none => rfl
  | some entry => exact get_set hsize entry.1 entry.2 key

theorem TypeEnv.surrounds_bind (env : TypeEnv) (declared : Option (String × TypeSet)) :
    Surrounds env (env.bind declared) := by
  cases declared with
  | none => exact .refl env
  | some entry => exact .set env entry.1 entry.2

mutual

theorem Expr.All.and {P Q : Expr → Prop} :
    ∀ e : Expr, e.All P → e.All Q → e.All fun e => P e ∧ Q e
  | .number _ _, h, h' | .string _ _, h, h' | .boolean _ _, h, h' | .nil _, h, h'
  | .name _ _, h, h' => ⟨h, h'⟩
  | .unary _ _ e, h, h' | .grouping _ e, h, h' | .assign _ _ e, h, h' =>
      ⟨⟨h.1, h'.1⟩, Expr.All.and e h.2 h'.2⟩
  | .binary _ _ l r, h, h' =>
      ⟨⟨h.1, h'.1⟩, Expr.All.and l h.2.1 h'.2.1, Expr.All.and r h.2.2 h'.2.2⟩
  | .call _ f es, h, h' =>
      ⟨⟨h.1, h'.1⟩, Expr.All.and f h.2.1 h'.2.1, Expr.AllIn.and es h.2.2 h'.2.2⟩

theorem Expr.AllIn.and {P Q : Expr → Prop} :
    ∀ es : List Expr, Expr.AllIn P es → Expr.AllIn Q es → Expr.AllIn (fun e => P e ∧ Q e) es
  | [], _, _ => trivial
  | e :: es, h, h' => ⟨Expr.All.and e h.1 h'.1, Expr.AllIn.and es h.2 h'.2⟩

end

section

variable {env : TypeEnv}

mutual

/-- An expression that keeps types leaves the environment as it was. -/
theorem Expr.agrees_check {e : Expr} {type : TypeSet} (hkeeps : e.KeepsTypes env)
    (h : (e.check env).verdict = .ok type) :
    (e.check env).env = env ∧ (e.check env).tree.All (Agrees env.get) := by
  match e with
  | .number _ _ | .string _ _ | .boolean _ _ | .nil _ => exact ⟨rfl, trivial⟩
  | .name m n =>
    rw [check] at h ⊢
    rw [settle_eq h]
    refine ⟨rfl, ?_⟩
    have hget := settle_ok h
    split at hget
    · next found hfound =>
      cases hget
      exact hfound
    · cases hget
  | .unary m op operand =>
    rw [check] at h ⊢
    rw [settle_eq h]
    obtain ⟨t, hoperand, -⟩ := bind_ok (settle_ok h)
    obtain ⟨henv, hall⟩ := Expr.agrees_check (e := operand) hkeeps hoperand
    exact ⟨henv, trivial, hall⟩
  | .grouping m inner =>
    rw [check] at h ⊢
    rw [settle_eq h]
    obtain ⟨henv, hall⟩ := Expr.agrees_check (e := inner) hkeeps (settle_ok h)
    exact ⟨henv, trivial, hall⟩
  | .binary m op left right =>
    rw [check] at h ⊢
    rw [settle_eq h]
    obtain ⟨t, hleft, hrest⟩ := bind_ok (settle_ok h)
    obtain ⟨u, hright, -⟩ := bind_ok hrest
    obtain ⟨henv, hall⟩ := Expr.agrees_check hkeeps.1 hleft
    have hkeeps' := hkeeps.2
    rw [next_eq hleft, henv] at hright ⊢
    rw [henv] at hkeeps'
    obtain ⟨henv', hall'⟩ := Expr.agrees_check hkeeps' hright
    exact ⟨henv', trivial, hall, hall'⟩
  | .assign m n value =>
    rw [check] at h ⊢
    obtain ⟨t, hvalue, hrest⟩ := next_ok h
    obtain ⟨henv, hall⟩ := Expr.agrees_check hkeeps.1 hvalue
    have hget := hkeeps.2 t hvalue
    rw [next_eq hvalue, henv]
    rw [henv] at hget
    -- The variable gets the type that it has, so nothing changes.
    simp only [assign_same hget]
    exact ⟨env_settle .., hget, hall⟩
  | .call m callee args =>
    rw [check] at h ⊢
    rw [settle_eq h]
    obtain ⟨⟨⟩, hargs, -⟩ := map_ok (settle_ok h)
    obtain ⟨t, hcallee, hargs⟩ := next_ok hargs
    obtain ⟨henv, hall⟩ := Expr.agrees_check hkeeps.1 hcallee
    have hkeeps' := hkeeps.2
    rw [henv] at hargs hkeeps'
    rw [next_eq hcallee, henv]
    obtain ⟨henv', hall'⟩ := Expr.agrees_checkAll hkeeps' hargs
    exact ⟨henv', trivial, hall, hall'⟩

theorem Expr.agrees_checkAll {es : List Expr} (hkeeps : Expr.KeepsTypesIn env es)
    (h : (Expr.checkAll es env).verdict = .ok ()) :
    (Expr.checkAll es env).env = env ∧ Expr.AllIn (Agrees env.get) (Expr.checkAll es env).tree := by
  match es with
  | [] => exact ⟨rfl, trivial⟩
  | e :: es =>
    rw [checkAll] at h ⊢
    obtain ⟨t, he, hes⟩ := next_ok h
    obtain ⟨henv, hall⟩ := Expr.agrees_check hkeeps.1 he
    have hkeeps' := hkeeps.2
    rw [henv] at hes hkeeps'
    rw [next_eq he, henv]
    obtain ⟨henv', hall'⟩ := Expr.agrees_checkAll hkeeps' hes
    exact ⟨henv', hall, hall'⟩

end

theorem Expr.fits_check {e : Expr} {type : TypeSet} (hkeeps : e.KeepsTypes env)
    (h : (e.check env).verdict = .ok type) :
    (e.check env).env = env ∧ (e.check env).tree.All (Fits env.get) := by
  obtain ⟨hsame, hagrees⟩ := Expr.agrees_check hkeeps h
  exact ⟨hsame, Expr.All.and _ (e.passes_check env type h).2 hagrees⟩

theorem Expr.fits_checkOption {e : Option Expr} (hkeeps : Expr.KeepsTypesOption env e)
    (h : (Expr.checkOption e env).verdict = .ok ()) :
    (Expr.checkOption e env).env = env ∧
      Expr.AllOption (Fits env.get) (Expr.checkOption e env).tree := by
  cases e with
  | none => exact ⟨rfl, trivial⟩
  | some e =>
    obtain ⟨t, he, -⟩ := map_ok h
    exact Expr.fits_check hkeeps he

/-- What declares nothing binds nothing once it is checked. -/
theorem Stmt.binds_check (expected : TypeSet) (env : TypeEnv) {s : Stmt} (h : s.declared = none) :
    (s.check expected env).tree.binds = none := by
  cases s with
  | var | function => cases h
  | ret p e => cases e <;> (rw [check]; rfl)
  | _ => rw [check]; rfl

theorem Stmt.binds_checkOption (expected : TypeSet) (env : TypeEnv) {s : Option Stmt}
    (h : ∀ t, s = some t → t.declared = none) :
    (Stmt.checkOption expected s env).tree.bind binds = none := by
  cases s with
  | none => rfl
  | some s => exact Stmt.binds_check expected env (h s rfl)

/-- The state in which checking leaves the environment: it differs from the one of before
by the declared variable. -/
def TypeEnv.Declares (before after : TypeEnv) (declared : Option (String × TypeSet)) : Prop :=
  Matches Eq after (before.bind declared)

theorem TypeEnv.Declares.get_eq {after : TypeEnv} {declared : Option (String × TypeSet)}
    (h : env.Declares after declared) (hsize : 0 < env.size) :
    after.get = retyped env.get declared := by
  rw [← TypeEnv.get_bind hsize]
  funext key
  exact Matches.get_eq h key

theorem TypeEnv.Declares.surrounds {after : TypeEnv} {declared : Option (String × TypeSet)}
    (h : env.Declares after declared) : Surrounds env after :=
  (env.surrounds_bind declared).trans (Matches.surrounds h)

mutual

/-- A statement that keeps types and passes fits the types around it, and changes the
environment by its own declaration only. -/
theorem Stmt.fits_check {expected : TypeSet} {s : Stmt} {env : TypeEnv} (hsize : 0 < env.size)
    (hs : s.Placed false) (hfree : s.FunctionFree)
    (hkeeps : s.KeepsTypes expected env) (h : (s.check expected env).verdict = .ok ()) :
    (s.check expected env).tree.Fits env.get ∧
      env.Declares (s.check expected env).env (s.check expected env).tree.binds := by
  match s with
  | .expression _ e | .print _ e =>
    rw [check] at h ⊢
    obtain ⟨t, he, -⟩ := map_ok h
    obtain ⟨hsame, hfits⟩ := Expr.fits_check hkeeps he
    exact ⟨hfits, by rw [hsame]; exact .refl env⟩
  | .var p n init =>
    rw [check] at h ⊢
    obtain ⟨t, hinit, -⟩ := next_ok h
    obtain ⟨hsame, hfits⟩ := Expr.fits_check (e := init) hkeeps hinit
    have htype := (init.passes_check env t hinit).1
    rw [next_eq hinit, hsame]
    refine ⟨hfits, ?_⟩
    rw [binds, htype]
    exact .refl _
  | .block p body =>
    rw [check] at h ⊢
    obtain ⟨hfits, haround⟩ := Stmt.fits_checkAll (size_push_pos env "block") hs hfree hkeeps h
    have hget : (env.push "block").get = env.get := funext (get_push hsize "block")
    rw [hget] at hfits
    exact ⟨hfits, haround.pop hsize⟩
  | .ifElse p cond yes no =>
    rw [check] at h ⊢
    obtain ⟨⟨⟩, hyes, hno⟩ := next_ok h
    obtain ⟨t, hcond, hyes⟩ := next_ok hyes
    obtain ⟨hkcond, hkyes, hkno⟩ := hkeeps
    obtain ⟨hsame, hfits⟩ := Expr.fits_check hkcond hcond
    simp only [next_eq hcond, hsame] at hyes hno hkyes hkno ⊢
    obtain ⟨hfyes, hdyes⟩ := Stmt.fits_check hsize hs.2.1 hfree.1 hkyes hyes
    have hnone := Stmt.binds_check expected env hs.1
    rw [hnone] at hdyes
    rw [next_eq hyes]
    obtain ⟨hfno, hdno⟩ := Stmt.fits_checkOption (hdyes.surrounds.size_eq ▸ hsize)
      hs.2.2.1 hfree.2 hkno hno
    have hnone' := Stmt.binds_checkOption expected (yes.check expected env).env hs.2.2.2
    rw [hdyes.get_eq hsize] at hfno
    rw [hnone'] at hdno
    exact ⟨⟨hfits, ⟨hfyes, hnone⟩, hfno, hnone'⟩, Matches.trans hdno hdyes⟩
  | .whileLoop p cond body =>
    rw [check] at h ⊢
    obtain ⟨t, hcond, hbody⟩ := next_ok h
    obtain ⟨hkcond, hkbody⟩ := hkeeps
    obtain ⟨hsame, hfits⟩ := Expr.fits_check hkcond hcond
    simp only [next_eq hcond, hsame] at hbody hkbody ⊢
    obtain ⟨hfbody, hdbody⟩ := Stmt.fits_check hsize hs.2 hfree hkbody hbody
    have hnone := Stmt.binds_check expected env hs.1
    rw [hnone] at hdbody
    exact ⟨⟨hfits, hfbody, hnone⟩, hdbody⟩
  | .forLoop p init cond increment body =>
    rw [check] at h ⊢
    obtain ⟨⟨⟩, hbody, hincrement⟩ := next_ok h
    obtain ⟨⟨⟩, hcond, hbody⟩ := next_ok hbody
    obtain ⟨⟨⟩, hinit, hcond⟩ := next_ok hcond
    obtain ⟨hkinit, hkcond, hkbody, hkincrement⟩ := hkeeps
    have hpushed := size_push_pos env "for"
    obtain ⟨hfinit, hdinit⟩ := Stmt.fits_checkOption hpushed hs.1 hfree.1 hkinit hinit
    have hget : (env.push "for").get = env.get := funext (get_push hsize "for")
    have hinside := hdinit.get_eq hpushed
    rw [hget] at hfinit hinside
    have hsize' : 0 < (Stmt.checkOption expected init (env.push "for")).env.size :=
      hdinit.surrounds.size_eq ▸ hpushed
    have haround := hdinit.surrounds
    simp only [next_eq hinit] at hcond hbody hincrement ⊢
    generalize (Stmt.checkOption expected init (env.push "for")) = begun at *
    obtain ⟨hsame, hfcond⟩ := Expr.fits_checkOption hkcond hcond
    simp only [next_eq hcond, hsame] at hbody hincrement hkbody hkincrement ⊢
    obtain ⟨hfbody, hdbody⟩ := Stmt.fits_check hsize' hs.2.2 hfree.2 hkbody hbody
    have hnone := Stmt.binds_check expected begun.env hs.2.1
    rw [hnone] at hdbody
    rw [next_eq hbody]
    obtain ⟨hsame', hfincrement⟩ := Expr.fits_checkOption hkincrement hincrement
    rw [hdbody.get_eq hsize'] at hfincrement
    rw [hsame']
    rw [hinside] at hfcond hfincrement hfbody
    exact ⟨⟨hfinit, hfcond, hfincrement, hfbody, hnone⟩, (haround.trans hdbody.surrounds).pop hsize⟩
  | .function _ _ _ _ _ => exact hfree.elim
  | .ret _ _ => cases hs

theorem Stmt.fits_checkAll {expected : TypeSet} {ss : List Stmt} {env : TypeEnv}
    (hsize : 0 < env.size) (hss : Stmt.PlacedIn false ss)
    (hfree : Stmt.FunctionFreeIn ss) (hkeeps : Stmt.KeepsTypesIn expected env ss)
    (h : (Stmt.checkAll expected ss env).verdict = .ok ()) :
    Stmt.FitsIn env.get (Stmt.checkAll expected ss env).tree ∧
      Surrounds env (Stmt.checkAll expected ss env).env := by
  match ss with
  | [] => exact ⟨trivial, .refl env⟩
  | s :: ss =>
    rw [checkAll] at h ⊢
    obtain ⟨⟨⟩, hs, hrest⟩ := next_ok h
    obtain ⟨hfits, hdeclares⟩ := Stmt.fits_check hsize hss.1 hfree.1 hkeeps.1 hs
    obtain ⟨hfits', haround⟩ := Stmt.fits_checkAll (hdeclares.surrounds.size_eq ▸ hsize)
      hss.2 hfree.2 hkeeps.2 hrest
    rw [hdeclares.get_eq hsize] at hfits'
    rw [next_eq hs]
    exact ⟨⟨hfits, hfits'⟩, hdeclares.surrounds.trans haround⟩

theorem Stmt.fits_checkOption {expected : TypeSet} {s : Option Stmt} {env : TypeEnv}
    (hsize : 0 < env.size) (hs : Stmt.PlacedOption false s)
    (hfree : Stmt.FunctionFreeOption s) (hkeeps : Stmt.KeepsTypesOption expected env s)
    (h : (Stmt.checkOption expected s env).verdict = .ok ()) :
    Stmt.FitsOption env.get (Stmt.checkOption expected s env).tree ∧
      env.Declares (Stmt.checkOption expected s env).env
        ((Stmt.checkOption expected s env).tree.bind binds) := by
  match s with
  | none => exact ⟨trivial, .refl env⟩
  | some s => exact Stmt.fits_check hsize hs hfree hkeeps h

end

end

end GradualScript
