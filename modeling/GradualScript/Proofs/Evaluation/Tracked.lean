import GradualScript.Proofs.Evaluation.Returns
import GradualScript.Proofs.Scopes.Matching
import GradualScript.Proofs.Typing.Closed
import GradualScript.Proofs.Typing.Described

/-!
# Checking keeps up with straight runs

Without calls, branches, loops and logical operators, a run takes the steps that checking
took, in the same order. So at every moment the values have the types that checking knew
at that point, and the run can fail by a division only. Where it fails, the types are
those of before but for the names that were assigned meanwhile.
-/
namespace GradualScript

/-- The type has a tag that the value has. -/
def TypeSet.Holds (t : TypeSet) (v : Value) : Prop := t ≠ .any ∧ t.describes v = true

/-- The expression itself is no call, and no operator that may skip an operand. -/
def Expr.Plain : Expr → Prop
  | .binary _ op _ _ => op ≠ .and ∧ op ≠ .or
  | .call _ _ _ => False
  | _ => True

mutual

/-- The statement is made of declarations of variables, output, expressions and blocks,
and its expressions are plain. -/
def Stmt.Straight : Stmt → Prop
  | .expression _ e | .print _ e | .var _ _ e => e.All Expr.Plain
  | .block _ ss => Stmt.StraightIn ss
  | _ => False

def Stmt.StraightIn : List Stmt → Prop
  | [] => True
  | s :: ss => s.Straight ∧ Stmt.StraightIn ss

end

/-- If the expression assigns to the name, then a value of the type. -/
def Expr.Retains (name : String) (t : TypeSet) : Expr → Prop
  | .assign m n _ => n = name → m.type = some t
  | _ => True

namespace TypeSet

variable {t u w : TypeSet} {v x : Value}

theorem holds_single {tag : Tag} (h : v.tag? = some tag) : (tags (.single tag)).Holds v :=
  ⟨nofun, (describes_single tag v).mpr h⟩

theorem union_ne_any (ht : t ≠ .any) (hu : u ≠ .any) : t.union u ≠ .any := by
  cases t with
  | any => exact absurd rfl ht
  | tags s _ =>
    cases u with
    | any => exact absurd rfl hu
    | tags r _ => nofun

end TypeSet

namespace Operator

variable {op : Operator} {t u w : TypeSet} {v x y : Value}

theorem holds_unary (hop : op.unaryType t = .ok u) (hv : t.Holds v)
    (happly : op.applyUnary v = .ok x) : u.Holds x := by
  refine ⟨?_, describes_unary hop happly hv.2⟩
  rcases unaryType_ok hop with ⟨-, rfl⟩ | ⟨-, -, rfl⟩
  · nofun
  · exact hv.1

theorem holds_binary (hop : op.binaryType t u = .ok w) (hv : t.Holds v) (hx : u.Holds x)
    (happly : op.applyBinary v x = .ok y) : w.Holds y := by
  refine ⟨?_, describes_binary hop happly hv.2 hx.2⟩
  rw [(binaryType_ok hop).2]
  split
  · nofun
  · exact TypeSet.union_ne_any hv.1 hx.1

/-- An operator that passed does not fault on values of its operand types, but for a
division. -/
theorem unary_no_fault (hop : op.unaryType t = .ok u) (hv : t.Holds v) (fault : RuntimeFault) :
    op.applyUnary v ≠ .error fault := by
  intro h
  have heq := applyUnary_fault h
  subst heq
  exact ((applyUnary_fault_iff hop hv.1 v op [v.kind]).mp h).2.1 hv.2

theorem binary_fault (hop : op.binaryType t u = .ok w) (hv : t.Holds v) (hx : u.Holds x)
    {fault : RuntimeFault} (h : op.applyBinary v x = .error fault) : fault = .divideByZero := by
  rcases applyBinary_fault h with heq | ⟨op', kinds, rfl⟩
  · exact heq
  · have hfault := (applyBinary_fault_iff hop hv.1 hx.1 v x op' kinds).mp h
    exact absurd ⟨hv.2, hx.2⟩ hfault.2.1

end Operator

open Scopes Checked

namespace Eval

variable {α β : Type} {top : Nat} {before mid after reached : TypeEnv}
  {retains : String → TypeSet → Prop} {good : α → Prop} {good' : β → Prop} {m : Machine}

/-- How a run ends that goes along with checking from `before` to `after`: it reached an
environment that types the values, which is `after` if it finished. Below the place
`top` no name was added, and a name that is retained has the type of before. -/
structure Follows (top : Nat) (before after reached : TypeEnv)
    (retains : String → TypeSet → Prop) (good : α → Prop)
    (result : Outcome RuntimeError α × Machine) : Prop where
  matched : Matches TypeSet.Holds reached result.2.scopes
  kept : ∀ i < top, ∀ n u, reached.bindingAt i n = some u →
    ∃ t, before.bindingAt i n = some t ∧ (retains n t → u = t)
  finished : ∀ a, result.1 = .finished a → reached = after ∧ good a
  failed : ∀ e, result.1 = .failed e → e.cause = .divideByZero

def Tracks (top : Nat) (before after : TypeEnv) (retains : String → TypeSet → Prop)
    (good : α → Prop) (result : Outcome RuntimeError α × Machine) : Prop :=
  ∃ reached, Follows top before after reached retains good result

/-- What follows a failed part fails with it. -/
theorem Follows.failed_on {e : RuntimeError} {last : Machine}
    (h : Follows top before mid reached retains good (.failed e, last)) :
    Tracks top before after retains good' (.failed e, last) := by
  refine ⟨reached, h.matched, h.kept, nofun, ?_⟩
  rintro _ ⟨rfl⟩
  exact h.failed e rfl

theorem Tracks.weaken {wider : String → TypeSet → Prop} {result : Outcome RuntimeError α × Machine}
    (h : Tracks top before after wider good result) (hretains : ∀ n t, retains n t → wider n t) :
    Tracks top before after retains good result := by
  obtain ⟨reached, h⟩ := h
  refine ⟨reached, h.matched, fun i hi n u hu => ?_, h.finished, h.failed⟩
  obtain ⟨t, ht, hkept⟩ := h.kept i hi n u hu
  exact ⟨t, ht, fun hr => hkept (hretains n t hr)⟩

theorem Tracks.bind {run : Eval α} {f : α → Eval β}
    (h : Tracks top before mid retains good (run m))
    (hf : ∀ a last, good a → Matches TypeSet.Holds mid last.scopes →
      Tracks top mid after retains good' (f a last)) :
    Tracks top before after retains good' ((run >>= f) m) := by
  obtain ⟨reached, h⟩ := h
  rcases bind_outcome run f m with
    ⟨a, last, hrun, hbind⟩ | ⟨e, last, hrun, hbind⟩ | ⟨last, hrun, hbind⟩
  · rw [hrun] at h
    obtain ⟨rfl, ha⟩ := h.finished a rfl
    obtain ⟨reached', h'⟩ := hf a last ha h.matched
    rw [hbind]
    refine ⟨reached', h'.matched, fun i hi n u hu => ?_, h'.finished, h'.failed⟩
    obtain ⟨t', ht', hkept'⟩ := h'.kept i hi n u hu
    obtain ⟨t, ht, hkept⟩ := h.kept i hi n t' ht'
    -- A name that is retained had its old type in the middle, so the second part keeps that.
    refine ⟨t, ht, fun hr => ?_⟩
    have heq := hkept hr
    subst heq
    exact hkept' hr
  · rw [hrun] at h
    rw [hbind]
    exact h.failed_on
  · rw [hrun] at h
    rw [hbind]
    exact ⟨reached, h.matched, h.kept, nofun, nofun⟩

/-- Nothing has changed. -/
theorem tracks_same {outcome : Outcome RuntimeError α}
    (hm : Matches TypeSet.Holds before m.scopes)
    (hfinished : ∀ a, outcome = .finished a → before = after ∧ good a)
    (hfailed : ∀ e, outcome = .failed e → e.cause = .divideByZero) :
    Tracks top before after retains good (outcome, m) :=
  ⟨before, hm, fun _ _ _ u hu => ⟨u, hu, fun _ => rfl⟩, hfinished, hfailed⟩

theorem tracks_pure {a : α} (hm : Matches TypeSet.Holds before m.scopes) (ha : good a) :
    Tracks top before before retains good ((pure a : Eval α) m) := by
  refine tracks_same hm ?_ nofun
  rintro _ ⟨rfl⟩
  exact ⟨rfl, ha⟩

theorem tracks_unfinished (hm : Matches TypeSet.Holds before m.scopes) :
    Tracks top before after retains good ((Eval.unfinished : Eval α) m) :=
  tracks_same hm nofun nofun

theorem tracks_ofExcept {result : Except RuntimeFault α} (position : Position)
    (hm : Matches TypeSet.Holds before m.scopes) (hgood : ∀ a, result = .ok a → good a)
    (hfault : ∀ fault, result = .error fault → fault = .divideByZero) :
    Tracks top before before retains good (Eval.ofExcept position result m) := by
  cases result with
  | ok a => exact tracks_pure hm (hgood a rfl)
  | error fault =>
    refine tracks_same hm nofun ?_
    rintro _ ⟨rfl⟩
    exact hfault fault rfl

theorem tracks_lookup {name : String} {t : TypeSet} (position : Position)
    (hm : Matches TypeSet.Holds before m.scopes) (hget : before.get name = some t) :
    Tracks top before before retains t.Holds (Eval.lookup name position m) := by
  have hrel := hm.get name
  rw [hget] at hrel
  unfold Eval.lookup
  generalize m.scopes.get name = found at hrel
  cases hrel with
  | some hv => exact tracks_pure hm hv

/-- An assignment changes the type of one name, and keeps it if that is retained. -/
theorem tracks_assign {name : String} {value : Value} {t old : TypeSet} (position : Position)
    (hm : Matches TypeSet.Holds before m.scopes) (hvalue : t.Holds value)
    (hassign : before.assign name t = some (old, after))
    (hretains : ∀ u, retains name u → t = u) :
    Tracks top before after retains (fun _ => True) (Eval.assign name value position m) := by
  have hrel := hm.assign name hvalue
  rw [hassign] at hrel
  unfold Eval.assign
  generalize m.scopes.assign name value = found at hrel
  cases hrel with
  | some hmatched =>
    refine ⟨after, hmatched, fun i _ n u hu => ?_, fun _ _ => ⟨rfl, trivial⟩, nofun⟩
    obtain ⟨place, hold, rfl⟩ := exists_slot_of_assign hassign
    rw [bindingAt_setAt] at hu
    split at hu
    · next hslot =>
      obtain ⟨rfl, -, rfl⟩ := hslot
      cases hu
      exact ⟨old, hold, hretains old⟩
    · exact ⟨u, hu, fun _ => rfl⟩

theorem tracks_print (value : Value) (hm : Matches TypeSet.Holds before m.scopes) :
    Tracks top before before retains (fun _ => True) (Eval.print value m) :=
  ⟨before, hm, fun _ _ _ u hu => ⟨u, hu, fun _ => rfl⟩, fun _ _ => ⟨rfl, trivial⟩, nofun⟩

/-- A definition changes the active scope. -/
theorem tracks_define {value : Value} {t : TypeSet} (name : String)
    (hm : Matches TypeSet.Holds before m.scopes) (hvalue : t.Holds value)
    (htop : top ≤ before.active) :
    Tracks top before (before.set name t) retains (fun _ => True) (Eval.define name value m) := by
  refine ⟨before.set name t, hm.set name hvalue, fun i hi n u hu => ⟨u, ?_, fun _ => rfl⟩,
    fun _ _ => ⟨rfl, trivial⟩, nofun⟩
  rw [Scopes.set, bindingAt_setAt, if_neg (by omega)] at hu
  exact hu

end Eval

open Eval

section

variable {limit : Option Nat} {n top : Nat} {env : TypeEnv} {m : Machine}

/-- Operators that need both operands apply to the values of both. -/
theorem eval_binary_plain {k : Mark} {op : Operator} (hand : op ≠ .and) (hor : op ≠ .or)
    (l r : Expr) :
    (Expr.binary k op l r).eval limit (n + 1) = (do
      let v ← l.eval limit n
      let w ← r.eval limit n
      Eval.ofExcept k.position (op.applyBinary v w)) := by
  cases op with
  | and => exact absurd rfl hand
  | or => exact absurd rfl hor
  | _ => rfl

/-- A plain expression that passed is tracked to its type. -/
theorem Expr.tracks_eval (limit : Option Nat) (n : Nat) {e : Expr} {type : TypeSet}
    (he : e.All Plain) (hm : Matches TypeSet.Holds env m.scopes)
    (hok : (e.check env).verdict = .ok type) :
    Tracks top env (e.check env).env (fun name t => (e.check env).tree.All (Retains name t))
      type.Holds (e.eval limit n m) := by
  induction n generalizing e env m type with
  | zero => exact tracks_unfinished hm
  | succ n ih =>
    cases e with
    | number k v | string k v | boolean k v | nil k =>
      cases hok
      exact tracks_pure hm (TypeSet.holds_single rfl)
    | name k name =>
      have hget := settle_ok (by rwa [check] at hok)
      rw [check, env_settle]
      split at hget
      · next found hfound =>
        cases hget
        exact tracks_lookup k.position hm hfound
      · cases hget
    | grouping k inner =>
      have hinner := settle_ok (by rwa [check] at hok)
      rw [check] at hok ⊢
      rw [settle_eq hok]
      exact (ih he.2 hm hinner).weaken fun _ _ hall => hall.2
    | unary k op operand =>
      rw [check] at hok ⊢
      obtain ⟨t, hoperand, hop⟩ := bind_ok (settle_ok hok)
      rw [settle_eq hok]
      refine ((ih he.2 hm hoperand).weaken fun _ _ hall => hall.2).bind fun v last hv hlast => ?_
      exact tracks_ofExcept k.position hlast
        (fun _ => Operator.holds_unary (atPosition_ok hop) hv)
        fun fault hfault => absurd hfault (Operator.unary_no_fault (atPosition_ok hop) hv fault)
    | binary k op left right =>
      rw [check] at hok ⊢
      obtain ⟨t, hleft, hrest⟩ := bind_ok (settle_ok hok)
      obtain ⟨u, hright, hop⟩ := bind_ok hrest
      rw [settle_eq hok, next_eq hleft, eval_binary_plain he.1.1 he.1.2]
      rw [next_eq hleft] at hright
      refine ((ih he.2.1 hm hleft).weaken fun _ _ hall => hall.2.1).bind fun v mid hv hmid => ?_
      refine ((ih he.2.2 hmid hright).weaken fun _ _ hall => hall.2.2).bind
        fun w last hw hlast => ?_
      exact tracks_ofExcept k.position hlast
        (fun _ => Operator.holds_binary (atPosition_ok hop) hv hw)
        fun _ => Operator.binary_fault (atPosition_ok hop) hv hw
    | assign k name value =>
      rw [check] at hok ⊢
      obtain ⟨t, hvalue, hrest⟩ := next_ok hok
      rw [next_eq hvalue]
      cases hassign : (value.check env).env.assign name t with
      | none =>
        simp only [hassign] at hrest
        cases hrest
      | some found =>
        simp only [hassign] at hrest ⊢
        cases hrest
        refine ((ih he.2 hm hvalue).weaken fun _ _ hall => hall.2).bind fun v mid hv hmid => ?_
        have hassigned : Tracks top (value.check env).env found.2
            (fun n t => Expr.All (Retains n t)
              (.assign ⟨k.position, some type⟩ name (value.check env).tree))
            (fun _ => True) (Eval.assign name v k.position mid) :=
          tracks_assign k.position hmid hv hassign fun u hall => Option.some.inj (hall.1 rfl)
        exact hassigned.bind fun _ last _ hlast => tracks_pure hlast hv
    | call k callee args => exact absurd he.1 id

/-- A run stops in its first part if the second always finishes. -/
theorem Eval.Tracks.bind_stopped {α β : Type} {before mid after : TypeEnv}
    {retains : String → TypeSet → Prop} {good : α → Prop} {good' : β → Prop} {run : Eval α}
    {f : α → Eval β} (h : Tracks top before mid retains good (run m))
    (hf : ∀ a last, ∃ b, (f a last).1 = .finished b)
    (hstop : ∀ b, ((run >>= f) m).1 ≠ .finished b) :
    Tracks top before after retains good' ((run >>= f) m) := by
  obtain ⟨reached, h⟩ := h
  rcases bind_outcome run f m with
    ⟨a, last, hrun, hbind⟩ | ⟨e, last, hrun, hbind⟩ | ⟨last, hrun, hbind⟩
  · obtain ⟨b, hb⟩ := hf a last
    exact absurd (hbind ▸ hb) (hstop b)
  · rw [hrun] at h
    rw [hbind]
    exact h.failed_on
  · rw [hrun] at h
    rw [hbind]
    exact ⟨reached, h.matched, h.kept, nofun, nofun⟩

/-- Straight statements are tracked. Names are kept in the scopes around the active one,
and in the active one too if a single statement stops. -/
structure Tracking (limit : Option Nat) (n : Nat) : Prop where
  exec : ∀ {top s env m}, Stmt.Straight s → 0 < env.size → Matches TypeSet.Holds env m.scopes →
    (s.check .any env).verdict = .ok () →
    (top ≤ env.active ∨ ∀ c, (s.exec limit n m).1 ≠ .finished c) →
    Tracks top env (s.check .any env).env
      (fun name t => (s.check .any env).tree.All (Expr.Retains name t)) (· = .normal)
      (s.exec limit n m)
  execAll : ∀ {top ss env m}, Stmt.StraightIn ss → 0 < env.size →
    Matches TypeSet.Holds env m.scopes → (Stmt.checkAll .any ss env).verdict = .ok () →
    top ≤ env.active →
    Tracks top env (Stmt.checkAll .any ss env).env
      (fun name t => Stmt.AllIn (Expr.Retains name t) (Stmt.checkAll .any ss env).tree)
      (· = .normal) (Stmt.execAll limit n ss m)

namespace Tracking

theorem tracks_block (h : Tracking limit n) {p : Position} {body : List Stmt}
    (hbody : Stmt.StraightIn body) (hsize : 0 < env.size)
    (hm : Matches TypeSet.Holds env m.scopes)
    (hok : ((Stmt.block p body).check .any env).verdict = .ok ()) :
    Tracks top env ((Stmt.block p body).check .any env).env
      (fun name t => ((Stmt.block p body).check .any env).tree.All (Expr.Retains name t))
      (· = .normal) ((Stmt.block p body).exec limit (n + 1) m) := by
  rw [Stmt.check] at hok ⊢
  have hactive : (env.push "block").active = env.size := active_pushAt ..
  have hinside : Matches TypeSet.Holds (env.push "block") (m.opened "block").scopes :=
    hm.push "block"
  obtain ⟨reached, hrun⟩ := h.execAll hbody (size_push_pos env "block") hinside hok
    (Nat.le_of_eq hactive.symm)
  -- The environment is cut back where the machine is, whether the body finished or not.
  refine ⟨reached.truncate env.size, ?_, fun i _ name u hu => ?_, fun c hc => ?_, hrun.failed⟩
  · have hclosed := hrun.matched.truncate env.size
    rw [hm.size_eq] at hclosed ⊢
    exact hclosed
  · rw [bindingAt_truncate] at hu
    split at hu
    · next hlt =>
      obtain ⟨t, ht, hkept⟩ := hrun.kept i (by omega) name u hu
      rw [Scopes.push, bindingAt_pushAt] at ht
      exact ⟨t, ht, hkept⟩
    · cases hu
  · obtain ⟨rfl, hnormal⟩ := hrun.finished c hc
    have hextends := Stmt.extends_checkAll .any body (size_push_pos env "block")
    refine ⟨?_, hnormal⟩
    rw [pop, hextends.active_eq, hactive]

theorem tracks_exec (h : Tracking limit n) {s : Stmt} (hs : s.Straight) (hsize : 0 < env.size)
    (hm : Matches TypeSet.Holds env m.scopes) (hok : (s.check .any env).verdict = .ok ())
    (htop : top ≤ env.active ∨ ∀ c, (s.exec limit (n + 1) m).1 ≠ .finished c) :
    Tracks top env (s.check .any env).env
      (fun name t => (s.check .any env).tree.All (Expr.Retains name t)) (· = .normal)
      (s.exec limit (n + 1) m) := by
  cases s with
  | expression p e =>
    rw [Stmt.check] at hok ⊢
    obtain ⟨t, he, -⟩ := map_ok hok
    exact (Expr.tracks_eval limit n hs hm he).bind fun v last _ hlast => tracks_pure hlast rfl
  | print p e =>
    rw [Stmt.check] at hok ⊢
    obtain ⟨t, he, -⟩ := map_ok hok
    refine (Expr.tracks_eval limit n hs hm he).bind fun v mid _ hmid => ?_
    exact (tracks_print v hmid).bind fun _ last _ hlast => tracks_pure hlast rfl
  | var p name init =>
    rw [Stmt.check] at hok ⊢
    obtain ⟨t, hinit, -⟩ := next_ok hok
    rw [next_eq hinit]
    have hrun : Tracks top env (init.check env).env
        (fun name t => (init.check env).tree.All (Expr.Retains name t)) t.Holds
        (init.eval limit n m) := Expr.tracks_eval limit n hs hm hinit
    rcases htop with htop | hstop
    · have hactive := (init.extends_check env).active_eq
      refine hrun.bind fun v mid hv hmid => ?_
      refine (tracks_define name hmid hv (by omega)).bind fun _ last _ hlast => ?_
      exact tracks_pure hlast rfl
    · exact hrun.bind_stopped (fun _ _ => ⟨.normal, rfl⟩) hstop
  | block p body => exact h.tracks_block hs hsize hm hok
  | _ => cases hs

theorem tracks_execAll (h : Tracking limit n) {ss : List Stmt} (hss : Stmt.StraightIn ss)
    (hsize : 0 < env.size) (hm : Matches TypeSet.Holds env m.scopes)
    (hok : (Stmt.checkAll .any ss env).verdict = .ok ()) (htop : top ≤ env.active) :
    Tracks top env (Stmt.checkAll .any ss env).env
      (fun name t => Stmt.AllIn (Expr.Retains name t) (Stmt.checkAll .any ss env).tree)
      (· = .normal) (Stmt.execAll limit (n + 1) ss m) := by
  cases ss with
  | nil => exact tracks_pure hm rfl
  | cons s ss =>
    rw [Stmt.checkAll] at hok ⊢
    obtain ⟨⟨⟩, hfirst, hrest⟩ := next_ok hok
    have hextends := s.extends_check .any hsize
    rw [execAll_cons, next_eq hfirst]
    refine ((h.exec hss.1 hsize hm hfirst (.inl htop)).weaken fun _ _ hall => hall.1).bind ?_
    rintro c last rfl hlast
    refine (h.execAll hss.2 (hextends.size_pos hsize) hlast hrest ?_).weaken fun _ _ hall => hall.2
    rw [hextends.active_eq]
    exact htop

end Tracking

/-- With no budget nothing happens; with one more step, the parts have run before. -/
theorem tracking (limit : Option Nat) (n : Nat) : Tracking limit n := by
  induction n with
  | zero =>
    exact ⟨fun _ _ hm _ _ => tracks_unfinished hm, fun _ _ hm _ _ => tracks_unfinished hm⟩
  | succ n ih => exact ⟨ih.tracks_exec, ih.tracks_execAll⟩

end

end GradualScript
