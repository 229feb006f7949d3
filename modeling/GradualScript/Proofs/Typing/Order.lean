import Mathlib
import GradualScript.Proofs.Tree.Parts
import GradualScript.Proofs.Typing.Moved
import GradualScript.Proofs.Typing.Recorded

/-!
# The order of recorded types

Checking records types in the order of the parts of a program, and stops at the part that
its rule refuses. So the expressions with a type stand before that part, and they are all
that stand there.
-/
namespace GradualScript

/-- The rule for the part refuses the types recorded on its parts, for the given cause. -/
inductive Part.Refused : Part → TypeFault → Prop
  | name {m : Mark} {n : String} : Refused (.expression (.name m n)) (.undefinedVariable n)
  | assign {m : Mark} {n : String} {value : Expr} {t : TypeSet} : value.type = some t →
      Refused (.expression (.assign m n value)) (.undefinedVariable n)
  | unary {m : Mark} {op : Operator} {x : Expr} {t : TypeSet} {cause : TypeFault} :
      x.type = some t → op.unaryType t = .error cause → Refused (.expression (.unary m op x)) cause
  | binary {m : Mark} {op : Operator} {l r : Expr} {t u : TypeSet} {cause : TypeFault} :
      l.type = some t → r.type = some u → op.binaryType t u = .error cause →
      Refused (.expression (.binary m op l r)) cause
  | bareReturn {p : Position} {expected : TypeSet} : expected.contains .nil = false →
      Refused (.statement (.ret p none)) (.mismatch expected .nil)
  | valueReturn {p : Position} {e : Expr} {expected found : TypeSet} : e.type = some found →
      expected.contains found = false →
      Refused (.statement (.ret p (some e))) (.mismatch expected found)

/-- No expression among the parts has a type. -/
def NoneTyped (parts : List Part) : Prop := ∀ e, .expression e ∈ parts → e.type = none

/-- Every expression among the parts has a type, which is not the empty one. -/
def AllTyped (parts : List Part) : Prop :=
  ∀ e, .expression e ∈ parts → ∃ t, e.type = some t ∧ t.Inhabited

/-- The types on the parts that a check with this verdict leaves: all have one if it passed.
If it failed, then exactly those before the part that was refused, which stands where the
fault is reported. -/
inductive Recorded {α : Type} : List Part → Except TypeError α → Prop
  | passed {parts : List Part} {a : α} : AllTyped parts → Recorded parts (.ok a)
  | stopped {before after : List Part} {part : Part} {cause : TypeFault} :
      AllTyped before → NoneTyped (part :: after) → part.Refused cause →
      Recorded (before ++ part :: after) (.error ⟨cause, part.position⟩)

theorem noneTyped_append {parts rest : List Part} :
    NoneTyped (parts ++ rest) ↔ NoneTyped parts ∧ NoneTyped rest := by
  simp only [NoneTyped, List.mem_append, or_imp, forall_and]

theorem noneTyped_statement (s : Stmt) : NoneTyped [.statement s] := nofun

theorem noneTyped_singleton {e : Expr} (h : e.type = none) : NoneTyped [.expression e] := by
  intro x hx
  cases List.mem_singleton.mp hx
  exact h

theorem NoneTyped.self {e : Expr} (h : NoneTyped e.parts) : e.type = none := h e e.self_mem_parts

section

variable {α β : Type} {parts rest : List Part}

theorem AllTyped.append (h : AllTyped parts) (hrest : AllTyped rest) :
    AllTyped (parts ++ rest) :=
  fun e he => (List.mem_append.mp he).elim (h e) (hrest e)

theorem allTyped_singleton {e : Expr} {t : TypeSet} (ht : e.type = some t) :
    AllTyped [.expression e] := by
  intro x hx
  cases List.mem_singleton.mp hx
  exact ⟨t, ht, t.inhabited⟩

namespace Recorded

theorem nil (a : α) : Recorded [] (.ok a) := .passed nofun

theorem refused {part : Part} {fault : TypeError} (hpart : NoneTyped [part])
    (h : part.Refused fault.cause) (hposition : fault.position = part.position) :
    Recorded (α := α) [part] (.error fault) := by
  obtain ⟨cause, position⟩ := fault
  obtain rfl : position = part.position := hposition
  have hbefore : AllTyped [] := nofun
  exact Recorded.stopped (α := α) hbefore hpart h

/-- After parts that passed, the rest decides. -/
theorem append_ok {a : α} {verdict : Except TypeError β} (h : Recorded parts (.ok a))
    (hrest : Recorded rest verdict) : Recorded (parts ++ rest) verdict := by
  cases h with
  | passed hparts =>
    cases hrest with
    | passed hrest => exact .passed (hparts.append hrest)
    | stopped hbefore hafter hrefused =>
      rw [← List.append_assoc]
      exact .stopped (hparts.append hbefore) hafter hrefused

/-- Nothing is recorded on what follows a fault. -/
theorem append_error {fault : TypeError} (h : Recorded (α := α) parts (.error fault))
    (hrest : NoneTyped rest) : Recorded (α := β) (parts ++ rest) (.error fault) := by
  cases h with
  | stopped hbefore hafter hrefused =>
    rw [List.append_assoc]
    exact .stopped hbefore (noneTyped_append.mpr ⟨hafter, hrest⟩) hrefused

theorem passed_statement (s : Stmt) (a : α) : Recorded [.statement s] (.ok a) := .passed nofun

/-- The verdict on its parts is the one on a statement without a rule of its own. -/
theorem statement {verdict : Except TypeError α} (h : Recorded parts verdict) (s : Stmt) :
    Recorded (parts ++ [.statement s]) verdict := by
  cases verdict with
  | ok a => exact h.append_ok (passed_statement s a)
  | error fault => exact h.append_error (noneTyped_statement s)

theorem map {verdict : Except TypeError α} (h : Recorded parts verdict) (f : α → β) :
    Recorded parts (verdict.map f) := by
  cases h with
  | passed hparts => exact .passed hparts
  | stopped hbefore hafter hrefused => exact .stopped hbefore hafter hrefused

end Recorded

end

namespace Checked

variable {α β τ : Type} {env : TypeEnv}

theorem type_settle {e : Expr} {verdict : Except TypeError TypeSet} {t : TypeSet}
    (h : (settle e env verdict).verdict = .ok t) : (settle e env verdict).tree.type = some t := by
  cases verdict with
  | ok type =>
    cases h
    exact e.type_record _
  | error fault => cases h

/-- A part that is checked if those before it passed. -/
theorem recorded_next {σ : Type} {parts : List Part} {view : τ → List Part} {part : Checked σ α}
    {tree : τ} {go : TypeEnv → Checked τ β} (h : Recorded parts part.verdict)
    (htree : NoneTyped (view tree)) (hgo : ∀ env, Recorded (view (go env).tree) (go env).verdict) :
    Recorded (parts ++ view (next part.verdict tree part.env fun _ => go part.env).tree)
      (next part.verdict tree part.env fun _ => go part.env).verdict := by
  cases hpart : part.verdict with
  | ok a => exact (hpart ▸ h).append_ok (hgo part.env)
  | error fault => exact (hpart ▸ h).append_error htree

/-- An expression whose rule is applied if its parts passed. -/
theorem recorded_settle {e : Expr} {part : Except TypeError α} (rule : α → Except TypeError TypeSet)
    {verdict : Except TypeError TypeSet} (hverdict : verdict = part.bind rule)
    (h : Recorded e.inner part) (he : e.type = none)
    (hrule : ∀ a fault, part = .ok a → rule a = .error fault →
      Part.Refused (.expression e) fault.cause ∧ fault.position = e.position) :
    Recorded (settle e env verdict).tree.parts (settle e env verdict).verdict := by
  have hself := noneTyped_singleton he
  cases part with
  | error fault =>
    subst hverdict
    exact e.parts_eq ▸ h.append_error hself
  | ok a =>
    cases verdict with
    | ok t =>
      have htyped := allTyped_singleton (e.type_record t)
      rw [settle, Expr.parts_eq, Expr.inner_record]
      exact h.append_ok (.passed htyped)
    | error fault =>
      obtain ⟨hrefused, hposition⟩ := hrule a fault rfl hverdict.symm
      exact e.parts_eq ▸ h.append_ok (.refused hself hrefused hposition)

end Checked

open Checked

theorem Expr.type_check (e : Expr) {env : TypeEnv} {t : TypeSet}
    (h : (e.check env).verdict = .ok t) : (e.check env).tree.type = some t := by
  cases e with
  | assign m n value =>
    rw [check] at h ⊢
    generalize (value.check env).verdict = verdict at h ⊢
    cases verdict with
    | error fault => cases h
    | ok type =>
      simp only [next] at h ⊢
      split at h
      · next hassign =>
        exact type_settle h
      · cases h
  | _ => exact type_settle h

/-- A returned value is compared with the result type after it was checked. -/
theorem recorded_return {s : Stmt} {expected found : TypeSet}
    (h : expected.contains found = false → Part.Refused (.statement s) (.mismatch expected found)) :
    Recorded [.statement s] (returnVerdict expected found s.position) := by
  unfold returnVerdict
  split
  · exact .passed_statement s ()
  · next hcontains =>
    exact .refused (noneTyped_statement s) (h (by simpa using hcontains)) rfl

theorem Located.atPosition_error {ε α : Type} {position : Position} {verdict : Except ε α}
    {fault : Located ε} (h : Located.atPosition position verdict = .error fault) :
    verdict = .error fault.cause ∧ fault.position = position := by
  cases verdict with
  | ok a => cases h
  | error cause =>
    cases h
    exact ⟨rfl, rfl⟩

mutual

theorem Expr.recorded_check (e : Expr) (env : TypeEnv) (h : NoneTyped e.parts) :
    Recorded (e.check env).tree.parts (e.check env).verdict := by
  match e with
  | .number _ _ | .string _ _ | .boolean _ _ | .nil _ =>
    rw [check]
    exact recorded_settle (fun _ => .ok _) rfl (.nil ()) h.self fun _ _ _ h => nomatch h
  | .name m n =>
    rw [check]
    refine recorded_settle (fun _ => _) rfl (.nil ()) h.self fun _ fault _ hfault => ?_
    split at hfault
    · cases hfault
    · cases hfault
      exact ⟨.name, rfl⟩
  | .assign m n value =>
    have hv := value.recorded_check env (noneTyped_append.mp h).1
    rw [check]
    cases hvalue : (value.check env).verdict with
    | error fault =>
      rw [hvalue] at hv
      exact hv.append_error (noneTyped_singleton (h.self))
    | ok type =>
      rw [hvalue] at hv
      simp only [next]
      split
      · exact recorded_settle .ok rfl hv h.self fun _ _ _ h => nomatch h
      · refine recorded_settle (fun _ => .error _) rfl hv h.self fun t fault _ hfault => ?_
        cases hfault
        exact ⟨.assign (value.type_check hvalue), rfl⟩
  | .unary m op operand =>
    have ho := operand.recorded_check env (noneTyped_append.mp h).1
    rw [check]
    refine recorded_settle _ rfl ho h.self fun t fault ht hfault => ?_
    obtain ⟨hop, hposition⟩ := Located.atPosition_error hfault
    exact ⟨.unary (operand.type_check ht) hop, hposition⟩
  | .binary m op left right =>
    obtain ⟨hleft, hright⟩ := noneTyped_append.mp (noneTyped_append.mp h).1
    have hl := left.recorded_check env hleft
    have hr := recorded_next hl hright fun env => right.recorded_check env hright
    rw [check]
    refine recorded_settle (fun u => (left.check env).verdict.bind fun t =>
      Located.atPosition m.position (op.binaryType t u)) ?_ hr h.self fun u fault hu hfault => ?_
    · cases (left.check env).verdict with
      | ok t => rfl
      | error fault => rfl
    · obtain ⟨t, ht, hu⟩ := next_ok hu
      rw [ht] at hfault
      obtain ⟨hop, hposition⟩ := Located.atPosition_error hfault
      refine ⟨.binary (left.type_check ht) ?_ hop, hposition⟩
      rw [ht]
      exact right.type_check hu
  | .grouping m inner =>
    have hi := inner.recorded_check env (noneTyped_append.mp h).1
    rw [check]
    refine recorded_settle .ok ?_ hi h.self fun _ _ _ h => nomatch h
    cases (inner.check env).verdict with
    | ok t => rfl
    | error fault => rfl
  | .call m callee args =>
    obtain ⟨hcallee, hargs⟩ := noneTyped_append.mp (noneTyped_append.mp h).1
    have hc := callee.recorded_check env hcallee
    have ha := recorded_next hc hargs fun env => Expr.recorded_checkAll args env hargs
    rw [check]
    refine recorded_settle (fun _ => .ok .any) ?_ ha h.self fun _ _ _ h => nomatch h
    cases (next (callee.check env).verdict args (callee.check env).env fun _ =>
      Expr.checkAll args (callee.check env).env).verdict with
    | ok t => rfl
    | error fault => rfl

theorem Expr.recorded_checkAll (es : List Expr) (env : TypeEnv)
    (h : NoneTyped (Expr.partsAll es)) :
    Recorded (Expr.partsAll (Expr.checkAll es env).tree) (Expr.checkAll es env).verdict := by
  match es with
  | [] => exact .nil ()
  | e :: es =>
    obtain ⟨he, hes⟩ := noneTyped_append.mp h
    exact recorded_next (e.recorded_check env he) hes fun env => Expr.recorded_checkAll es env hes

end

theorem Expr.recorded_checkOption (e : Option Expr) (env : TypeEnv)
    (h : NoneTyped (Expr.partsOption e)) :
    Recorded (Expr.partsOption (Expr.checkOption e env).tree)
      (Expr.checkOption e env).verdict := by
  cases e with
  | none => exact .nil ()
  | some e => exact (e.recorded_check env h).map _

mutual

theorem Stmt.recorded_check (expected : TypeSet) (s : Stmt) (env : TypeEnv)
    (h : NoneTyped s.parts) :
    Recorded (s.check expected env).tree.parts (s.check expected env).verdict := by
  match s with
  | .expression _ e | .print _ e =>
    exact ((e.recorded_check env (noneTyped_append.mp h).1).map _).statement _
  | .var p n init =>
    have hinit := init.recorded_check env (noneTyped_append.mp h).1
    rw [check]
    cases hverdict : (init.check env).verdict with
    | ok type => exact (hverdict ▸ hinit).append_ok (.passed_statement _ ())
    | error fault => exact (hverdict ▸ hinit).append_error (noneTyped_statement _)
  | .block p body =>
    have hbody := Stmt.recorded_checkAll expected body (env.push "block") (noneTyped_append.mp h).1
    exact hbody.statement _
  | .ifElse p cond yes no =>
    obtain ⟨hparts, hno⟩ := noneTyped_append.mp (noneTyped_append.mp h).1
    obtain ⟨hcond, hyes⟩ := noneTyped_append.mp hparts
    have hc := cond.recorded_check env hcond
    have hy := recorded_next hc hyes fun env => yes.recorded_check expected env hyes
    have hn := recorded_next hy hno fun env => Stmt.recorded_checkOption expected no env hno
    exact hn.statement _
  | .whileLoop p cond body =>
    obtain ⟨hcond, hbody⟩ := noneTyped_append.mp (noneTyped_append.mp h).1
    have hc := cond.recorded_check env hcond
    have hb := recorded_next hc hbody fun env => body.recorded_check expected env hbody
    exact hb.statement _
  | .forLoop p init cond increment body =>
    obtain ⟨hparts, hincrement⟩ := noneTyped_append.mp (noneTyped_append.mp h).1
    obtain ⟨hparts, hbody⟩ := noneTyped_append.mp hparts
    obtain ⟨hinit, hcond⟩ := noneTyped_append.mp hparts
    have hi := Stmt.recorded_checkOption expected init (env.push "for") hinit
    have hc := recorded_next hi hcond fun env => Expr.recorded_checkOption cond env hcond
    have hb := recorded_next hc hbody fun env => body.recorded_check expected env hbody
    have hn := recorded_next hb hincrement fun env =>
      Expr.recorded_checkOption increment env hincrement
    exact hn.statement _
  | .function p n params body result =>
    rw [check]
    exact (Stmt.recorded_checkAll result body _ (noneTyped_append.mp h).1).statement _
  | .ret p none => exact recorded_return .bareReturn
  | .ret p (some e) =>
    have he := e.recorded_check env (noneTyped_append.mp h).1
    rw [check]
    cases hverdict : (e.check env).verdict with
    | error fault => exact (hverdict ▸ he).append_error (noneTyped_statement _)
    | ok found =>
      exact (hverdict ▸ he).append_ok (recorded_return (.valueReturn (e.type_check hverdict)))

theorem Stmt.recorded_checkAll (expected : TypeSet) (ss : List Stmt) (env : TypeEnv)
    (h : NoneTyped (Stmt.partsAll ss)) :
    Recorded (Stmt.partsAll (Stmt.checkAll expected ss env).tree)
      (Stmt.checkAll expected ss env).verdict := by
  match ss with
  | [] => exact .nil ()
  | s :: ss =>
    obtain ⟨hs, hss⟩ := noneTyped_append.mp h
    exact recorded_next (s.recorded_check expected env hs) hss fun env =>
      Stmt.recorded_checkAll expected ss env hss

theorem Stmt.recorded_checkOption (expected : TypeSet) (s : Option Stmt) (env : TypeEnv)
    (h : NoneTyped (Stmt.partsOption s)) :
    Recorded (Stmt.partsOption (Stmt.checkOption expected s env).tree)
      (Stmt.checkOption expected s env).verdict := by
  match s with
  | none => exact .nil ()
  | some s => exact s.recorded_check expected env h

end

/-- A program that does not pass is refused at a part of its own, and not at a `nil`. -/
theorem Program.exists_part_of_fault {p : Program} {env : TypeEnv} {fault : TypeError}
    (h : (p.check env).verdict = .error fault) :
    ∃ part ∈ Stmt.partsAll p, part.position = fault.position ∧ ∀ m, part ≠ .expression (.nil m) := by
  -- a tree that is moved nowhere has no types yet
  have hnone : NoneTyped (Stmt.partsAll (Stmt.movedAll id p)) := by
    rw [Stmt.partsAll_moved]
    intro e he
    obtain ⟨part, -, hpart⟩ := List.mem_map.mp he
    cases part with
    | expression x =>
      cases hpart
      exact x.type_moved id
    | statement s => cases hpart
  have hrecorded := Stmt.recorded_checkAll .any (Stmt.movedAll id p) env hnone
  rw [← Program.check] at hrecorded
  have hverdict : (Program.check (Stmt.movedAll id p) env).verdict = .error fault := by
    rw [(p.check_moved env).verdict_eq, h]
    rfl
  have hparts := Stmt.partsAll_moved id (Program.check (Stmt.movedAll id p) env).tree
  rw [Program.moved_check, Stmt.partsAll_moved, Stmt.partsAll_moved] at hparts
  generalize Stmt.partsAll (Program.check (Stmt.movedAll id p) env).tree = parts at hrecorded hparts
  rw [hverdict] at hrecorded
  cases hrecorded with
  | @stopped before after part cause _ _ hrefused =>
    have hmem : part.moved id ∈ (before ++ part :: after).map (Part.moved id) :=
      List.mem_map_of_mem (List.mem_append_right before List.mem_cons_self)
    rw [← hparts, List.map_map] at hmem
    obtain ⟨original, horiginal, hmoved⟩ := List.mem_map.mp hmem
    refine ⟨original, horiginal, ?_, ?_⟩
    · have hposition := congrArg Part.position hmoved
      simpa only [Function.comp_apply, Part.position_moved, id] using hposition
    · rintro m rfl
      cases hrefused with
      | _ => cases hmoved

/-- Recorded types are a prefix of the order of checking. The parts of the checked tree are
those of the program. All its expressions have a type if the program passed. If it failed,
exactly those before the part whose rule refused it have one: an expression, or a `return`
whose value was checked before. No recorded type is empty. -/
theorem Program.records_prefix (p : Program) (env : TypeEnv) (h : NoneTyped (Stmt.partsAll p)) :
    (Stmt.partsAll (p.check env).tree).map (Part.moved id) =
        (Stmt.partsAll p).map (Part.moved id) ∧
      Recorded (Stmt.partsAll (p.check env).tree) (p.check env).verdict := by
  refine ⟨?_, Stmt.recorded_checkAll .any p env h⟩
  rw [← Stmt.partsAll_moved, ← Stmt.partsAll_moved, p.moved_check]

/-- A function that returns a truth value for text, and a name after that. -/
def mismatchedReturn : Program :=
  [.function ⟨1, 1⟩ "f" ["x"]
    [.print ⟨1, 9⟩ (.name (.unchecked ⟨1, 15⟩) "x"),
      .ret ⟨1, 18⟩ (some (.boolean (.unchecked ⟨1, 25⟩) true)),
      .expression ⟨1, 31⟩ (.name (.unchecked ⟨1, 31⟩) "y")] .string]

/-- The parameter and the returned value have a type. -/
theorem records_prefix_mismatchedReturn :
    NoneTyped (Stmt.partsAll mismatchedReturn) ∧
      (mismatchedReturn.check .fresh).verdict = .error ⟨.mismatch .string .boolean, ⟨1, 18⟩⟩ ∧
      (Stmt.partsAll (mismatchedReturn.check .fresh).tree).map (Part.moved id) =
        (Stmt.partsAll mismatchedReturn).map (Part.moved id) ∧
      Recorded (Stmt.partsAll (mismatchedReturn.check .fresh).tree)
        (mismatchedReturn.check .fresh).verdict := by
  have hnone : NoneTyped (Stmt.partsAll mismatchedReturn) := by
    intro e he
    simp only [mismatchedReturn, Stmt.partsAll, Stmt.parts, Expr.partsOption, Expr.parts,
      List.append_nil, List.cons_append, List.nil_append, List.mem_cons, reduceCtorEq, false_or,
      List.not_mem_nil, or_false, Part.expression.injEq] at he
    rcases he with rfl | rfl | rfl
    · rfl
    · rfl
    · rfl
  exact ⟨hnone, by cbv, Program.records_prefix mismatchedReturn .fresh hnone⟩

end GradualScript
