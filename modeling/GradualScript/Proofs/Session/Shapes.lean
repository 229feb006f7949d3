import GradualScript.Proofs.Session.Batch
import GradualScript.Proofs.Typing.Gradual

/-!
# Shape determines meaning

Programs of one shape are moved from one tree whose nodes have positions of their own.
Checking and running do with a moved tree what they do with the tree, so neither can tell
such programs apart: they pass with the same types or fail at nodes that correspond, and
they run in lockstep.
-/
namespace GradualScript

/-- Both finished, both failed for the same cause, or both ran out of steps. -/
inductive Outcome.SameKind {ε α β : Type} : Outcome (Located ε) α → Outcome (Located ε) β → Prop
  | finished (a : α) (b : β) : SameKind (.finished a) (.finished b)
  | failed {e e' : Located ε} : e.cause = e'.cause → SameKind (.failed e) (.failed e')
  | unfinished : SameKind .unfinished .unfinished

theorem Outcome.sameKind_of_moved {ε α β γ : Type} {g : Position → Position} {view : α → γ}
    {sight : β → γ} {a : Outcome (Located ε) α} {b : Outcome (Located ε) β}
    (h : a.moved g view = b.moved g sight) : a.SameKind b := by
  cases a with
  | finished =>
    cases b with
    | finished => exact .finished ..
    | _ => cases h
  | failed e =>
    cases b with
    | failed e' =>
      rw [moved, moved, failed.injEq] at h
      exact .failed (congrArg (fun e => e.cause) h)
    | _ => cases h
  | unfinished =>
    cases b with
    | unfinished => exact .unfinished
    | _ => cases h

namespace Program

variable {g : Position → Position} {p q r : Program} {env : TypeEnv}

/-- Checking a tree does what checking one does that it is moved from. -/
theorem check_of_moved (h : Stmt.movedAll g r = Stmt.movedAll id q) (env : TypeEnv) :
    (q.check env).env = (r.check env).env ∧
      (q.check env).verdict = (r.check env).verdict.mapError (Located.moved g) := by
  have hr := r.check_moved (g := g) env
  have hq := q.check_moved (g := id) env
  rw [h] at hr
  refine ⟨hq.env_eq.symm.trans hr.env_eq, Eq.trans ?_ (hq.verdict_eq.symm.trans hr.verdict_eq)⟩
  cases (q.check env).verdict with
  | ok => rfl
  | error e => rfl

/-- A moved program records the types that the program records. -/
theorem types_check_moved (h : (p.check env).verdict = .ok ()) :
    (Stmt.nodesAll (p.check env).tree).map Node.type =
      (Stmt.nodesAll (Program.check (Stmt.movedAll g p) env).tree).map Node.type := by
  obtain ⟨-, hrelated⟩ := Stmt.related_checkAll (g := g) TypeSet.respected_eq .any p
    (Scopes.Matches.refl env) h
  rw [← List.forall₂_eq_eq_eq, List.forall₂_map_left_iff, List.forall₂_map_right_iff]
  exact hrelated.nodes.imp fun _ _ => Node.type_eq_of_related

/-- A numbered program fails at one of its nodes. -/
theorem exists_node_of_fault {fault : TypeError}
    (h : (Program.check (Stmt.numberedAll 0 p) env).verdict = .error fault) :
    ∃ k < (Stmt.nodesAll p).length, fault.position = .numbered k := by
  by_contra hnone
  -- Then the position of the fault can be sent to two places while no node moves.
  obtain ⟨g, hg⟩ := exists_places (Stmt.nodesAll p)
  let elsewhere : Position := ⟨(g fault.position).line + 1, 0⟩
  let g' : Position → Position := fun x => if x = fault.position then elsewhere else g x
  have hg' : Places g' 0 (Stmt.nodesAll p) := by
    intro k node hk
    have hne : Position.numbered (0 + k) ≠ fault.position := fun heq =>
      hnone ⟨k, (List.getElem?_eq_some_iff.mp hk).1, by rw [← heq, Nat.zero_add]⟩
    exact (if_neg hne).trans (hg k node hk)
  have hverdict := (check_of_moved (Stmt.movedAll_numbered p hg) env).2
  have hverdict' := (check_of_moved (Stmt.movedAll_numbered p hg') env).2
  rw [hverdict', h] at hverdict
  have hposition : elsewhere = g fault.position :=
    (if_pos rfl).symm.trans (congrArg Located.position (Except.error.inj hverdict))
  exact Nat.succ_ne_self _ (congrArg Position.line hposition)

theorem passes_of_moved (hmoved : Stmt.movedAll g r = Stmt.movedAll id q)
    (h : (r.check env).verdict = .ok ()) :
    (q.check env).verdict = .ok () ∧
      (Stmt.nodesAll (q.check env).tree).map Node.type =
        (Stmt.nodesAll (r.check env).tree).map Node.type := by
  have hq : (q.check env).verdict = .ok () := by
    rw [(check_of_moved hmoved env).2, mapError_eq_ok]
    exact h
  refine ⟨hq, ?_⟩
  rw [types_check_moved (g := id) hq, types_check_moved (g := g) h, hmoved]

theorem fails_of_moved (hg : Places g 0 (Stmt.nodesAll q))
    (hmoved : Stmt.movedAll g r = Stmt.movedAll id q) {fault : TypeError} {k : Nat}
    (h : (r.check env).verdict = .error fault) (hposition : fault.position = .numbered k)
    (hk : k < (Stmt.nodesAll q).length) :
    ∃ node, (Stmt.nodesAll q)[k]? = some node ∧
      (q.check env).verdict = .error ⟨fault.cause, node.position⟩ := by
  have hnode := List.getElem?_eq_getElem hk
  refine ⟨_, hnode, ?_⟩
  rw [(check_of_moved hmoved env).2, h, ← hg k _ hnode, Nat.zero_add, ← hposition]
  rfl

/-- A program runs as it does without its positions. -/
theorem execute_erased (p : Program) (limit : Option Nat) (budget : Nat) (m : Machine) :
    Program.execute limit budget (Stmt.eraseAll p) (m.moved fun _ => .start) =
      ((p.execute limit budget m).1.moved (fun _ => .start) id,
        (p.execute limit budget m).2.moved fun _ => .start) := by
  have hrun : Eval.Mirrors (fun _ => .start) id (p.execute limit budget)
      (Program.execute limit budget (Stmt.movedAll (fun _ => .start) p)) :=
    ((mirrored (fun _ => .start) limit budget).execAll p).bind fun _ => Eval.mirrors_pure rfl
  rw [← Stmt.movedAll_start]
  exact hrun m

/-- Programs of one shape all pass, and then with the same types, or they all fail for one
cause, and at nodes that correspond; they leave the same environment. From the same machine
they run in lockstep: with every budget both have printed the same, and both have ended
normally, both have failed for one cause, or neither has ended. -/
theorem shape_determines (p : Program) :
    (∀ env : TypeEnv,
      ((p.check env).verdict = .ok () ∧ ∀ q : Program, Stmt.sameShapes p q = true →
        (q.check env).verdict = .ok () ∧ (q.check env).env = (p.check env).env ∧
          (Stmt.nodesAll (q.check env).tree).map Node.type =
            (Stmt.nodesAll (p.check env).tree).map Node.type) ∨
      ∃ (cause : TypeFault) (k : Nat), ∀ q : Program, Stmt.sameShapes p q = true →
        (q.check env).env = (p.check env).env ∧ ∃ node : Node, (Stmt.nodesAll q)[k]? = some node ∧
          (q.check env).verdict = .error ⟨cause, node.position⟩) ∧
    ∀ q : Program, Stmt.sameShapes p q = true →
      ∀ (limit : Option Nat) (budget : Nat) (m : Machine),
        (p.execute limit budget m).1.SameKind (q.execute limit budget m).1 ∧
          (p.execute limit budget m).2.sink = (q.execute limit budget m).2.sink ∧
          (p.execute limit budget m).2.Alike (q.execute limit budget m).2 := by
  refine ⟨fun env => ?_, fun q hq limit budget m => ?_⟩
  · have hrefl : Stmt.sameShapes p p = true := (Stmt.sameShapes_iff_eraseAll p p).mpr rfl
    obtain ⟨self, -, hself⟩ := Stmt.exists_moved_of_sameShapes hrefl
    have henv := (check_of_moved hself env).1
    cases hnumbered : (Program.check (Stmt.numberedAll 0 p) env).verdict with
    | ok =>
      obtain ⟨hp, htypes⟩ := passes_of_moved hself hnumbered
      refine .inl ⟨hp, fun q hq => ?_⟩
      obtain ⟨g, -, hmoved⟩ := Stmt.exists_moved_of_sameShapes hq
      obtain ⟨hpasses, htypes'⟩ := passes_of_moved hmoved hnumbered
      exact ⟨hpasses, (check_of_moved hmoved env).1.trans henv.symm, htypes'.trans htypes.symm⟩
    | error fault =>
      obtain ⟨k, hk, hposition⟩ := exists_node_of_fault hnumbered
      refine .inr ⟨fault.cause, k, fun q hq => ?_⟩
      obtain ⟨g, hg, hmoved⟩ := Stmt.exists_moved_of_sameShapes hq
      rw [Stmt.length_nodesAll_of_sameShapes hq] at hk
      exact ⟨(check_of_moved hmoved env).1.trans henv.symm,
        fails_of_moved hg hmoved hnumbered hposition hk⟩
  · have hp := p.execute_erased limit budget m
    rw [(Stmt.sameShapes_iff_eraseAll p q).mp hq, q.execute_erased limit budget m] at hp
    obtain ⟨houtcome, hmachine⟩ := Prod.mk.inj hp.symm
    have halike : (p.execute limit budget m).2.Alike (q.execute limit budget m).2 := hmachine
    exact ⟨Outcome.sameKind_of_moved houtcome, halike.sink_eq, halike⟩

/-- One declaration, written in two places. -/
def declaringTree (first second : Position) : Program :=
  [.var first "x" (.boolean (.unchecked second) true), .print first (.name (.unchecked second) "x")]

theorem shape_determines_declaring :
    Stmt.sameShapes (declaringTree ⟨1, 1⟩ ⟨1, 9⟩) (declaringTree ⟨4, 2⟩ ⟨7, 1⟩) = true ∧
      (Program.check (declaringTree ⟨4, 2⟩ ⟨7, 1⟩) .fresh).verdict = .ok () ∧
      (Stmt.nodesAll (Program.check (declaringTree ⟨4, 2⟩ ⟨7, 1⟩) .fresh).tree).map Node.type =
        [some .boolean, none, some .boolean, none] ∧
      ∀ (limit : Option Nat) (budget : Nat) (m : Machine),
        ((declaringTree ⟨1, 1⟩ ⟨1, 9⟩).execute limit budget m).1.SameKind
            ((declaringTree ⟨4, 2⟩ ⟨7, 1⟩).execute limit budget m).1 ∧
          ((declaringTree ⟨1, 1⟩ ⟨1, 9⟩).execute limit budget m).2.sink =
            ((declaringTree ⟨4, 2⟩ ⟨7, 1⟩).execute limit budget m).2.sink ∧
          ((declaringTree ⟨1, 1⟩ ⟨1, 9⟩).execute limit budget m).2.Alike
            ((declaringTree ⟨4, 2⟩ ⟨7, 1⟩).execute limit budget m).2 := by
  have hshapes :
      Stmt.sameShapes (declaringTree ⟨1, 1⟩ ⟨1, 9⟩) (declaringTree ⟨4, 2⟩ ⟨7, 1⟩) = true := by
    decide
  have hpasses : (Program.check (declaringTree ⟨1, 1⟩ ⟨1, 9⟩) .fresh).verdict = .ok () := by cbv
  have hmeaning := shape_determines (declaringTree ⟨1, 1⟩ ⟨1, 9⟩)
  rcases hmeaning.1 .fresh with ⟨-, hall⟩ | ⟨cause, k, hall⟩
  · obtain ⟨hpasses', -, htypes⟩ := hall _ hshapes
    exact ⟨hshapes, hpasses', htypes.trans (by cbv), hmeaning.2 _ hshapes⟩
  · obtain ⟨-, node, -, hfails⟩ := hall (declaringTree ⟨1, 1⟩ ⟨1, 9⟩) (by decide)
    rw [hpasses] at hfails
    cases hfails

end Program

end GradualScript
