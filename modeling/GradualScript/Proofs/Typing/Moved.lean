import GradualScript.Proofs.Tree.Moved
import GradualScript.Typing.Checking

/-!
# Checking moved trees

Checking records types and changes nothing else in a tree, also where it fails. Positions
play no part in it: a moved tree passes exactly if the tree does, leaves the same
environment, and fails with the same fault at the place that its place is sent to.
-/
namespace GradualScript

variable (g : Position → Position)

/-- A recorded type is dropped when the expression moves. -/
theorem Expr.moved_record (e : Expr) (type : TypeSet) : (e.record type).moved g = e.moved g := by
  cases e with
  | _ => rfl

namespace Checked

variable {τ ρ α β : Type}

theorem moved_settle (e : Expr) (env : TypeEnv) (verdict : Except TypeError TypeSet) :
    (settle e env verdict).tree.moved g = e.moved g := by
  cases verdict with
  | ok type => exact e.moved_record g type
  | error fault => rfl

/-- What holds of a tree before a part of it is checked holds afterwards, if checking
that part keeps it. -/
theorem view_next {view : τ → ρ} {tree : τ} {x : ρ} {env : TypeEnv} {go : α → Checked τ β}
    (part : Except TypeError α) (htree : view tree = x) (hgo : ∀ a, view (go a).tree = x) :
    view (next part tree env go).tree = x := by
  cases part with
  | ok a => exact hgo a
  | error fault => exact htree

end Checked

open Checked

mutual

/-- Checking changes nothing in a tree but its recorded types. -/
theorem Expr.moved_check (e : Expr) (env : TypeEnv) : (e.check env).tree.moved g = e.moved g := by
  match e with
  | .number _ _ | .string _ _ | .boolean _ _ | .nil _ | .name _ _ =>
    rw [check, moved_settle]
  | .assign m n value =>
    have htree : (Expr.assign m n (value.check env).tree).moved g =
        (Expr.assign m n value).moved g := by
      rw [moved, moved, value.moved_check env]
    rw [check]
    refine view_next _ htree fun type => ?_
    split
    · exact (moved_settle ..).trans htree
    · exact (moved_settle ..).trans htree
  | .unary m op operand =>
    rw [check, moved_settle, moved, moved, operand.moved_check env]
  | .binary m op left right =>
    rw [check, moved_settle, moved, moved, left.moved_check env,
      view_next _ rfl fun _ => right.moved_check _]
  | .grouping m inner =>
    rw [check, moved_settle, moved, moved, inner.moved_check env]
  | .call m callee args =>
    rw [check, moved_settle, moved, moved, callee.moved_check env,
      view_next _ rfl fun _ => Expr.movedAll_check args _]

theorem Expr.movedAll_check (es : List Expr) (env : TypeEnv) :
    Expr.movedAll g (Expr.checkAll es env).tree = Expr.movedAll g es := by
  match es with
  | [] => rfl
  | e :: es =>
    rw [checkAll, movedAll, movedAll, e.moved_check env,
      view_next _ rfl fun _ => Expr.movedAll_check es _]

end

theorem Expr.movedOption_check (e : Option Expr) (env : TypeEnv) :
    (Expr.checkOption e env).tree.map (Expr.moved g) = e.map (Expr.moved g) := by
  cases e with
  | none => rfl
  | some e => exact congrArg some (e.moved_check g env)

mutual

theorem Stmt.moved_check (expected : TypeSet) (s : Stmt) (env : TypeEnv) :
    (s.check expected env).tree.moved g = s.moved g := by
  match s with
  | .expression _ e | .print _ e | .ret _ (some e) =>
    simp only [check, moved, Option.map_some, e.moved_check g env]
  | .var p n init =>
    have htree : (Stmt.var p n (init.check env).tree).moved g = (Stmt.var p n init).moved g := by
      rw [moved, moved, init.moved_check g env]
    rw [check]
    exact view_next _ htree fun _ => htree
  | .block p body =>
    rw [check, moved, moved, Stmt.movedAll_check expected body _]
  | .ifElse p cond yes no =>
    rw [check, moved, moved, cond.moved_check g env,
      view_next _ rfl fun _ => yes.moved_check expected _,
      view_next _ rfl fun _ => Stmt.movedOption_check expected no _]
  | .whileLoop p cond body =>
    rw [check, moved, moved, cond.moved_check g env,
      view_next _ rfl fun _ => body.moved_check expected _]
  | .forLoop p init cond increment body =>
    rw [check, moved, moved, Stmt.movedOption_check expected init _,
      view_next _ rfl fun _ => Expr.movedOption_check g cond _,
      view_next _ rfl fun _ => body.moved_check expected _,
      view_next _ rfl fun _ => Expr.movedOption_check g increment _]
  | .function p n params body result =>
    rw [check, moved, moved, Stmt.movedAll_check result body _]
  | .ret _ none => rfl

/-- The checked statements differ from the given ones in recorded types only. -/
theorem Stmt.movedAll_check (expected : TypeSet) (ss : List Stmt) (env : TypeEnv) :
    Stmt.movedAll g (Stmt.checkAll expected ss env).tree = Stmt.movedAll g ss := by
  match ss with
  | [] => rfl
  | s :: ss =>
    rw [checkAll, movedAll, movedAll, s.moved_check expected env,
      view_next _ rfl fun _ => Stmt.movedAll_check expected ss _]

theorem Stmt.movedOption_check (expected : TypeSet) (s : Option Stmt) (env : TypeEnv) :
    Stmt.movedOption g (Stmt.checkOption expected s env).tree = Stmt.movedOption g s := by
  match s with
  | none => rfl
  | some s => rw [checkOption, movedOption, movedOption, s.moved_check expected env]

end

/-- Checking changes recorded types only. -/
theorem Program.moved_check (p : Program) (env : TypeEnv) :
    Stmt.movedAll g (p.check env).tree = Stmt.movedAll g p :=
  Stmt.movedAll_check g .any p env

namespace Checked

variable {τ τ' α β : Type}

/-- One check leaves what the other leaves, with its fault, if any, at another place. -/
structure Mirrors (moved : Checked τ' α) (plain : Checked τ α) : Prop where
  env_eq : moved.env = plain.env
  verdict_eq : moved.verdict = plain.verdict.mapError (Located.moved g)

variable {g}

theorem mirrors_settle {tree tree' : Expr} {env : TypeEnv}
    {verdict verdict' : Except TypeError TypeSet}
    (h : verdict' = verdict.mapError (Located.moved g)) :
    Mirrors g (settle tree' env verdict') (settle tree env verdict) := by
  subst h
  cases verdict with
  | ok type => exact ⟨rfl, rfl⟩
  | error fault => exact ⟨rfl, rfl⟩

/-- Both checks go on, or both stop. -/
theorem Mirrors.next {σ σ' : Type} {part : Checked σ α} {part' : Checked σ' α} {tree : τ}
    {tree' : τ'} {go : α → Checked τ β} {go' : α → Checked τ' β} (h : Mirrors g part' part)
    (hgo : ∀ a, Mirrors g (go' a) (go a)) :
    Mirrors g (Checked.next part'.verdict tree' part'.env go')
      (Checked.next part.verdict tree part.env go) := by
  rw [h.env_eq, h.verdict_eq]
  cases part.verdict with
  | ok a => exact hgo a
  | error fault => exact ⟨rfl, rfl⟩

/-- Checks that go on do so in the environment that the part left. -/
theorem Mirrors.later {σ σ' : Type} {part : Checked σ α} {part' : Checked σ' α}
    {go : TypeEnv → Checked τ β} {go' : TypeEnv → Checked τ' β} (h : Mirrors g part' part)
    (tree' : τ') (tree : τ) (hgo : ∀ env, Mirrors g (go' env) (go env)) :
    Mirrors g (Checked.next part'.verdict tree' part'.env fun _ => go' part'.env)
      (Checked.next part.verdict tree part.env fun _ => go part.env) :=
  h.next fun _ => by
    rw [h.env_eq]
    exact hgo part.env

end Checked

variable {g}

/-- A verdict is reported where its expression has been moved. -/
theorem mapError_atPosition {ε α : Type} (position : Position) (verdict : Except ε α) :
    (Located.atPosition position verdict).mapError (Located.moved g) =
      Located.atPosition (g position) verdict := by
  cases verdict with
  | ok a => rfl
  | error e => rfl

@[simp] theorem mapError_eq_ok {ε δ α : Type} {f : ε → δ} {verdict : Except ε α} {a : α} :
    verdict.mapError f = .ok a ↔ verdict = .ok a := by
  cases verdict with
  | ok b =>
    exact ⟨fun h => congrArg Except.ok (Except.ok.inj h),
      fun h => congrArg Except.ok (Except.ok.inj h)⟩
  | error e => exact iff_of_false nofun nofun

/-- An error of either part is moved. -/
theorem mapError_bind {ε δ α β : Type} (f : ε → δ) (part : Except ε α) (go : α → Except ε β) :
    (part.bind go).mapError f = (part.mapError f).bind fun a => (go a).mapError f := by
  cases part with
  | ok a => rfl
  | error e => rfl

theorem mapError_map {ε δ α β : Type} (f : ε → δ) (h : α → β) (part : Except ε α) :
    (part.map h).mapError f = (part.mapError f).map h := by
  cases part with
  | ok a => rfl
  | error e => rfl

theorem mapError_returnVerdict (expected found : TypeSet) (position : Position) :
    (returnVerdict expected found position).mapError (Located.moved g) =
      returnVerdict expected found (g position) := by
  unfold returnVerdict
  split
  · rfl
  · rfl

mutual

/-- The checker asks no position: it finds the same types and the same fault, which it
reports at the moved position. -/
theorem Expr.check_moved (e : Expr) (env : TypeEnv) :
    Mirrors g ((e.moved g).check env) (e.check env) := by
  match e with
  | .number _ _ | .string _ _ | .boolean _ _ | .nil _ => exact mirrors_settle rfl
  | .name m n =>
    apply mirrors_settle
    cases env.get n with
    | some type => rfl
    | none => rfl
  | .assign m n value =>
    refine (value.check_moved env).next fun type => ?_
    rw [(value.check_moved env).env_eq]
    split
    · exact mirrors_settle rfl
    · exact mirrors_settle rfl
  | .unary m op operand =>
    have ho := operand.check_moved env
    simp only [moved, check, ho.env_eq, ho.verdict_eq]
    apply mirrors_settle
    simp only [mapError_bind, mapError_atPosition]
    rfl
  | .binary m op left right =>
    have hl := left.check_moved env
    have hr := hl.later (right.moved g) right fun env => right.check_moved env
    simp only [moved, check, hr.env_eq]
    apply mirrors_settle
    rw [hr.verdict_eq, hl.verdict_eq]
    simp only [mapError_bind, mapError_atPosition]
    rfl
  | .grouping m inner =>
    have hi := inner.check_moved env
    simp only [moved, check, hi.env_eq]
    exact mirrors_settle hi.verdict_eq
  | .call m callee args =>
    have hc := callee.check_moved env
    have ha := hc.later (Expr.movedAll g args) args fun env => Expr.checkAll_moved args env
    simp only [moved, check, ha.env_eq]
    apply mirrors_settle
    rw [ha.verdict_eq, mapError_map]

theorem Expr.checkAll_moved (es : List Expr) (env : TypeEnv) :
    Mirrors g (Expr.checkAll (Expr.movedAll g es) env) (Expr.checkAll es env) := by
  match es with
  | [] => exact ⟨rfl, rfl⟩
  | e :: es =>
    have hrest := (e.check_moved env).later (Expr.movedAll g es) es
      fun env => Expr.checkAll_moved es env
    exact ⟨hrest.env_eq, hrest.verdict_eq⟩

end

theorem Expr.checkOption_moved (e : Option Expr) (env : TypeEnv) :
    Mirrors g (Expr.checkOption (e.map (Expr.moved g)) env) (Expr.checkOption e env) := by
  cases e with
  | none => exact ⟨rfl, rfl⟩
  | some e =>
    have he := e.check_moved (g := g) env
    refine ⟨he.env_eq, ?_⟩
    rw [checkOption, mapError_map, ← he.verdict_eq]
    rfl

mutual

/-- The same for statements, and for the types that they leave in the environment. -/
theorem Stmt.check_moved (expected : TypeSet) (s : Stmt) (env : TypeEnv) :
    Mirrors g ((s.moved g).check expected env) (s.check expected env) := by
  match s with
  | .expression _ e | .print _ e =>
    have he := e.check_moved (g := g) env
    refine ⟨he.env_eq, ?_⟩
    simp only [check, moved, mapError_map, he.verdict_eq]
  | .var _ n init => exact (init.check_moved env).next fun type => ⟨by rw [(init.check_moved env).env_eq], rfl⟩
  | .block _ body =>
    have hbody := Stmt.checkAll_moved expected body (env.push "block")
    refine ⟨?_, hbody.verdict_eq⟩
    simp only [check, moved, hbody.env_eq]
  | .ifElse _ cond yes no =>
    have hyes := (cond.check_moved env).later (yes.moved g) yes
      fun env => yes.check_moved expected env
    have hno := hyes.later (Stmt.movedOption g no) no
      fun env => Stmt.checkOption_moved expected no env
    exact ⟨hno.env_eq, hno.verdict_eq⟩
  | .whileLoop _ cond body =>
    have hbody := (cond.check_moved env).later (body.moved g) body
      fun env => body.check_moved expected env
    exact ⟨hbody.env_eq, hbody.verdict_eq⟩
  | .forLoop _ init cond increment body =>
    have hinit := Stmt.checkOption_moved expected init (env.push "for")
    have hcond := hinit.later (cond.map (Expr.moved g)) cond
      fun env => Expr.checkOption_moved cond env
    have hbody := hcond.later (body.moved g) body fun env => body.check_moved expected env
    have hincrement := hbody.later (increment.map (Expr.moved g)) increment
      fun env => Expr.checkOption_moved increment env
    exact ⟨congrArg Scopes.pop hincrement.env_eq, hincrement.verdict_eq⟩
  | .function _ n params body result =>
    have hbody := Stmt.checkAll_moved result body
      (params.foldl (fun env param => env.set param .any) ((env.set n .any).push n))
    exact ⟨congrArg Scopes.pop hbody.env_eq, hbody.verdict_eq⟩
  | .ret p none => exact ⟨rfl, (mapError_returnVerdict expected .nil p).symm⟩
  | .ret p (some e) =>
    have he := e.check_moved (g := g) env
    refine ⟨he.env_eq, ?_⟩
    simp only [check, moved, Option.map_some, he.verdict_eq, mapError_bind, mapError_returnVerdict]

theorem Stmt.checkAll_moved (expected : TypeSet) (ss : List Stmt) (env : TypeEnv) :
    Mirrors g (Stmt.checkAll expected (Stmt.movedAll g ss) env) (Stmt.checkAll expected ss env) := by
  match ss with
  | [] => exact ⟨rfl, rfl⟩
  | s :: ss =>
    have hrest := (s.check_moved expected env).later (Stmt.movedAll g ss) ss
      fun env => Stmt.checkAll_moved expected ss env
    exact ⟨hrest.env_eq, hrest.verdict_eq⟩

theorem Stmt.checkOption_moved (expected : TypeSet) (s : Option Stmt) (env : TypeEnv) :
    Mirrors g (Stmt.checkOption expected (Stmt.movedOption g s) env)
      (Stmt.checkOption expected s env) := by
  match s with
  | none => exact ⟨rfl, rfl⟩
  | some s => exact ⟨(s.check_moved expected env).env_eq, (s.check_moved expected env).verdict_eq⟩

end

/-- A moved program passes exactly if the program does, and leaves the same environment. -/
theorem Program.check_moved (p : Program) (env : TypeEnv) :
    Mirrors g (Program.check (Stmt.movedAll g p) env) (p.check env) :=
  Stmt.checkAll_moved .any p env

/-- A program is accepted wherever its parts stand. -/
theorem Program.check_moved_ok_iff (p : Program) (env : TypeEnv) :
    (Program.check (Stmt.movedAll g p) env).verdict = .ok () ↔ (p.check env).verdict = .ok () := by
  rw [(p.check_moved env).verdict_eq, mapError_eq_ok]

end GradualScript
