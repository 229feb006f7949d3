import GradualScript.Proofs.Tree.Nodes

/-!
# A tree is its shape with its nodes

What tells two trees of one shape apart is at their nodes, and nothing else is: a tree can
be told from its shape and the marks and positions of its nodes. So trees of the same shape
are those that become identical once every node is cleared.
-/
namespace GradualScript

/-- The node at the start of a text, unchecked. -/
def Node.cleared : Node → Node
  | expression _ => expression (.unchecked .start)
  | statement _ => statement .start

theorem Node.moved_start : Node.moved (fun _ => .start) = Node.cleared := by
  funext node
  cases node <;> rfl

/-- Erasing a tree clears all of its nodes. -/
theorem Expr.nodes_erase (e : Expr) : e.erase.nodes = e.nodes.map Node.cleared := by
  rw [← e.moved_start, e.nodes_moved, Node.moved_start]

theorem Stmt.nodes_erase (s : Stmt) : s.erase.nodes = s.nodes.map Node.cleared := by
  rw [← s.moved_start, s.nodes_moved, Node.moved_start]

mutual

/-- Trees of one shape with the same nodes are the same. Other nodes may follow: they are
the same, too. -/
theorem Expr.eq_of_nodes (e e' : Expr) {rest rest' : List Node} (hshape : e.erase = e'.erase)
    (hnodes : e.nodes ++ rest = e'.nodes ++ rest') : e = e' ∧ rest = rest' := by
  match e with
  | .number _ _ | .string _ _ | .boolean _ _ | .nil _ | .name _ _ =>
    cases e' <;> simp_all [erase, nodes]
  | .unary _ _ x | .grouping _ x | .assign _ _ x =>
    cases e' <;> simp only [erase, reduceCtorEq, unary.injEq, grouping.injEq, assign.injEq]
      at hshape
    all_goals
      simp only [nodes, List.append_assoc] at hnodes
      have hx := x.eq_of_nodes _ (by simp_all) hnodes
      simp_all
  | .binary _ _ l r =>
    cases e' with
    | binary _ _ l' r' =>
      simp only [erase, binary.injEq] at hshape
      simp only [nodes, List.append_assoc] at hnodes
      obtain ⟨rfl, hafter⟩ := l.eq_of_nodes l' hshape.2.2.1 hnodes
      obtain ⟨rfl, hself⟩ := r.eq_of_nodes r' hshape.2.2.2 hafter
      simp_all
    | _ => cases hshape
  | .call _ f es =>
    cases e' with
    | call _ f' es' =>
      simp only [erase, call.injEq] at hshape
      simp only [nodes, List.append_assoc] at hnodes
      obtain ⟨rfl, hafter⟩ := f.eq_of_nodes f' hshape.2.1 hnodes
      obtain ⟨rfl, hself⟩ := Expr.eq_of_nodesAll es es' hshape.2.2 hafter
      simp_all
    | _ => cases hshape

theorem Expr.eq_of_nodesAll (es es' : List Expr) {rest rest' : List Node}
    (hshape : Expr.eraseAll es = Expr.eraseAll es')
    (hnodes : Expr.nodesAll es ++ rest = Expr.nodesAll es' ++ rest') :
    es = es' ∧ rest = rest' := by
  match es, es' with
  | [], [] => exact ⟨rfl, hnodes⟩
  | [], _ :: _ | _ :: _, [] => cases hshape
  | e :: es, e' :: es' =>
    simp only [eraseAll, List.cons.injEq] at hshape
    simp only [nodesAll, List.append_assoc] at hnodes
    obtain ⟨rfl, hafter⟩ := e.eq_of_nodes e' hshape.1 hnodes
    obtain ⟨rfl, hrest⟩ := Expr.eq_of_nodesAll es es' hshape.2 hafter
    exact ⟨rfl, hrest⟩

end

theorem Expr.eq_of_nodesOption (e e' : Option Expr) {rest rest' : List Node}
    (hshape : e.map Expr.erase = e'.map Expr.erase)
    (hnodes : Expr.nodesOption e ++ rest = Expr.nodesOption e' ++ rest') :
    e = e' ∧ rest = rest' := by
  match e, e' with
  | none, none => exact ⟨rfl, hnodes⟩
  | none, some _ | some _, none => cases hshape
  | some e, some e' =>
    obtain ⟨rfl, hrest⟩ := e.eq_of_nodes e' (Option.some.inj hshape) hnodes
    exact ⟨rfl, hrest⟩

mutual

theorem Stmt.eq_of_nodes (s s' : Stmt) {rest rest' : List Node} (hshape : s.erase = s'.erase)
    (hnodes : s.nodes ++ rest = s'.nodes ++ rest') : s = s' ∧ rest = rest' := by
  match s with
  | .expression _ e | .print _ e | .var _ _ e =>
    cases s' <;> simp only [erase, reduceCtorEq, expression.injEq, print.injEq, var.injEq] at hshape
    all_goals
      simp only [nodes, List.append_assoc] at hnodes
      have he := e.eq_of_nodes _ (by simp_all) hnodes
      simp_all
  | .block _ ss | .function _ _ _ ss _ =>
    cases s' <;> simp only [erase, reduceCtorEq, block.injEq, function.injEq] at hshape
    all_goals
      simp only [nodes, List.append_assoc] at hnodes
      have hss := Stmt.eq_of_nodesAll ss _ (by simp_all) hnodes
      simp_all
  | .ifElse _ c y n =>
    cases s' with
    | ifElse _ c' y' n' =>
      simp only [erase, ifElse.injEq] at hshape
      simp only [nodes, List.append_assoc] at hnodes
      obtain ⟨rfl, hbranches⟩ := c.eq_of_nodes c' hshape.2.1 hnodes
      obtain ⟨rfl, hno⟩ := y.eq_of_nodes y' hshape.2.2.1 hbranches
      obtain ⟨rfl, hself⟩ := Stmt.eq_of_nodesOption n n' hshape.2.2.2 hno
      simp_all
    | _ => cases hshape
  | .whileLoop _ c b =>
    cases s' with
    | whileLoop _ c' b' =>
      simp only [erase, whileLoop.injEq] at hshape
      simp only [nodes, List.append_assoc] at hnodes
      obtain ⟨rfl, hbody⟩ := c.eq_of_nodes c' hshape.2.1 hnodes
      obtain ⟨rfl, hself⟩ := b.eq_of_nodes b' hshape.2.2 hbody
      simp_all
    | _ => cases hshape
  | .forLoop _ i c n b =>
    cases s' with
    | forLoop _ i' c' n' b' =>
      simp only [erase, forLoop.injEq] at hshape
      simp only [nodes, List.append_assoc] at hnodes
      obtain ⟨rfl, hcond⟩ := Stmt.eq_of_nodesOption i i' hshape.2.1 hnodes
      obtain ⟨rfl, hbody⟩ := Expr.eq_of_nodesOption c c' hshape.2.2.1 hcond
      obtain ⟨rfl, hincrement⟩ := b.eq_of_nodes b' hshape.2.2.2.2 hbody
      obtain ⟨rfl, hself⟩ := Expr.eq_of_nodesOption n n' hshape.2.2.2.1 hincrement
      simp_all
    | _ => cases hshape
  | .ret _ e =>
    cases s' with
    | ret _ e' =>
      simp only [erase, ret.injEq] at hshape
      simp only [nodes, List.append_assoc] at hnodes
      obtain ⟨rfl, hself⟩ := Expr.eq_of_nodesOption e e' hshape.2 hnodes
      simp_all
    | _ => cases hshape

theorem Stmt.eq_of_nodesAll (ss ss' : List Stmt) {rest rest' : List Node}
    (hshape : Stmt.eraseAll ss = Stmt.eraseAll ss')
    (hnodes : Stmt.nodesAll ss ++ rest = Stmt.nodesAll ss' ++ rest') :
    ss = ss' ∧ rest = rest' := by
  match ss, ss' with
  | [], [] => exact ⟨rfl, hnodes⟩
  | [], _ :: _ | _ :: _, [] => cases hshape
  | s :: ss, s' :: ss' =>
    simp only [eraseAll, List.cons.injEq] at hshape
    simp only [nodesAll, List.append_assoc] at hnodes
    obtain ⟨rfl, hafter⟩ := s.eq_of_nodes s' hshape.1 hnodes
    obtain ⟨rfl, hrest⟩ := Stmt.eq_of_nodesAll ss ss' hshape.2 hafter
    exact ⟨rfl, hrest⟩

theorem Stmt.eq_of_nodesOption (s s' : Option Stmt) {rest rest' : List Node}
    (hshape : Stmt.eraseOption s = Stmt.eraseOption s')
    (hnodes : Stmt.nodesOption s ++ rest = Stmt.nodesOption s' ++ rest') :
    s = s' ∧ rest = rest' := by
  match s, s' with
  | none, none => exact ⟨rfl, hnodes⟩
  | none, some _ | some _, none => cases hshape
  | some s, some s' =>
    obtain ⟨rfl, hrest⟩ := s.eq_of_nodes s' (Option.some.inj hshape) hnodes
    exact ⟨rfl, hrest⟩

end

/-- Clearing resets the nodes of a tree and nothing else: a tree can be told from what is
left of it and from its nodes, and where all nodes are reset already it stays as it is. -/
structure Clears {τ : Type} (nodes : τ → List Node) (clear : τ → τ) : Prop where
  nodes_eq : ∀ t, nodes (clear t) = (nodes t).map Node.cleared
  determines : ∀ t t', clear t = clear t' → nodes t = nodes t' → t = t'
  unchanged : ∀ t, (nodes t).map Node.cleared = nodes t → clear t = t

/-- What clears all nodes, loses nothing else and is done at once leaves a cleared tree. -/
theorem Clears.of_idempotent {τ : Type} {nodes : τ → List Node} {clear : τ → τ}
    (hnodes : ∀ t, nodes (clear t) = (nodes t).map Node.cleared)
    (hdetermines : ∀ t t', clear t = clear t' → nodes t = nodes t' → t = t')
    (htwice : ∀ t, clear (clear t) = clear t) : Clears nodes clear :=
  ⟨hnodes, hdetermines, fun t ht => hdetermines _ _ (htwice t) ((hnodes t).trans ht)⟩

theorem Expr.clears_erase : Clears Expr.nodes Expr.erase := by
  refine .of_idempotent Expr.nodes_erase (fun e e' hshape hnodes => ?_) fun e => ?_
  · exact (e.eq_of_nodes e' hshape (congrArg (· ++ []) hnodes)).1
  · rw [← e.moved_start, Expr.erase_moved, e.moved_start]

theorem Stmt.clears_erase : Clears Stmt.nodes Stmt.erase := by
  refine .of_idempotent Stmt.nodes_erase (fun s s' hshape hnodes => ?_) fun s => ?_
  · exact (s.eq_of_nodes s' hshape (congrArg (· ++ []) hnodes)).1
  · rw [← s.moved_start, Stmt.erase_moved, s.moved_start]

/-- What holds exactly if two views are equal is an equivalence. -/
theorem equivalence_of_iff {τ ν : Type} {r : τ → τ → Prop} {view : τ → ν}
    (h : ∀ t t', r t t' ↔ view t = view t') : Equivalence r where
  refl t := (h t t).mpr rfl
  symm hr := (h _ _).mpr ((h _ _).mp hr).symm
  trans hr hr' := (h _ _).mpr (((h _ _).mp hr).trans ((h _ _).mp hr'))

/-- Expressions and statements have the same shape exactly if they become identical once
their nodes are cleared, that is, once all positions are reset and all recorded types are
gone while everything else stays. So to have the same shape is an equivalence. A number
is its bits: a tree has its own shape whatever its literals are. -/
theorem sameShape_iff_cleared :
    Clears Expr.nodes Expr.erase ∧ Clears Stmt.nodes Stmt.erase ∧
    (∀ e e' : Expr, e.sameShape e' = true ↔ e.erase = e'.erase) ∧
    (∀ s s' : Stmt, s.sameShape s' = true ↔ s.erase = s'.erase) ∧
    (Equivalence fun e e' : Expr => e.sameShape e' = true) ∧
    (Equivalence fun s s' : Stmt => s.sameShape s' = true) :=
  ⟨Expr.clears_erase, Stmt.clears_erase, Expr.sameShape_iff_erase, Stmt.sameShape_iff_erase,
    equivalence_of_iff Expr.sameShape_iff_erase, equivalence_of_iff Stmt.sameShape_iff_erase⟩

/-- A NaN has the shape of itself, and of no NaN with other bits. -/
example :
    (Expr.number (.unchecked ⟨1, 1⟩) ⟨0x7FF8000000000000⟩).sameShape
      (.number (.unchecked ⟨2, 7⟩) ⟨0x7FF8000000000000⟩) = true ∧
    (Expr.number (.unchecked ⟨1, 1⟩) ⟨0x7FF8000000000000⟩).sameShape
      (.number (.unchecked ⟨1, 1⟩) ⟨0x7FF8000000000001⟩) = false := by decide

end GradualScript
