import GradualScript.Proofs.Tree.Moved

/-!
# Nodes of a tree

The nodes of a tree stand in one order, which depends on its shape alone: nodes of two
trees of the same shape correspond when they stand at the same place in it. All trees of
one shape are moved from one tree, whose nodes all have positions of their own.
-/
namespace GradualScript

/-- An expression with its mark, or a statement with its position. -/
inductive Node where
  | expression (mark : Mark)
  | statement (position : Position)
  deriving DecidableEq

namespace Node

def position : Node → Position
  | expression m => m.position
  | statement p => p

/-- The type recorded on the node. Statements have none. -/
def type : Node → Option TypeSet
  | expression m => m.type
  | statement _ => none

/-- The node with its position replaced and no type recorded on it. -/
def moved (g : Position → Position) : Node → Node
  | expression m => expression (m.moved g)
  | statement p => statement (g p)

@[simp] theorem position_moved (g : Position → Position) (node : Node) :
    (node.moved g).position = g node.position := by cases node <;> rfl

end Node

mutual

/-- The nodes of an expression as checking leaves them: from left to right, and each after
its parts. -/
def Expr.nodes : Expr → List Node
  | .number m _ | .string m _ | .boolean m _ | .nil m | .name m _ => [.expression m]
  | .unary m _ e | .grouping m e | .assign m _ e => e.nodes ++ [.expression m]
  | .binary m _ l r => l.nodes ++ r.nodes ++ [.expression m]
  | .call m f es => f.nodes ++ Expr.nodesAll es ++ [.expression m]

def Expr.nodesAll : List Expr → List Node
  | [] => []
  | e :: es => e.nodes ++ Expr.nodesAll es

end

def Expr.nodesOption : Option Expr → List Node
  | none => []
  | some e => e.nodes

mutual

/-- The nodes of a statement as checking leaves them: the increment of a loop comes after
its body. -/
def Stmt.nodes : Stmt → List Node
  | .expression p e | .print p e | .var p _ e => e.nodes ++ [.statement p]
  | .block p ss | .function p _ _ ss _ => Stmt.nodesAll ss ++ [.statement p]
  | .ifElse p c y n => c.nodes ++ y.nodes ++ Stmt.nodesOption n ++ [.statement p]
  | .whileLoop p c b => c.nodes ++ b.nodes ++ [.statement p]
  | .forLoop p i c n b =>
      Stmt.nodesOption i ++ Expr.nodesOption c ++ b.nodes ++ Expr.nodesOption n ++ [.statement p]
  | .ret p e => Expr.nodesOption e ++ [.statement p]

def Stmt.nodesAll : List Stmt → List Node
  | [] => []
  | s :: ss => s.nodes ++ Stmt.nodesAll ss

def Stmt.nodesOption : Option Stmt → List Node
  | none => []
  | some s => s.nodes

end

section

variable (g : Position → Position)

mutual

/-- Moving a tree moves its nodes and keeps their order. -/
theorem Expr.nodes_moved (e : Expr) : (e.moved g).nodes = e.nodes.map (Node.moved g) := by
  match e with
  | .number _ _ | .string _ _ | .boolean _ _ | .nil _ | .name _ _ => rfl
  | .unary _ _ x | .grouping _ x | .assign _ _ x =>
    simp [moved, nodes, x.nodes_moved, Node.moved]
  | .binary _ _ l r => simp [moved, nodes, l.nodes_moved, r.nodes_moved, Node.moved]
  | .call _ f es => simp [moved, nodes, f.nodes_moved, Expr.nodesAll_moved es, Node.moved]

theorem Expr.nodesAll_moved (es : List Expr) :
    Expr.nodesAll (Expr.movedAll g es) = (Expr.nodesAll es).map (Node.moved g) := by
  match es with
  | [] => rfl
  | e :: es => simp [movedAll, nodesAll, e.nodes_moved, Expr.nodesAll_moved es]

end

theorem Expr.nodesOption_moved (e : Option Expr) :
    Expr.nodesOption (e.map (Expr.moved g)) = (Expr.nodesOption e).map (Node.moved g) := by
  cases e with
  | none => rfl
  | some e => exact e.nodes_moved g

mutual

/-- Moving a statement moves its nodes and keeps their order. -/
theorem Stmt.nodes_moved (s : Stmt) : (s.moved g).nodes = s.nodes.map (Node.moved g) := by
  match s with
  | .expression _ e | .print _ e | .var _ _ e => simp [moved, nodes, e.nodes_moved, Node.moved]
  | .block _ ss | .function _ _ _ ss _ => simp [moved, nodes, Stmt.nodesAll_moved ss, Node.moved]
  | .ifElse _ c y n =>
    simp [moved, nodes, c.nodes_moved, y.nodes_moved, Stmt.nodesOption_moved n, Node.moved]
  | .whileLoop _ c b => simp [moved, nodes, c.nodes_moved, b.nodes_moved, Node.moved]
  | .forLoop _ i c n b =>
    simp [moved, nodes, Stmt.nodesOption_moved i, Expr.nodesOption_moved, b.nodes_moved, Node.moved]
  | .ret _ e => simp [moved, nodes, Expr.nodesOption_moved, Node.moved]

theorem Stmt.nodesAll_moved (ss : List Stmt) :
    Stmt.nodesAll (Stmt.movedAll g ss) = (Stmt.nodesAll ss).map (Node.moved g) := by
  match ss with
  | [] => rfl
  | s :: ss => simp [movedAll, nodesAll, s.nodes_moved, Stmt.nodesAll_moved ss]

theorem Stmt.nodesOption_moved (s : Option Stmt) :
    Stmt.nodesOption (Stmt.movedOption g s) = (Stmt.nodesOption s).map (Node.moved g) := by
  match s with
  | none => rfl
  | some s => simp [movedOption, nodesOption, s.nodes_moved]

end

end

/-- The position that stands for a number. -/
def Position.numbered (n : Nat) : Position := ⟨n, 0⟩

mutual

/-- The unchecked expression whose nodes are at the positions of the numbers from `n` on. -/
def Expr.numbered (n : Nat) : Expr → Expr
  | .number _ v => .number (.unchecked (.numbered n)) v
  | .string _ s => .string (.unchecked (.numbered n)) s
  | .boolean _ b => .boolean (.unchecked (.numbered n)) b
  | .nil _ => .nil (.unchecked (.numbered n))
  | .unary _ op e => .unary (.unchecked (.numbered (n + e.nodes.length))) op (e.numbered n)
  | .binary _ op l r =>
      .binary (.unchecked (.numbered (n + (l.nodes ++ r.nodes).length))) op (l.numbered n)
        (r.numbered (n + l.nodes.length))
  | .grouping _ e => .grouping (.unchecked (.numbered (n + e.nodes.length))) (e.numbered n)
  | .name _ s => .name (.unchecked (.numbered n)) s
  | .assign _ s e => .assign (.unchecked (.numbered (n + e.nodes.length))) s (e.numbered n)
  | .call _ f es =>
      .call (.unchecked (.numbered (n + (f.nodes ++ Expr.nodesAll es).length))) (f.numbered n)
        (Expr.numberedAll (n + f.nodes.length) es)

def Expr.numberedAll (n : Nat) : List Expr → List Expr
  | [] => []
  | e :: es => e.numbered n :: Expr.numberedAll (n + e.nodes.length) es

end

mutual

/-- The unchecked statement whose nodes are at the positions of the numbers from `n` on. -/
def Stmt.numbered (n : Nat) : Stmt → Stmt
  | .expression _ e => .expression (.numbered (n + e.nodes.length)) (e.numbered n)
  | .print _ e => .print (.numbered (n + e.nodes.length)) (e.numbered n)
  | .var _ s e => .var (.numbered (n + e.nodes.length)) s (e.numbered n)
  | .block _ ss => .block (.numbered (n + (Stmt.nodesAll ss).length)) (Stmt.numberedAll n ss)
  | .ifElse _ c y e =>
      .ifElse (.numbered (n + (c.nodes ++ y.nodes ++ Stmt.nodesOption e).length)) (c.numbered n)
        (y.numbered (n + c.nodes.length))
        (Stmt.numberedOption (n + (c.nodes ++ y.nodes).length) e)
  | .whileLoop _ c b =>
      .whileLoop (.numbered (n + (c.nodes ++ b.nodes).length)) (c.numbered n)
        (b.numbered (n + c.nodes.length))
  | .forLoop _ i c e b =>
      let before := Stmt.nodesOption i
      .forLoop
        (.numbered (n + (before ++ Expr.nodesOption c ++ b.nodes ++ Expr.nodesOption e).length))
        (Stmt.numberedOption n i) (c.map (Expr.numbered (n + before.length)))
        (e.map (Expr.numbered (n + (before ++ Expr.nodesOption c ++ b.nodes).length)))
        (b.numbered (n + (before ++ Expr.nodesOption c).length))
  | .function _ s ps ss t =>
      .function (.numbered (n + (Stmt.nodesAll ss).length)) s ps (Stmt.numberedAll n ss) t
  | .ret _ e => .ret (.numbered (n + (Expr.nodesOption e).length)) (e.map (Expr.numbered n))

def Stmt.numberedAll (n : Nat) : List Stmt → List Stmt
  | [] => []
  | s :: ss => s.numbered n :: Stmt.numberedAll (n + s.nodes.length) ss

def Stmt.numberedOption (n : Nat) : Option Stmt → Option Stmt
  | none => none
  | some s => some (s.numbered n)

end

/-- The numbers from `n` on are sent to the positions of the nodes. -/
def Places (g : Position → Position) (n : Nat) (nodes : List Node) : Prop :=
  ∀ k node, nodes[k]? = some node → g (.numbered (n + k)) = node.position

section

variable {g : Position → Position} {n : Nat}

/-- A second list of nodes takes the numbers after those of the first. -/
theorem places_append {nodes rest : List Node} :
    Places g n (nodes ++ rest) ↔ Places g n nodes ∧ Places g (n + nodes.length) rest := by
  constructor
  · intro h
    refine ⟨fun k node hk => h k node ?_, fun k node hk => ?_⟩
    · rw [List.getElem?_append_left (List.getElem?_eq_some_iff.mp hk).1, hk]
    · rw [Nat.add_assoc]
      refine h _ node ?_
      rw [List.getElem?_append_right (Nat.le_add_right ..), Nat.add_sub_cancel_left, hk]
  · rintro ⟨hnodes, hrest⟩ k node hk
    rw [List.getElem?_append] at hk
    split at hk
    · exact hnodes k node hk
    · have hplace := hrest _ node hk
      rwa [Nat.add_assoc, Nat.add_sub_cancel' (by omega)] at hplace

theorem places_singleton {node : Node} : Places g n [node] ↔ g (.numbered n) = node.position := by
  constructor
  · intro h
    exact h 0 node rfl
  · rintro h k other hk
    cases k with
    | zero =>
      cases hk
      exact h
    | succ k => cases hk

/-- Positions can be sent anywhere. -/
theorem exists_places (nodes : List Node) : ∃ g, Places g 0 nodes := by
  refine ⟨fun p => (nodes[p.line]?.map Node.position).getD p, fun k node hk => ?_⟩
  simp [Position.numbered, hk]

mutual

/-- A tree is put together again from its numbered form and the positions of its nodes. -/
theorem Expr.moved_numbered (e : Expr) {n : Nat} (h : Places g n e.nodes) :
    (e.numbered n).moved g = e.moved id := by
  match e with
  | .number _ _ | .string _ _ | .boolean _ _ | .nil _ | .name _ _ =>
    simp [numbered, moved, Mark.moved, Mark.unchecked, places_singleton.mp h, Node.position]
  | .unary _ _ x | .grouping _ x | .assign _ _ x =>
    obtain ⟨hx, hself⟩ := places_append.mp h
    simp [numbered, moved, Mark.moved, Mark.unchecked, places_singleton.mp hself, Node.position,
      x.moved_numbered hx]
  | .binary _ _ l r =>
    obtain ⟨hparts, hself⟩ := places_append.mp h
    obtain ⟨hl, hr⟩ := places_append.mp hparts
    simp only [numbered, moved, Mark.moved, Mark.unchecked, places_singleton.mp hself,
      Node.position, l.moved_numbered hl, r.moved_numbered hr, id]
  | .call _ f es =>
    obtain ⟨hparts, hself⟩ := places_append.mp h
    obtain ⟨hf, hes⟩ := places_append.mp hparts
    simp only [numbered, moved, Mark.moved, Mark.unchecked, places_singleton.mp hself,
      Node.position, f.moved_numbered hf, Expr.movedAll_numbered es hes, id]

theorem Expr.movedAll_numbered (es : List Expr) {n : Nat} (h : Places g n (Expr.nodesAll es)) :
    Expr.movedAll g (Expr.numberedAll n es) = Expr.movedAll id es := by
  match es with
  | [] => rfl
  | e :: es =>
    obtain ⟨he, hes⟩ := places_append.mp h
    simp only [numberedAll, movedAll, e.moved_numbered he, Expr.movedAll_numbered es hes]

end

theorem Expr.movedOption_numbered (e : Option Expr) {n : Nat}
    (h : Places g n (Expr.nodesOption e)) :
    (e.map (Expr.numbered n)).map (Expr.moved g) = e.map (Expr.moved id) := by
  cases e with
  | none => rfl
  | some e => exact congrArg some (e.moved_numbered h)

mutual

theorem Stmt.moved_numbered (s : Stmt) {n : Nat} (h : Places g n s.nodes) :
    (s.numbered n).moved g = s.moved id := by
  match s with
  | .expression _ e | .print _ e | .var _ _ e =>
    obtain ⟨he, hself⟩ := places_append.mp h
    simp only [numbered, moved, places_singleton.mp hself, Node.position, e.moved_numbered he, id]
  | .block _ ss | .function _ _ _ ss _ =>
    obtain ⟨hss, hself⟩ := places_append.mp h
    simp only [numbered, moved, places_singleton.mp hself, Node.position,
      Stmt.movedAll_numbered ss hss, id]
  | .ifElse _ c y e =>
    obtain ⟨hparts, hself⟩ := places_append.mp h
    obtain ⟨hparts, he⟩ := places_append.mp hparts
    obtain ⟨hc, hy⟩ := places_append.mp hparts
    simp only [numbered, moved, places_singleton.mp hself, Node.position, c.moved_numbered hc,
      y.moved_numbered hy, Stmt.movedOption_numbered e he, id]
  | .whileLoop _ c b =>
    obtain ⟨hparts, hself⟩ := places_append.mp h
    obtain ⟨hc, hb⟩ := places_append.mp hparts
    simp only [numbered, moved, places_singleton.mp hself, Node.position, c.moved_numbered hc,
      b.moved_numbered hb, id]
  | .forLoop _ i c e b =>
    obtain ⟨hparts, hself⟩ := places_append.mp h
    obtain ⟨hparts, he⟩ := places_append.mp hparts
    obtain ⟨hparts, hb⟩ := places_append.mp hparts
    obtain ⟨hi, hc⟩ := places_append.mp hparts
    simp only [numbered, moved, places_singleton.mp hself, Node.position,
      Stmt.movedOption_numbered i hi, Expr.movedOption_numbered c hc, b.moved_numbered hb,
      Expr.movedOption_numbered e he, id]
  | .ret _ e =>
    obtain ⟨he, hself⟩ := places_append.mp h
    simp only [numbered, moved, places_singleton.mp hself, Node.position,
      Expr.movedOption_numbered e he, id]

/-- A program is put together again in the same way, the numbers running on from one
statement to the next. -/
theorem Stmt.movedAll_numbered (ss : List Stmt) {n : Nat} (h : Places g n (Stmt.nodesAll ss)) :
    Stmt.movedAll g (Stmt.numberedAll n ss) = Stmt.movedAll id ss := by
  match ss with
  | [] => rfl
  | s :: ss =>
    obtain ⟨hs, hss⟩ := places_append.mp h
    simp only [numberedAll, movedAll, s.moved_numbered hs, Stmt.movedAll_numbered ss hss]

theorem Stmt.movedOption_numbered (s : Option Stmt) {n : Nat}
    (h : Places g n (Stmt.nodesOption s)) :
    Stmt.movedOption g (Stmt.numberedOption n s) = Stmt.movedOption id s := by
  match s with
  | none => rfl
  | some s => simp only [numberedOption, movedOption, s.moved_numbered h]

end

end

section

variable (g : Position → Position)

mutual

/-- The numbers depend on the shape alone. -/
theorem Expr.numbered_moved (e : Expr) (n : Nat) : (e.moved g).numbered n = e.numbered n := by
  match e with
  | .number _ _ | .string _ _ | .boolean _ _ | .nil _ | .name _ _ => rfl
  | .unary _ _ x | .grouping _ x | .assign _ _ x =>
    simp [moved, numbered, x.nodes_moved, x.numbered_moved]
  | .binary _ _ l r =>
    simp [moved, numbered, l.nodes_moved, r.nodes_moved, l.numbered_moved, r.numbered_moved]
  | .call _ f es =>
    simp [moved, numbered, f.nodes_moved, Expr.nodesAll_moved, f.numbered_moved,
      Expr.numberedAll_moved es]

theorem Expr.numberedAll_moved (es : List Expr) (n : Nat) :
    Expr.numberedAll n (Expr.movedAll g es) = Expr.numberedAll n es := by
  match es with
  | [] => rfl
  | e :: es =>
    simp [movedAll, numberedAll, e.nodes_moved, e.numbered_moved, Expr.numberedAll_moved es]

end

theorem Expr.numberedOption_moved (e : Option Expr) (n : Nat) :
    (e.map (Expr.moved g)).map (Expr.numbered n) = e.map (Expr.numbered n) := by
  cases e with
  | none => rfl
  | some e => exact congrArg some (e.numbered_moved g n)

mutual

theorem Stmt.numbered_moved (s : Stmt) (n : Nat) : (s.moved g).numbered n = s.numbered n := by
  match s with
  | .expression _ e | .print _ e | .var _ _ e =>
    simp only [moved, numbered, e.nodes_moved, e.numbered_moved, List.length_map]
  | .block _ ss | .function _ _ _ ss _ =>
    simp only [moved, numbered, Stmt.nodesAll_moved, Stmt.numberedAll_moved ss, List.length_map]
  | .ifElse _ c y e =>
    simp only [moved, numbered, c.nodes_moved, y.nodes_moved, Stmt.nodesOption_moved,
      c.numbered_moved, y.numbered_moved, Stmt.numberedOption_moved e, List.length_append,
      List.length_map]
  | .whileLoop _ c b =>
    simp only [moved, numbered, c.nodes_moved, b.nodes_moved, c.numbered_moved, b.numbered_moved,
      List.length_append, List.length_map]
  | .forLoop _ i c e b =>
    simp only [moved, numbered, Stmt.nodesOption_moved, Expr.nodesOption_moved, b.nodes_moved,
      Stmt.numberedOption_moved i, Expr.numberedOption_moved, b.numbered_moved,
      List.length_append, List.length_map]
  | .ret _ e =>
    simp only [moved, numbered, Expr.nodesOption_moved, Expr.numberedOption_moved, List.length_map]

theorem Stmt.numberedAll_moved (ss : List Stmt) (n : Nat) :
    Stmt.numberedAll n (Stmt.movedAll g ss) = Stmt.numberedAll n ss := by
  match ss with
  | [] => rfl
  | s :: ss =>
    simp only [movedAll, numberedAll, s.nodes_moved, s.numbered_moved, Stmt.numberedAll_moved ss,
      List.length_map]

theorem Stmt.numberedOption_moved (s : Option Stmt) (n : Nat) :
    Stmt.numberedOption n (Stmt.movedOption g s) = Stmt.numberedOption n s := by
  match s with
  | none => rfl
  | some s => simp only [movedOption, numberedOption, s.numbered_moved]

end

end

/-- The trees of one shape are moved from one tree, each with the numbers sent to the
positions of its nodes. -/
theorem Stmt.exists_moved_of_sameShapes {ss ss' : List Stmt} (h : Stmt.sameShapes ss ss' = true) :
    ∃ g, Places g 0 (Stmt.nodesAll ss') ∧
      Stmt.movedAll g (Stmt.numberedAll 0 ss) = Stmt.movedAll id ss' := by
  rw [Stmt.sameShapes_iff_eraseAll] at h
  have hsame : Stmt.numberedAll 0 ss = Stmt.numberedAll 0 ss' := by
    rw [← Stmt.numberedAll_moved (fun _ => .start) ss, Stmt.movedAll_start, h,
      ← Stmt.movedAll_start, Stmt.numberedAll_moved]
  obtain ⟨g, hg⟩ := exists_places (Stmt.nodesAll ss')
  exact ⟨g, hg, hsame ▸ Stmt.movedAll_numbered ss' hg⟩

/-- Programs of one shape have equally many nodes. -/
theorem Stmt.length_nodesAll_of_sameShapes {ss ss' : List Stmt}
    (h : Stmt.sameShapes ss ss' = true) :
    (Stmt.nodesAll ss).length = (Stmt.nodesAll ss').length := by
  have herased := congrArg Stmt.nodesAll ((Stmt.sameShapes_iff_eraseAll ss ss').mp h)
  rw [← Stmt.movedAll_start, ← Stmt.movedAll_start, Stmt.nodesAll_moved,
    Stmt.nodesAll_moved] at herased
  simpa using congrArg List.length herased

end GradualScript
