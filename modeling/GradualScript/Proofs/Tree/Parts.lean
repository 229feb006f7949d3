import GradualScript.Proofs.Tree.Moved

/-!
# Parts of a tree

The parts of a tree are its expressions and statements, in the order in which checking
leaves them: from left to right, and each after its own parts. The increment of a loop
comes after its body.
-/
namespace GradualScript

/-- An expression or a statement inside a tree, as a tree of its own. -/
inductive Part where
  | expression (e : Expr)
  | statement (s : Stmt)

namespace Part

def position : Part → Position
  | expression e => e.position
  | statement s => s.position

/-- The part with every position in it replaced. -/
def moved (g : Position → Position) : Part → Part
  | expression e => expression (e.moved g)
  | statement s => statement (s.moved g)

end Part

mutual

/-- The expression with all expressions inside it, inner ones first. -/
def Expr.parts : Expr → List Part
  | .number m v => [.expression (.number m v)]
  | .string m s => [.expression (.string m s)]
  | .boolean m b => [.expression (.boolean m b)]
  | .nil m => [.expression (.nil m)]
  | .unary m op e => e.parts ++ [.expression (.unary m op e)]
  | .binary m op l r => l.parts ++ r.parts ++ [.expression (.binary m op l r)]
  | .grouping m e => e.parts ++ [.expression (.grouping m e)]
  | .name m n => [.expression (.name m n)]
  | .assign m n e => e.parts ++ [.expression (.assign m n e)]
  | .call m f es => f.parts ++ Expr.partsAll es ++ [.expression (.call m f es)]

def Expr.partsAll : List Expr → List Part
  | [] => []
  | e :: es => e.parts ++ Expr.partsAll es

end

def Expr.partsOption : Option Expr → List Part
  | none => []
  | some e => e.parts

/-- The parts of an expression beside itself. -/
def Expr.inner : Expr → List Part
  | .number _ _ | .string _ _ | .boolean _ _ | .nil _ | .name _ _ => []
  | .unary _ _ e | .grouping _ e | .assign _ _ e => e.parts
  | .binary _ _ l r => l.parts ++ r.parts
  | .call _ f es => f.parts ++ Expr.partsAll es

mutual

/-- The statement with everything inside it, also the body of a function. -/
def Stmt.parts : Stmt → List Part
  | .expression p e => e.parts ++ [.statement (.expression p e)]
  | .print p e => e.parts ++ [.statement (.print p e)]
  | .var p n e => e.parts ++ [.statement (.var p n e)]
  | .block p ss => Stmt.partsAll ss ++ [.statement (.block p ss)]
  | .ifElse p c y n =>
      c.parts ++ y.parts ++ Stmt.partsOption n ++ [.statement (.ifElse p c y n)]
  | .whileLoop p c b => c.parts ++ b.parts ++ [.statement (.whileLoop p c b)]
  | .forLoop p i c n b =>
      Stmt.partsOption i ++ Expr.partsOption c ++ b.parts ++ Expr.partsOption n ++
        [.statement (.forLoop p i c n b)]
  | .function p n ps ss t => Stmt.partsAll ss ++ [.statement (.function p n ps ss t)]
  | .ret p e => Expr.partsOption e ++ [.statement (.ret p e)]

def Stmt.partsAll : List Stmt → List Part
  | [] => []
  | s :: ss => s.parts ++ Stmt.partsAll ss

def Stmt.partsOption : Option Stmt → List Part
  | none => []
  | some s => s.parts

end

namespace Expr

/-- An expression is the last of its parts. -/
theorem parts_eq (e : Expr) : e.parts = e.inner ++ [.expression e] := by
  cases e with
  | _ => rfl

/-- To record a type changes only the outermost node. -/
@[simp] theorem inner_record (e : Expr) (type : TypeSet) : (e.record type).inner = e.inner := by
  cases e with
  | _ => rfl

theorem self_mem_parts (e : Expr) : .expression e ∈ e.parts := by
  rw [e.parts_eq]
  exact List.mem_append_right _ List.mem_cons_self

end Expr

section

variable (g : Position → Position)

/-- A part stands at the position of its node, wherever that is moved. -/
theorem Part.position_moved (part : Part) : (part.moved g).position = g part.position := by
  cases part with
  | expression e => exact e.position_moved g
  | statement s =>
    cases s with
    | _ => rfl

mutual

/-- The parts of a moved expression are the moved parts. -/
theorem Expr.parts_moved (e : Expr) : (e.moved g).parts = e.parts.map (Part.moved g) := by
  match e with
  | .number _ _ | .string _ _ | .boolean _ _ | .nil _ | .name _ _ => rfl
  | .unary _ _ x | .grouping _ x | .assign _ _ x =>
    simp [moved, parts, x.parts_moved, Part.moved]
  | .binary _ _ l r => simp [moved, parts, l.parts_moved, r.parts_moved, Part.moved]
  | .call _ f es => simp [moved, parts, f.parts_moved, Expr.partsAll_moved es, Part.moved]

theorem Expr.partsAll_moved (es : List Expr) :
    Expr.partsAll (Expr.movedAll g es) = (Expr.partsAll es).map (Part.moved g) := by
  match es with
  | [] => rfl
  | e :: es => simp [movedAll, partsAll, e.parts_moved, Expr.partsAll_moved es]

end

theorem Expr.partsOption_moved (e : Option Expr) :
    Expr.partsOption (e.map (Expr.moved g)) = (Expr.partsOption e).map (Part.moved g) := by
  cases e with
  | none => rfl
  | some e => exact e.parts_moved g

mutual

/-- The parts of a moved statement are the moved parts. -/
theorem Stmt.parts_moved (s : Stmt) : (s.moved g).parts = s.parts.map (Part.moved g) := by
  match s with
  | .expression _ e | .print _ e | .var _ _ e => simp [moved, parts, e.parts_moved, Part.moved]
  | .block _ ss | .function _ _ _ ss _ => simp [moved, parts, Stmt.partsAll_moved ss, Part.moved]
  | .ifElse _ c y n =>
    simp [moved, parts, c.parts_moved, y.parts_moved, Stmt.partsOption_moved n, Part.moved]
  | .whileLoop _ c b => simp [moved, parts, c.parts_moved, b.parts_moved, Part.moved]
  | .forLoop _ i c n b =>
    simp [moved, parts, Stmt.partsOption_moved i, Expr.partsOption_moved, b.parts_moved, Part.moved]
  | .ret _ e => simp [moved, parts, Expr.partsOption_moved, Part.moved]

theorem Stmt.partsAll_moved (ss : List Stmt) :
    Stmt.partsAll (Stmt.movedAll g ss) = (Stmt.partsAll ss).map (Part.moved g) := by
  match ss with
  | [] => rfl
  | s :: ss => simp [movedAll, partsAll, s.parts_moved, Stmt.partsAll_moved ss]

theorem Stmt.partsOption_moved (s : Option Stmt) :
    Stmt.partsOption (Stmt.movedOption g s) = (Stmt.partsOption s).map (Part.moved g) := by
  match s with
  | none => rfl
  | some s => simp [movedOption, partsOption, s.parts_moved]

end

end

end GradualScript
