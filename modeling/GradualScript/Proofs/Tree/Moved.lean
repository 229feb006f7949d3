import GradualScript.Tree.Shape

/-!
# Moved trees

A tree is moved when every position in it is sent elsewhere. A moved tree is unchecked.
To forget the positions of a tree is to move them all to the start of a text, so trees
have the same shape when they are moved to the same tree.
-/
namespace GradualScript

/-- A cause at the place that its place is sent to. -/
def Located.moved {ε : Type} (g : Position → Position) (e : Located ε) : Located ε :=
  ⟨e.cause, g e.position⟩

/-- A token with its position replaced. -/
def Token.moved (g : Position → Position) (t : Token) : Token := ⟨t.kind, t.lexeme, g t.position⟩

/-- An unchecked mark at the place that its place is sent to. -/
def Mark.moved (g : Position → Position) (m : Mark) : Mark := .unchecked (g m.position)

mutual

/-- An expression with every position replaced and every recorded type dropped. -/
def Expr.moved (g : Position → Position) : Expr → Expr
  | .number m v => .number (m.moved g) v
  | .string m s => .string (m.moved g) s
  | .boolean m b => .boolean (m.moved g) b
  | .nil m => .nil (m.moved g)
  | .unary m op e => .unary (m.moved g) op (e.moved g)
  | .binary m op l r => .binary (m.moved g) op (l.moved g) (r.moved g)
  | .grouping m e => .grouping (m.moved g) (e.moved g)
  | .name m n => .name (m.moved g) n
  | .assign m n e => .assign (m.moved g) n (e.moved g)
  | .call m f es => .call (m.moved g) (f.moved g) (Expr.movedAll g es)

def Expr.movedAll (g : Position → Position) : List Expr → List Expr
  | [] => []
  | e :: es => e.moved g :: Expr.movedAll g es

end

mutual

/-- A statement with every position in it replaced, and with no recorded types. -/
def Stmt.moved (g : Position → Position) : Stmt → Stmt
  | .expression p e => .expression (g p) (e.moved g)
  | .print p e => .print (g p) (e.moved g)
  | .var p n e => .var (g p) n (e.moved g)
  | .block p ss => .block (g p) (Stmt.movedAll g ss)
  | .ifElse p c y n => .ifElse (g p) (c.moved g) (y.moved g) (Stmt.movedOption g n)
  | .whileLoop p c b => .whileLoop (g p) (c.moved g) (b.moved g)
  | .forLoop p i c n b =>
      .forLoop (g p) (Stmt.movedOption g i) (c.map (Expr.moved g)) (n.map (Expr.moved g)) (b.moved g)
  | .function p n ps ss t => .function (g p) n ps (Stmt.movedAll g ss) t
  | .ret p e => .ret (g p) (e.map (Expr.moved g))

def Stmt.movedAll (g : Position → Position) : List Stmt → List Stmt
  | [] => []
  | s :: ss => s.moved g :: Stmt.movedAll g ss

def Stmt.movedOption (g : Position → Position) : Option Stmt → Option Stmt
  | none => none
  | some s => some (s.moved g)

end

theorem Expr.movedAll_eq_map (g : Position → Position) (es : List Expr) :
    Expr.movedAll g es = es.map (Expr.moved g) := by
  induction es with
  | nil => rfl
  | cons e es ih => rw [Expr.movedAll, ih, List.map_cons]

theorem Stmt.movedAll_eq_map (g : Position → Position) (ss : List Stmt) :
    Stmt.movedAll g ss = ss.map (Stmt.moved g) := by
  induction ss with
  | nil => rfl
  | cons s ss ih => rw [Stmt.movedAll, ih, List.map_cons]

variable (g : Position → Position)

/-- The mark of an expression moves with it. -/
theorem Expr.mark_moved (e : Expr) : (e.moved g).mark = e.mark.moved g := by
  cases e with
  | _ => rfl

theorem Expr.position_moved (e : Expr) : (e.moved g).position = g e.position :=
  congrArg Mark.position (e.mark_moved g)

/-- A moved expression is an unchecked one. -/
theorem Expr.type_moved (e : Expr) : (e.moved g).type = none :=
  congrArg Mark.type (e.mark_moved g)

mutual

/-- Where a tree stood before does not show in its shape. -/
theorem Expr.erase_moved (e : Expr) : (e.moved g).erase = e.erase := by
  match e with
  | .number _ _ | .string _ _ | .boolean _ _ | .nil _ | .name _ _ => rfl
  | .unary _ _ x | .grouping _ x | .assign _ _ x => simp only [moved, erase, x.erase_moved]
  | .binary _ _ l r => simp only [moved, erase, l.erase_moved, r.erase_moved]
  | .call _ f es => simp only [moved, erase, f.erase_moved, Expr.eraseAll_moved es]

theorem Expr.eraseAll_moved (es : List Expr) :
    Expr.eraseAll (Expr.movedAll g es) = Expr.eraseAll es := by
  match es with
  | [] => rfl
  | e :: es => simp only [movedAll, eraseAll, e.erase_moved, Expr.eraseAll_moved es]

end

theorem Expr.eraseOption_moved (e : Option Expr) :
    (e.map (Expr.moved g)).map Expr.erase = e.map Expr.erase := by
  cases e with
  | none => rfl
  | some e => exact congrArg some (e.erase_moved g)

mutual

/-- Erasing forgets what moving changes. -/
theorem Stmt.erase_moved (s : Stmt) : (s.moved g).erase = s.erase := by
  match s with
  | .expression _ e | .print _ e | .var _ _ e => simp only [moved, erase, e.erase_moved]
  | .block _ ss | .function _ _ _ ss _ => simp only [moved, erase, Stmt.eraseAll_moved ss]
  | .ifElse _ c y n =>
    simp only [moved, erase, c.erase_moved, y.erase_moved, Stmt.eraseOption_moved n]
  | .whileLoop _ c b => simp only [moved, erase, c.erase_moved, b.erase_moved]
  | .forLoop _ i c n b =>
    simp only [moved, erase, Stmt.eraseOption_moved i, Expr.eraseOption_moved, b.erase_moved]
  | .ret _ e => simp only [moved, erase, Expr.eraseOption_moved]

theorem Stmt.eraseAll_moved (ss : List Stmt) :
    Stmt.eraseAll (Stmt.movedAll g ss) = Stmt.eraseAll ss := by
  match ss with
  | [] => rfl
  | s :: ss => simp only [movedAll, eraseAll, s.erase_moved, Stmt.eraseAll_moved ss]

theorem Stmt.eraseOption_moved (s : Option Stmt) :
    Stmt.eraseOption (Stmt.movedOption g s) = Stmt.eraseOption s := by
  match s with
  | none => rfl
  | some s => simp only [movedOption, eraseOption, s.erase_moved]

end

mutual

/-- To erase is to move everything to the start. -/
theorem Expr.moved_start (e : Expr) : e.moved (fun _ => .start) = e.erase := by
  match e with
  | .number _ _ | .string _ _ | .boolean _ _ | .nil _ | .name _ _ => rfl
  | .unary _ _ x | .grouping _ x | .assign _ _ x =>
    simp only [moved, erase, x.moved_start, Mark.moved]
  | .binary _ _ l r => simp only [moved, erase, l.moved_start, r.moved_start, Mark.moved]
  | .call _ f es => simp only [moved, erase, f.moved_start, Expr.movedAll_start es, Mark.moved]

theorem Expr.movedAll_start (es : List Expr) :
    Expr.movedAll (fun _ => .start) es = Expr.eraseAll es := by
  match es with
  | [] => rfl
  | e :: es => simp only [movedAll, eraseAll, e.moved_start, Expr.movedAll_start es]

end

theorem Expr.moved_start_eq : Expr.moved (fun _ => .start) = Expr.erase :=
  funext Expr.moved_start

mutual

theorem Stmt.moved_start (s : Stmt) : s.moved (fun _ => .start) = s.erase := by
  match s with
  | .expression _ e | .print _ e | .var _ _ e => simp only [moved, erase, e.moved_start]
  | .block _ ss | .function _ _ _ ss _ => simp only [moved, erase, Stmt.movedAll_start ss]
  | .ifElse _ c y n =>
    simp only [moved, erase, c.moved_start, y.moved_start, Stmt.movedOption_start n]
  | .whileLoop _ c b => simp only [moved, erase, c.moved_start, b.moved_start]
  | .forLoop _ i c n b =>
    simp only [moved, erase, Stmt.movedOption_start i, Expr.moved_start_eq, b.moved_start]
  | .ret _ e => simp only [moved, erase, Expr.moved_start_eq]

/-- Erased programs are programs moved to the start, statement by statement. -/
theorem Stmt.movedAll_start (ss : List Stmt) :
    Stmt.movedAll (fun _ => .start) ss = Stmt.eraseAll ss := by
  match ss with
  | [] => rfl
  | s :: ss => simp only [movedAll, eraseAll, s.moved_start, Stmt.movedAll_start ss]

theorem Stmt.movedOption_start (s : Option Stmt) :
    Stmt.movedOption (fun _ => .start) s = Stmt.eraseOption s := by
  match s with
  | none => rfl
  | some s => simp only [movedOption, eraseOption, s.moved_start]

end

end GradualScript
