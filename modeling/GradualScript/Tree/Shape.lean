import GradualScript.Tree

/-!
# The shape of a tree

Two trees have the same shape when they differ only in positions and recorded
types; number literals count by their bits. `erase` forgets what shape ignores.
`agrees` is the stricter comparison that sees positions and recorded types, and
compares number literals as values.
-/
namespace GradualScript

mutual

/-- The expression at the start of a text, unchecked. -/
def Expr.erase : Expr → Expr
  | .number _ v => .number (.unchecked .start) v
  | .string _ s => .string (.unchecked .start) s
  | .boolean _ b => .boolean (.unchecked .start) b
  | .nil _ => .nil (.unchecked .start)
  | .unary _ op e => .unary (.unchecked .start) op e.erase
  | .binary _ op l r => .binary (.unchecked .start) op l.erase r.erase
  | .grouping _ e => .grouping (.unchecked .start) e.erase
  | .name _ n => .name (.unchecked .start) n
  | .assign _ n e => .assign (.unchecked .start) n e.erase
  | .call _ f es => .call (.unchecked .start) f.erase (Expr.eraseAll es)

def Expr.eraseAll : List Expr → List Expr
  | [] => []
  | e :: es => e.erase :: Expr.eraseAll es

end

mutual

/-- The statement at the start of a text, unchecked. -/
def Stmt.erase : Stmt → Stmt
  | .expression _ e => .expression .start e.erase
  | .print _ e => .print .start e.erase
  | .var _ n e => .var .start n e.erase
  | .block _ ss => .block .start (Stmt.eraseAll ss)
  | .ifElse _ c y n => .ifElse .start c.erase y.erase (Stmt.eraseOption n)
  | .whileLoop _ c b => .whileLoop .start c.erase b.erase
  | .forLoop _ i c n b =>
      .forLoop .start (Stmt.eraseOption i) (c.map Expr.erase) (n.map Expr.erase) b.erase
  | .function _ n ps ss t => .function .start n ps (Stmt.eraseAll ss) t
  | .ret _ e => .ret .start (e.map Expr.erase)

def Stmt.eraseAll : List Stmt → List Stmt
  | [] => []
  | s :: ss => s.erase :: Stmt.eraseAll ss

def Stmt.eraseOption : Option Stmt → Option Stmt
  | none => none
  | some s => some s.erase

end

mutual

/-- Equality of expressions up to positions and types. -/
def Expr.sameShape : Expr → Expr → Bool
  | .number _ a, .number _ b => a = b
  | .string _ a, .string _ b => a = b
  | .boolean _ a, .boolean _ b => a = b
  | .nil _, .nil _ => true
  | .unary _ op a, .unary _ op' b => op = op' && a.sameShape b
  | .binary _ op l r, .binary _ op' l' r' => op = op' && l.sameShape l' && r.sameShape r'
  | .grouping _ a, .grouping _ b => a.sameShape b
  | .name _ a, .name _ b => a = b
  | .assign _ n a, .assign _ n' b => n = n' && a.sameShape b
  | .call _ f es, .call _ f' es' => f.sameShape f' && Expr.sameShapes es es'
  | _, _ => false

def Expr.sameShapes : List Expr → List Expr → Bool
  | [], [] => true
  | a :: as, b :: bs => a.sameShape b && Expr.sameShapes as bs
  | _, _ => false

end

/-- Both are there and have the same shape, or neither is there. -/
def Expr.sameShapeOption : Option Expr → Option Expr → Bool
  | none, none => true
  | some a, some b => a.sameShape b
  | _, _ => false

mutual

/-- Trees have the same shape exactly when nothing tells them apart once `erase` has
forgotten their positions and recorded types. -/
theorem Expr.sameShape_iff_erase : ∀ e e' : Expr, e.sameShape e' = true ↔ e.erase = e'.erase
  | .number _ _, e' | .string _ _, e' | .boolean _ _, e' | .nil _, e' | .name _ _, e' => by
      cases e' <;> simp [Expr.sameShape, Expr.erase]
  | .unary _ _ a, e' => by
      cases e' <;> simp [Expr.sameShape, Expr.erase, sameShape_iff_erase a]
  | .binary _ _ l r, e' => by
      cases e' <;>
        simp [Expr.sameShape, Expr.erase, sameShape_iff_erase l, sameShape_iff_erase r, and_assoc]
  | .grouping _ a, e' => by
      cases e' <;> simp [Expr.sameShape, Expr.erase, sameShape_iff_erase a]
  | .assign _ _ a, e' => by
      cases e' <;> simp [Expr.sameShape, Expr.erase, sameShape_iff_erase a]
  | .call _ f es, e' => by
      cases e' <;>
        simp [Expr.sameShape, Expr.erase, sameShape_iff_erase f, sameShapes_iff_eraseAll es]

theorem Expr.sameShapes_iff_eraseAll :
    ∀ es es' : List Expr, Expr.sameShapes es es' = true ↔ Expr.eraseAll es = Expr.eraseAll es'
  | [], es' => by cases es' <;> simp [Expr.sameShapes, Expr.eraseAll]
  | e :: es, es' => by
      cases es' <;>
        simp [Expr.sameShapes, Expr.eraseAll, sameShape_iff_erase e, sameShapes_iff_eraseAll es]

end

theorem Expr.sameShapeOption_iff_erase (e e' : Option Expr) :
    Expr.sameShapeOption e e' = true ↔ e.map Expr.erase = e'.map Expr.erase := by
  cases e <;> cases e' <;> simp [Expr.sameShapeOption, Expr.sameShape_iff_erase]

mutual

/-- Equality of statements up to the positions and types in them. -/
def Stmt.sameShape : Stmt → Stmt → Bool
  | .expression _ a, .expression _ b => a.sameShape b
  | .print _ a, .print _ b => a.sameShape b
  | .var _ n a, .var _ n' b => n = n' && a.sameShape b
  | .block _ ss, .block _ ss' => Stmt.sameShapes ss ss'
  | .ifElse _ c y n, .ifElse _ c' y' n' =>
      c.sameShape c' && y.sameShape y' && Stmt.sameShapeOption n n'
  | .whileLoop _ c b, .whileLoop _ c' b' => c.sameShape c' && b.sameShape b'
  | .forLoop _ i c n b, .forLoop _ i' c' n' b' =>
      Stmt.sameShapeOption i i' && Expr.sameShapeOption c c' && Expr.sameShapeOption n n' &&
        b.sameShape b'
  | .function _ n ps ss t, .function _ n' ps' ss' t' =>
      n = n' && ps = ps' && t = t' && Stmt.sameShapes ss ss'
  | .ret _ a, .ret _ b => Expr.sameShapeOption a b
  | _, _ => false

def Stmt.sameShapes : List Stmt → List Stmt → Bool
  | [], [] => true
  | a :: as, b :: bs => a.sameShape b && Stmt.sameShapes as bs
  | _, _ => false

/-- Both absent, or both there and of one shape. -/
def Stmt.sameShapeOption : Option Stmt → Option Stmt → Bool
  | none, none => true
  | some a, some b => a.sameShape b
  | _, _ => false

end

mutual

/-- Statements of one shape differ in nothing that erasing leaves. -/
theorem Stmt.sameShape_iff_erase : ∀ s s' : Stmt, s.sameShape s' = true ↔ s.erase = s'.erase
  | .expression _ _, s' | .print _ _, s' | .var _ _ _, s' => by
      cases s' <;> simp [Stmt.sameShape, Stmt.erase, Expr.sameShape_iff_erase]
  | .ret _ _, s' => by
      cases s' <;> simp [Stmt.sameShape, Stmt.erase, Expr.sameShapeOption_iff_erase]
  | .block _ ss, s' => by
      cases s' <;> simp [Stmt.sameShape, Stmt.erase, sameShapes_iff_eraseAll ss]
  | .ifElse _ _ y n, s' => by
      cases s' <;>
        simp [Stmt.sameShape, Stmt.erase, Expr.sameShape_iff_erase, sameShape_iff_erase y,
          sameShapeOption_iff_erase n, and_assoc]
  | .whileLoop _ _ b, s' => by
      cases s' <;>
        simp [Stmt.sameShape, Stmt.erase, Expr.sameShape_iff_erase, sameShape_iff_erase b]
  | .forLoop _ i _ _ b, s' => by
      cases s' <;>
        simp [Stmt.sameShape, Stmt.erase, Expr.sameShapeOption_iff_erase, sameShape_iff_erase b,
          sameShapeOption_iff_erase i, and_assoc]
  | .function _ _ _ ss t, s' => by
      cases s' with
      | function _ _ _ _ t' =>
          -- The body comes before the result type in a tree, and after it in a comparison.
          simp [Stmt.sameShape, Stmt.erase, sameShapes_iff_eraseAll ss, and_assoc,
            and_comm (a := t = t')]
      | _ => simp [Stmt.sameShape, Stmt.erase]

theorem Stmt.sameShapes_iff_eraseAll :
    ∀ ss ss' : List Stmt, Stmt.sameShapes ss ss' = true ↔ Stmt.eraseAll ss = Stmt.eraseAll ss'
  | [], ss' => by cases ss' <;> simp [Stmt.sameShapes, Stmt.eraseAll]
  | s :: ss, ss' => by
      cases ss' <;>
        simp [Stmt.sameShapes, Stmt.eraseAll, sameShape_iff_erase s, sameShapes_iff_eraseAll ss]

theorem Stmt.sameShapeOption_iff_erase :
    ∀ s s' : Option Stmt,
      Stmt.sameShapeOption s s' = true ↔ Stmt.eraseOption s = Stmt.eraseOption s'
  | none, s' => by cases s' <;> simp [Stmt.sameShapeOption, Stmt.eraseOption]
  | some s, s' => by
      cases s' <;> simp [Stmt.sameShapeOption, Stmt.eraseOption, sameShape_iff_erase s]

end

mutual

/-- Equality of whole expressions, positions and types included. Numbers are compared as
numbers, so a zero agrees with its negative and no NaN agrees with itself. -/
def Expr.agrees : Expr → Expr → Bool
  | .number m a, .number m' b => m = m' && a.same b
  | .string m a, .string m' b => m = m' && a = b
  | .boolean m a, .boolean m' b => m = m' && a = b
  | .nil m, .nil m' => m = m'
  | .unary m op a, .unary m' op' b => m = m' && op = op' && a.agrees b
  | .binary m op l r, .binary m' op' l' r' => m = m' && op = op' && l.agrees l' && r.agrees r'
  | .grouping m a, .grouping m' b => m = m' && a.agrees b
  | .name m a, .name m' b => m = m' && a = b
  | .assign m n a, .assign m' n' b => m = m' && n = n' && a.agrees b
  | .call m f es, .call m' f' es' => m = m' && f.agrees f' && Expr.agreesAll es es'
  | _, _ => false

def Expr.agreesAll : List Expr → List Expr → Bool
  | [], [] => true
  | a :: as, b :: bs => a.agrees b && Expr.agreesAll as bs
  | _, _ => false

end

def Expr.agreesOption : Option Expr → Option Expr → Bool
  | none, none => true
  | some a, some b => a.agrees b
  | _, _ => false

mutual

/-- Equality of whole statements, positions included. -/
def Stmt.agrees : Stmt → Stmt → Bool
  | .expression p a, .expression p' b => p = p' && a.agrees b
  | .print p a, .print p' b => p = p' && a.agrees b
  | .var p n a, .var p' n' b => p = p' && n = n' && a.agrees b
  | .block p ss, .block p' ss' => p = p' && Stmt.agreesAll ss ss'
  | .ifElse p c y n, .ifElse p' c' y' n' =>
      p = p' && c.agrees c' && y.agrees y' && Stmt.agreesOption n n'
  | .whileLoop p c b, .whileLoop p' c' b' => p = p' && c.agrees c' && b.agrees b'
  | .forLoop p i c n b, .forLoop p' i' c' n' b' =>
      p = p' && Stmt.agreesOption i i' && Expr.agreesOption c c' && Expr.agreesOption n n' &&
        b.agrees b'
  | .function p n ps ss t, .function p' n' ps' ss' t' =>
      p = p' && n = n' && ps = ps' && t = t' && Stmt.agreesAll ss ss'
  | .ret p a, .ret p' b => p = p' && Expr.agreesOption a b
  | _, _ => false

def Stmt.agreesAll : List Stmt → List Stmt → Bool
  | [], [] => true
  | a :: as, b :: bs => a.agrees b && Stmt.agreesAll as bs
  | _, _ => false

def Stmt.agreesOption : Option Stmt → Option Stmt → Bool
  | none, none => true
  | some a, some b => a.agrees b
  | _, _ => false

end

end GradualScript
