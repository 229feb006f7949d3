import GradualScript.Number.Layout
import GradualScript.Tree.Shape

/-!
# Trees as source text

A tree is written on one line. The text adds no parentheses of its own: a tree
that was read from source text has them where they are needed. String literals
are quoted, and number literals have no exponents, as source text requires.
-/
namespace GradualScript

mutual

def Expr.source : Expr → String
  | .number _ v => NumberLayout.literal.write v
  | .string _ s => "\"" ++ s ++ "\""
  | .boolean _ b => if b then "true" else "false"
  | .nil _ => "nil"
  | .unary _ op e => op.lexeme ++ e.source
  | .binary _ op l r => l.source ++ " " ++ op.lexeme ++ " " ++ r.source
  | .grouping _ e => "(" ++ e.source ++ ")"
  | .name _ n => n
  | .assign _ n e => n ++ " = " ++ e.source
  | .call _ f es => f.source ++ "(" ++ ", ".intercalate (Expr.sources es) ++ ")"

def Expr.sources : List Expr → List String
  | [] => []
  | e :: es => e.source :: Expr.sources es

end

/-- A clause of a loop head, with a space before it if it is there. -/
def Expr.clauseSource : Option Expr → String
  | none => ""
  | some e => " " ++ e.source

mutual

/-- The text of a tree shows no positions and no recorded types. -/
theorem Expr.source_erase : ∀ e : Expr, e.erase.source = e.source
  | .number _ _ | .string _ _ | .boolean _ _ | .nil _ | .name _ _ => rfl
  | .unary _ _ a => by simp [Expr.source, Expr.erase, source_erase a]
  | .binary _ _ l r => by simp [Expr.source, Expr.erase, source_erase l, source_erase r]
  | .grouping _ a => by simp [Expr.source, Expr.erase, source_erase a]
  | .assign _ _ a => by simp [Expr.source, Expr.erase, source_erase a]
  | .call _ f es => by simp [Expr.source, Expr.erase, source_erase f, sources_eraseAll es]

theorem Expr.sources_eraseAll :
    ∀ es : List Expr, Expr.sources (Expr.eraseAll es) = Expr.sources es
  | [] => rfl
  | e :: es => by simp [Expr.sources, Expr.eraseAll, source_erase e, sources_eraseAll es]

end

theorem Expr.clauseSource_erase (e : Option Expr) :
    Expr.clauseSource (e.map Expr.erase) = Expr.clauseSource e := by
  cases e <;> simp [Expr.clauseSource, Expr.source_erase]

mutual

def Stmt.source : Stmt → String
  | .expression _ e => e.source ++ ";"
  | .print _ e => "print " ++ e.source ++ ";"
  | .var _ n e => "var " ++ n ++ " = " ++ e.source ++ ";"
  | .block _ ss => Stmt.bodySource ss
  | .ifElse _ c y n => "if (" ++ c.source ++ ") " ++ y.source ++ Stmt.elseSource n
  | .whileLoop _ c b => "while (" ++ c.source ++ ") " ++ b.source
  | .forLoop _ i c n b =>
      "for (" ++ Stmt.initSource i ++ Expr.clauseSource c ++ ";" ++ Expr.clauseSource n ++ ") " ++
        b.source
  | .function _ n ps ss _ =>
      "fun " ++ n ++ "(" ++ ", ".intercalate ps ++ ") " ++ Stmt.bodySource ss
  | .ret _ e => "return" ++ Expr.clauseSource e ++ ";"

/-- Statements in braces; each is followed by a space. -/
def Stmt.bodySource : List Stmt → String
  | [] => "\x7b\x7d"
  | s :: ss => "\x7b " ++ s.source ++ " " ++ Stmt.restSource ss

/-- The statements of a body after its first, and the closing brace. -/
def Stmt.restSource : List Stmt → String
  | [] => "\x7d"
  | s :: ss => s.source ++ " " ++ Stmt.restSource ss

def Stmt.elseSource : Option Stmt → String
  | none => ""
  | some s => " else " ++ s.source

/-- The first clause of a loop head with its semicolon. -/
def Stmt.initSource : Option Stmt → String
  | none => ";"
  | some s => s.source

end

mutual

theorem Stmt.source_erase : ∀ s : Stmt, s.erase.source = s.source
  | .expression _ _ | .print _ _ | .var _ _ _ => by
      simp [Stmt.source, Stmt.erase, Expr.source_erase]
  | .ret _ _ => by simp [Stmt.source, Stmt.erase, Expr.clauseSource_erase]
  | .block _ ss => by simp [Stmt.source, Stmt.erase, bodySource_eraseAll ss]
  | .ifElse _ _ y n => by
      simp [Stmt.source, Stmt.erase, Expr.source_erase, source_erase y, elseSource_erase n]
  | .whileLoop _ _ b => by simp [Stmt.source, Stmt.erase, Expr.source_erase, source_erase b]
  | .forLoop _ i _ _ b => by
      simp [Stmt.source, Stmt.erase, Expr.clauseSource_erase, initSource_erase i, source_erase b]
  | .function _ _ _ ss _ => by simp [Stmt.source, Stmt.erase, bodySource_eraseAll ss]

theorem Stmt.bodySource_eraseAll :
    ∀ ss : List Stmt, Stmt.bodySource (Stmt.eraseAll ss) = Stmt.bodySource ss
  | [] => rfl
  | s :: ss => by simp [Stmt.bodySource, Stmt.eraseAll, source_erase s, restSource_eraseAll ss]

theorem Stmt.restSource_eraseAll :
    ∀ ss : List Stmt, Stmt.restSource (Stmt.eraseAll ss) = Stmt.restSource ss
  | [] => rfl
  | s :: ss => by simp [Stmt.restSource, Stmt.eraseAll, source_erase s, restSource_eraseAll ss]

theorem Stmt.elseSource_erase :
    ∀ s : Option Stmt, Stmt.elseSource (Stmt.eraseOption s) = Stmt.elseSource s
  | none => rfl
  | some s => by simp [Stmt.elseSource, Stmt.eraseOption, source_erase s]

theorem Stmt.initSource_erase :
    ∀ s : Option Stmt, Stmt.initSource (Stmt.eraseOption s) = Stmt.initSource s
  | none => rfl
  | some s => by simp [Stmt.initSource, Stmt.eraseOption, source_erase s]

end

theorem Stmt.map_source_eraseAll :
    ∀ ss : List Stmt, (Stmt.eraseAll ss).map Stmt.source = ss.map Stmt.source
  | [] => rfl
  | s :: ss => by simp [Stmt.eraseAll, Stmt.source_erase s, map_source_eraseAll ss]

/-- The statements of a program with one space between them. -/
def Program.source (program : Program) : String := " ".intercalate (program.map Stmt.source)

/-- Programs of the same shape are printed alike. -/
theorem Program.source_eq_of_sameShapes {p q : Program} (h : Stmt.sameShapes p q = true) :
    p.source = q.source := by
  have herase : Stmt.eraseAll p = Stmt.eraseAll q := (Stmt.sameShapes_iff_eraseAll p q).mp h
  unfold Program.source
  rw [← Stmt.map_source_eraseAll p, herase, Stmt.map_source_eraseAll q]

end GradualScript
