import GradualScript.Number.Layout
import GradualScript.Tree

/-!
# Structural dumps

A dump shows every part of a tree or token: constructor names with their fields,
quoted strings, positions, and the recorded type of each checked expression.
-/
namespace GradualScript

namespace Dump

/-- A character of a quoted string. -/
def escape : Char → List Char
  | '\\' => ['\\', '\\']
  | '"' => ['\\', '"']
  | '\n' => ['\\', 'n']
  | '\r' => ['\\', 'r']
  | '\t' => ['\\', 't']
  | c => [c]

/-- A string in double quotes. -/
def quoted (s : String) : String := "\"" ++ String.ofList (s.toList.flatMap escape) ++ "\""

def list (items : List String) : String := "[" ++ ", ".intercalate items ++ "]"

/-- A constructor and its only argument. -/
def apply (head argument : String) : String := head ++ "(" ++ argument ++ ")"

def option : Option String → String
  | none => "None"
  | some s => apply "Some" s

/-- A constructor and its named fields. -/
def fields (head : String) (named : List (String × String)) : String :=
  head ++ " \x7b " ++ ", ".intercalate (named.map fun f => f.1 ++ ": " ++ f.2) ++ " \x7d"

/-- A node and where it stands. -/
def placed (node : String) (position : Position) : String := node ++ " @ " ++ position.text

end Dump

open Dump

def Position.dump (p : Position) : String :=
  fields "Position" [("line", toString p.line), ("column", toString p.column)]

def Tag.dump : Tag → String
  | .nil => "NIL"
  | .numeric => "NUMERIC"
  | .string => "STRING"
  | .boolean => "BOOLEAN"

def TypeSet.dump : TypeSet → String
  | .any => apply "Type" "Any"
  | .tags s _ =>
      apply "Type" (apply "Tags" (apply "TypeTags" (" | ".intercalate (s.toList.map Tag.dump))))

def Operator.dump : Operator → String
  | .negate => "Negate"
  | .add => "Add"
  | .subtract => "Subtract"
  | .multiply => "Multiply"
  | .divide => "Divide"
  | .and => "And"
  | .or => "Or"
  | .equal => "Equal"
  | .notEqual => "NotEqual"
  | .less => "Less"
  | .lessEqual => "LessEqual"
  | .greater => "Greater"
  | .greaterEqual => "GreaterEqual"

def TokenKind.dump : TokenKind → String
  | .leftParen => "LeftParen"
  | .rightParen => "RightParen"
  | .leftBrace => "LeftBrace"
  | .rightBrace => "RightBrace"
  | .comma => "Comma"
  | .dot => "Dot"
  | .semicolon => "Semicolon"
  | .minus => "Minus"
  | .plus => "Plus"
  | .slash => "Slash"
  | .star => "Star"
  | .bang => "Bang"
  | .bangEqual => "BangEqual"
  | .equal => "Equal"
  | .equalEqual => "EqualEqual"
  | .greater => "Greater"
  | .greaterEqual => "GreaterEqual"
  | .less => "Less"
  | .lessEqual => "LessEqual"
  | .identifier => "Identifier"
  | .string => "String"
  | .number => "Number"
  | .andWord => "And"
  | .elseWord => "Else"
  | .falseWord => "False"
  | .forWord => "For"
  | .funWord => "Fun"
  | .ifWord => "If"
  | .nilWord => "Nil"
  | .orWord => "Or"
  | .printWord => "Print"
  | .returnWord => "Return"
  | .trueWord => "True"
  | .varWord => "Var"
  | .whileWord => "While"
  | .comment => "Comment"
  | .endOfFile => "Eof"

def Token.dump (t : Token) : String := placed (t.kind.dump ++ " " ++ quoted t.lexeme) t.position

/-- An expression node, where it stands, and its type if one is recorded. -/
def Mark.dump (m : Mark) (node : String) : String :=
  placed node m.position ++ (match m.type with
    | none => ""
    | some t => " : " ++ t.text)

mutual

def Expr.dump : Expr → String
  | .number m v => m.dump (apply "Number" (NumberLayout.dumped.write v))
  | .string m s => m.dump (apply "String" (quoted s))
  | .boolean m b => m.dump (apply "Boolean" (toString b))
  | .nil m => m.dump "Nil"
  | .unary m op e => m.dump (fields "Unary" [("op", op.dump), ("operand", e.dump)])
  | .binary m op l r =>
      m.dump (fields "Binary" [("op", op.dump), ("left", l.dump), ("right", r.dump)])
  | .grouping m e => m.dump (apply "Grouping" e.dump)
  | .name m n => m.dump (apply "Variable" (quoted n))
  | .assign m n e => m.dump (fields "Assign" [("name", quoted n), ("value", e.dump)])
  | .call m f es =>
      m.dump (fields "Call" [("callee", f.dump), ("args", list (Expr.dumpAll es))])

def Expr.dumpAll : List Expr → List String
  | [] => []
  | e :: es => e.dump :: Expr.dumpAll es

end

mutual

def Stmt.dump : Stmt → String
  | .expression p e => placed (apply "Expression" e.dump) p
  | .print p e => placed (apply "Print" e.dump) p
  | .var p n e => placed (fields "Var" [("name", quoted n), ("init", e.dump)]) p
  | .block p ss => placed (apply "Block" (list (Stmt.dumpAll ss))) p
  | .ifElse p c y n =>
      placed (fields "If" [("cond", c.dump), ("then_branch", y.dump),
        ("else_branch", option (Stmt.dumpOption n))]) p
  | .whileLoop p c b => placed (fields "While" [("cond", c.dump), ("body", b.dump)]) p
  | .forLoop p i c n b =>
      placed (fields "For" [("init", option (Stmt.dumpOption i)),
        ("cond", option (c.map Expr.dump)), ("increment", option (n.map Expr.dump)),
        ("body", b.dump)]) p
  | .function p n ps ss t =>
      placed (apply "Function" (fields "FunctionDecl" [("name", quoted n),
        ("params", list (ps.map quoted)), ("body", list (Stmt.dumpAll ss)),
        ("return_type", t.dump), ("position", p.dump)])) p
  | .ret p e => placed (apply "Return" (option (e.map Expr.dump))) p

def Stmt.dumpAll : List Stmt → List String
  | [] => []
  | s :: ss => s.dump :: Stmt.dumpAll ss

def Stmt.dumpOption : Option Stmt → Option String
  | none => none
  | some s => some s.dump

end

end GradualScript
