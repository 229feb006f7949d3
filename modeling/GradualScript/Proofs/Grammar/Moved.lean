import GradualScript.Proofs.Grammar.Leftmost
import GradualScript.Proofs.Scanning.Joining

/-!
# Derivations of moved tokens

The grammar looks at kinds and spellings of tokens and never at their places. So moved
tokens derive the moved tree.
-/
namespace GradualScript.Grammar

variable (g : Position → Position) {ts : List Token}

/-- A list of tokens with a tree of it, both moved. -/
def movedPart {τ : Type} (move : τ → τ) (part : List Token × τ) : List Token × τ :=
  (part.1.map (Token.moved g), move part.2)

theorem fst_movedParts {τ : Type} (move : τ → τ) (parts : List (List Token × τ)) :
    (parts.map (movedPart g move)).map Prod.fst =
      (parts.map Prod.fst).map (List.map (Token.moved g)) := by
  rw [List.map_map, List.map_map]
  rfl

theorem snd_movedParts {τ : Type} (move : τ → τ) (parts : List (List Token × τ)) :
    (parts.map (movedPart g move)).map Prod.snd = (parts.map Prod.snd).map move := by
  rw [List.map_map, List.map_map]
  rfl

/-- Without tokens there is no leftmost one, and then a mark would not move. -/
theorem markOf_moved (h : ts ≠ []) : markOf (ts.map (Token.moved g)) = (markOf ts).moved g := by
  cases ts with
  | nil => exact absurd rfl h
  | cons t ts => rfl

theorem leftmost_moved (h : ts ≠ []) : leftmost (ts.map (Token.moved g)) = g (leftmost ts) :=
  congrArg Mark.position (markOf_moved g h)

/-- A comma stays a comma wherever it stands. -/
theorem CommaSeparated.moved {parts : List (List Token)} (h : CommaSeparated parts ts) :
    CommaSeparated (parts.map (List.map (Token.moved g))) (ts.map (Token.moved g)) := by
  induction h with
  | nil => exact .nil
  | single part => exact .single _
  | cons hcomma _ ih =>
    rw [List.map_append, List.map_cons]
    exact .cons hcomma ih

theorem IsLiteral.moved {t : Token} {e : Expr} (h : IsLiteral t e) :
    IsLiteral (t.moved g) (e.moved g) := by
  cases h with
  | number hkind hvalue => exact .number hkind hvalue
  | string hkind => exact .string hkind
  | trueWord hkind => exact .trueWord hkind
  | falseWord hkind => exact .falseWord hkind
  | nilWord hkind => exact .nilWord hkind
  | name hkind => exact .name hkind

/-- Rule by rule: kinds and lexemes, on which the rules depend, are those of before. -/
theorem IsExpr.moved {tier : Tier} {e : Expr} (h : IsExpr tier ts e) :
    IsExpr tier (ts.map (Token.moved g)) (e.moved g) := by
  induction h with
  | assign hname heq _ ih => exact .assign hname heq ih
  | value _ ih => exact .value ih
  | @binary level op left right sign l r hop hleft _ ihleft ihright =>
    have hne : left ++ sign :: right ≠ [] := by simp
    have hmark := markOf_moved g hne
    rw [List.map_append, List.map_cons] at hmark ⊢
    rw [Expr.moved, ← hmark]
    exact .binary hop ihleft ihright
  | tighter hlevel _ ih => exact .tighter hlevel ih
  | operand _ ih => exact .operand ih
  | unary hop _ ih => exact .unary hop ih
  | callee _ ih => exact .callee ih
  | @call fs ts opening closing f args _ hopening hclosing _ harity hcommas ihf ihargs =>
    have hne : fs ++ opening :: (ts ++ [closing]) ≠ [] := by simp
    have hmark := markOf_moved g hne
    have hclosing' : (closing.moved g).kind = .rightParen := hclosing
    have hargs : ∀ arg ∈ args.map (movedPart g (Expr.moved g)), IsExpr .assignment arg.1 arg.2 :=
      List.forall_mem_map.mpr ihargs
    have hcommas' := hcommas.moved g
    rw [← fst_movedParts] at hcommas'
    simp only [List.map_append, List.map_cons, List.map_nil] at hmark ⊢
    rw [Expr.moved, ← hmark, Expr.movedAll_eq_map, ← snd_movedParts]
    exact .call ihf hopening hclosing' hargs (by rwa [List.length_map]) hcommas'
  | atom _ ih => exact .atom ih
  | literal h => exact .literal (h.moved g)
  | @grouping opening closing ts e hopening hclosing _ ih =>
    simp only [List.map_cons, List.map_append, List.map_nil]
    exact .grouping hopening hclosing ih

theorem IsClause.moved {e : Option Expr} (h : IsClause ts e) :
    IsClause (ts.map (Token.moved g)) (e.map (Expr.moved g)) := by
  cases h with
  | absent => exact .absent
  | present h => exact .present (h.moved g)

/-- An open end shows in the shape of a statement. -/
theorem endsOpen_moved (s : Stmt) : endsOpen (s.moved g) = endsOpen s := by
  match s with
  | .ifElse _ _ _ none => rfl
  | .ifElse _ _ _ (some no) => exact endsOpen_moved no
  | .whileLoop _ _ body | .forLoop _ _ _ _ body => exact endsOpen_moved body
  | .expression .. | .print .. | .var .. | .block .. | .function .. | .ret .. => rfl

theorem IsVar.moved {s : Stmt} (h : IsVar ts s) :
    IsVar (ts.map (Token.moved g)) (s.moved g) := by
  cases h with
  | bare hword hname hsemicolon => exact .bare hword hname hsemicolon
  | @valued word name eq semicolon ts e hword hname heq hsemicolon h =>
    have hsemicolon' : (semicolon.moved g).kind = .semicolon := hsemicolon
    simp only [List.map_cons, List.map_append, List.map_nil]
    exact .valued hword hname heq hsemicolon' (h.moved g)

theorem IsExprStmt.moved {s : Stmt} (h : IsExprStmt ts s) :
    IsExprStmt (ts.map (Token.moved g)) (s.moved g) := by
  cases h with
  | @mk ts semicolon e hsemicolon h =>
    have hsemicolon' : (semicolon.moved g).kind = .semicolon := hsemicolon
    obtain ⟨t, us, hts, -⟩ := h.head
    rw [Stmt.moved, ← leftmost_moved g (by simp [hts]), List.map_append]
    exact .mk hsemicolon' (h.moved g)

theorem IsInit.moved {init : Option Stmt} (h : IsInit ts init) :
    IsInit (ts.map (Token.moved g)) (Stmt.movedOption g init) := by
  cases h with
  | absent hsemicolon => exact .absent hsemicolon
  | var h => exact .var (h.moved g)
  | expression h => exact .expression (h.moved g)

/-- The tokens of a body are those of its statements, moved. -/
theorem flatten_movedParts (parts : List (List Token × Stmt)) :
    (((parts.map (movedPart g (Stmt.moved g))).map Prod.fst).flatten) =
      ((parts.map Prod.fst).flatten).map (Token.moved g) := by
  rw [fst_movedParts, List.map_flatten]

/-- Moved tokens denote the moved statement. -/
theorem IsStmt.moved {inFunction : Bool} {form : Form} {s : Stmt}
    (h : IsStmt inFunction form ts s) :
    IsStmt inFunction form (ts.map (Token.moved g)) (s.moved g) := by
  induction h with
  | expression h => exact .expression (h.moved g)
  | @print _ word semicolon ts e hword hsemicolon h =>
    have hsemicolon' : (semicolon.moved g).kind = .semicolon := hsemicolon
    simp only [List.map_cons, List.map_append, List.map_nil]
    exact .print hword hsemicolon' (h.moved g)
  | @block _ opening closing parts hopening hclosing _ ih =>
    have hclosing' : (closing.moved g).kind = .rightBrace := hclosing
    have hall : ∀ part ∈ parts.map (movedPart g (Stmt.moved g)),
        IsStmt _ .declaration part.1 part.2 := List.forall_mem_map.mpr ih
    simp only [List.map_cons, List.map_append, List.map_nil]
    rw [← flatten_movedParts, Stmt.moved, Stmt.movedAll_eq_map, ← snd_movedParts]
    exact .block hopening hclosing' hall
  | @ifThen _ word opening closing cs ys c yes hword hopening hclosing hc _ ih =>
    have hclosing' : (closing.moved g).kind = .rightParen := hclosing
    simp only [List.map_cons, List.map_append]
    exact .ifThen hword hopening hclosing' (hc.moved g) ih
  | @ifElse _ word opening closing other cs ys ns c yes no hword hopening hclosing hother hc _ hopen _
      ihyes ihno =>
    have hclosing' : (closing.moved g).kind = .rightParen := hclosing
    have hother' : (other.moved g).kind = .elseWord := hother
    simp only [List.map_cons, List.map_append]
    exact .ifElse hword hopening hclosing' hother' (hc.moved g) ihyes
      ((endsOpen_moved g yes).trans hopen) ihno
  | @whileLoop _ word opening closing cs bs c body hword hopening hclosing hc _ ih =>
    have hclosing' : (closing.moved g).kind = .rightParen := hclosing
    simp only [List.map_cons, List.map_append]
    exact .whileLoop hword hopening hclosing' (hc.moved g) ih
  | @forLoop _ word opening semicolon closing is cs ns bs init cond increment body hword hopening
      hsemicolon hclosing hinit hcond hincrement _ ih =>
    have hsemicolon' : (semicolon.moved g).kind = .semicolon := hsemicolon
    have hclosing' : (closing.moved g).kind = .rightParen := hclosing
    simp only [List.map_cons, List.map_append]
    exact .forLoop hword hopening hsemicolon' hclosing' (hinit.moved g) (hcond.moved g)
      (hincrement.moved g) ih
  | @ret word semicolon ts value hword hsemicolon h =>
    have hsemicolon' : (semicolon.moved g).kind = .semicolon := hsemicolon
    simp only [List.map_cons, List.map_append, List.map_nil]
    exact .ret hword hsemicolon' (h.moved g)
  | statement _ ih => exact .statement ih
  | var h => exact .var (h.moved g)
  | @function _ word name opening closing openBody closeBody params ts parts hword hname hopening
      hclosing hopenBody hcloseBody hparams harity hcommas _ ih =>
    have hclosing' : (closing.moved g).kind = .rightParen := hclosing
    have hopenBody' : (openBody.moved g).kind = .leftBrace := hopenBody
    have hcloseBody' : (closeBody.moved g).kind = .rightBrace := hcloseBody
    have hcommas' := hcommas.moved g
    have hsingle : (params.map ([·])).map (List.map (Token.moved g)) =
        (params.map (Token.moved g)).map ([·]) := by
      rw [List.map_map, List.map_map]
      rfl
    have hnames : (params.map (Token.moved g)).map Token.lexeme = params.map Token.lexeme := by
      rw [List.map_map]
      rfl
    rw [hsingle] at hcommas'
    have hparams' : ∀ param ∈ params.map (Token.moved g), param.kind = .identifier :=
      List.forall_mem_map.mpr hparams
    have hall : ∀ part ∈ parts.map (movedPart g (Stmt.moved g)),
        IsStmt true .declaration part.1 part.2 := List.forall_mem_map.mpr ih
    simp only [List.map_cons, List.map_append, List.map_nil]
    rw [← flatten_movedParts, Stmt.moved, Stmt.movedAll_eq_map, ← snd_movedParts, ← hnames]
    exact .function hword hname hopening hclosing' hopenBody' hcloseBody' hparams'
      (by rwa [List.length_map]) hcommas' hall

theorem IsBody.moved {inFunction : Bool} {ss : List Stmt} (h : IsBody inFunction ts ss) :
    IsBody inFunction (ts.map (Token.moved g)) (Stmt.movedAll g ss) := by
  obtain ⟨parts, hall, rfl, rfl⟩ := h
  refine ⟨parts.map (movedPart g (Stmt.moved g)), ?_, (flatten_movedParts g parts).symm, ?_⟩
  · exact List.forall_mem_map.mpr fun part hpart => (hall part hpart).moved g
  · rw [snd_movedParts, Stmt.movedAll_eq_map]

/-- One body after another is a body. -/
theorem IsBody.append {inFunction : Bool} {us : List Token} {ss rest : List Stmt}
    (h : IsBody inFunction ts ss) (h' : IsBody inFunction us rest) :
    IsBody inFunction (ts ++ us) (ss ++ rest) := by
  obtain ⟨parts, hall, rfl, rfl⟩ := h
  obtain ⟨parts', hall', rfl, rfl⟩ := h'
  exact ⟨parts ++ parts', List.forall_mem_append.mpr ⟨hall, hall'⟩, by simp, by simp⟩

end GradualScript.Grammar
