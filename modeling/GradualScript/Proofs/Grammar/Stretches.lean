import GradualScript.Proofs.Grammar.Leftmost
import GradualScript.Proofs.Tree.Parts

/-!
# The tokens of a part

Each part of a derived tree is derived from a stretch of the tokens and stands at the first
token of its stretch. Only the `nil` that a variable without a value gets comes from no
token of its own.
-/
namespace GradualScript

theorem Expr.mem_partsAll {part : Part} {es : List Expr} :
    part ∈ Expr.partsAll es ↔ ∃ e ∈ es, part ∈ e.parts := by
  induction es with
  | nil => simp [Expr.partsAll]
  | cons e es ih => simp [Expr.partsAll, ih]

theorem Stmt.mem_partsAll {part : Part} {ss : List Stmt} :
    part ∈ Stmt.partsAll ss ↔ ∃ s ∈ ss, part ∈ s.parts := by
  induction ss with
  | nil => simp [Stmt.partsAll]
  | cons s ss ih => simp [Stmt.partsAll, ih]

namespace Grammar

/-- The tokens denote the part. -/
inductive IsPart : List Token → Part → Prop
  | expression {tier : Tier} {ts : List Token} {e : Expr} : IsExpr tier ts e →
      IsPart ts (.expression e)
  | statement {inFunction : Bool} {form : Form} {ts : List Token} {s : Stmt} :
      IsStmt inFunction form ts s → IsPart ts (.statement s)

/-- Some stretch of the tokens denotes the part. -/
def HasStretch (ts : List Token) (part : Part) : Prop := ∃ us, us <:+: ts ∧ IsPart us part

/-- Every part is denoted by a stretch of the tokens, or is a `nil`. -/
def Covers (ts : List Token) (parts : List Part) : Prop :=
  ∀ part ∈ parts, HasStretch ts part ∨ ∃ m, part = .expression (.nil m)

section

variable {ts us : List Token} {parts rest : List Part}

/-- Parts are covered one by one. -/
theorem covers_append : Covers ts (parts ++ rest) ↔ Covers ts parts ∧ Covers ts rest := by
  simp only [Covers, List.mem_append, or_imp, forall_and]

theorem covers_self {part : Part} (h : IsPart ts part) : Covers ts [part] := by
  intro other hother
  cases List.mem_singleton.mp hother
  exact .inl ⟨ts, List.infix_rfl, h⟩

/-- A stretch of a stretch is a stretch of the whole. -/
theorem Covers.mono (h : Covers us parts) (hus : us <:+: ts) : Covers ts parts :=
  fun part hpart => (h part hpart).imp
    (fun ⟨vs, hvs, hpart⟩ => ⟨vs, hvs.trans hus, hpart⟩) id

/-- Each argument has its tokens in one piece, commas around it. -/
theorem CommaSeparated.stretch_of_mem {lists : List (List Token)} (h : CommaSeparated lists ts)
    (hus : us ∈ lists) : us <:+: ts := by
  induction h with
  | nil => cases hus
  | single part =>
    cases List.mem_singleton.mp hus
    exact List.infix_rfl
  | @cons part next lists ts comma _ _ ih =>
    rcases List.mem_cons.mp hus with rfl | hus
    · exact (List.prefix_append ..).isInfix
    · exact (ih hus).trans ⟨part ++ [comma], [], by simp⟩

end

/-- By induction on the derivation: the tokens of a rule contain those of its parts. -/
theorem IsExpr.covers {tier : Tier} {ts : List Token} {e : Expr} (h : IsExpr tier ts e) :
    Covers ts e.parts := by
  induction h with
  | @assign name eq ts value hname heq hvalue ih =>
    have hself := covers_self (.expression (.assign hname heq hvalue))
    exact covers_append.mpr ⟨ih.mono ⟨[name, eq], [], by simp⟩, hself⟩
  | value _ ih | tighter _ _ ih | operand _ ih | callee _ ih | atom _ ih => exact ih
  | @binary level op left right sign l r hop hl hr ihl ihr =>
    have hself := covers_self (.expression (.binary hop hl hr))
    have hleft : left <:+: left ++ sign :: right := ⟨[], sign :: right, by simp⟩
    have hright : right <:+: left ++ sign :: right := ⟨left ++ [sign], [], by simp⟩
    exact covers_append.mpr ⟨covers_append.mpr ⟨ihl.mono hleft, ihr.mono hright⟩, hself⟩
  | @unary op sign ts e hop he ih =>
    have hself := covers_self (.expression (.unary hop he))
    exact covers_append.mpr ⟨ih.mono ⟨[sign], [], by simp⟩, hself⟩
  | @call fs ts opening closing f args hf hopening hclosing hargs harity hcommas ihf ihargs =>
    have hself := covers_self (.expression (.call hf hopening hclosing hargs harity hcommas))
    have hts : ts <:+: fs ++ opening :: (ts ++ [closing]) := ⟨fs ++ [opening], [closing], by simp⟩
    have hall : Covers ts (Expr.partsAll (args.map Prod.snd)) := by
      intro part hpart
      obtain ⟨e, he, hpart⟩ := Expr.mem_partsAll.mp hpart
      obtain ⟨arg, harg, rfl⟩ := List.mem_map.mp he
      exact (ihargs arg harg).mono (hcommas.stretch_of_mem (List.mem_map_of_mem harg)) part hpart
    have hfs : fs <:+: fs ++ opening :: (ts ++ [closing]) := (List.prefix_append ..).isInfix
    exact covers_append.mpr ⟨covers_append.mpr ⟨ihf.mono hfs, hall.mono hts⟩, hself⟩
  | literal hliteral =>
    have hself := covers_self (.expression (.literal hliteral))
    cases hliteral with
    | _ => exact hself
  | @grouping opening closing ts e hopening hclosing he ih =>
    have hself := covers_self (.expression (.grouping hopening hclosing he))
    exact covers_append.mpr ⟨ih.mono ⟨[opening], [closing], by simp⟩, hself⟩

theorem IsClause.covers {ts : List Token} {e : Option Expr} (h : IsClause ts e) :
    Covers ts (Expr.partsOption e) := by
  cases h with
  | absent => exact nofun
  | present he => exact he.covers

theorem IsVar.covers {ts : List Token} {s : Stmt} (h : IsVar ts s) : Covers ts s.parts := by
  have hself := covers_self (.statement (@IsStmt.var false _ _ h))
  cases h with
  | bare =>
    refine covers_append.mpr ⟨fun part hpart => ?_, hself⟩
    exact .inr ⟨_, List.mem_singleton.mp hpart⟩
  | @valued word name eq semicolon ts e _ _ _ _ he =>
    exact covers_append.mpr ⟨he.covers.mono ⟨[word, name, eq], [semicolon], by simp⟩, hself⟩

theorem IsExprStmt.covers {ts : List Token} {s : Stmt} (h : IsExprStmt ts s) :
    Covers ts s.parts := by
  have hself := covers_self (.statement (@IsStmt.expression false _ _ h))
  cases h with
  | @mk ts semicolon e _ he =>
    exact covers_append.mpr ⟨he.covers.mono (List.prefix_append ..).isInfix, hself⟩

theorem IsInit.covers {ts : List Token} {init : Option Stmt} (h : IsInit ts init) :
    Covers ts (Stmt.partsOption init) := by
  cases h with
  | absent => exact nofun
  | var h => exact h.covers
  | expression h => exact h.covers

/-- The statements of a body follow one another, so each has a stretch of its own. -/
theorem covers_body {parts : List (List Token × Stmt)}
    (h : ∀ part ∈ parts, Covers part.1 part.2.parts) :
    Covers (parts.map Prod.fst).flatten (Stmt.partsAll (parts.map Prod.snd)) := by
  intro part hpart
  obtain ⟨s, hs, hpart⟩ := Stmt.mem_partsAll.mp hpart
  obtain ⟨derived, hderived, rfl⟩ := List.mem_map.mp hs
  exact (h derived hderived).mono (List.infix_of_mem_flatten (List.mem_map_of_mem hderived)) part hpart

theorem IsStmt.covers {inFunction : Bool} {form : Form} {ts : List Token} {s : Stmt}
    (h : IsStmt inFunction form ts s) : Covers ts s.parts := by
  have hself := covers_self (.statement h)
  induction h with
  | expression h => exact h.covers
  | @print _ word semicolon ts e _ _ he =>
    exact covers_append.mpr ⟨he.covers.mono ⟨[word], [semicolon], by simp⟩, hself⟩
  | @block _ opening closing parts _ _ hall ih =>
    have hbody := covers_body fun part hpart =>
      ih part hpart (covers_self (.statement (hall part hpart)))
    exact covers_append.mpr ⟨hbody.mono ⟨[opening], [closing], by simp⟩, hself⟩
  | @ifThen _ word opening closing cs ys c yes _ _ _ hc hyes ih =>
    have hyes := ih (covers_self (.statement hyes))
    refine covers_append.mpr ⟨covers_append.mpr ⟨covers_append.mpr ⟨?_, ?_⟩, nofun⟩, hself⟩
    · exact hc.covers.mono ⟨[word, opening], closing :: ys, by simp⟩
    · exact hyes.mono ⟨word :: opening :: (cs ++ [closing]), [], by simp⟩
  | @ifElse _ word opening closing other cs ys ns c yes no _ _ _ _ hc hyes _ hno ihyes ihno =>
    have hyes := ihyes (covers_self (.statement hyes))
    have hno := ihno (covers_self (.statement hno))
    refine covers_append.mpr ⟨covers_append.mpr ⟨covers_append.mpr ⟨?_, ?_⟩, ?_⟩, hself⟩
    · exact hc.covers.mono ⟨[word, opening], closing :: (ys ++ other :: ns), by simp⟩
    · exact hyes.mono ⟨word :: opening :: (cs ++ [closing]), other :: ns, by simp⟩
    · exact hno.mono ⟨word :: opening :: (cs ++ closing :: (ys ++ [other])), [], by simp⟩
  | @whileLoop _ word opening closing cs bs c body _ _ _ hc hbody ih =>
    have hbody := ih (covers_self (.statement hbody))
    refine covers_append.mpr ⟨covers_append.mpr ⟨?_, ?_⟩, hself⟩
    · exact hc.covers.mono ⟨[word, opening], closing :: bs, by simp⟩
    · exact hbody.mono ⟨word :: opening :: (cs ++ [closing]), [], by simp⟩
  | @forLoop _ word opening semicolon closing is cs ns bs init cond increment body _ _ _ _ hinit
      hcond hincrement hbody ih =>
    have hbody := ih (covers_self (.statement hbody))
    refine covers_append.mpr
      ⟨covers_append.mpr ⟨covers_append.mpr ⟨covers_append.mpr ⟨?_, ?_⟩, ?_⟩, ?_⟩, hself⟩
    · exact hinit.covers.mono
        ⟨[word, opening], cs ++ semicolon :: (ns ++ closing :: bs), by simp⟩
    · exact hcond.covers.mono
        ⟨word :: opening :: is, semicolon :: (ns ++ closing :: bs), by simp⟩
    · exact hbody.mono
        ⟨word :: opening :: (is ++ (cs ++ semicolon :: (ns ++ [closing]))), [], by simp⟩
    · exact hincrement.covers.mono
        ⟨word :: opening :: (is ++ (cs ++ [semicolon])), closing :: bs, by simp⟩
  | @ret word semicolon ts value _ _ hvalue =>
    exact covers_append.mpr ⟨hvalue.covers.mono ⟨[word], [semicolon], by simp⟩, hself⟩
  | statement h ih => exact ih (covers_self (.statement h))
  | var h => exact h.covers
  | @function _ word name opening closing openBody closeBody params ts parts _ _ _ _ _ _ _ _ _ hall
      ih =>
    have hbody := covers_body fun part hpart =>
      ih part hpart (covers_self (.statement (hall part hpart)))
    refine covers_append.mpr ⟨hbody.mono ?_, hself⟩
    exact ⟨word :: name :: opening :: (ts ++ [closing, openBody]), [closeBody], by simp⟩

/-- Every part of a program is derived from a stretch of its tokens. -/
theorem IsProgram.covers {ts : List Token} {p : Program} (h : IsProgram ts p) :
    Covers ts (Stmt.partsAll p) := by
  obtain ⟨parts, hall, rfl, rfl⟩ := h
  exact covers_body fun part hpart => (hall part hpart).covers

/-- A statement stands at its first token. -/
theorem IsStmt.position_eq {inFunction : Bool} {form : Form} {ts : List Token} {s : Stmt}
    (h : IsStmt inFunction form ts s) : s.position = leftmost ts := by
  induction h with
  | expression h =>
    obtain ⟨-, he⟩ := h
    obtain ⟨t, us, rfl, -⟩ := he.head
    rfl
  | statement _ ih => exact ih
  | var h =>
    cases h with
    | _ => rfl
  | _ => rfl

/-- A part stands at the first token of its stretch. -/
theorem IsPart.head {ts : List Token} {part : Part} (h : IsPart ts part) :
    ∃ t us, ts = t :: us ∧ part.position = t.position := by
  cases h with
  | expression he =>
    obtain ⟨t, us, rfl, -⟩ := he.head
    exact ⟨t, us, rfl, he.position_eq⟩
  | statement hs =>
    obtain ⟨t, us, rfl, -⟩ := hs.head
    exact ⟨t, us, rfl, hs.position_eq⟩

end Grammar

end GradualScript
