import GradualScript.Proofs.Grammar.Exact
import GradualScript.Proofs.Tree.Parts
import GradualScript.Session

/-!
# Where statements stand

Bodies of branches and loops declare nothing in the scope that they run in, and only
function bodies return. The rules of the grammar give no other trees.
-/
namespace GradualScript

/-- The name that a statement declares in the active scope, if it does. -/
def Stmt.declared : Stmt → Option String
  | .var _ name _ | .function _ name _ _ _ => some name
  | _ => none

mutual

/-- Every statement inside stands where the grammar puts it; `inFunction` tells whether a
function body surrounds it. -/
def Stmt.Placed (inFunction : Bool) : Stmt → Prop
  | .expression _ _ | .print _ _ | .var _ _ _ => True
  | .block _ ss => Stmt.PlacedIn inFunction ss
  | .ifElse _ _ yes no =>
      yes.declared = none ∧ yes.Placed inFunction ∧ Stmt.PlacedOption inFunction no ∧
        ∀ s, no = some s → s.declared = none
  | .whileLoop _ _ body => body.declared = none ∧ body.Placed inFunction
  | .forLoop _ init _ _ body =>
      Stmt.PlacedOption inFunction init ∧ body.declared = none ∧ body.Placed inFunction
  | .function _ _ _ ss _ => Stmt.PlacedIn true ss
  | .ret _ _ => inFunction = true

def Stmt.PlacedIn (inFunction : Bool) : List Stmt → Prop
  | [] => True
  | s :: ss => s.Placed inFunction ∧ Stmt.PlacedIn inFunction ss

def Stmt.PlacedOption (inFunction : Bool) : Option Stmt → Prop
  | none => True
  | some s => s.Placed inFunction

end

theorem Stmt.placedIn_iff {inFunction : Bool} {ss : List Stmt} :
    Stmt.PlacedIn inFunction ss ↔ ∀ s ∈ ss, s.Placed inFunction := by
  induction ss with
  | nil => simp [PlacedIn]
  | cons s ss ih => simp [PlacedIn, ih]

namespace Grammar

theorem IsInit.placed {ts : List Token} {init : Option Stmt} (h : IsInit ts init)
    (inFunction : Bool) : Stmt.PlacedOption inFunction init := by
  cases h with
  | absent => trivial
  | var h => cases h <;> trivial
  | expression h => cases h; trivial

/-- A statement of the grammar declares nothing, and all inside it is well placed. -/
theorem IsStmt.placed {inFunction : Bool} {form : Form} {ts : List Token} {s : Stmt}
    (h : IsStmt inFunction form ts s) :
    s.Placed inFunction ∧ (form = .statement → s.declared = none) := by
  induction h with
  | expression h => cases h; exact ⟨trivial, fun _ => rfl⟩
  | print => exact ⟨trivial, fun _ => rfl⟩
  | block _ _ _ ih =>
    refine ⟨Stmt.placedIn_iff.mpr fun s hs => ?_, fun _ => rfl⟩
    obtain ⟨part, hpart, rfl⟩ := List.mem_map.mp hs
    exact (ih part hpart).1
  | ifThen _ _ _ _ _ ih => exact ⟨⟨ih.2 rfl, ih.1, trivial, nofun⟩, fun _ => rfl⟩
  | ifElse _ _ _ _ _ _ _ _ ihyes ihno =>
    refine ⟨⟨ihyes.2 rfl, ihyes.1, ihno.1, fun s hs => ?_⟩, fun _ => rfl⟩
    cases hs
    exact ihno.2 rfl
  | whileLoop _ _ _ _ _ ih => exact ⟨⟨ih.2 rfl, ih.1⟩, fun _ => rfl⟩
  | forLoop _ _ _ _ hinit _ _ _ ih => exact ⟨⟨hinit.placed _, ih.2 rfl, ih.1⟩, fun _ => rfl⟩
  | ret => exact ⟨rfl, fun _ => rfl⟩
  | statement _ ih => exact ⟨ih.1, nofun⟩
  | var h => cases h <;> exact ⟨trivial, nofun⟩
  | function _ _ _ _ _ _ _ _ _ _ ih =>
    refine ⟨Stmt.placedIn_iff.mpr fun s hs => ?_, nofun⟩
    obtain ⟨part, hpart, rfl⟩ := List.mem_map.mp hs
    exact (ih part hpart).1

end Grammar

theorem placedIn_of_parse {tokens : List Token} {p : Program} (h : parse tokens = .ok p) :
    Stmt.PlacedIn false p := by
  obtain ⟨parts, hall, -, rfl⟩ := Grammar.isProgram_of_parse h
  refine Stmt.placedIn_iff.mpr fun s hs => ?_
  obtain ⟨part, hpart, rfl⟩ := List.mem_map.mp hs
  exact (hall part hpart).placed.1

mutual

/-- Functions are declared, not written: an expression has no statements inside. -/
theorem Expr.statement_notMem_parts (s : Stmt) (e : Expr) : .statement s ∉ e.parts := by
  match e with
  | .number _ _ | .string _ _ | .boolean _ _ | .nil _ | .name _ _ => simp [parts]
  | .unary _ _ x | .grouping _ x | .assign _ _ x => simp [parts, x.statement_notMem_parts s]
  | .binary _ _ l r => simp [parts, l.statement_notMem_parts s, r.statement_notMem_parts s]
  | .call _ f es =>
    simp [parts, f.statement_notMem_parts s, Expr.statement_notMem_partsAll s es]

theorem Expr.statement_notMem_partsAll (s : Stmt) (es : List Expr) :
    .statement s ∉ Expr.partsAll es := by
  match es with
  | [] => simp [partsAll]
  | e :: es => simp [partsAll, e.statement_notMem_parts s, Expr.statement_notMem_partsAll s es]

end

theorem Expr.statement_notMem_partsOption (s : Stmt) (e : Option Expr) :
    .statement s ∉ Expr.partsOption e := by
  cases e with
  | none => simp [partsOption]
  | some e => exact e.statement_notMem_parts s

mutual

/-- What stands inside a well placed statement is well placed itself. -/
theorem Stmt.Placed.of_mem_parts {inFunction : Bool} {s t : Stmt} (h : s.Placed inFunction)
    (ht : .statement t ∈ s.parts) : ∃ inside, t.Placed inside := by
  have hself (heq : t = s) : ∃ inside, t.Placed inside := ⟨inFunction, heq ▸ h⟩
  match s with
  | .expression _ e | .print _ e | .var _ _ e =>
    simp only [parts, List.mem_append, e.statement_notMem_parts, List.mem_singleton,
      Part.statement.injEq, false_or] at ht
    exact hself ht
  | .block _ ss | .function _ _ _ ss _ =>
    simp only [parts, List.mem_append, List.mem_singleton, Part.statement.injEq] at ht
    rcases ht with ht | ht
    · exact Stmt.PlacedIn.of_mem_partsAll h ht
    · exact hself ht
  | .ifElse _ c yes no =>
    simp only [parts, List.mem_append, c.statement_notMem_parts, List.mem_singleton,
      Part.statement.injEq, false_or] at ht
    rcases ht with (ht | ht) | ht
    · exact Stmt.Placed.of_mem_parts h.2.1 ht
    · exact Stmt.PlacedOption.of_mem_partsOption h.2.2.1 ht
    · exact hself ht
  | .whileLoop _ c body =>
    simp only [parts, List.mem_append, c.statement_notMem_parts, List.mem_singleton,
      Part.statement.injEq, false_or] at ht
    rcases ht with ht | ht
    · exact Stmt.Placed.of_mem_parts h.2 ht
    · exact hself ht
  | .forLoop _ init c increment body =>
    simp only [parts, List.mem_append, Expr.statement_notMem_partsOption, List.mem_singleton,
      Part.statement.injEq, or_false] at ht
    rcases ht with (ht | ht) | ht
    · exact Stmt.PlacedOption.of_mem_partsOption h.1 ht
    · exact Stmt.Placed.of_mem_parts h.2.2 ht
    · exact hself ht
  | .ret _ e =>
    simp only [parts, List.mem_append, Expr.statement_notMem_partsOption, List.mem_singleton,
      Part.statement.injEq, false_or] at ht
    exact hself ht

theorem Stmt.PlacedIn.of_mem_partsAll {inFunction : Bool} {ss : List Stmt} {t : Stmt}
    (h : Stmt.PlacedIn inFunction ss) (ht : .statement t ∈ Stmt.partsAll ss) :
    ∃ inside, t.Placed inside := by
  match ss with
  | [] => cases ht
  | s :: ss =>
    rcases List.mem_append.mp ht with ht | ht
    · exact Stmt.Placed.of_mem_parts h.1 ht
    · exact Stmt.PlacedIn.of_mem_partsAll h.2 ht

theorem Stmt.PlacedOption.of_mem_partsOption {inFunction : Bool} {s : Option Stmt} {t : Stmt}
    (h : Stmt.PlacedOption inFunction s) (ht : .statement t ∈ Stmt.partsOption s) :
    ∃ inside, t.Placed inside := by
  match s with
  | none => cases ht
  | some s => exact Stmt.Placed.of_mem_parts h ht

end

/-- The statement stands somewhere in a program that was parsed. -/
def Stmt.Parsed (s : Stmt) : Prop :=
  ∃ tokens p, parse tokens = .ok p ∧ .statement s ∈ Stmt.partsAll p

theorem Stmt.Parsed.placed {s : Stmt} (h : s.Parsed) : ∃ inside, s.Placed inside := by
  obtain ⟨tokens, p, hparse, hs⟩ := h
  exact (placedIn_of_parse hparse).of_mem_partsAll hs

/-- All statements of a program that was read are well placed. -/
theorem placedIn_of_readProgram {source : String} {p : Program}
    (h : readProgram source = .ok p) : Stmt.PlacedIn false p := by
  unfold readProgram at h
  split at h
  · cases h
  · next tokens _ =>
    cases hparse : parse tokens with
    | ok q =>
      rw [hparse] at h
      cases h
      exact placedIn_of_parse hparse
    | error e =>
      rw [hparse] at h
      cases h

end GradualScript
