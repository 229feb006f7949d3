import GradualScript.Proofs.Grammar.Exact
import GradualScript.Proofs.RoundTrip.Program

/-!
# Printing and parsing

The text of a program that was parsed from source text scans and parses again. The
new program is printed as the same text, so printing is at a fixpoint after one round.
-/
namespace GradualScript.Grammar

open Scanner

/-- The statements of a program, with one space between them. -/
theorem reprints_program {parts : List (List Token × Stmt)}
    (hall : ∀ part ∈ parts,
      ReprintsStmt (IsStmt false .declaration) part.2 (NoOverflow part.1)) (p : Position) :
    ∃ parts' : List (List Token × Stmt),
      Yields Free p (Program.source (parts.map Prod.snd)).toList (parts'.map Prod.fst).flatten ∧
      RereadAll false (parts.map Prod.snd) (NoOverflow (parts.map Prod.fst).flatten) parts' := by
  induction parts generalizing p with
  | nil => exact ⟨[], yields_nil p, rereadAll_nil⟩
  | cons part parts ih =>
    obtain ⟨hone, hmore⟩ := List.forall_mem_cons.mp hall
    obtain ⟨us, s', hus, hs', hsource, -, hshape⟩ := hone p
    obtain ⟨parts', hvs, hreread⟩ := ih hmore ((p.after part.2.source.toList).advance ' ')
    refine ⟨(us, s') :: parts', ?_, ?_⟩
    · cases parts with
      | nil =>
        cases parts' with
        | nil => simpa [Program.source] using hus
        | cons => cases hreread.source_eq
      | cons next parts =>
        have hwhole := hus.then (hvs.blank_before (c := ' ') (by decide))
        simpa [Program.source, String.intercalate_cons_cons] using hwhole
    · rw [List.map_cons, List.map_cons, List.flatten_cons, noOverflow_append]
      exact .cons hs' hsource hshape hreread

/-- A text that yields tokens whatever follows scans to them and the end. -/
theorem scan_of_yields {source : String} {ts : List Token}
    (h : Yields Free .start source.toList ts) :
    ∃ stop, scan source = .ok (ts ++ [Token.endAt stop]) ∧ significant (ts ++ [Token.endAt stop]) = ts := by
  refine ⟨Position.start.after source.toList, ?_, ?_⟩
  · have hscan := h.scanned [] [] trivial
    rw [List.append_nil, List.append_nil, tokensFrom, List.reverse_cons, List.reverse_reverse] at hscan
    rw [scan, scanWithComments, hscan]
    have hplain : ts.filter (·.kind ≠ .comment) = ts :=
      List.filter_eq_self.mpr fun t ht => decide_eq_true (h.plain t ht).1
    change Except.ok ((ts ++ [_]).filter _) = _
    rw [List.filter_append, hplain]
    rfl
  · exact significant_scanned fun t ht => ⟨(h.plain t ht).2, (h.plain t ht).1⟩

/-- Every program of a source text prints to a text that scans and parses. The new
program has as many statements and prints to the same text. It has the same shape,
statement by statement, exactly if no number literal of the source denotes infinity. -/
theorem parse_print_of_parse {source : String} {tokens : List Token} {p : Program}
    (hscan : scan source = .ok tokens) (hparse : parse tokens = .ok p) :
    ∃ tokens' q, scan (Program.source p) = .ok tokens' ∧ parse tokens' = .ok q ∧
      q.length = p.length ∧ Program.source q = Program.source p ∧
      (Stmt.sameShapes p q = true ↔ ∀ t ∈ tokens, t.kind = .number →
        Number.read? t.lexeme ≠ some .infinity) := by
  obtain ⟨body, stop, rfl, hbody⟩ := scan_eq_ok hscan
  have hprogram := isProgram_of_parse hparse
  rw [significant_scanned fun t ht => (hbody t ht).2] at hprogram
  obtain ⟨parts, hall, rfl, rfl⟩ := hprogram
  have hspelled : AllSpelled (parts.map Prod.fst).flatten := fun t ht => (hbody t ht).1
  have hparts := allSpelled_flatten hspelled
  obtain ⟨parts', hyields, hreread⟩ :=
    reprints_program (fun part hpart => (hall part hpart).reprints (hparts part hpart)) .start
  obtain ⟨stop', hscan', hsignificant⟩ := scan_of_yields hyields
  refine ⟨_, parts'.map Prod.snd, hscan', parse_of_isProgram ?_, ?_, ?_, ?_⟩
  · rw [hsignificant]
    exact ⟨parts', hreread.derived, rfl, rfl⟩
  · have hlengths := congrArg List.length hreread.source_eq
    simpa using hlengths
  · rw [Program.source, hreread.source_eq, Program.source]
  · rw [hreread.sameShapes_iff]
    exact (noOverflow_concat (by simp [Token.endAt])).symm

theorem parse_print_of_parse_literal :
    let tokens : List Token := [⟨.printWord, "print", ⟨1, 1⟩⟩, ⟨.number, "1.5", ⟨1, 7⟩⟩,
      ⟨.semicolon, ";", ⟨1, 10⟩⟩, .endAt ⟨1, 11⟩]
    let p : Program := [.print ⟨1, 1⟩ (.number (.unchecked ⟨1, 7⟩) ⟨0x3FF8000000000000⟩)]
    scan "print 1.5;" = .ok tokens ∧ parse tokens = .ok p ∧
      ∃ tokens' q, scan (Program.source p) = .ok tokens' ∧ parse tokens' = .ok q ∧
        q.length = p.length ∧ Program.source q = Program.source p ∧
        (Stmt.sameShapes p q = true ↔ ∀ t ∈ tokens, t.kind = .number →
          Number.read? t.lexeme ≠ some .infinity) := by
  intro tokens p
  have hscan : scan "print 1.5;" = .ok tokens := by cbv
  have hread : Number.read? "1.5" = some ⟨0x3FF8000000000000⟩ := by decide +kernel
  have hvalue : IsExpr .assignment [⟨.number, "1.5", ⟨1, 7⟩⟩]
      (.number (.unchecked ⟨1, 7⟩) ⟨0x3FF8000000000000⟩) :=
    IsExpr.assignment_of_primary (.literal (.number rfl hread))
  have hparse : parse tokens = .ok p :=
    parse_of_isProgram ⟨[(tokens.dropLast, _)],
      List.forall_mem_singleton.mpr (.statement (.print rfl rfl hvalue)), rfl, rfl⟩
  exact ⟨hscan, hparse, parse_print_of_parse hscan hparse⟩

end GradualScript.Grammar
