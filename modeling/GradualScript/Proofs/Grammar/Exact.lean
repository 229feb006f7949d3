import GradualScript.Proofs.Grammar.ParsedProgram
import GradualScript.Proofs.Grammar.DerivedProgram
import GradualScript.Proofs.Grammar.Views

/-!
# The parser accepts its grammar

The tokens before the first end-of-file token, without the comments, are parsed
exactly if they derive a program, and then to the tree of the derivation.
-/
namespace GradualScript.Grammar

open GradualScript.Parser

/-- In a list that has its one end at the end, the grammar sees all but that and comments. -/
theorem significant_closed {body : List Token} {last : Token}
    (hbody : ∀ t ∈ body, t.kind ≠ .endOfFile) (hlast : last.kind = .endOfFile) :
    significant (body ++ [last]) = body.filter (·.kind ≠ .comment) := by
  rw [significant, List.takeWhile_append_of_pos fun t ht => decide_eq_true (hbody t ht)]
  simp [hlast]

/-- The grammar sees all scanned tokens but the last. -/
theorem significant_scanned {body : List Token} {stop : Position}
    (hbody : ∀ t ∈ body, t.kind ≠ .endOfFile ∧ t.kind ≠ .comment) :
    significant (body ++ [Token.endAt stop]) = body := by
  rw [significant_closed (fun t ht => (hbody t ht).1) rfl]
  exact List.filter_eq_self.mpr fun t ht => decide_eq_true (hbody t ht).2

/-- A stream without end-of-file tokens that shows the end is empty. -/
theorem eq_nil_of_current {s : Stream} (hkinds : ∀ t ∈ s.tokens, t.kind ≠ .endOfFile)
    (h : s.current.kind = .endOfFile) : s.tokens = [] := by
  obtain ⟨ts, stop⟩ := s
  cases ts with
  | nil => rfl
  | cons t ts => exact absurd h (hkinds t List.mem_cons_self)

theorem isProgram_of_parse {tokens : List Token} {p : Program} (h : parse tokens = .ok p) :
    IsProgram (significant tokens) p := by
  obtain ⟨rest, hdone⟩ := parse_eq_ok_iff.mp h
  obtain ⟨ts, hstream, hbody, hend⟩ := reads_program _ hdone
  have htokens : significant tokens = ts ++ rest.tokens := congrArg Stream.tokens hstream
  have hrest : rest.tokens = [] := eq_nil_of_current (fun t ht =>
    ne_endOfFile_of_mem_significant (htokens ▸ List.mem_append_right ts ht)) hend
  rw [htokens, hrest, List.append_nil]
  exact hbody

theorem parse_of_isProgram {tokens : List Token} {p : Program}
    (h : IsProgram (significant tokens) p) : parse tokens = .ok p := by
  obtain ⟨parts, hall, hts, rfl⟩ := h
  have hstream : Stream.ofTokens tokens =
      Stream.prepend ⟨[], Stream.stopOf tokens⟩ (parts.map Prod.fst).flatten := by
    rw [← hts, Stream.prepend, List.append_nil]
    rfl
  have hdone := program_done hall (Stream.stopOf tokens)
    (n := (Stream.ofTokens tokens).budget) (by
      have hlength : (Stream.ofTokens tokens).tokens.length =
          (parts.map Prod.fst).flatten.length := by
        rw [hstream, Stream.prepend, List.append_nil]
      rw [Stream.budget, hlength]
      omega)
  rw [← hstream] at hdone
  exact parse_eq_ok_iff.mpr ⟨_, hdone⟩

/-- A list of tokens is parsed to a program exactly if the program is derived from
what the grammar sees of it. No two programs are derived from the same tokens. -/
theorem parse_iff_isProgram (tokens : List Token) :
    (∀ p, parse tokens = .ok p ↔ IsProgram (significant tokens) p) ∧
      ∀ p q, IsProgram (significant tokens) p → IsProgram (significant tokens) q → p = q := by
  refine ⟨fun p => ⟨isProgram_of_parse, parse_of_isProgram⟩, fun p q hp hq => ?_⟩
  have h := (parse_of_isProgram hp).symm.trans (parse_of_isProgram hq)
  exact Except.ok.inj h

end GradualScript.Grammar
