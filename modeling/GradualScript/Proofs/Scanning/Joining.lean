import Mathlib
import GradualScript.Proofs.Scanning.Tiling
import GradualScript.Proofs.Tree.Moved

/-!
# Two texts with a newline between them

No token reaches over a newline except a string, and a string ends at its second quote.
So a text that is read to its end is read in the same way before a newline and more
text, and what follows is read as if it stood alone, some lines further down.
-/
namespace GradualScript

/-- The place `lines` lines further down. -/
def Position.below (lines : Nat) (p : Position) : Position :=
  ⟨min (p.line + lines) largest, p.column⟩

/-- Whole lines before a text move it down and change nothing else. -/
theorem Position.following_below {done : List Char} (hdone : Text.lastLine done = [])
    (text : List Char) : following (done ++ text) = (following text).below (done.count '\n') := by
  have hcolumn : Text.lastLine (done ++ text) = Text.lastLine text := by
    simp only [Text.lastLine, List.reverse_eq_nil_iff] at hdone
    simp only [Text.lastLine, List.reverse_append, List.takeWhile_append, hdone, List.append_nil]
    split
    · next hall => rw [(List.takeWhile_prefix _).eq_of_length hall]
    · rfl
  rw [following, following, hcolumn, List.count_append]
  simp only [below, ofCounts, mk.injEq, largest, and_true]
  omega

namespace Scanner

variable {done text rest more : List Char} {tokens : List Token} {kind : TokenKind}
  {lexeme : List Char}

/-- Only a string holds a newline. -/
theorem IsToken.quoted_of_newline (h : IsToken kind lexeme) (hline : '\n' ∈ lexeme) :
    IsQuoted lexeme := by
  have hdigits : ∀ {digits : List Char}, (∀ c ∈ digits, c.isDigit = true) → '\n' ∉ digits :=
    fun h hmem => absurd (h '\n' hmem) (by decide)
  cases h with
  | symbol h =>
    simp only [List.mem_singleton] at hline
    subst hline
    cases h
  | @symbolEqual _ c h =>
    have hc : c = '\n' := by simpa [eq_comm] using hline
    subst hc
    cases h
  | word _ h => exact absurd (h '\n' hline) (by decide)
  | number h =>
    cases h with
    | whole _ hwhole => exact absurd hline (hdigits hwhole)
    | pointed _ hwhole _ hfraction =>
      simp only [List.mem_append, List.mem_cons, Char.reduceEq, false_or] at hline
      rcases hline with hline | hline
      · exact absurd hline (hdigits hwhole)
      · exact absurd hline (hdigits hfraction)
  | string h => exact h
  | comment h => simp [h] at hline

/-- A quoted string is no part of the head of another: both end at the second quote. -/
theorem IsToken.eq_of_quoted {other : List Char} (h : IsToken kind ('"' :: lexeme))
    (hother : IsQuoted other) (hleads : '"' :: lexeme <+: other) : '"' :: lexeme = other := by
  obtain ⟨-, inner, rfl, -⟩ := isToken_quote h
  obtain ⟨inner', rfl, hnone⟩ := hother
  have hclosed := (List.cons_prefix_cons.mp hleads).2
  refine hleads.eq_of_length_le (Nat.le_of_not_lt fun hlt => hnone ?_)
  have hinside : inner ++ ['"'] <+: inner' := by
    refine List.prefix_of_prefix_length_le hclosed (List.prefix_append ..) ?_
    simp only [List.length_cons, List.length_append, List.length_nil] at hlt ⊢
    omega
  exact hinside.subset (by simp)

/-- A token goes on after a newline only if it is a string that is still open there. -/
theorem Longest.before_newline (h : Longest kind lexeme (lexeme ++ text)) (more : List Char) :
    Longest kind lexeme (lexeme ++ (text ++ '\n' :: more)) := by
  refine ⟨h.isToken, List.prefix_append .., fun kind' other hother hleads => ?_⟩
  rw [← List.append_assoc] at hleads
  by_cases hshort : other.length ≤ (lexeme ++ text).length
  · exact h.maximal kind' other hother
      (List.prefix_of_prefix_length_le hleads (List.prefix_append ..) hshort)
  · have hover : lexeme ++ text ++ ['\n'] <+: other := by
      have hnext : lexeme ++ text ++ ['\n'] <+: lexeme ++ text ++ '\n' :: more := by simp
      apply List.prefix_of_prefix_length_le hnext hleads
      simp only [List.length_append, List.length_singleton] at hshort ⊢
      omega
    have hquoted := hother.quoted_of_newline (hover.subset (by simp))
    have hpart : lexeme <+: other := by
      refine List.IsPrefix.trans ?_ hover
      simp [List.append_assoc]
    obtain ⟨c, line, rfl, -⟩ := h.isToken.head
    obtain rfl : c = '"' := by
      obtain ⟨inner, rfl, -⟩ := hquoted
      exact (List.cons_prefix_cons.mp hpart).1
    exact (congrArg List.length (h.isToken.eq_of_quoted hquoted hpart)).ge

/-- More text after a newline changes nothing of what was read before. -/
theorem Tiles.before_newline (h : Tiles done text tokens rest) (more : List Char) :
    Tiles done (text ++ '\n' :: more) tokens (rest ++ '\n' :: more) := by
  induction h with
  | stop => exact .stop
  | blank hc _ ih => exact .blank hc ih
  | token hlongest _ ih =>
    rw [List.append_assoc]
    exact .token (hlongest.before_newline more) ih

/-- Reading goes on where it was left. -/
theorem Tiles.append {tokens' : List Token} {last : List Char} (h : Tiles done text tokens rest)
    (hrest : ∀ read, text = read ++ rest → Tiles (done ++ read) rest tokens' last) :
    Tiles done text (tokens ++ tokens') last := by
  induction h with
  | stop => simpa using hrest []
  | @blank done text rest tokens c hc _ ih =>
    refine .blank hc (ih fun read hread => ?_)
    rw [List.append_assoc]
    exact hrest (c :: read) (by simp [hread])
  | @token done text rest lexeme tokens kind hlongest _ ih =>
    refine .token hlongest (ih fun read hread => ?_)
    rw [List.append_assoc]
    exact hrest (lexeme ++ read) (by simp [hread])

/-- After whole lines a text is read as it is at the start, that many lines further down. -/
theorem Tiles.further {lines : List Char} (hlines : Text.lastLine lines = [])
    (h : Tiles done text tokens rest) :
    Tiles (lines ++ done) text (tokens.map (Token.moved (Position.below (lines.count '\n')))) rest := by
  induction h with
  | stop => exact .stop
  | blank hc _ ih =>
    rw [← List.append_assoc] at ih
    exact .blank hc ih
  | token hlongest _ ih =>
    rw [← List.append_assoc] at ih
    rw [List.map_cons, Token.moved, ← Position.following_below hlines]
    exact .token hlongest ih

/-- Two texts that are read to their ends are read so with a newline between them. -/
theorem Tiles.join {first second : List Char} {before after : List Token}
    (h : Tiles [] first before []) (h' : Tiles [] second after []) :
    Tiles [] (first ++ '\n' :: second)
      (before ++ after.map (Token.moved (Position.below (first.count '\n' + 1)))) [] := by
  have hlines : Text.lastLine (first ++ ['\n']) = [] := by simp [Text.lastLine]
  refine (h.before_newline second).append fun read hread => ?_
  obtain rfl : first = read := List.append_cancel_right hread
  have hbelow := h'.further hlines
  rw [List.count_append, List.append_nil] at hbelow
  exact .blank (by decide) hbelow

end Scanner

end GradualScript
