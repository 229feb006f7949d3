import Mathlib
import GradualScript.Position.LineTable
import GradualScript.Proofs.Scanning.Munch

/-!
# Scanning tiles the text

A text is read from its start as blanks and longest tokens, one after the other.
Scanning with comments finds exactly these tokens, each with the place of its first
character, and fails exactly at the place where reading gets stuck.
-/
namespace GradualScript

/-- The position of the character that follows `text`: newlines are counted for its
line, and the characters since the last one for its column. -/
def Position.following (text : List Char) : Position :=
  .ofCounts (text.count '\n') (Text.lastLine text).length

namespace Position

theorem advance_ofCounts_newline (lines columns : Nat) :
    (ofCounts lines columns).advance '\n' = ofCounts (lines + 1) 0 := by
  simp only [advance, ofCounts, if_true, mk.injEq, largest]
  exact ⟨by omega, by decide⟩

theorem advance_ofCounts {c : Char} (hc : c ≠ '\n') (lines columns : Nat) :
    (ofCounts lines columns).advance c = ofCounts lines (columns + 1) := by
  simp only [advance, ofCounts, if_neg hc, mk.injEq, largest]
  exact ⟨trivial, by omega⟩

theorem following_concat (text : List Char) (c : Char) :
    following (text ++ [c]) = (following text).advance c := by
  by_cases hc : c = '\n'
  · subst hc
    rw [following, following, advance_ofCounts_newline]
    simp [Text.lastLine]
  · rw [following, following, advance_ofCounts hc, List.count_append, List.count_singleton]
    simp [Text.lastLine, hc]

/-- Advancing over a text counts its lines and columns. -/
theorem following_append (text more : List Char) :
    following (text ++ more) = (following text).after more := by
  induction more generalizing text with
  | nil => simp
  | cons c more ih =>
    rw [after_cons, ← following_concat, ← ih, List.append_assoc, List.singleton_append]

theorem following_nil : following [] = start := rfl

end Position

namespace Scanner

/-- With `done` before it, `text` is read as blanks and longest tokens until `rest`
is left. Each token stands at the place where it starts. -/
inductive Tiles : List Char → List Char → List Token → List Char → Prop
  | stop {done rest : List Char} : Tiles done rest [] rest
  | blank {done text rest : List Char} {tokens : List Token} {c : Char} : isBlank c = true →
      Tiles (done ++ [c]) text tokens rest → Tiles done (c :: text) tokens rest
  | token {done text rest lexeme : List Char} {tokens : List Token} {kind : TokenKind} :
      Longest kind lexeme (lexeme ++ text) → Tiles (done ++ lexeme) text tokens rest →
      Tiles done (lexeme ++ text) (⟨kind, String.ofList lexeme, .following done⟩ :: tokens) rest

variable {done text rest : List Char} {tokens found : List Token}

theorem tokensFrom_blank {c : Char} (hc : isBlank c = true) (position : Position) :
    tokensFrom position found (c :: text) = tokensFrom (position.advance c) found text := by
  rw [tokensFrom, if_pos hc]

theorem tokensFrom_longest {kind : TokenKind} {lexeme : List Char}
    (h : Longest kind lexeme (lexeme ++ text)) (position : Position) :
    tokensFrom position found (lexeme ++ text) = tokensFrom (position.after lexeme)
      (⟨kind, String.ofList lexeme, position⟩ :: found) text := by
  obtain ⟨c, line, rfl, hblank⟩ := h.isToken.head
  have hmunch : munch c (line ++ text) = .token kind (c :: line) text :=
    munch_eq_token_iff.mpr ⟨h, rfl⟩
  rw [List.cons_append, tokensFrom, if_neg (by simp [hblank])]
  split
  · next hmunch' =>
    rw [hmunch] at hmunch'
    cases hmunch'
    rfl
  · next hmunch' =>
    rw [hmunch] at hmunch'
    cases hmunch'

theorem tokensFrom_stuck {cause : ScanFault} (h : Stuck text cause) (position : Position) :
    tokensFrom position found text = .error ⟨cause, position⟩ := by
  obtain ⟨c, line, rfl, hblank⟩ : ∃ c line, text = c :: line ∧ isBlank c = false := by
    cases h with
    | unterminatedString => exact ⟨_, _, rfl, by decide⟩
    | unexpectedCharacter hblank => exact ⟨_, _, rfl, hblank⟩
  have hmunch := (munch_eq_fault_iff hblank).mpr h
  rw [tokensFrom, if_neg (by simp [hblank])]
  split
  · next hmunch' =>
    rw [hmunch] at hmunch'
    cases hmunch'
  · next hmunch' =>
    rw [hmunch] at hmunch'
    cases hmunch'
    rfl

/-- What is read as tokens is scanned as these tokens. -/
theorem Tiles.tokensFrom_eq (h : Tiles done text tokens rest) :
    ∃ read, text = read ++ rest ∧ ∀ found, tokensFrom (.following done) found text =
      tokensFrom (.following (done ++ read)) (tokens.reverse ++ found) rest := by
  induction h with
  | stop => exact ⟨[], by simp⟩
  | @blank done text rest tokens c hc _ ih =>
    obtain ⟨read, rfl, hread⟩ := ih
    refine ⟨c :: read, by simp, fun found => ?_⟩
    rw [tokensFrom_blank hc, ← Position.following_concat, hread]
    simp
  | @token done text rest lexeme tokens kind hlongest _ ih =>
    obtain ⟨read, rfl, hread⟩ := ih
    refine ⟨lexeme ++ read, by simp, fun found => ?_⟩
    rw [tokensFrom_longest hlongest, ← Position.following_append, hread]
    simp

/-- Every text is read as tokens until its end or until reading is stuck. -/
theorem exists_tiles (done text : List Char) :
    ∃ tokens rest, Tiles done text tokens rest ∧ (rest = [] ∨ ∃ cause, Stuck rest cause) := by
  induction hlength : text.length using Nat.strong_induction_on generalizing done text with
  | h n ih =>
    cases text with
    | nil => exact ⟨[], [], .stop, .inl rfl⟩
    | cons c text =>
      by_cases hblank : isBlank c = true
      · obtain ⟨tokens, rest, htiles, hend⟩ :=
          ih text.length (by simp [← hlength]) (done ++ [c]) text rfl
        exact ⟨tokens, rest, .blank hblank htiles, hend⟩
      · simp only [Bool.not_eq_true] at hblank
        cases hmunch : munch c text with
        | fault cause =>
          exact ⟨[], c :: text, .stop, .inr ⟨cause, (munch_eq_fault_iff hblank).mp hmunch⟩⟩
        | token kind lexeme after =>
          obtain ⟨hlongest, he⟩ := munch_eq_token_iff.mp hmunch
          have hshort := munch_length hmunch
          rw [List.length_cons] at hlength
          obtain ⟨tokens, rest, htiles, hend⟩ :=
            ih after.length (by omega) (done ++ lexeme) after rfl
          rw [he] at hlongest ⊢
          exact ⟨_, rest, .token hlongest htiles, hend⟩

theorem Tiles.isToken (h : Tiles done text tokens rest) :
    ∀ t ∈ tokens, IsToken t.kind t.lexeme.toList := by
  induction h with
  | stop => simp
  | blank _ _ ih => exact ih
  | token hlongest _ ih => simpa using ⟨hlongest.isToken, ih⟩

theorem IsToken.ne_endOfFile {kind : TokenKind} {lexeme : List Char} (h : IsToken kind lexeme) :
    kind ≠ .endOfFile := by
  cases h with
  | symbol h =>
    unfold symbol? at h
    split at h <;> cases h <;> decide
  | symbolEqual h =>
    unfold symbolEqual? at h
    split at h <;> cases h <;> decide
  | word =>
    cases hkey : TokenKind.keyword? (String.ofList lexeme) with
    | none => simp
    | some kind =>
      have hkeyword := TokenKind.isKeyword_of_keyword? hkey
      rintro (rfl : kind = .endOfFile)
      cases hkeyword
  | number | string | comment => decide

end Scanner

open Scanner

variable {source : String}

theorem scanWithComments_of_tiles {body : List Token}
    (h : Tiles [] source.toList body []) :
    scanWithComments source = .ok (body ++ [.endAt (.following source.toList)]) := by
  obtain ⟨read, he, hscan⟩ := h.tokensFrom_eq
  rw [scanWithComments, ← Position.following_nil, hscan, tokensFrom, ← List.nil_append source.toList]
  simp [he]

theorem scanWithComments_of_stuck {body : List Token} {read rest : List Char} {cause : ScanFault}
    (he : source.toList = read ++ rest) (h : Tiles [] source.toList body rest)
    (hstuck : Stuck rest cause) :
    scanWithComments source = .error ⟨cause, .following read⟩ := by
  obtain ⟨read', he', hscan⟩ := h.tokensFrom_eq
  obtain rfl : read = read' := List.append_cancel_right (he.symm.trans he')
  rw [scanWithComments, ← Position.following_nil, hscan, tokensFrom_stuck hstuck, List.nil_append]

/-- A text is tiled up to its end or up to where reading is stuck. -/
theorem tiles_source (source : String) :
    (∃ body, Tiles [] source.toList body []) ∨
    ∃ body read rest cause, source.toList = read ++ rest ∧ Tiles [] source.toList body rest ∧
      Stuck rest cause := by
  obtain ⟨body, rest, htiles, rfl | ⟨cause, hstuck⟩⟩ := exists_tiles [] source.toList
  · exact .inl ⟨body, htiles⟩
  · obtain ⟨read, he, -⟩ := htiles.tokensFrom_eq
    exact .inr ⟨body, read, rest, cause, he, htiles, hstuck⟩

theorem scanWithComments_ok_iff {tokens : List Token} :
    scanWithComments source = .ok tokens ↔
      ∃ body, Tiles [] source.toList body [] ∧
        tokens = body ++ [.endAt (.following source.toList)] := by
  constructor
  · intro h
    rcases tiles_source source with ⟨body, htiles⟩ | ⟨body, read, rest, cause, he, htiles, hstuck⟩
    · rw [scanWithComments_of_tiles htiles] at h
      exact ⟨body, htiles, (Except.ok.inj h).symm⟩
    · rw [scanWithComments_of_stuck he htiles hstuck] at h
      cases h
  · rintro ⟨body, htiles, rfl⟩
    exact scanWithComments_of_tiles htiles

theorem scanWithComments_error_iff {cause : ScanFault} {position : Position} :
    scanWithComments source = .error ⟨cause, position⟩ ↔
      ∃ body read rest, source.toList = read ++ rest ∧ Tiles [] source.toList body rest ∧
        Stuck rest cause ∧ position = .following read := by
  constructor
  · intro h
    rcases tiles_source source with ⟨body, htiles⟩ | ⟨body, read, rest, cause, he, htiles, hstuck⟩
    · rw [scanWithComments_of_tiles htiles] at h
      cases h
    · rw [scanWithComments_of_stuck he htiles hstuck] at h
      cases h
      exact ⟨body, read, rest, he, htiles, hstuck, rfl⟩
  · rintro ⟨body, read, rest, he, htiles, hstuck, rfl⟩
    exact scanWithComments_of_stuck he htiles hstuck

/-- Without comments the same texts are scanned. -/
theorem scan_ok_iff {tokens : List Token} :
    scan source = .ok tokens ↔ ∃ body, Tiles [] source.toList body [] ∧
      tokens = body.filter (·.kind ≠ .comment) ++ [.endAt (.following source.toList)] := by
  have hfilter : ∀ body : List Token,
      (body ++ [Token.endAt (.following source.toList)]).filter (·.kind ≠ .comment) =
        body.filter (·.kind ≠ .comment) ++ [.endAt (.following source.toList)] := by
    simp [Token.endAt]
  constructor
  · intro h
    cases hall : scanWithComments source with
    | error e =>
      rw [scan, hall] at h
      cases h
    | ok all =>
      obtain ⟨body, htiles, rfl⟩ := scanWithComments_ok_iff.mp hall
      rw [scan, hall] at h
      cases h
      exact ⟨body, htiles, hfilter body⟩
  · rintro ⟨body, htiles, rfl⟩
    rw [scan, scanWithComments_of_tiles htiles, ← hfilter]
    rfl

/-- Scanning is exact maximal munch. With comments it succeeds just when blanks and
longest tokens make up the whole text, and gives these tokens and then the one end.
It fails just when they stop at a quote that is never closed or at a character that
starts no token, and says so at that place. Without comments the answer is the same
but for the comments. -/
theorem scan_exact (source : String) :
    (∀ tokens, scanWithComments source = .ok tokens ↔
      ∃ body, Tiles [] source.toList body [] ∧ (∀ t ∈ body, t.kind ≠ .endOfFile) ∧
        tokens = body ++ [.endAt (.following source.toList)]) ∧
    (∀ cause position, scanWithComments source = .error ⟨cause, position⟩ ↔
      ∃ body read rest, source.toList = read ++ rest ∧ Tiles [] source.toList body rest ∧
        Stuck rest cause ∧ position = .following read) ∧
    (∀ tokens, scan source = .ok tokens ↔
      ∃ body, Tiles [] source.toList body [] ∧ (∀ t ∈ body, t.kind ≠ .endOfFile) ∧
        tokens = body.filter (·.kind ≠ .comment) ++ [.endAt (.following source.toList)]) ∧
    (∀ cause position, scan source = .error ⟨cause, position⟩ ↔
      ∃ body read rest, source.toList = read ++ rest ∧ Tiles [] source.toList body rest ∧
        Stuck rest cause ∧ position = .following read) := by
  have hends : ∀ {body rest : List _}, Tiles [] source.toList body rest →
      ∀ t ∈ body, t.kind ≠ .endOfFile := fun h t ht => (h.isToken t ht).ne_endOfFile
  refine ⟨fun tokens => ?_, fun cause position => scanWithComments_error_iff, fun tokens => ?_,
    fun cause position => ?_⟩
  · rw [scanWithComments_ok_iff]
    constructor
    · rintro ⟨body, htiles, he⟩
      exact ⟨body, htiles, hends htiles, he⟩
    · rintro ⟨body, htiles, -, he⟩
      exact ⟨body, htiles, he⟩
  · rw [scan_ok_iff]
    constructor
    · rintro ⟨body, htiles, he⟩
      exact ⟨body, htiles, hends htiles, he⟩
    · rintro ⟨body, htiles, -, he⟩
      exact ⟨body, htiles, he⟩
  · rw [← scanWithComments_error_iff, scan]
    cases scanWithComments source <;> simp [Except.map]

end GradualScript
