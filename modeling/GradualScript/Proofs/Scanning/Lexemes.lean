import Mathlib
import GradualScript.Proofs.Number.Literal
import GradualScript.Token.Scanner

/-!
# The spelling of scanned tokens

Each kind of token with a text of its own is spelled in one way: a number token is a
numeral, a string token is quoted, an identifier is a word that is no keyword. The
last token, and no other, marks the end.
-/
namespace GradualScript

/-- A text between quotes that holds none. -/
def IsQuoted (text : List Char) : Prop :=
  ∃ inner, text = '"' :: (inner ++ ['"']) ∧ '"' ∉ inner

/-- Word characters that spell no keyword. -/
structure IsName (name : String) : Prop where
  ne_nil : name.toList ≠ []
  isWordChar : ∀ c ∈ name.toList, Scanner.isWordChar c = true
  keyword?_eq : TokenKind.keyword? name = none

/-- How the text of a token is spelled. -/
def IsSpelled (kind : TokenKind) (lexeme : String) : Prop :=
  match kind with
  | .number => IsNumeral lexeme.toList
  | .string => IsQuoted lexeme.toList
  | .identifier => IsName lexeme
  | _ => True

/-- The kinds of token that a keyword has. -/
def TokenKind.isKeyword : TokenKind → Bool
  | andWord | elseWord | falseWord | forWord | funWord | ifWord | nilWord | orWord | printWord
  | returnWord | trueWord | varWord | whileWord => true
  | _ => false

theorem TokenKind.isKeyword_of_keyword? {name : String} {kind : TokenKind}
    (h : keyword? name = some kind) : kind.isKeyword = true := by
  unfold keyword? at h
  split at h <;> cases h <;> rfl

namespace Scanner

variable {kind : TokenKind} {lexeme rest : List Char}

/-- What scanning says about one token. -/
def IsScanned (kind : TokenKind) (lexeme : List Char) : Prop :=
  IsSpelled kind (String.ofList lexeme) ∧ kind ≠ .endOfFile

theorem isScanned_of_plain (h : kind ≠ .number ∧ kind ≠ .string ∧ kind ≠ .identifier)
    (hend : kind ≠ .endOfFile) (lexeme : List Char) : IsScanned kind lexeme := by
  refine ⟨?_, hend⟩
  unfold IsSpelled
  split
  · exact absurd rfl h.1
  · exact absurd rfl h.2.1
  · exact absurd rfl h.2.2
  · trivial

theorem isScanned_punctuation {c : Char} {text : List Char}
    (h : punctuation c text = .token kind lexeme rest) : IsScanned kind lexeme := by
  have hone : ∀ {second : Char} {one two : TokenKind}, oneOrTwo c second one two text =
      .token kind lexeme rest → kind = one ∨ kind = two := by
    intro second one two h
    unfold oneOrTwo at h
    split at h
    · cases h
      exact .inl rfl
    · split at h <;> cases h
      · exact .inr rfl
      · exact .inl rfl
  unfold punctuation at h
  split at h
  all_goals first
    | (rcases hone h with rfl | rfl <;> exact isScanned_of_plain (by decide) (by decide) _)
    | (cases h; exact isScanned_of_plain (by decide) (by decide) _)
    | cases h

theorem isScanned_stringLiteral {text : List Char}
    (h : stringLiteral text = .token kind lexeme rest) : IsScanned kind lexeme := by
  unfold stringLiteral at h
  split at h
  · cases h
  · next quote after hdrop =>
    cases h
    have hquote : quote = '"' := by
      have hne : text.dropWhile (· ≠ '"') ≠ [] := by
        rw [hdrop]
        simp
      have hhead := List.head_dropWhile_not (· ≠ '"') hne
      simp only [hdrop, List.head_cons] at hhead
      exact Decidable.not_not.mp (of_decide_eq_false hhead)
    refine ⟨⟨text.takeWhile (· ≠ '"'), ?_, ?_⟩, by decide⟩
    · rw [String.toList_ofList, hquote, List.cons_append]
    · intro hmem
      have hall := List.all_eq_true.mp (List.all_takeWhile (p := (· ≠ '"')) (l := text)) _ hmem
      exact absurd hall (by decide)

theorem isDigit_of_mem_takeWhile {text : List Char} :
    ∀ c ∈ text.takeWhile Char.isDigit, c.isDigit = true :=
  List.all_eq_true.mp List.all_takeWhile

theorem isScanned_numberLiteral {c : Char} {text : List Char} (hc : c.isDigit = true)
    (h : numberLiteral (c :: text) = .token kind lexeme rest) : IsScanned kind lexeme := by
  have hne : (c :: text).takeWhile Char.isDigit ≠ [] := by simp [hc]
  have hwhole : IsNumeral ((c :: text).takeWhile Char.isDigit) := .whole hne isDigit_of_mem_takeWhile
  unfold numberLiteral at h
  dsimp only at h
  split at h
  · next after _ =>
    split at h
    · cases h
      exact ⟨by simpa [IsSpelled] using hwhole, by decide⟩
    · next hfraction =>
      cases h
      have hpointed : IsNumeral ((c :: text).takeWhile Char.isDigit ++
          '.' :: after.takeWhile Char.isDigit) :=
        .pointed hne isDigit_of_mem_takeWhile (by simpa using hfraction) isDigit_of_mem_takeWhile
      exact ⟨by simpa only [IsSpelled, String.toList_ofList] using hpointed, by decide⟩
  · cases h
    exact ⟨by simpa [IsSpelled] using hwhole, by decide⟩

theorem isScanned_word {c : Char} {text : List Char} (hc : isWordChar c = true)
    (h : word (c :: text) = .token kind lexeme rest) : IsScanned kind lexeme := by
  unfold word at h
  dsimp only at h
  cases hkey : TokenKind.keyword? (String.ofList ((c :: text).takeWhile isWordChar)) with
  | some k =>
    rw [hkey] at h
    cases h
    have hk := TokenKind.isKeyword_of_keyword? hkey
    exact isScanned_of_plain (by cases k <;> simp_all [TokenKind.isKeyword])
      (by cases k <;> simp_all [TokenKind.isKeyword]) _
  | none =>
    rw [hkey] at h
    cases h
    refine ⟨⟨?_, ?_, hkey⟩, by decide⟩
    · simp [hc]
    · rw [String.toList_ofList]
      exact List.all_eq_true.mp List.all_takeWhile

theorem isScanned_munch {c : Char} {text : List Char} (h : munch c text = .token kind lexeme rest) :
    IsScanned kind lexeme := by
  unfold munch at h
  split at h
  · exact isScanned_stringLiteral h
  · split at h
    · next hc => exact isScanned_numberLiteral hc h
    · split at h
      · next hc => exact isScanned_word hc h
      · split at h
        · cases h
          exact isScanned_of_plain (by decide) (by decide) _
        · exact isScanned_punctuation h

/-- The tokens found are spelled as their kind says, and then comes the end. -/
theorem tokensFrom_eq_ok {position : Position} {found tokens : List Token} {text : List Char}
    (h : tokensFrom position found text = .ok tokens) :
    ∃ body stop, tokens = found.reverse ++ (body ++ [Token.endAt stop]) ∧
      ∀ t ∈ body, IsSpelled t.kind t.lexeme ∧ t.kind ≠ .endOfFile := by
  induction position, found, text using tokensFrom.induct with
  | case1 position found =>
    rw [tokensFrom] at h
    cases h
    exact ⟨[], position, by simp, by simp⟩
  | case2 position found c text hblank ih =>
    rw [tokensFrom, if_pos hblank] at h
    exact ih h
  | case3 position found c text hblank kind lexeme rest hmunch ih =>
    rw [tokensFrom, if_neg hblank] at h
    split at h
    · next kind' lexeme' rest' hmunch' =>
      rw [hmunch] at hmunch'
      cases hmunch'
      obtain ⟨body, stop, rfl, hbody⟩ := ih h
      refine ⟨⟨kind, String.ofList lexeme, position⟩ :: body, stop, by simp, ?_⟩
      exact List.forall_mem_cons.mpr ⟨isScanned_munch hmunch, hbody⟩
    · cases h
  | case4 position found c text hblank cause hmunch =>
    rw [tokensFrom, if_neg hblank] at h
    split at h
    · next hmunch' =>
      rw [hmunch] at hmunch'
      cases hmunch'
    · cases h

end Scanner

/-- What a source text scans to: tokens spelled as their kind says, and the end. -/
theorem scan_eq_ok {source : String} {tokens : List Token} (h : scan source = .ok tokens) :
    ∃ body stop, tokens = body ++ [Token.endAt stop] ∧
      ∀ t ∈ body, IsSpelled t.kind t.lexeme ∧ t.kind ≠ .endOfFile ∧ t.kind ≠ .comment := by
  unfold scan at h
  cases hscan : scanWithComments source with
  | error e =>
    rw [hscan] at h
    cases h
  | ok all =>
    rw [hscan] at h
    cases h
    obtain ⟨body, stop, rfl, hbody⟩ := Scanner.tokensFrom_eq_ok hscan
    refine ⟨body.filter (·.kind ≠ .comment), stop, ?_, ?_⟩
    · simp [Token.endAt]
    · intro t ht
      obtain ⟨hmem, hkind⟩ := List.mem_filter.mp ht
      exact ⟨(hbody t hmem).1, (hbody t hmem).2, of_decide_eq_true hkind⟩

end GradualScript
