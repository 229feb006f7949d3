import Mathlib
import GradualScript.Proofs.Scanning.Pieces

/-!
# The longest token

Which texts are tokens, and of which kind, is said here without any way to find
them: symbols of one or two characters, words, numerals, quoted strings and
comments. The head of a text is then read as the longest of its prefixes that is a
token, and reading fails exactly where no prefix is one.
-/
namespace GradualScript.Scanner

/-- The symbols of one character. -/
def symbol? : Char → Option TokenKind
  | '(' => some .leftParen
  | ')' => some .rightParen
  | '\x7b' => some .leftBrace
  | '\x7d' => some .rightBrace
  | ',' => some .comma
  | '.' => some .dot
  | ';' => some .semicolon
  | '-' => some .minus
  | '+' => some .plus
  | '/' => some .slash
  | '*' => some .star
  | '!' => some .bang
  | '=' => some .equal
  | '>' => some .greater
  | '<' => some .less
  | _ => none

/-- The symbols of two characters, of which the second is an equals sign. -/
def symbolEqual? : Char → Option TokenKind
  | '!' => some .bangEqual
  | '=' => some .equalEqual
  | '>' => some .greaterEqual
  | '<' => some .lessEqual
  | _ => none

/-- A text that is a token, and the kind of that token. -/
inductive IsToken : TokenKind → List Char → Prop
  | symbol {kind : TokenKind} {c : Char} : symbol? c = some kind → IsToken kind [c]
  | symbolEqual {kind : TokenKind} {c : Char} : symbolEqual? c = some kind → IsToken kind [c, '=']
  | word {text : List Char} : text ≠ [] → (∀ c ∈ text, isWordChar c = true) →
      IsToken ((TokenKind.keyword? (String.ofList text)).getD .identifier) text
  | number {text : List Char} : IsNumeral text → IsToken .number text
  | string {text : List Char} : IsQuoted text → IsToken .string text
  | comment {text : List Char} : '\n' ∉ text → IsToken .comment ('/' :: '/' :: text)

/-- The token of `text` that no other token of `text` is longer than. -/
structure Longest (kind : TokenKind) (lexeme text : List Char) : Prop where
  isToken : IsToken kind lexeme
  leads : lexeme <+: text
  maximal : ∀ kind' other, IsToken kind' other → other <+: text → other.length ≤ lexeme.length

/-- A character that no token starts with. -/
def Foreign (c : Char) : Prop := ∀ kind text, ¬ IsToken kind (c :: text)

variable {kind kind' : TokenKind} {c : Char} {text lexeme rest : List Char}

theorem symbol?_of_symbolEqual? (h : symbolEqual? c = some kind) : ∃ one, symbol? c = some one := by
  unfold symbolEqual? at h
  split at h <;> simp_all [symbol?]

/-- Symbols start with no character of the other tokens. -/
theorem plain_of_symbol? (h : symbol? c = some kind) :
    isBlank c = false ∧ c ≠ '"' ∧ c.isDigit = false ∧ isWordChar c = false := by
  unfold symbol? at h
  split at h <;> first | (cases h; decide) | cases h

theorem isToken_quote (h : IsToken kind ('"' :: text)) :
    kind = .string ∧ ∃ inner, text = inner ++ ['"'] ∧ '"' ∉ inner := by
  cases h with
  | symbol h => cases h
  | symbolEqual h => cases h
  | word _ h => exact absurd (h '"' List.mem_cons_self) (by decide)
  | number h =>
    obtain ⟨c, rest, he, hc⟩ := h.head
    cases he
    cases hc
  | string h =>
    obtain ⟨inner, he, hinner⟩ := h
    exact ⟨rfl, inner, by simpa using he, hinner⟩

theorem isToken_digit (hc : c.isDigit = true) (h : IsToken kind (c :: text)) :
    kind = .number ∧ IsNumeral (c :: text) := by
  cases h with
  | symbol h =>
    have hplain := plain_of_symbol? h
    simp_all
  | symbolEqual h =>
    obtain ⟨one, h⟩ := symbol?_of_symbolEqual? h
    have hplain := plain_of_symbol? h
    simp_all
  | word _ h =>
    have hdigit := not_isDigit_of_isWordChar (h c List.mem_cons_self)
    simp_all
  | number h => exact ⟨rfl, h⟩
  | string h =>
    obtain ⟨inner, he, -⟩ := h
    cases he
    cases hc
  | comment _ => cases hc

theorem isToken_word (hc : isWordChar c = true) (h : IsToken kind (c :: text)) :
    kind = (TokenKind.keyword? (String.ofList (c :: text))).getD .identifier ∧
      ∀ d ∈ c :: text, isWordChar d = true := by
  cases h with
  | symbol h =>
    have hplain := plain_of_symbol? h
    simp_all
  | symbolEqual h =>
    obtain ⟨one, h⟩ := symbol?_of_symbolEqual? h
    have hplain := plain_of_symbol? h
    simp_all
  | word _ h => exact ⟨rfl, h⟩
  | number h =>
    obtain ⟨d, rest, he, hd⟩ := h.head
    cases he
    have hdigit := not_isDigit_of_isWordChar hc
    simp_all
  | string h =>
    obtain ⟨inner, he, -⟩ := h
    cases he
    cases hc
  | comment _ => cases hc

/-- What starts with none of the characters above is a symbol or a comment. -/
theorem isToken_other (hquote : c ≠ '"') (hdigit : c.isDigit = false) (hword : isWordChar c = false)
    (h : IsToken kind (c :: text)) :
    symbol? c = some kind ∧ text = [] ∨ symbolEqual? c = some kind ∧ text = ['='] ∨
      kind = .comment ∧ c = '/' ∧ ∃ line, text = '/' :: line ∧ '\n' ∉ line := by
  cases h with
  | symbol h => simp [h]
  | symbolEqual h => simp [h]
  | word _ h => simp_all
  | number h =>
    obtain ⟨d, rest, he, hd⟩ := h.head
    cases he
    simp_all
  | string h =>
    obtain ⟨inner, he, -⟩ := h
    cases he
    exact absurd rfl hquote
  | @comment line h => exact .inr (.inr ⟨rfl, rfl, line, rfl, h⟩)

/-- A token has a first character, and it is no blank. -/
theorem IsToken.head (h : IsToken kind lexeme) :
    ∃ c text, lexeme = c :: text ∧ isBlank c = false := by
  cases h with
  | symbol h => exact ⟨_, _, rfl, (plain_of_symbol? h).1⟩
  | symbolEqual h =>
    obtain ⟨one, h⟩ := symbol?_of_symbolEqual? h
    exact ⟨_, _, rfl, (plain_of_symbol? h).1⟩
  | word hne h =>
    obtain ⟨c, text, rfl⟩ := List.exists_cons_of_ne_nil hne
    exact ⟨c, text, rfl, not_isBlank_of_isWordChar (h c List.mem_cons_self)⟩
  | number h =>
    obtain ⟨c, text, rfl, hc⟩ := h.head
    exact ⟨c, text, rfl, not_isBlank_of_isDigit hc⟩
  | string h =>
    obtain ⟨inner, rfl, -⟩ := h
    exact ⟨_, _, rfl, by decide⟩
  | comment _ => exact ⟨_, _, rfl, by decide⟩

/-- A text is a token of one kind only. -/
theorem IsToken.kind_unique (h : IsToken kind lexeme) (h' : IsToken kind' lexeme) :
    kind = kind' := by
  obtain ⟨c, text, rfl, -⟩ := h.head
  by_cases hquote : c = '"'
  · subst hquote
    rw [(isToken_quote h).1, (isToken_quote h').1]
  by_cases hdigit : c.isDigit = true
  · rw [(isToken_digit hdigit h).1, (isToken_digit hdigit h').1]
  by_cases hword : isWordChar c = true
  · rw [(isToken_word hword h).1, (isToken_word hword h').1]
  simp only [Bool.not_eq_true] at hdigit hword
  have hone := isToken_other hquote hdigit hword h
  have htwo := isToken_other hquote hdigit hword h'
  grind

theorem Longest.unique {lexeme' : List Char} (h : Longest kind lexeme text)
    (h' : Longest kind' lexeme' text) : kind = kind' ∧ lexeme = lexeme' := by
  have hlength : lexeme.length = lexeme'.length :=
    Nat.le_antisymm (h'.maximal _ _ h.isToken h.leads) (h.maximal _ _ h'.isToken h'.leads)
  have hlexeme : lexeme = lexeme' :=
    (List.prefix_of_prefix_length_le h.leads h'.leads hlength.le).eq_of_length hlength
  subst hlexeme
  exact ⟨h.isToken.kind_unique h'.isToken, rfl⟩

/-- A prefix whose characters all pass a test is no longer than the run of such characters. -/
theorem length_le_takeWhile {p : Char → Bool} {other : List Char} (hleads : other <+: text)
    (h : ∀ d ∈ other, p d = true) : other.length ≤ (text.takeWhile p).length := by
  obtain ⟨rest, rfl⟩ := hleads
  rw [List.takeWhile_append_of_pos h]
  simp

theorem longest_stringLiteral (h : stringLiteral text = .token kind lexeme rest) :
    Longest kind lexeme ('"' :: text) := by
  have hsplit := stringLiteral_eq h
  have hscanned := isScanned_stringLiteral h
  have hkind : kind = .string := by
    unfold stringLiteral at h
    split at h <;> cases h
    rfl
  subst hkind
  have hquoted : IsQuoted lexeme := by simpa [IsSpelled] using hscanned.1
  refine ⟨.string hquoted, ⟨rest, hsplit.1.symm⟩, ?_⟩
  intro kind' other hother hleads
  obtain ⟨c, line, rfl, -⟩ := hother.head
  obtain rfl : c = '"' := (List.cons_prefix_cons.mp hleads).1
  obtain ⟨-, inner, rfl, hinner⟩ := isToken_quote hother
  obtain ⟨inner', rfl, hinner'⟩ := hquoted
  obtain ⟨after, hafter⟩ := (List.cons_prefix_cons.mp hleads).2
  -- both end at the first quote of the text
  have heq : inner ++ '"' :: after = inner' ++ '"' :: rest := by
    have htext : text = inner' ++ '"' :: rest := by simpa using hsplit.1
    rw [← htext, ← hafter]
    simp
  have hall : ∀ {run : List Char}, '"' ∉ run → ∀ d ∈ run, decide (d ≠ '"') = true := by
    intro run hrun d hd
    simp only [decide_eq_true_eq]
    rintro rfl
    exact hrun hd
  have hrun := congrArg (List.takeWhile (· ≠ '"')) heq
  rw [List.takeWhile_append_of_pos (hall hinner), List.takeWhile_append_of_pos (hall hinner')] at hrun
  simp only [ne_eq, not_true_eq_false, decide_false, Bool.false_eq_true, not_false_eq_true,
    List.takeWhile_cons_of_neg, List.append_nil] at hrun
  simp [hrun]

/-- A numeral at the head of a text is no longer than the one that is taken. -/
theorem length_le_numberLiteral {other : List Char}
    (h : numberLiteral text = .token kind lexeme rest)
    (hother : IsNumeral other) (hleads : other <+: text) : other.length ≤ lexeme.length := by
  have hwhole : ∀ {run : List Char}, run <+: text → (∀ d ∈ run, d.isDigit = true) →
      run.length ≤ (text.takeWhile Char.isDigit).length := length_le_takeWhile
  unfold numberLiteral at h
  dsimp only at h
  cases hother with
  | whole _ hdigits =>
    have hle := hwhole hleads hdigits
    split at h
    · split at h <;> cases h
      · exact hle
      · simp only [List.length_append]
        omega
    · cases h
      exact hle
  | @pointed digits fraction hne hdigits hne' hfraction =>
    obtain ⟨after, rfl⟩ := hleads
    have hpoint : ∀ d, ('.' :: (fraction ++ after)).head? = some d → d.isDigit = false := by
      simp
    obtain ⟨htake, hdrop⟩ := takeWhile_apart hdigits hpoint
    rw [List.append_assoc, List.cons_append, htake, hdrop] at h
    have hle : fraction.length ≤ ((fraction ++ after).takeWhile Char.isDigit).length :=
      length_le_takeWhile (List.prefix_append ..) hfraction
    have hpos := List.length_pos_iff.mpr hne'
    have hempty : ((fraction ++ after).takeWhile Char.isDigit).isEmpty = false := by
      rw [List.isEmpty_eq_false_iff, ← List.length_pos_iff]
      omega
    simp only [hempty, Bool.false_eq_true, if_false] at h
    cases h
    simp only [List.length_append, List.length_cons]
    omega

theorem longest_numberLiteral (hc : c.isDigit = true)
    (h : numberLiteral (c :: text) = .token kind lexeme rest) :
    Longest kind lexeme (c :: text) := by
  have hkind : kind = .number := by
    unfold numberLiteral at h
    dsimp only at h
    split at h
    · split at h <;> cases h <;> rfl
    · cases h
      rfl
  subst hkind
  have hnumeral : IsNumeral lexeme := by simpa [IsSpelled] using (isScanned_numberLiteral hc h).1
  refine ⟨.number hnumeral, ⟨rest, (numberLiteral_eq h).symm⟩, ?_⟩
  intro kind' other hother hleads
  obtain ⟨d, line, rfl, -⟩ := hother.head
  obtain rfl : d = c := (List.cons_prefix_cons.mp hleads).1
  exact length_le_numberLiteral h (isToken_digit hc hother).2 hleads

theorem longest_word (hc : isWordChar c = true) (h : word (c :: text) = .token kind lexeme rest) :
    Longest kind lexeme (c :: text) := by
  simp only [word, Munch.token.injEq] at h
  obtain ⟨rfl, rfl, rfl⟩ := h
  refine ⟨.word (by simp [hc]) (List.all_eq_true.mp List.all_takeWhile), List.takeWhile_prefix _, ?_⟩
  intro kind' other hother hleads
  obtain ⟨d, line, rfl, -⟩ := hother.head
  obtain rfl : d = c := (List.cons_prefix_cons.mp hleads).1
  exact length_le_takeWhile hleads (isToken_word hc hother).2

theorem longest_comment (h : comment ('/' :: '/' :: text) = .token kind lexeme rest) :
    Longest kind lexeme ('/' :: '/' :: text) := by
  simp only [comment, Munch.token.injEq] at h
  obtain ⟨rfl, rfl, rfl⟩ := h
  refine ⟨.comment fun hmem => ?_, ?_, ?_⟩
  · have hpass := List.all_eq_true.mp (List.all_takeWhile (p := (· ≠ '\n')) (l := text)) _ hmem
    simp at hpass
  · simpa using List.takeWhile_prefix _
  · intro kind' other hother hleads
    obtain ⟨d, line, rfl, -⟩ := hother.head
    obtain ⟨rfl, hline⟩ := List.cons_prefix_cons.mp hleads
    rcases isToken_other (by decide) (by decide) (by decide) hother with
      ⟨-, rfl⟩ | ⟨h, -⟩ | ⟨-, -, line, rfl, hnone⟩
    · simp
    · cases h
    · have hle := length_le_takeWhile (p := (· ≠ '\n')) (List.cons_prefix_cons.mp hline).2 (by
        simp only [decide_eq_true_eq]
        rintro d hd rfl
        exact hnone hd)
      simpa using hle

/-- One symbol is taken, with an equals sign behind it where that makes a symbol. -/
theorem punctuation_cases (c : Char) (text : List Char) :
    (symbol? c = none ∧ punctuation c text = .fault (.unexpectedCharacter c)) ∨
    (∃ kind rest, symbolEqual? c = some kind ∧ text = '=' :: rest ∧
      punctuation c text = .token kind [c, '='] rest) ∨
    (∃ kind, symbol? c = some kind ∧ (text.head? = some '=' → symbolEqual? c = none) ∧
      punctuation c text = .token kind [c] text) := by
  have hpair : ∀ {one two : TokenKind}, symbol? c = some one → symbolEqual? c = some two →
      punctuation c text = oneOrTwo c '=' one two text →
      (∃ kind rest, symbolEqual? c = some kind ∧ text = '=' :: rest ∧
        punctuation c text = .token kind [c, '='] rest) ∨
      (∃ kind, symbol? c = some kind ∧ (text.head? = some '=' → symbolEqual? c = none) ∧
        punctuation c text = .token kind [c] text) := by
    intro one two hone htwo h
    rw [h]
    cases text with
    | nil => exact .inr ⟨one, hone, by simp, rfl⟩
    | cons d rest =>
      by_cases hd : d = '='
      · exact .inl ⟨two, rest, htwo, by rw [hd], by rw [oneOrTwo, if_pos hd]⟩
      · exact .inr ⟨one, hone, by simp [hd], by rw [oneOrTwo, if_neg hd]⟩
  by_cases hsingle : symbolEqual? c = none
  · cases hone : symbol? c with
    | none =>
      refine .inl ⟨rfl, ?_⟩
      unfold symbol? at hone
      unfold punctuation
      split at hone <;> simp_all
    | some kind =>
      refine .inr (.inr ⟨kind, rfl, fun _ => hsingle, ?_⟩)
      unfold symbol? at hone
      split at hone <;> cases hone <;> first | rfl | cases hsingle
  · refine .inr ?_
    unfold symbolEqual? at hsingle
    split at hsingle
    · exact hpair rfl rfl rfl
    · exact hpair rfl rfl rfl
    · exact hpair rfl rfl rfl
    · exact hpair rfl rfl rfl
    · exact absurd rfl hsingle

/-- The tokens at the head of a text that starts with none of the other sorts of token. -/
theorem isToken_symbols (hquote : c ≠ '"') (hdigit : c.isDigit = false)
    (hword : isWordChar c = false) (hslash : ¬ (c = '/' ∧ text.head? = some '/'))
    (h : IsToken kind lexeme) (hleads : lexeme <+: c :: text) :
    symbol? c = some kind ∧ lexeme = [c] ∨
      symbolEqual? c = some kind ∧ lexeme = [c, '='] ∧ text.head? = some '=' := by
  obtain ⟨d, line, rfl, -⟩ := h.head
  obtain ⟨rfl, hline⟩ := List.cons_prefix_cons.mp hleads
  rcases isToken_other hquote hdigit hword h with
    ⟨hone, rfl⟩ | ⟨htwo, rfl⟩ | ⟨-, rfl, line, rfl, -⟩
  · exact .inl ⟨hone, rfl⟩
  · obtain ⟨after, rfl⟩ := hline
    exact .inr ⟨htwo, rfl, by simp⟩
  · obtain ⟨after, rfl⟩ := hline
    exact absurd ⟨rfl, by simp⟩ hslash

theorem longest_punctuation (hquote : c ≠ '"') (hdigit : c.isDigit = false)
    (hword : isWordChar c = false) (hslash : ¬ (c = '/' ∧ text.head? = some '/'))
    (h : punctuation c text = .token kind lexeme rest) : Longest kind lexeme (c :: text) := by
  have hsymbols : ∀ kind' other, IsToken kind' other → other <+: c :: text → _ :=
    fun _ _ => isToken_symbols hquote hdigit hword hslash
  rcases punctuation_cases c text with ⟨-, he⟩ | ⟨two, after, htwo, rfl, he⟩ | ⟨one, hone, hnone, he⟩
  · rw [he] at h
    cases h
  · rw [he] at h
    cases h
    refine ⟨.symbolEqual htwo, by simp, fun kind' other hother hleads => ?_⟩
    rcases hsymbols kind' other hother hleads with ⟨-, rfl⟩ | ⟨-, rfl, -⟩ <;> simp
  · rw [he] at h
    cases h
    refine ⟨.symbol hone, by simp, fun kind' other hother hleads => ?_⟩
    rcases hsymbols kind' other hother hleads with ⟨-, rfl⟩ | ⟨htwo, -, hhead⟩
    · simp
    · rw [hnone hhead] at htwo
      cases htwo

/-- What is taken is the longest token, and the text after it is left. -/
theorem longest_of_munch (h : munch c text = .token kind lexeme rest) :
    Longest kind lexeme (c :: text) := by
  unfold munch at h
  split at h
  · next hquote =>
    subst hquote
    exact longest_stringLiteral h
  split at h
  · next hdigit => exact longest_numberLiteral hdigit h
  split at h
  · next hword => exact longest_word hword h
  next hquote hdigit hword =>
    simp only [Bool.not_eq_true] at hdigit hword
    split at h
    · next hslash =>
      simp only [Bool.and_eq_true, decide_eq_true_eq] at hslash
      obtain ⟨rfl, hhead⟩ := hslash
      obtain ⟨line, rfl⟩ : ∃ line, text = '/' :: line := List.head?_eq_some_iff.mp hhead
      exact longest_comment h
    · next hslash =>
      simp only [Bool.and_eq_true, decide_eq_true_eq] at hslash
      exact longest_punctuation hquote hdigit hword hslash h

/-- Why the head of a text is no token: a quote opens a string that is never closed,
or the first character is foreign to the language. -/
inductive Stuck : List Char → ScanFault → Prop
  | unterminatedString {text : List Char} : '"' ∉ text → Stuck ('"' :: text) .unterminatedString
  | unexpectedCharacter {c : Char} {text : List Char} : isBlank c = false → Foreign c →
      Stuck (c :: text) (.unexpectedCharacter c)

theorem stringLiteral_fault {cause : ScanFault} (h : stringLiteral text = .fault cause) :
    cause = .unterminatedString ∧ '"' ∉ text := by
  unfold stringLiteral at h
  split at h
  · next hdrop =>
    cases h
    have hall := List.dropWhile_eq_nil_iff.mp hdrop
    exact ⟨rfl, fun hmem => by simpa using hall '"' hmem⟩
  · cases h

theorem numberLiteral_ne_fault (cause : ScanFault) : numberLiteral text ≠ .fault cause := by
  intro h
  unfold numberLiteral at h
  dsimp only at h
  split at h
  · split at h <;> cases h
  · cases h

/-- A character of no sort of token starts none. -/
theorem foreign_of_symbol? (hquote : c ≠ '"') (hdigit : c.isDigit = false)
    (hword : isWordChar c = false) (hnone : symbol? c = none) : Foreign c := by
  intro kind text h
  rcases isToken_other hquote hdigit hword h with ⟨h, -⟩ | ⟨h, -⟩ | ⟨-, rfl, -⟩
  · rw [hnone] at h
    cases h
  · obtain ⟨one, hone⟩ := symbol?_of_symbolEqual? h
    rw [hnone] at hone
    cases hone
  · cases hnone

theorem stuck_of_munch {cause : ScanFault} (hblank : isBlank c = false)
    (h : munch c text = .fault cause) : Stuck (c :: text) cause := by
  unfold munch at h
  split at h
  · next hquote =>
    subst hquote
    obtain ⟨rfl, hnone⟩ := stringLiteral_fault h
    exact .unterminatedString hnone
  split at h
  · exact absurd h (numberLiteral_ne_fault cause)
  split at h
  · cases h
  split at h
  · cases h
  next hquote hdigit hword _ =>
    simp only [Bool.not_eq_true] at hdigit hword
    rcases punctuation_cases c text with ⟨hnone, he⟩ | ⟨two, after, -, -, he⟩ | ⟨one, -, -, he⟩ <;>
      rw [he] at h <;> cases h
    exact .unexpectedCharacter hblank (foreign_of_symbol? hquote hdigit hword hnone)

/-- Where reading is stuck no token is at the head of the text. -/
theorem Stuck.not_leads {cause : ScanFault} (h : Stuck text cause) (htoken : IsToken kind lexeme) :
    ¬ lexeme <+: text := by
  obtain ⟨c, line, rfl, -⟩ := htoken.head
  intro hleads
  cases h with
  | unterminatedString hnone =>
    obtain ⟨rfl, hline⟩ := List.cons_prefix_cons.mp hleads
    obtain ⟨-, inner, rfl, -⟩ := isToken_quote htoken
    exact hnone (hline.subset (by simp))
  | unexpectedCharacter _ hforeign =>
    obtain ⟨rfl, -⟩ := List.cons_prefix_cons.mp hleads
    exact hforeign _ _ htoken

/-- The head of a text is read as the longest token there. -/
theorem munch_eq_token_iff :
    munch c text = .token kind lexeme rest ↔
      Longest kind lexeme (c :: text) ∧ c :: text = lexeme ++ rest := by
  constructor
  · intro h
    exact ⟨longest_of_munch h, (munch_eq h).1⟩
  · rintro ⟨h, he⟩
    cases hmunch : munch c text with
    | token kind' lexeme' rest' =>
      obtain ⟨rfl, rfl⟩ := h.unique (longest_of_munch hmunch)
      obtain rfl : rest = rest' := List.append_cancel_left (he.symm.trans (munch_eq hmunch).1)
      rfl
    | fault cause =>
      obtain ⟨d, line, rfl, hblank⟩ := h.isToken.head
      obtain ⟨rfl, -⟩ := List.cons_prefix_cons.mp h.leads
      exact absurd h.leads ((stuck_of_munch hblank hmunch).not_leads h.isToken)

/-- Reading the head of a text fails where it is stuck, and says why. -/
theorem munch_eq_fault_iff {cause : ScanFault} (hblank : isBlank c = false) :
    munch c text = .fault cause ↔ Stuck (c :: text) cause := by
  constructor
  · exact stuck_of_munch hblank
  · intro h
    cases hmunch : munch c text with
    | token kind lexeme rest =>
      have hlongest := longest_of_munch hmunch
      exact absurd hlongest.leads (h.not_leads hlongest.isToken)
    | fault cause' =>
      have h' := stuck_of_munch hblank hmunch
      have hquote : ¬ Foreign '"' := fun hf => hf .string ['"'] (.string ⟨[], rfl, by simp⟩)
      cases h with
      | unterminatedString => cases h' with
        | unterminatedString => rfl
        | unexpectedCharacter _ hforeign => exact absurd hforeign hquote
      | unexpectedCharacter _ hforeign => cases h' with
        | unterminatedString => exact absurd hforeign hquote
        | unexpectedCharacter => rfl

end GradualScript.Scanner
