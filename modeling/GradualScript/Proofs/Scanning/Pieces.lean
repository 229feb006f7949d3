import Mathlib
import GradualScript.Operator
import GradualScript.Parsing.Expression
import GradualScript.Proofs.Scanning.Lexemes

/-!
# Scanning a text piece by piece

A piece of text yields the same tokens wherever it stands, if what follows it cannot
make its last token longer. Pieces put together yield their tokens together.
-/
namespace GradualScript.Scanner

/-- Nothing is asked of what follows. -/
def Free (_ : List Char) : Prop := True

/-- What follows is no part of a word or a number. -/
def Apart (rest : List Char) : Prop :=
  ∀ c, rest.head? = some c → isWordChar c = false ∧ c.isDigit = false ∧ c ≠ '.'

/-- What follows makes no operator of two characters. -/
def NoEqual (rest : List Char) : Prop := rest.head? ≠ some '='

theorem apart_cons {c : Char} (h : isWordChar c = false ∧ c.isDigit = false ∧ c ≠ '.')
    (rest : List Char) : Apart (c :: rest) := by
  intro d hd
  cases hd
  exact h

/-- Scanning goes through a text and finds the tokens, before every text that may
follow. None of them is a comment or marks the end. -/
structure Yields (follow : List Char → Prop) (p : Position) (text : List Char)
    (ts : List Token) : Prop where
  scanned : ∀ found rest, follow rest →
    tokensFrom p found (text ++ rest) = tokensFrom (p.after text) (ts.reverse ++ found) rest
  plain : ∀ t ∈ ts, t.kind ≠ .comment ∧ t.kind ≠ .endOfFile

variable {follow follow' : List Char → Prop} {p : Position} {a b text : List Char}
  {ts us : List Token}

theorem Yields.append (h : Yields follow p a ts) (h' : Yields follow' (p.after a) b us)
    (hb : ∀ rest, follow' rest → follow (b ++ rest)) : Yields follow' p (a ++ b) (ts ++ us) := by
  refine ⟨fun found rest hrest => ?_, List.forall_mem_append.mpr ⟨h.plain, h'.plain⟩⟩
  rw [List.append_assoc, h.scanned _ _ (hb rest hrest), h'.scanned _ _ hrest, Position.after_append,
    List.reverse_append, List.append_assoc]

/-- Pieces of which the second starts with a character apart. -/
theorem Yields.before {c : Char} (h : Yields Apart p a ts)
    (h' : Yields follow (p.after a) (c :: b) us)
    (hc : isWordChar c = false ∧ c.isDigit = false ∧ c ≠ '.') :
    Yields follow p (a ++ c :: b) (ts ++ us) :=
  h.append h' fun rest _ => apart_cons hc (b ++ rest)

/-- Pieces of which the first ends whatever follows. -/
theorem Yields.then (h : Yields Free p a ts) (h' : Yields follow (p.after a) b us) :
    Yields follow p (a ++ b) (ts ++ us) :=
  h.append h' fun _ _ => trivial

theorem Yields.mono (h : Yields follow p text ts) (hf : ∀ rest, follow' rest → follow rest) :
    Yields follow' p text ts :=
  ⟨fun found rest hrest => h.scanned found rest (hf rest hrest), h.plain⟩

theorem Yields.weaken (h : Yields Free p text ts) : Yields follow p text ts :=
  h.mono fun _ _ => trivial

theorem yields_nil (p : Position) : Yields Free p [] [] :=
  ⟨fun _ _ _ => rfl, by simp⟩

theorem yields_blank {c : Char} (hc : isBlank c = true) (p : Position) : Yields Free p [c] [] := by
  refine ⟨fun found rest _ => ?_, by simp⟩
  rw [List.singleton_append, tokensFrom, if_pos hc]
  rfl

theorem Yields.blank_before {c : Char} (h : Yields follow (p.advance c) text ts)
    (hc : isBlank c = true) : Yields follow p (c :: text) ts :=
  (yields_blank hc p).then h

/-- A piece that is one token. -/
theorem yields_token {c : Char} {text : List Char} {kind : TokenKind} (hblank : isBlank c = false)
    (hkind : kind ≠ .comment ∧ kind ≠ .endOfFile)
    (h : ∀ rest, follow rest → munch c (text ++ rest) = .token kind (c :: text) rest)
    (p : Position) :
    Yields follow p (c :: text) [⟨kind, String.ofList (c :: text), p⟩] := by
  refine ⟨fun found rest hrest => ?_, by simpa using hkind⟩
  have hmunch := h rest hrest
  rw [List.cons_append, tokensFrom, if_neg (by rw [hblank]; decide)]
  split
  · next hmunch' =>
    rw [hmunch] at hmunch'
    cases hmunch'
    rfl
  · next hmunch' =>
    rw [hmunch] at hmunch'
    cases hmunch'

theorem takeWhile_apart {q : Char → Bool} {rest : List Char} (h : ∀ c ∈ text, q c = true)
    (hrest : ∀ c, rest.head? = some c → q c = false) :
    (text ++ rest).takeWhile q = text ∧ (text ++ rest).dropWhile q = rest := by
  rw [List.takeWhile_append_of_pos h, List.dropWhile_append_of_pos h]
  cases rest with
  | nil => simp
  | cons c rest => simp [hrest c rfl]

theorem not_isBlank_of_isWordChar {c : Char} (h : isWordChar c = true) : isBlank c = false := by
  apply Bool.eq_false_iff.mpr
  intro hblank
  simp only [isBlank, Bool.or_eq_true, decide_eq_true_eq] at hblank
  rcases hblank with (((rfl | rfl) | rfl) | rfl) | rfl <;> cases h

theorem not_isBlank_of_isDigit {c : Char} (h : c.isDigit = true) : isBlank c = false := by
  apply Bool.eq_false_iff.mpr
  intro hblank
  simp only [isBlank, Bool.or_eq_true, decide_eq_true_eq] at hblank
  rcases hblank with (((rfl | rfl) | rfl) | rfl) | rfl <;> cases h

theorem not_isDigit_of_isWordChar {c : Char} (h : isWordChar c = true) : c.isDigit = false := by
  apply Bool.eq_false_iff.mpr
  intro hdigit
  simp only [isWordChar, Char.isAlpha, Char.isUpper, Char.isLower, Char.isDigit, Bool.or_eq_true,
    Bool.and_eq_true, decide_eq_true_eq] at h hdigit
  rcases h with (⟨h, -⟩ | ⟨h, -⟩) | rfl
  · exact absurd (UInt32.le_trans h hdigit.2) (by decide)
  · exact absurd (UInt32.le_trans h hdigit.2) (by decide)
  · exact absurd hdigit.2 (by decide)

/-- Word characters that are scanned as a token of the kind. -/
structure IsWord (word : String) (kind : TokenKind) : Prop where
  ne_nil : word.toList ≠ []
  chars : ∀ c ∈ word.toList, isWordChar c = true
  kind_eq : (TokenKind.keyword? word).getD .identifier = kind

theorem isWord_keyword (word : String) {kind : TokenKind}
    (h : TokenKind.keyword? word = some kind) : IsWord word kind := by
  have hchars : word.toList ≠ [] ∧ word.toList.all isWordChar = true := by
    unfold TokenKind.keyword? at h
    split at h <;> first | decide | cases h
  exact ⟨hchars.1, List.all_eq_true.mp hchars.2, by rw [h]; rfl⟩

theorem isWord_name {name : String} (h : IsName name) : IsWord name .identifier :=
  ⟨h.ne_nil, h.isWordChar, by rw [h.keyword?_eq]; rfl⟩

/-- A word is a token, a keyword or a name. -/
theorem IsWord.yields {word : String} {kind : TokenKind} (h : IsWord word kind) (p : Position) :
    Yields Apart p word.toList [⟨kind, word, p⟩] := by
  obtain ⟨hne, hword, hkind⟩ := h
  obtain ⟨c, text, htext⟩ := List.exists_cons_of_ne_nil hne
  have hc : isWordChar c = true := hword c (by rw [htext]; exact List.mem_cons_self)
  have hquote : c ≠ '"' := by
    rintro rfl
    cases hc
  have hlexeme : String.ofList (c :: text) = word := by rw [← htext, String.ofList_toList]
  have hplain : kind ≠ .comment ∧ kind ≠ .endOfFile := by
    cases hkey : TokenKind.keyword? word with
    | none =>
      rw [hkey] at hkind
      subst hkind
      decide
    | some k =>
      have hk := TokenKind.isKeyword_of_keyword? hkey
      rw [hkey] at hkind
      subst hkind
      cases k <;> simp_all [TokenKind.isKeyword]
  rw [htext] at hword ⊢
  rw [← hlexeme]
  apply yields_token (not_isBlank_of_isWordChar hc) hplain
  intro rest hrest
  have hstop : ∀ d, rest.head? = some d → isWordChar d = false := fun d hd => (hrest d hd).1
  obtain ⟨htake, hdrop⟩ := takeWhile_apart hword hstop
  rw [List.cons_append] at htake hdrop
  rw [munch, if_neg hquote, if_neg (by rw [not_isDigit_of_isWordChar hc]; decide), if_pos hc]
  unfold Scanner.word
  rw [htake, hdrop]
  dsimp only
  rw [hlexeme, hkind]

theorem yields_name {name : String} (h : IsName name) (p : Position) :
    Yields Apart p name.toList [⟨.identifier, name, p⟩] :=
  (isWord_name h).yields p

theorem numberLiteral_of_isNumeral {rest : List Char} (h : IsNumeral text) (hrest : Apart rest) :
    numberLiteral (text ++ rest) = .token .number text rest := by
  cases h with
  | whole hne hdigits =>
    obtain ⟨htake, hdrop⟩ := takeWhile_apart hdigits fun c hc => (hrest c hc).2.1
    unfold numberLiteral
    rw [htake, hdrop]
    dsimp only
    split
    · next after => exact absurd rfl (hrest '.' rfl).2.2
    · rfl
  | @pointed digits fraction hne hdigits hne' hfraction =>
    have hpoint : ∀ c, ('.' :: (fraction ++ rest)).head? = some c → c.isDigit = false := by
      intro c hc
      cases hc
      decide
    obtain ⟨htake, hdrop⟩ := takeWhile_apart hdigits hpoint
    obtain ⟨htake', hdrop'⟩ := takeWhile_apart hfraction fun c hc => (hrest c hc).2.1
    have hempty : fraction.isEmpty = false := List.isEmpty_eq_false_iff.mpr hne'
    rw [List.append_assoc, List.cons_append]
    unfold numberLiteral
    rw [htake, hdrop]
    simp only [htake', hdrop', hempty]
    rfl

theorem yields_numeral (h : IsNumeral text) (p : Position) :
    Yields Apart p text [⟨.number, String.ofList text, p⟩] := by
  obtain ⟨c, rest, rfl, hc⟩ := h.head
  have hquote : c ≠ '"' := by
    rintro rfl
    cases hc
  apply yields_token (not_isBlank_of_isDigit hc) (by decide)
  intro after hafter
  rw [munch, if_neg hquote, if_pos hc, ← List.cons_append]
  exact numberLiteral_of_isNumeral h hafter

theorem yields_quoted {inner : List Char} (h : '"' ∉ inner) (p : Position) :
    Yields Free p ('"' :: (inner ++ ['"']))
      [⟨.string, String.ofList ('"' :: (inner ++ ['"'])), p⟩] := by
  apply yields_token (by decide) (by decide)
  intro rest _
  have hinner : ∀ c ∈ inner, decide (c ≠ '"') = true := by
    intro c hc
    apply decide_eq_true
    rintro rfl
    exact h hc
  have hquote : ∀ c, ('"' :: rest).head? = some c → decide (c ≠ '"') = false := by
    intro c hc
    cases hc
    decide
  obtain ⟨htake, hdrop⟩ := takeWhile_apart hinner hquote
  rw [munch, if_pos rfl, List.append_assoc, List.singleton_append]
  unfold stringLiteral
  rw [htake, hdrop]
  rfl

/-- The characters that are tokens whatever follows. -/
def mark? : Char → Option TokenKind
  | '(' => some .leftParen
  | ')' => some .rightParen
  | '\x7b' => some .leftBrace
  | '\x7d' => some .rightBrace
  | ',' => some .comma
  | ';' => some .semicolon
  | '-' => some .minus
  | _ => none

theorem yields_mark {c : Char} {kind : TokenKind} (h : mark? c = some kind) (p : Position) :
    Yields Free p [c] [⟨kind, String.ofList [c], p⟩] := by
  unfold mark? at h
  split at h <;> cases h <;> exact yields_token (by decide) (by decide) (fun _ _ => rfl) p

theorem apart_of_mark? {c : Char} {kind : TokenKind} (h : mark? c = some kind) :
    isWordChar c = false ∧ c.isDigit = false ∧ c ≠ '.' := by
  unfold mark? at h
  split at h <;> cases h <;> decide

theorem Yields.mark_before {c : Char} {kind : TokenKind}
    (h : Yields follow (p.advance c) text ts) (hc : mark? c = some kind) :
    Yields follow p (c :: text) (⟨kind, String.ofList [c], p⟩ :: ts) :=
  (yields_mark hc p).then h

theorem Yields.mark_after {c : Char} {kind : TokenKind} (h : Yields Apart p text ts)
    (hc : mark? c = some kind) :
    Yields Free p (text ++ [c]) (ts ++ [⟨kind, String.ofList [c], p.after text⟩]) :=
  h.before (yields_mark hc _) (apart_of_mark? hc)

theorem yields_bang (p : Position) : Yields NoEqual p ['!'] [⟨.bang, "!", p⟩] := by
  apply yields_token (by decide) (by decide)
  intro rest hrest
  cases rest with
  | nil => rfl
  | cons c rest =>
    have hc : c ≠ '=' := fun he => hrest (congrArg some he)
    change oneOrTwo '!' '=' .bang .bangEqual (c :: rest) = _
    rw [oneOrTwo, if_neg hc]

/-- A word and the space after it. -/
theorem Yields.word_before {word : String} {kind : TokenKind}
    (h : Yields follow ((p.after word.toList).advance ' ') text ts) (hword : IsWord word kind) :
    Yields follow p (word.toList ++ ' ' :: text) (⟨kind, word, p⟩ :: ts) :=
  (hword.yields p).before (h.blank_before (by decide)) (by decide)

/-- A space comes next. -/
def Spaced (rest : List Char) : Prop := rest.head? = some ' '

theorem yields_symbol {symbol : String} {c : Char} {text : List Char} {kind : TokenKind}
    (hsymbol : symbol.toList = c :: text) (hblank : isBlank c = false)
    (hkind : kind ≠ .comment ∧ kind ≠ .endOfFile)
    (h : ∀ rest, munch c (text ++ ' ' :: rest) = .token kind (c :: text) (' ' :: rest))
    (p : Position) : Yields Spaced p symbol.toList [⟨kind, symbol, p⟩] := by
  have hlexeme : String.ofList (c :: text) = symbol := by rw [← hsymbol, String.ofList_toList]
  rw [hsymbol, ← hlexeme]
  apply yields_token hblank hkind
  intro rest hrest
  cases rest with
  | nil => cases hrest
  | cons d rest =>
    cases hrest
    exact h rest

theorem IsWord.yields_spaced {word : String} {kind : TokenKind} (h : IsWord word kind)
    (p : Position) : Yields Spaced p word.toList [⟨kind, word, p⟩] := by
  refine (h.yields p).mono fun rest hrest => ?_
  cases rest with
  | nil => cases hrest
  | cons c rest =>
    cases hrest
    exact apart_cons (by decide) rest

/-- A binary operator is written as the token that stands for it. -/
theorem yields_operator {op : Operator} {level : Nat} (h : op.level? = some level) :
    ∃ kind, Operator.ofKind? kind = some op ∧
      ∀ p, Yields Spaced p op.lexeme.toList [⟨kind, op.lexeme, p⟩] := by
  cases op with
  | negate => cases h
  | and => exact ⟨.andWord, rfl, (isWord_keyword "and" rfl).yields_spaced⟩
  | or => exact ⟨.orWord, rfl, (isWord_keyword "or" rfl).yields_spaced⟩
  | add => exact ⟨.plus, rfl, yields_symbol rfl rfl (by decide) (fun _ => rfl)⟩
  | subtract => exact ⟨.minus, rfl, yields_symbol rfl rfl (by decide) (fun _ => rfl)⟩
  | multiply => exact ⟨.star, rfl, yields_symbol rfl rfl (by decide) (fun _ => rfl)⟩
  | divide => exact ⟨.slash, rfl, yields_symbol rfl rfl (by decide) (fun _ => rfl)⟩
  | equal => exact ⟨.equalEqual, rfl, yields_symbol rfl rfl (by decide) (fun _ => rfl)⟩
  | notEqual => exact ⟨.bangEqual, rfl, yields_symbol rfl rfl (by decide) (fun _ => rfl)⟩
  | less => exact ⟨.less, rfl, yields_symbol rfl rfl (by decide) (fun _ => rfl)⟩
  | lessEqual => exact ⟨.lessEqual, rfl, yields_symbol rfl rfl (by decide) (fun _ => rfl)⟩
  | greater => exact ⟨.greater, rfl, yields_symbol rfl rfl (by decide) (fun _ => rfl)⟩
  | greaterEqual => exact ⟨.greaterEqual, rfl, yields_symbol rfl rfl (by decide) (fun _ => rfl)⟩

end GradualScript.Scanner
