import GradualScript.Proofs.Grammar.Sealed
import GradualScript.Proofs.Scanning.Joining
import GradualScript.Proofs.Tree.Nodes

/-!
# Layout

A token that is no comment ends where a blank follows it, so lexemes with blanks between
them are read as the tokens that they came from. Only their places are new, and the parser
passes places on without looking at them: the layout of a text shows nowhere else.
-/
namespace GradualScript

/-- What a token is beside its place. -/
def Token.spelling (t : Token) : TokenKind × String := (t.kind, t.lexeme)

/-- Blanks only. -/
def Blanks (text : List Char) : Prop := ∀ c ∈ text, Scanner.isBlank c = true

/-- The lexemes of the tokens in order, each with blanks behind it. The last may have none. -/
inductive Spread : List Token → List Char → Prop
  | nil : Spread [] []
  | cons {t : Token} {ts : List Token} {gap text : List Char} : Blanks gap → (ts ≠ [] → gap ≠ []) →
      Spread ts text → Spread (t :: ts) (t.lexeme.toList ++ (gap ++ text))

/-- Trees of one shape, or errors of one cause at tokens that correspond. -/
inductive ReadAlike (tokens tokens' : List Token) :
    Except ParseError Program → Except ParseError Program → Prop
  | ok {p q : Program} : Stmt.sameShapes p q = true → ReadAlike tokens tokens' (.ok p) (.ok q)
  | error {cause : ParseFault} {k : Nat} {t t' : Token} : tokens[k]? = some t →
      tokens'[k]? = some t' →
      ReadAlike tokens tokens' (.error ⟨cause, t.position⟩) (.error ⟨cause, t'.position⟩)

namespace Scanner

variable {done text rest lexeme other : List Char} {tokens : List Token} {kind : TokenKind} {c : Char}

/-- Only strings and comments hold blanks. -/
theorem IsToken.of_blank (h : IsToken kind lexeme) (hc : isBlank c = true) (hmem : c ∈ lexeme) :
    IsQuoted lexeme ∨ ∃ line, lexeme = '/' :: '/' :: line := by
  have hdigits : ∀ {digits : List Char}, (∀ d ∈ digits, d.isDigit = true) → c ∉ digits :=
    fun h hmem => absurd hc (by rw [not_isBlank_of_isDigit (h c hmem)]; decide)
  have hdot : c ≠ '.' ∧ c ≠ '=' := by
    constructor <;>
    · rintro rfl
      cases hc
  cases h with
  | symbol h =>
    rw [List.mem_singleton] at hmem
    subst hmem
    exact absurd hc (by rw [(plain_of_symbol? h).1]; decide)
  | symbolEqual h =>
    obtain ⟨one, h⟩ := symbol?_of_symbolEqual? h
    have hplain := (plain_of_symbol? h).1
    simp only [List.mem_cons, List.not_mem_nil, or_false, hdot.2] at hmem
    subst hmem
    exact absurd hc (by rw [hplain]; decide)
  | word _ h => exact absurd hc (by rw [not_isBlank_of_isWordChar (h c hmem)]; decide)
  | number h =>
    cases h with
    | whole _ hwhole => exact absurd hmem (hdigits hwhole)
    | pointed _ hwhole _ hfraction =>
      simp only [List.mem_append, List.mem_cons, hdot.1, false_or] at hmem
      rcases hmem with hmem | hmem
      · exact absurd hmem (hdigits hwhole)
      · exact absurd hmem (hdigits hfraction)
  | string h => exact .inl h
  | comment _ => exact .inr ⟨_, rfl⟩

/-- Before a blank every token but a comment is the longest. -/
theorem IsToken.before_blank (h : IsToken kind lexeme) (hkind : kind ≠ .comment)
    (hc : isBlank c = true) : Longest kind lexeme (lexeme ++ c :: text) := by
  refine ⟨h, List.prefix_append .., fun kind' other hother hleads => Nat.le_of_not_lt fun hlt => ?_⟩
  -- the longer token goes on over the blank
  have hover : lexeme ++ [c] <+: other := by
    have hnext : lexeme ++ [c] <+: lexeme ++ c :: text := by simp
    exact List.prefix_of_prefix_length_le hnext hleads (by simpa using hlt)
  have hpart : lexeme <+: other := (List.prefix_append lexeme [c]).trans hover
  obtain ⟨d, line, rfl, -⟩ := h.head
  rcases hother.of_blank hc (hover.subset (by simp)) with hquoted | ⟨line', rfl⟩
  · obtain rfl : d = '"' := by
      obtain ⟨inner, rfl, -⟩ := hquoted
      exact (List.cons_prefix_cons.mp hpart).1
    rw [h.eq_of_quoted hquoted hpart] at hlt
    exact Nat.lt_irrefl _ hlt
  · obtain rfl : d = '/' := (List.cons_prefix_cons.mp hpart).1
    rcases isToken_other (by decide) (by decide) (by decide) h with
      ⟨-, rfl⟩ | ⟨h, -⟩ | ⟨rfl, -⟩
    · obtain rfl : c = '/' := (List.cons_prefix_cons.mp (List.cons_prefix_cons.mp hover).2).1
      cases hc
    · cases h
    · exact hkind rfl

theorem tiles_blanks {gap : List Char} (hgap : Blanks gap)
    (h : Tiles (done ++ gap) text tokens rest) : Tiles done (gap ++ text) tokens rest := by
  induction gap generalizing done with
  | nil => simpa using h
  | cons c gap ih =>
    obtain ⟨hc, hgap⟩ := List.forall_mem_cons.mp hgap
    exact .blank hc (ih hgap (by simpa using h))

/-- Tokens that are spread out are read again. -/
theorem tiles_spread (h : Spread tokens text)
    (htokens : ∀ t ∈ tokens, IsToken t.kind t.lexeme.toList ∧ t.kind ≠ .comment)
    (done : List Char) :
    ∃ again, Tiles done text again [] ∧ again.map Token.spelling = tokens.map Token.spelling := by
  induction h generalizing done with
  | nil => exact ⟨[], .stop, rfl⟩
  | @cons t ts gap text hgap hne hspread ih =>
    obtain ⟨⟨htoken, hkind⟩, hrest⟩ := List.forall_mem_cons.mp htokens
    obtain ⟨again, htiles, hagain⟩ := ih hrest (done ++ t.lexeme.toList ++ gap)
    have hlongest : Longest t.kind t.lexeme.toList (t.lexeme.toList ++ (gap ++ text)) := by
      cases gap with
      | cons c gap => exact htoken.before_blank hkind (hgap c List.mem_cons_self)
      | nil =>
        -- nothing follows the last token
        have hlast : ts = [] := Classical.not_not.mp fun hts => hne hts rfl
        subst hlast
        cases hspread
        exact ⟨htoken, by simp, fun _ _ _ hleads => by simpa using hleads.length_le⟩
    refine ⟨_, .token hlongest (tiles_blanks hgap htiles), ?_⟩
    rw [List.map_cons, List.map_cons, hagain, Token.spelling, Token.spelling, String.ofList_toList]

end Scanner

/-- The token at the place that stands for a number. -/
def Token.numbered (n : Nat) (t : Token) : Token := ⟨t.kind, t.lexeme, .numbered n⟩

/-- Lists of one spelling are moved from one list, in which each token has a place of its own. -/
theorem exists_moved_of_spelling {tokens tokens' : List Token}
    (h : tokens'.map Token.spelling = tokens.map Token.spelling) :
    ∃ g, tokens' = (tokens.mapIdx Token.numbered).map (Token.moved g) ∧
      ∀ k t, tokens'[k]? = some t → g (.numbered k) = t.position := by
  let g : Position → Position := fun p => ((tokens'[p.line]?).map Token.position).getD .start
  have hg : ∀ k t, tokens'[k]? = some t → g (.numbered k) = t.position := by
    intro k t ht
    simp only [g, Position.numbered, ht]
    rfl
  refine ⟨g, List.ext_getElem? fun k => ?_, hg⟩
  have hk := congrArg (·[k]?) h
  simp only [List.getElem?_map] at hk
  rw [List.getElem?_map, List.getElem?_mapIdx]
  cases ht' : tokens'[k]? with
  | none =>
    rw [ht'] at hk
    rw [Option.map_eq_none_iff.mp hk.symm]
    rfl
  | some t' =>
    rw [ht'] at hk
    obtain ⟨t, ht, hspelling⟩ := Option.map_eq_some_iff.mp hk.symm
    obtain ⟨hkind, hlexeme⟩ := Prod.mk.inj hspelling
    rw [ht, Option.map_some, Option.map_some, Token.moved, Token.numbered, hg k t' ht', hkind, hlexeme]

/-- The parser looks at the spelling of tokens only. -/
theorem readAlike_parse {tokens tokens' : List Token} (hne : tokens ≠ [])
    (h : tokens'.map Token.spelling = tokens.map Token.spelling) :
    ReadAlike tokens tokens' (parse tokens) (parse tokens') := by
  obtain ⟨g, htokens, hg⟩ := exists_moved_of_spelling (rfl : tokens.map Token.spelling = _)
  obtain ⟨g', htokens', hg'⟩ := exists_moved_of_spelling h
  have hnumbered : tokens.mapIdx Token.numbered ≠ [] := by simpa using hne
  cases hparse : parse (tokens.mapIdx Token.numbered) with
  | ok p =>
    have hp := parse_moved_ok g hnumbered hparse
    have hp' := parse_moved_ok g' hnumbered hparse
    rw [← htokens] at hp
    rw [← htokens'] at hp'
    rw [hp, hp']
    refine .ok ((Stmt.sameShapes_iff_eraseAll _ _).mpr ?_)
    rw [Stmt.eraseAll_moved, Stmt.eraseAll_moved]
  | error e =>
    have he := parse_moved_error g hnumbered hparse
    have he' := parse_moved_error g' hnumbered hparse
    rw [← htokens] at he
    rw [← htokens'] at he'
    obtain ⟨u, hu, hposition⟩ := exists_token_of_error hnumbered hparse
    obtain ⟨k, hk, rfl⟩ := List.mem_mapIdx.mp hu
    have hlength : tokens'.length = tokens.length := by simpa using congrArg List.length h
    have ht := List.getElem?_eq_getElem hk
    have ht' := List.getElem?_eq_getElem (hlength ▸ hk)
    rw [he, he', Located.moved, Located.moved, ← hposition, Token.numbered, hg k _ ht, hg' k _ ht']
    exact .error ht ht'

/-- Layout does not matter. Take the lexemes of a text that is scanned, without comments,
and put blanks between them as you like: at least one between two of them, and any number at
both ends. The new text is scanned to tokens of the same kinds and lexemes, and parsed to a
program of the same shape, or it fails for the same cause at the token that corresponds. -/
theorem scan_spread (source : String) (tokens : List Token) (h : scan source = .ok tokens) :
    ∃ body stop, tokens = body ++ [.endAt stop] ∧
      ∀ lead text : List Char, Blanks lead → Spread body text →
        ∃ tokens', scan (String.ofList (lead ++ text)) = .ok tokens' ∧
          tokens'.map Token.spelling = tokens.map Token.spelling ∧
          ReadAlike tokens tokens' (parse tokens) (parse tokens') := by
  obtain ⟨all, htiles, rfl⟩ := scan_ok_iff.mp h
  refine ⟨_, _, rfl, fun lead text hlead hspread => ?_⟩
  have hbody : ∀ t ∈ all.filter (·.kind ≠ .comment),
      Scanner.IsToken t.kind t.lexeme.toList ∧ t.kind ≠ .comment := fun t ht =>
    ⟨htiles.isToken t (List.mem_filter.mp ht).1, of_decide_eq_true (List.mem_filter.mp ht).2⟩
  obtain ⟨again, hagain, hspelling⟩ := Scanner.tiles_spread hspread hbody ([] ++ lead)
  have hplain : again.filter (·.kind ≠ .comment) = again := by
    refine List.filter_eq_self.mpr fun t ht => decide_eq_true fun hcomment => ?_
    have hmem := List.mem_map_of_mem (f := Token.spelling) ht
    rw [hspelling] at hmem
    obtain ⟨u, hu, heq⟩ := List.mem_map.mp hmem
    exact (hbody u hu).2 ((congrArg Prod.fst heq).trans hcomment)
  have hscan := scan_ok_iff.mpr ⟨again, String.toList_ofList (l := lead ++ text) ▸
    Scanner.tiles_blanks hlead hagain, rfl⟩
  rw [hplain] at hscan
  have hall : (again ++ [Token.endAt (.following (String.ofList (lead ++ text)).toList)]).map
      Token.spelling = (all.filter (·.kind ≠ .comment) ++
        [Token.endAt (.following source.toList)]).map Token.spelling := by
    rw [List.map_append, List.map_append, hspelling]
    rfl
  exact ⟨_, hscan, hall, readAlike_parse (by simp) hall⟩

/-- Signs that stand together, a string that holds slashes, and a comment. -/
theorem scan_spread_signs :
    let source := "print!-1>=\"a // b\";// note"
    let tokens : List Token := [⟨.printWord, "print", ⟨1, 1⟩⟩, ⟨.bang, "!", ⟨1, 6⟩⟩,
      ⟨.minus, "-", ⟨1, 7⟩⟩, ⟨.number, "1", ⟨1, 8⟩⟩, ⟨.greaterEqual, ">=", ⟨1, 9⟩⟩,
      ⟨.string, "\"a // b\"", ⟨1, 11⟩⟩, ⟨.semicolon, ";", ⟨1, 19⟩⟩, .endAt ⟨1, 27⟩]
    scan source = .ok tokens ∧
      ∃ tokens', scan (String.ofList ("\n".toList ++
          "print ! -\t1\r\n>= \"a // b\" ;".toList)) = .ok tokens' ∧
        tokens'.map Token.spelling = tokens.map Token.spelling ∧
        ReadAlike tokens tokens' (parse tokens) (parse tokens') := by
  intro source tokens
  have hscan : scan source = .ok tokens := by cbv
  refine ⟨hscan, ?_⟩
  obtain ⟨body, stop, htokens, hspread⟩ := scan_spread source tokens hscan
  obtain rfl : tokens.dropLast = body := by rw [htokens, List.dropLast_concat]
  have hone : ∀ c : Char, Scanner.isBlank c = true → Blanks [c] := fun c hc => by simpa [Blanks]
  refine hspread "\n".toList _ (hone _ rfl) ?_
  exact @Spread.cons _ _ [' '] _ (hone _ rfl) (by simp) <|
    @Spread.cons _ _ [' '] _ (hone _ rfl) (by simp) <|
    @Spread.cons _ _ ['\t'] _ (hone _ rfl) (by simp) <|
    @Spread.cons _ _ ['\r', '\n'] _ (by simp [Blanks]; decide) (by simp) <|
    @Spread.cons _ _ [' '] _ (hone _ rfl) (by simp) <|
    @Spread.cons _ _ [' '] _ (hone _ rfl) (by simp) <|
    @Spread.cons _ _ [] _ (by simp [Blanks]) (by simp) .nil

end GradualScript
