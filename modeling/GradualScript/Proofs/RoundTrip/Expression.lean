import GradualScript.Proofs.Grammar
import GradualScript.Proofs.Scanning.Pieces
import GradualScript.Tree.Shape
import GradualScript.Tree.SourceText

/-!
# Printed expressions are read back

An expression that is derived from scanned tokens is printed as a text that scans to
tokens of an expression of the same tier. The new expression is printed the same, and
has the same shape unless a number of the old one is infinite: infinity is printed as
a word, which is read back as a name.
-/
namespace GradualScript.Grammar

open Scanner

/-- All tokens are spelled as their kind says. -/
def AllSpelled (ts : List Token) : Prop := ∀ t ∈ ts, IsSpelled t.kind t.lexeme

/-- No number token denotes infinity. -/
def NoOverflow (ts : List Token) : Prop :=
  ∀ t ∈ ts, t.kind = .number → Number.read? t.lexeme ≠ some .infinity

theorem allSpelled_append {ts us : List Token} :
    AllSpelled (ts ++ us) ↔ AllSpelled ts ∧ AllSpelled us := List.forall_mem_append

theorem allSpelled_cons {t : Token} {ts : List Token} :
    AllSpelled (t :: ts) ↔ IsSpelled t.kind t.lexeme ∧ AllSpelled ts := List.forall_mem_cons

theorem noOverflow_append {ts us : List Token} :
    NoOverflow (ts ++ us) ↔ NoOverflow ts ∧ NoOverflow us := List.forall_mem_append

theorem noOverflow_nil : NoOverflow [] := by simp [NoOverflow]

/-- Only numbers overflow. -/
theorem noOverflow_cons {t : Token} {ts : List Token} (h : t.kind ≠ .number) :
    NoOverflow (t :: ts) ↔ NoOverflow ts := by
  refine List.forall_mem_cons.trans ?_
  exact and_iff_right fun hk => absurd hk h

/-- The text of an expression is read, wherever it stands, as an expression of the tier
that is printed the same and has the same shape exactly under the condition `same`. -/
structure Reprints (tier : Tier) (e : Expr) (same : Prop) : Prop where
  starts : ∀ rest, NoEqual (e.source.toList ++ rest)
  read : ∀ p, ∃ us e', Yields Apart p e.source.toList us ∧ IsExpr tier us e' ∧
    e'.source = e.source ∧ (e.sameShape e' = true ↔ same)

/-- The text between a left and a right part, with a space on either side. -/
theorem yields_between (sign : String) {kind : TokenKind}
    (h : ∀ p, Yields Spaced p sign.toList [⟨kind, sign, p⟩]) (p : Position) :
    Yields Free p (' ' :: (sign.toList ++ [' '])) [⟨kind, sign, p.advance ' '⟩] := by
  have hlast : Yields Free (p.advance ' ') (sign.toList ++ [' ']) [⟨kind, sign, p.advance ' '⟩] := by
    have hsign := (h (p.advance ' ')).append (yields_blank (by decide) _) fun _ _ => rfl
    rwa [List.append_nil] at hsign
  exact (yields_blank (by decide) p).then hlast

theorem noEqual_cons {c : Char} (h : c ≠ '=') (rest : List Char) : NoEqual (c :: rest) := by
  intro he
  cases he
  exact h rfl

theorem noEqual_word {word : String} {kind : TokenKind} (h : IsWord word kind)
    (rest : List Char) : NoEqual (word.toList ++ rest) := by
  obtain ⟨c, text, hc⟩ := List.exists_cons_of_ne_nil h.ne_nil
  have hwordChar := h.chars c (by rw [hc]; exact List.mem_cons_self)
  rw [hc]
  apply noEqual_cons
  rintro rfl
  cases hwordChar

/-- An expression that is printed as one word. -/
theorem reprints_word {word : String} {kind : TokenKind} {e : Expr} {same : Prop}
    (hword : IsWord word kind) (hsource : e.source = word)
    (h : ∀ p, ∃ e', IsLiteral ⟨kind, word, p⟩ e' ∧ e'.source = word ∧
      (e.sameShape e' = true ↔ same)) : Reprints .primary e same := by
  rw [← hsource] at h hword
  refine ⟨noEqual_word hword, fun p => ?_⟩
  obtain ⟨e', he', hsource', hshape⟩ := h p
  exact ⟨_, e', hword.yields p, .literal he', hsource', hshape⟩

theorem noOverflow_single {t : Token} (h : t.kind ≠ .number) : NoOverflow [t] :=
  (noOverflow_cons h).mpr noOverflow_nil

theorem reprints_number {t : Token} {v : Number} {mark : Mark} (hkind : t.kind = .number)
    (hspelled : IsNumeral t.lexeme.toList) (hv : Number.read? t.lexeme = some v) :
    Reprints .primary (.number mark v) (NoOverflow [t]) := by
  have hoverflow : NoOverflow [t] ↔ v ≠ .infinity := by
    simp [NoOverflow, hkind, hv]
  rcases Number.read?_cases hspelled hv with rfl | ⟨hne, hpos, hfinite⟩
  · have hinf : IsWord "inf" .identifier := ⟨by decide, List.all_eq_true.mp (by decide), rfl⟩
    refine reprints_word hinf NumberLayout.write_infinity
      fun p => ⟨_, .name rfl, rfl, ?_⟩
    rw [hoverflow]
    simp [Expr.sameShape]
  · obtain ⟨text, hwrite, hnumeral, hread⟩ := NumberLayout.read?_write hpos hfinite
    have htext : (Expr.number mark v).source.toList = text := by
      rw [Expr.source, hwrite, String.toList_ofList]
    refine ⟨fun rest => ?_, fun p => ?_⟩
    · obtain ⟨c, more, rfl, hc⟩ := hnumeral.head
      rw [htext]
      apply noEqual_cons
      rintro rfl
      cases hc
    · have hyields := yields_numeral hnumeral p
      rw [← htext, String.ofList_toList] at hyields
      refine ⟨_, _, hyields, .literal (.number rfl hread), rfl, ?_⟩
      simp [Expr.sameShape, hoverflow, hne]

theorem unquote_quoted (inner : List Char) :
    Parser.unquote (String.ofList ('"' :: (inner ++ ['"']))) = String.ofList inner := by
  unfold Parser.unquote
  rw [String.toList_ofList]
  simp

/-- A string is printed between the quotes that it was read without. -/
theorem reprints_string {t : Token} {mark : Mark} (hkind : t.kind = .string)
    (hspelled : IsQuoted t.lexeme.toList) :
    Reprints .primary (.string mark (Parser.unquote t.lexeme)) (NoOverflow [t]) := by
  obtain ⟨inner, hlexeme, hinner⟩ := hspelled
  have hunquote : Parser.unquote t.lexeme = String.ofList inner := by
    rw [← unquote_quoted, ← hlexeme, String.ofList_toList]
  have htext : (Expr.string mark (Parser.unquote t.lexeme)).source.toList =
      '"' :: (inner ++ ['"']) := by
    simp [Expr.source, hunquote]
  refine ⟨fun rest => by rw [htext]; exact noEqual_cons (by decide) _, fun p => ?_⟩
  have hyields : Yields Apart p ('"' :: (inner ++ ['"']))
      [⟨.string, String.ofList ('"' :: (inner ++ ['"'])), p⟩] := (yields_quoted hinner p).weaken
  refine ⟨[⟨.string, String.ofList ('"' :: (inner ++ ['"'])), p⟩], _, ?_, .literal (.string rfl),
    ?_, ?_⟩
  · rwa [htext]
  · rw [unquote_quoted, hunquote]
    rfl
  · have hnone : NoOverflow [t] := noOverflow_single (by rw [hkind]; decide)
    rw [unquote_quoted, hunquote]
    simp [Expr.sameShape, hnone]

theorem reprints_literal {t : Token} {e : Expr} (h : IsLiteral t e)
    (hspelled : IsSpelled t.kind t.lexeme) : Reprints .primary e (NoOverflow [t]) := by
  have hnone : t.kind ≠ .number → (NoOverflow [t] ↔ True) := fun hk =>
    iff_true_intro (noOverflow_single hk)
  cases h with
  | number hk hv =>
    rw [hk] at hspelled
    exact reprints_number hk hspelled hv
  | string hk =>
    rw [hk] at hspelled
    exact reprints_string hk hspelled
  | trueWord hk =>
    refine reprints_word (isWord_keyword "true" rfl) rfl
      fun p => ⟨_, .trueWord rfl, rfl, ?_⟩
    simp [Expr.sameShape, hnone, hk]
  | falseWord hk =>
    refine reprints_word (isWord_keyword "false" rfl) rfl
      fun p => ⟨_, .falseWord rfl, rfl, ?_⟩
    simp [Expr.sameShape, hnone, hk]
  | nilWord hk =>
    refine reprints_word (isWord_keyword "nil" rfl) rfl
      fun p => ⟨_, .nilWord rfl, rfl, ?_⟩
    simp [Expr.sameShape, hnone, hk]
  | name hk =>
    rw [hk] at hspelled
    have hname : IsName t.lexeme := hspelled
    refine reprints_word (isWord_name hname) rfl
      fun p => ⟨_, .name rfl, rfl, ?_⟩
    simp [Expr.sameShape, hnone, hk]

/-- A name, an equals sign and what the name is bound to. -/
theorem yields_binding {follow : List Char → Prop} {name : String} {text : List Char}
    {ts : List Token} {p : Position} (hname : IsName name)
    (h : Yields follow (p.after (name.toList ++ ' ' :: ("=".toList ++ [' ']))) text ts) :
    ∃ sign, sign.kind = .equal ∧ Yields follow p
      (name.toList ++ ' ' :: ("=".toList ++ [' ']) ++ text) (⟨.identifier, name, p⟩ :: sign :: ts) := by
  have hsign := yields_between "="
    (fun p => yields_symbol rfl rfl (by decide) (fun _ => rfl) p) (p.after name.toList)
  exact ⟨_, rfl, ((yields_name hname p).before hsign (by decide)).then h⟩

theorem reprints_assign {name eq : Token} {ts : List Token} {value : Expr} {mark : Mark}
    (hname : name.kind = .identifier) (heq : eq.kind = .equal)
    (hspelled : IsSpelled name.kind name.lexeme) (h : Reprints .assignment value (NoOverflow ts)) :
    Reprints .assignment (.assign mark name.lexeme value) (NoOverflow (name :: eq :: ts)) := by
  rw [hname] at hspelled
  have hword : IsName name.lexeme := hspelled
  have htext : (Expr.assign mark name.lexeme value).source.toList =
      name.lexeme.toList ++ ' ' :: ("=".toList ++ [' ']) ++ value.source.toList := by
    simp [Expr.source]
  refine ⟨fun rest => ?_, fun p => ?_⟩
  · rw [htext, List.append_assoc, List.append_assoc]
    exact noEqual_word (isWord_name hword) _
  · obtain ⟨us, e', hus, he', hsource, hshape⟩ :=
      h.read (p.after (name.lexeme.toList ++ ' ' :: ("=".toList ++ [' '])))
    obtain ⟨sign, hsign, hwhole⟩ := yields_binding hword hus
    rw [← htext] at hwhole
    refine ⟨_, _, hwhole, .assign rfl hsign he', ?_, ?_⟩
    · rw [Expr.source, hsource, Expr.source]
    · rw [noOverflow_cons (by rw [hname]; decide), noOverflow_cons (by rw [heq]; decide), ← hshape]
      simp [Expr.sameShape]

/-- A binary operator is printed between blanks, so its operands need none of their own. -/
theorem reprints_binary {level : Nat} {op : Operator} {left right : List Token}
    {sign : Token} {l r : Expr} {mark : Mark} (hop : IsBinarySign level sign.kind op)
    (hl : Reprints (.binary level) l (NoOverflow left))
    (hr : Reprints (.binary (level + 1)) r (NoOverflow right)) :
    Reprints (.binary level) (.binary mark op l r) (NoOverflow (left ++ sign :: right)) := by
  obtain ⟨-, hlevel⟩ := isBinarySign_iff.mp hop
  have htext : (Expr.binary mark op l r).source.toList =
      l.source.toList ++ ' ' :: (op.lexeme.toList ++ [' ']) ++ r.source.toList := by
    simp [Expr.source]
  refine ⟨fun rest => ?_, fun p => ?_⟩
  · rw [htext, List.append_assoc, List.append_assoc]
    exact hl.starts _
  · obtain ⟨us, l', hus, hl', hlsource, hlshape⟩ := hl.read p
    obtain ⟨vs, r', hvs, hr', hrsource, hrshape⟩ :=
      hr.read (p.after (l.source.toList ++ ' ' :: (op.lexeme.toList ++ [' '])))
    obtain ⟨kind, hkind, hyields⟩ := yields_operator hlevel
    have hsign := yields_between _ hyields (p.after l.source.toList)
    have hwhole := (hus.before hsign (by decide)).then hvs
    rw [← htext, List.append_assoc, List.singleton_append] at hwhole
    refine ⟨_, _, hwhole, .binary (isBinarySign_iff.mpr ⟨hkind, hlevel⟩) hl' hr', ?_, ?_⟩
    · rw [Expr.source, hlsource, hrsource, Expr.source]
    · rw [noOverflow_append, noOverflow_cons (ne_of_ofKind? hop.ofKind?_eq rfl), ← hlshape,
        ← hrshape]
      simp [Expr.sameShape]

/-- A unary operator is one character, which is read back unless an `=` follows. -/
theorem IsUnarySign.yields {kind : TokenKind} {op : Operator} (h : IsUnarySign kind op) :
    ∃ c, op.lexeme = String.ofList [c] ∧ c ≠ '=' ∧
      ∀ p, Yields NoEqual p op.lexeme.toList [⟨kind, op.lexeme, p⟩] := by
  cases h with
  | negate => exact ⟨'!', rfl, by decide, yields_bang⟩
  | subtract => exact ⟨'-', rfl, by decide, fun p => (yields_mark rfl p).weaken⟩

theorem reprints_unary {op : Operator} {sign : Token} {ts : List Token} {e : Expr} {mark : Mark}
    (hop : IsUnarySign sign.kind op) (h : Reprints .unary e (NoOverflow ts)) :
    Reprints .unary (.unary mark op e) (NoOverflow (sign :: ts)) := by
  have htext : (Expr.unary mark op e).source.toList = op.lexeme.toList ++ e.source.toList := by
    simp [Expr.source]
  obtain ⟨c, hlexeme, hc, hyields⟩ := hop.yields
  refine ⟨fun rest => ?_, fun p => ?_⟩
  · rw [htext, hlexeme, String.toList_ofList]
    exact noEqual_cons hc _
  · obtain ⟨us, e', hus, he', hsource, hshape⟩ := h.read (p.after op.lexeme.toList)
    have hwhole := (hyields p).append hus fun rest _ => h.starts rest
    rw [← htext] at hwhole
    refine ⟨_, _, hwhole, .unary hop he', ?_, ?_⟩
    · rw [Expr.source, hsource, Expr.source]
    · rw [noOverflow_cons (ne_of_ofKind? hop.ofKind?_eq rfl), ← hshape]
      simp [Expr.sameShape]

theorem reprints_grouping {opening closing : Token} {ts : List Token} {e : Expr} {mark : Mark}
    (ho : opening.kind = .leftParen) (hc : closing.kind = .rightParen)
    (h : Reprints .assignment e (NoOverflow ts)) :
    Reprints .primary (.grouping mark e) (NoOverflow (opening :: (ts ++ [closing]))) := by
  have htext : (Expr.grouping mark e).source.toList = '(' :: (e.source.toList ++ [')']) := by
    simp [Expr.source]
  refine ⟨fun rest => by rw [htext]; exact noEqual_cons (by decide) _, fun p => ?_⟩
  obtain ⟨us, e', hus, he', hsource, hshape⟩ := h.read (p.advance '(')
  have hinner := hus.mark_after (c := ')') rfl
  have hwhole := hinner.mark_before (c := '(') rfl
  rw [← htext] at hwhole
  refine ⟨_, _, hwhole.weaken, .grouping rfl rfl he', ?_, ?_⟩
  · rw [Expr.source, hsource, Expr.source]
  · rw [noOverflow_cons (by rw [ho]; decide), noOverflow_append,
      and_iff_left (noOverflow_single (by rw [hc]; decide)), ← hshape]
    simp [Expr.sameShape]

/-- Arguments, as they stand between the parentheses of a call. -/
theorem reprints_arguments {args : List (List Token × Expr)} {ts : List Token}
    (hall : ∀ arg ∈ args, Reprints .assignment arg.2 (NoOverflow arg.1))
    (hsep : CommaSeparated (args.map Prod.fst) ts) (p : Position) :
    ∃ (args' : List (List Token × Expr)) (us : List Token),
      Yields Apart p (", ".intercalate (Expr.sources (args.map Prod.snd))).toList us ∧
      CommaSeparated (args'.map Prod.fst) us ∧
      (∀ arg ∈ args', IsExpr .assignment arg.1 arg.2) ∧ args'.length = args.length ∧
      Expr.sources (args'.map Prod.snd) = Expr.sources (args.map Prod.snd) ∧
      (Expr.sameShapes (args.map Prod.snd) (args'.map Prod.snd) = true ↔ NoOverflow ts) := by
  induction args generalizing ts p with
  | nil =>
    cases hsep
    exact ⟨[], [], (yields_nil p).weaken, .nil, by simp, rfl, rfl, by
      simp [Expr.sameShapes, noOverflow_nil]⟩
  | cons arg args ih =>
    obtain ⟨hone, hmore⟩ := List.forall_mem_cons.mp hall
    obtain ⟨us, e', hus, he', hsource, hshape⟩ := hone.read p
    cases args with
    | nil =>
      cases hsep
      refine ⟨[(us, e')], us, ?_, .single us, by simpa using he', rfl, ?_, ?_⟩
      · simpa [Expr.sources] using hus
      · simp [Expr.sources, hsource]
      · simpa [Expr.sameShapes] using hshape
    | cons next args =>
      cases hsep with
      | @cons _ _ _ vs comma hcomma hsep =>
        obtain ⟨args', ws, hws, hsep', hargs', hlength, hsources, hshapes⟩ :=
          ih hmore hsep (p.after (arg.2.source.toList ++ [',', ' ']))
        obtain ⟨arg', more, rfl⟩ := List.exists_cons_of_length_eq_add_one hlength
        have hspace : Yields Free ((p.after arg.2.source.toList).advance ',') [' '] [] :=
          yields_blank (by decide) _
        have hwhole := (hus.before (hspace.mark_before rfl) (by decide)).then hws
        refine ⟨(us, e') :: arg' :: more,
          us ++ ⟨.comma, String.ofList [','], p.after arg.2.source.toList⟩ :: ws, ?_,
          .cons rfl hsep', ?_, ?_, ?_, ?_⟩
        · simpa [Expr.sources, String.intercalate_cons_cons] using hwhole
        · exact List.forall_mem_cons.mpr ⟨he', hargs'⟩
        · simpa using hlength
        · simp only [List.map_cons, Expr.sources] at hsources ⊢
          rw [hsource, hsources]
        · rw [noOverflow_append, noOverflow_cons (by rw [hcomma]; decide), ← hshape, ← hshapes]
          simp [Expr.sameShapes]

theorem reprints_call {fs ts : List Token} {opening closing : Token} {f : Expr}
    {args : List (List Token × Expr)} {mark : Mark} (ho : opening.kind = .leftParen)
    (hc : closing.kind = .rightParen) (hlength : args.length ≤ maxArity)
    (hsep : CommaSeparated (args.map Prod.fst) ts) (hf : Reprints .call f (NoOverflow fs))
    (hall : ∀ arg ∈ args, Reprints .assignment arg.2 (NoOverflow arg.1)) :
    Reprints .call (.call mark f (args.map Prod.snd))
      (NoOverflow (fs ++ opening :: (ts ++ [closing]))) := by
  have htext : (Expr.call mark f (args.map Prod.snd)).source.toList = f.source.toList ++
      '(' :: ((", ".intercalate (Expr.sources (args.map Prod.snd))).toList ++ [')']) := by
    simp [Expr.source]
  refine ⟨fun rest => ?_, fun p => ?_⟩
  · rw [htext, List.append_assoc]
    exact hf.starts _
  · obtain ⟨us, f', hus, hf', hsource, hshape⟩ := hf.read p
    obtain ⟨args', vs, hvs, hsep', hargs', hlength', hsources, hshapes⟩ :=
      reprints_arguments hall hsep ((p.after f.source.toList).advance '(')
    have hinner := hvs.mark_after (c := ')') rfl
    have hwhole := hus.before (hinner.mark_before (c := '(') rfl) (by decide)
    rw [← htext] at hwhole
    refine ⟨_, _, hwhole.weaken, .call hf' rfl rfl hargs' (hlength' ▸ hlength) hsep', ?_, ?_⟩
    · rw [Expr.source, hsource, hsources, Expr.source]
    · rw [noOverflow_append, noOverflow_cons (by rw [ho]; decide), noOverflow_append,
        and_iff_left (noOverflow_single (by rw [hc]; decide)), ← hshape, ← hshapes]
      simp [Expr.sameShape]

theorem CommaSeparated.allSpelled {parts : List (List Token)} {ts : List Token}
    (h : CommaSeparated parts ts) (hts : AllSpelled ts) : ∀ part ∈ parts, AllSpelled part := by
  induction h with
  | nil => simp
  | single part => simpa using hts
  | cons _ _ ih =>
    obtain ⟨hpart, hrest⟩ := allSpelled_append.mp hts
    exact List.forall_mem_cons.mpr ⟨hpart, ih (allSpelled_cons.mp hrest).2⟩

/-- Every form that expressions of one tier pass on to the next is printed by that tier. -/
theorem Reprints.lift {tier tier' : Tier} {e : Expr} {same : Prop} (h : Reprints tier e same)
    (hlift : ∀ us e', IsExpr tier us e' → IsExpr tier' us e') : Reprints tier' e same := by
  refine ⟨h.starts, fun p => ?_⟩
  obtain ⟨us, e', hus, he', hsource, hshape⟩ := h.read p
  exact ⟨us, e', hus, hlift us e' he', hsource, hshape⟩

/-- By induction on the derivation: each rule reprints what its parts do. -/
theorem IsExpr.reprints {tier : Tier} {ts : List Token} {e : Expr} (h : IsExpr tier ts e)
    (hts : AllSpelled ts) : Reprints tier e (NoOverflow ts) := by
  induction h with
  | assign hname heq _ ih =>
    obtain ⟨hspelled, hrest⟩ := allSpelled_cons.mp hts
    exact reprints_assign hname heq hspelled (ih (allSpelled_cons.mp hrest).2)
  | value _ ih => exact (ih hts).lift fun _ _ => .value
  | binary hop _ _ ihl ihr =>
    obtain ⟨hleft, hrest⟩ := allSpelled_append.mp hts
    exact reprints_binary hop (ihl hleft) (ihr (allSpelled_cons.mp hrest).2)
  | tighter hlevel _ ih => exact (ih hts).lift fun _ _ => .tighter hlevel
  | operand _ ih => exact (ih hts).lift fun _ _ => .operand
  | unary hop _ ih => exact reprints_unary hop (ih (allSpelled_cons.mp hts).2)
  | callee _ ih => exact (ih hts).lift fun _ _ => .callee
  | call _ ho hc _ hlength hsep ihf ihargs =>
    obtain ⟨hfs, hrest⟩ := allSpelled_append.mp hts
    have hinner := (allSpelled_append.mp (allSpelled_cons.mp hrest).2).1
    have hparts := hsep.allSpelled hinner
    exact reprints_call ho hc hlength hsep (ihf hfs) fun arg harg =>
      ihargs arg harg (hparts arg.1 (List.mem_map_of_mem harg))
  | atom _ ih => exact (ih hts).lift fun _ _ => .atom
  | literal h => exact reprints_literal h (allSpelled_cons.mp hts).1
  | grouping ho hc _ ih =>
    exact reprints_grouping ho hc (ih (allSpelled_append.mp (allSpelled_cons.mp hts).2).1)

end GradualScript.Grammar
