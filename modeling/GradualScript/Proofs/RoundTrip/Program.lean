import GradualScript.Proofs.RoundTrip.Expression

/-!
# Printed programs are read back

Statements on top of expressions. A variable without a value is printed with the
`nil` that it was given, and an `if` that an `else` cannot follow is printed as one.
-/
namespace GradualScript.Grammar

open Scanner

/-- The text of a statement is read, wherever it stands, as a statement of the same
form that is printed the same, takes an `else` where the old one did, and has the same
shape exactly under the condition `same`. -/
def ReprintsStmt (form : List Token → Stmt → Prop) (s : Stmt) (same : Prop) : Prop :=
  ∀ p, ∃ us s', Yields Free p s.source.toList us ∧ form us s' ∧ s'.source = s.source ∧
    endsOpen s' = endsOpen s ∧ (s.sameShape s' = true ↔ same)

/-- The same for a clause of a loop head or of a `return`. -/
def ReprintsClause (e : Option Expr) (same : Prop) : Prop :=
  ∀ p, ∃ us e', Yields Apart p (Expr.clauseSource e).toList us ∧ IsClause us e' ∧
    Expr.clauseSource e' = Expr.clauseSource e ∧ (Expr.sameShapeOption e e' = true ↔ same)

/-- The same for the first clause of a loop head. -/
def ReprintsInit (s : Option Stmt) (same : Prop) : Prop :=
  ∀ p, ∃ us s', Yields Free p (Stmt.initSource s).toList us ∧ IsInit us s' ∧
    Stmt.initSource s' = Stmt.initSource s ∧ (Stmt.sameShapeOption s s' = true ↔ same)

/-- What reprints as one form does so as any that includes it. -/
theorem ReprintsStmt.lift {form form' : List Token → Stmt → Prop} {s : Stmt} {same : Prop}
    (h : ReprintsStmt form s same) (hlift : ∀ us s', form us s' → form' us s') :
    ReprintsStmt form' s same := by
  intro p
  obtain ⟨us, s', hus, hs', hsource, hopen, hshape⟩ := h p
  exact ⟨us, s', hus, hlift us s' hs', hsource, hopen, hshape⟩

theorem noOverflow_concat {t : Token} {ts : List Token} (h : t.kind ≠ .number) :
    NoOverflow (ts ++ [t]) ↔ NoOverflow ts := by
  rw [noOverflow_append, and_iff_left (noOverflow_single h)]

theorem reprints_exprStmt {ts : List Token} {s : Stmt} (h : IsExprStmt ts s)
    (hts : AllSpelled ts) : ReprintsStmt IsExprStmt s (NoOverflow ts) := by
  intro p
  cases h with
  | @mk ts semicolon e hsemi he =>
    obtain ⟨us, e', hus, he', hsource, hshape⟩ := (he.reprints (allSpelled_append.mp hts).1).read p
    have htext : (Stmt.expression (leftmost ts) e).source.toList = e.source.toList ++ [';'] := by
      simp [Stmt.source]
    have hwhole := hus.mark_after (c := ';') rfl
    rw [← htext] at hwhole
    refine ⟨_, _, hwhole, ⟨rfl, he'⟩, ?_, rfl, ?_⟩
    · rw [Stmt.source, hsource, Stmt.source]
    · rw [noOverflow_concat (by rw [hsemi]; decide), ← hshape]
      simp [Stmt.sameShape]

theorem reprints_clause {ts : List Token} {e : Option Expr} (h : IsClause ts e)
    (hts : AllSpelled ts) : ReprintsClause e (NoOverflow ts) := by
  intro p
  cases h with
  | absent =>
    exact ⟨[], none, (yields_nil p).weaken, .absent, rfl, by
      simp [Expr.sameShapeOption, noOverflow_nil]⟩
  | @present _ e he =>
    obtain ⟨us, e', hus, he', hsource, hshape⟩ := (he.reprints hts).read (p.advance ' ')
    have htext : (Expr.clauseSource (some e)).toList = ' ' :: e.source.toList := by
      simp [Expr.clauseSource]
    have hwhole := hus.blank_before (c := ' ') (by decide)
    rw [← htext] at hwhole
    refine ⟨us, some e', hwhole, .present he', ?_, hshape⟩
    rw [Expr.clauseSource, hsource, Expr.clauseSource]

/-- A text that is read as an expression, where a variable is declared with it. -/
theorem reads_var {name : String} {text : List Char} {P : Expr → Prop} (hname : IsName name)
    (h : ∀ p, ∃ us e, Yields Apart p text us ∧ IsExpr .assignment us e ∧ P e) (p : Position) :
    ∃ us e, Yields Free p ("var".toList ++ ' ' ::
        ((name.toList ++ ' ' :: ("=".toList ++ [' ']) ++ text) ++ [';'])) us ∧
      IsVar us (.var p name e) ∧ P e := by
  obtain ⟨us, e, hus, he, hP⟩ := h _
  obtain ⟨sign, hsign, hbinding⟩ := yields_binding hname hus
  have hwhole : Yields Free p _ _ := (hbinding.mark_after (c := ';') rfl).word_before
    (isWord_keyword "var" rfl)
  exact ⟨_, e, hwhole, .valued rfl rfl hsign rfl he, hP⟩

/-- A variable is printed with its value, which may be the `nil` that it was given. -/
theorem yields_var {name : String} {e : Expr} {same : Prop} (hname : IsName name)
    (h : Reprints .assignment e same) (position : Position) :
    ReprintsStmt IsVar (.var position name e) same := by
  intro p
  have htext : (Stmt.var position name e).source.toList = "var".toList ++ ' ' ::
      ((name.toList ++ ' ' :: ("=".toList ++ [' ']) ++ e.source.toList) ++ [';']) := by
    simp [Stmt.source]
  obtain ⟨us, e', hwhole, hvar, hsource, hshape⟩ := reads_var hname h.read p
  rw [← htext] at hwhole
  refine ⟨us, _, hwhole, hvar, ?_, rfl, ?_⟩
  · rw [Stmt.source, hsource, Stmt.source]
  · rw [← hshape]
    simp [Stmt.sameShape]

theorem reprints_var {ts : List Token} {s : Stmt} (h : IsVar ts s) (hts : AllSpelled ts) :
    ReprintsStmt IsVar s (NoOverflow ts) := by
  cases h with
  | @bare word name semicolon hw hname hsemi =>
    have hspelled := (allSpelled_cons.mp (allSpelled_cons.mp hts).2).1
    rw [hname] at hspelled
    have hnil := reprints_literal (t := ⟨.nilWord, "nil", name.position⟩) (.nilWord rfl) trivial
    have hnone : NoOverflow [word, name, semicolon] ↔
        NoOverflow [⟨.nilWord, "nil", name.position⟩] := by
      rw [noOverflow_cons (by rw [hw]; decide), noOverflow_cons (by rw [hname]; decide),
        noOverflow_cons (by rw [hsemi]; decide), noOverflow_cons (by simp)]
    rw [hnone]
    exact yields_var hspelled (hnil.lift fun _ _ => IsExpr.assignment_of_primary) _
  | valued hw hname heq hsemi he =>
    obtain ⟨-, hrest⟩ := allSpelled_cons.mp hts
    obtain ⟨hspelled, hrest⟩ := allSpelled_cons.mp hrest
    rw [hname] at hspelled
    have hvalue := he.reprints (allSpelled_append.mp (allSpelled_cons.mp hrest).2).1
    rw [noOverflow_cons (by rw [hw]; decide), noOverflow_cons (by rw [hname]; decide),
      noOverflow_cons (by rw [heq]; decide), noOverflow_concat (by rw [hsemi]; decide)]
    exact yields_var hspelled hvalue _

/-- A condition in parentheses and the space after it. -/
theorem yields_condition {follow : List Char → Prop} {p : Position} {cond text : List Char}
    {cs ts : List Token} (hcond : Yields Apart (p.advance '(') cond cs)
    (h : Yields follow ((((p.advance '(').after cond).advance ')').advance ' ') text ts) :
    ∃ opening closing, opening.kind = .leftParen ∧ closing.kind = .rightParen ∧
      Yields follow p ('(' :: (cond ++ ')' :: ' ' :: text)) (opening :: (cs ++ closing :: ts)) :=
  ⟨_, _, rfl, rfl, (hcond.before ((h.blank_before (by decide)).mark_before rfl)
    (by decide)).mark_before rfl⟩

section

variable {inFunction : Bool}

theorem reprints_print {word semicolon : Token} {ts : List Token} {e : Expr} (position : Position)
    (hw : word.kind = .printWord) (hsemi : semicolon.kind = .semicolon)
    (h : Reprints .assignment e (NoOverflow ts)) :
    ReprintsStmt (IsStmt inFunction .statement) (.print position e)
      (NoOverflow (word :: (ts ++ [semicolon]))) := by
  intro p
  have htext : (Stmt.print position e).source.toList =
      "print".toList ++ ' ' :: (e.source.toList ++ [';']) := by
    simp [Stmt.source]
  obtain ⟨us, e', hus, he', hsource, hshape⟩ := h.read _
  have hwhole : Yields Free p _ _ := (hus.mark_after (c := ';') rfl).word_before
    (isWord_keyword "print" rfl)
  rw [← htext] at hwhole
  refine ⟨_, _, hwhole, .print rfl rfl he', ?_, rfl, ?_⟩
  · rw [Stmt.source, hsource, Stmt.source]
  · rw [noOverflow_cons (by rw [hw]; decide), noOverflow_concat (by rw [hsemi]; decide), ← hshape]
    simp [Stmt.sameShape]

theorem reprints_ret {word semicolon : Token} {ts : List Token} {value : Option Expr}
    (position : Position) (hw : word.kind = .returnWord) (hsemi : semicolon.kind = .semicolon)
    (h : ReprintsClause value (NoOverflow ts)) :
    ReprintsStmt (IsStmt true .statement) (.ret position value)
      (NoOverflow (word :: (ts ++ [semicolon]))) := by
  intro p
  have htext : (Stmt.ret position value).source.toList =
      "return".toList ++ ((Expr.clauseSource value).toList ++ [';']) := by
    simp [Stmt.source]
  obtain ⟨us, e', hus, he', hsource, hshape⟩ := h (p.after "return".toList)
  have hstart : ∀ rest, Free rest → Apart ((Expr.clauseSource value).toList ++ [';'] ++ rest) := by
    intro rest _
    cases value with
    | none => exact apart_cons (by decide) _
    | some e =>
      rw [Expr.clauseSource, String.toList_append]
      exact apart_cons (by decide) _
  have hwhole := ((isWord_keyword "return" rfl).yields p).append
    (hus.mark_after (c := ';') rfl) hstart
  rw [← htext] at hwhole
  refine ⟨_, _, hwhole, .ret rfl rfl he', ?_, rfl, ?_⟩
  · rw [Stmt.source, hsource, Stmt.source]
  · rw [noOverflow_cons (by rw [hw]; decide), noOverflow_concat (by rw [hsemi]; decide), ← hshape]
    simp [Stmt.sameShape]

theorem reprints_ifThen {word opening closing : Token} {cs ys : List Token} {c : Expr} {yes : Stmt}
    (position : Position) (hw : word.kind = .ifWord) (ho : opening.kind = .leftParen)
    (hc : closing.kind = .rightParen) (hcond : Reprints .assignment c (NoOverflow cs))
    (hyes : ReprintsStmt (IsStmt inFunction .statement) yes (NoOverflow ys)) :
    ReprintsStmt (IsStmt inFunction .statement) (.ifElse position c yes none)
      (NoOverflow (word :: opening :: (cs ++ closing :: ys))) := by
  intro p
  have htext : (Stmt.ifElse position c yes none).source.toList =
      "if".toList ++ ' ' :: '(' :: (c.source.toList ++ ')' :: ' ' :: yes.source.toList) := by
    simp [Stmt.source, Stmt.elseSource]
  obtain ⟨cs', c', hcs', hc', hcsource, hcshape⟩ := hcond.read _
  obtain ⟨ys', yes', hys', hyes', hysource, -, hyshape⟩ := hyes _
  obtain ⟨opening', closing', ho', hclose', hparens⟩ := yields_condition hcs' hys'
  have hwhole : Yields Free p _ _ := hparens.word_before (isWord_keyword "if" rfl)
  rw [← htext] at hwhole
  refine ⟨_, _, hwhole, .ifThen rfl ho' hclose' hc' hyes', ?_, rfl, ?_⟩
  · simp only [Stmt.source, Stmt.elseSource, hcsource, hysource]
  · rw [noOverflow_cons (by rw [hw]; decide), noOverflow_cons (by rw [ho]; decide),
      noOverflow_append, noOverflow_cons (by rw [hc]; decide), ← hcshape, ← hyshape]
    simp [Stmt.sameShape, Stmt.sameShapeOption]

/-- The printed first branch ends closed as the one read did, so the `else` stays with its
`if`. -/
theorem reprints_ifElse {word opening closing other : Token} {cs ys ns : List Token} {c : Expr}
    {yes no : Stmt} (position : Position) (hw : word.kind = .ifWord)
    (ho : opening.kind = .leftParen) (hc : closing.kind = .rightParen)
    (hother : other.kind = .elseWord) (hclosed : endsOpen yes = false)
    (hcond : Reprints .assignment c (NoOverflow cs))
    (hyes : ReprintsStmt (IsStmt inFunction .statement) yes (NoOverflow ys))
    (hno : ReprintsStmt (IsStmt inFunction .statement) no (NoOverflow ns)) :
    ReprintsStmt (IsStmt inFunction .statement) (.ifElse position c yes (some no))
      (NoOverflow (word :: opening :: (cs ++ closing :: (ys ++ other :: ns)))) := by
  intro p
  have htext : (Stmt.ifElse position c yes (some no)).source.toList =
      "if".toList ++ ' ' :: '(' :: (c.source.toList ++ ')' :: ' ' :: (yes.source.toList ++
        ' ' :: ("else".toList ++ ' ' :: no.source.toList))) := by
    simp [Stmt.source, Stmt.elseSource]
  obtain ⟨cs', c', hcs', hc', hcsource, hcshape⟩ := hcond.read _
  obtain ⟨ys', yes', hys', hyes', hysource, hyopen, hyshape⟩ := hyes _
  obtain ⟨ns', no', hns', hno', hnsource, hnopen, hnshape⟩ := hno _
  obtain ⟨opening', closing', ho', hclose', hparens⟩ := yields_condition hcs' (hys'.then
    ((hns'.word_before (isWord_keyword "else" rfl)).blank_before (c := ' ')
      (by decide)))
  have hwhole : Yields Free p _ _ := hparens.word_before (isWord_keyword "if" rfl)
  rw [← htext] at hwhole
  refine ⟨_, _, hwhole, .ifElse rfl ho' hclose' rfl hc' hyes' (hyopen.trans hclosed) hno', ?_,
    hnopen, ?_⟩
  · simp only [Stmt.source, Stmt.elseSource, hcsource, hysource, hnsource]
  · rw [noOverflow_cons (by rw [hw]; decide), noOverflow_cons (by rw [ho]; decide),
      noOverflow_append, noOverflow_cons (by rw [hc]; decide), noOverflow_append,
      noOverflow_cons (by rw [hother]; decide), ← hcshape, ← hyshape, ← hnshape]
    simp [Stmt.sameShape, Stmt.sameShapeOption, and_assoc]

theorem reprints_whileLoop {word opening closing : Token} {cs bs : List Token} {c : Expr}
    {body : Stmt} (position : Position) (hw : word.kind = .whileWord)
    (ho : opening.kind = .leftParen) (hc : closing.kind = .rightParen)
    (hcond : Reprints .assignment c (NoOverflow cs))
    (hbody : ReprintsStmt (IsStmt inFunction .statement) body (NoOverflow bs)) :
    ReprintsStmt (IsStmt inFunction .statement) (.whileLoop position c body)
      (NoOverflow (word :: opening :: (cs ++ closing :: bs))) := by
  intro p
  have htext : (Stmt.whileLoop position c body).source.toList =
      "while".toList ++ ' ' :: '(' :: (c.source.toList ++ ')' :: ' ' :: body.source.toList) := by
    simp [Stmt.source]
  obtain ⟨cs', c', hcs', hc', hcsource, hcshape⟩ := hcond.read _
  obtain ⟨bs', body', hbs', hbody', hbsource, hbopen, hbshape⟩ := hbody _
  obtain ⟨opening', closing', ho', hclose', hparens⟩ := yields_condition hcs' hbs'
  have hwhole : Yields Free p _ _ :=
    hparens.word_before (isWord_keyword "while" rfl)
  rw [← htext] at hwhole
  refine ⟨_, _, hwhole, .whileLoop rfl ho' hclose' hc' hbody', ?_, hbopen, ?_⟩
  · simp only [Stmt.source, hcsource, hbsource]
  · rw [noOverflow_cons (by rw [hw]; decide), noOverflow_cons (by rw [ho]; decide),
      noOverflow_append, noOverflow_cons (by rw [hc]; decide), ← hcshape, ← hbshape]
    simp [Stmt.sameShape]

theorem reprints_init {ts : List Token} {init : Option Stmt} (h : IsInit ts init)
    (hts : AllSpelled ts) : ReprintsInit init (NoOverflow ts) := by
  intro p
  cases h with
  | absent hsemi =>
    refine ⟨_, none, yields_mark (c := ';') rfl p, .absent rfl, rfl, ?_⟩
    simp [Stmt.sameShapeOption, noOverflow_single, hsemi]
  | var hv =>
    obtain ⟨us, s', hus, hs', hsource, -, hshape⟩ := reprints_var hv hts p
    exact ⟨us, some s', hus, .var hs', hsource, hshape⟩
  | expression he =>
    obtain ⟨us, s', hus, hs', hsource, -, hshape⟩ := reprints_exprStmt he hts p
    exact ⟨us, some s', hus, .expression hs', hsource, hshape⟩

theorem reprints_forLoop {word opening semicolon closing : Token} {is cs ns bs : List Token}
    {init : Option Stmt} {cond increment : Option Expr} {body : Stmt} (position : Position)
    (hw : word.kind = .forWord) (ho : opening.kind = .leftParen)
    (hsemi : semicolon.kind = .semicolon) (hc : closing.kind = .rightParen)
    (hinit : ReprintsInit init (NoOverflow is)) (hcond : ReprintsClause cond (NoOverflow cs))
    (hincr : ReprintsClause increment (NoOverflow ns))
    (hbody : ReprintsStmt (IsStmt inFunction .statement) body (NoOverflow bs)) :
    ReprintsStmt (IsStmt inFunction .statement) (.forLoop position init cond increment body)
      (NoOverflow (word :: opening :: (is ++ (cs ++ semicolon :: (ns ++ closing :: bs))))) := by
  intro p
  have htext : (Stmt.forLoop position init cond increment body).source.toList =
      "for".toList ++ ' ' :: '(' :: ((Stmt.initSource init).toList ++
        ((Expr.clauseSource cond).toList ++ ';' :: ((Expr.clauseSource increment).toList ++
          ')' :: ' ' :: body.source.toList))) := by
    simp [Stmt.source]
  obtain ⟨is', init', his', hinit', hisource, hishape⟩ := hinit _
  obtain ⟨cs', cond', hcs', hcond', hcsource, hcshape⟩ := hcond _
  obtain ⟨ns', incr', hns', hincr', hnsource, hnshape⟩ := hincr _
  obtain ⟨bs', body', hbs', hbody', hbsource, hbopen, hbshape⟩ := hbody _
  have hwhole : Yields Free p _ _ := ((his'.then (hcs'.before ((hns'.before
    ((hbs'.blank_before (c := ' ') (by decide)).mark_before (c := ')') rfl)
      (by decide)).mark_before (c := ';') rfl) (by decide))).mark_before (c := '(') rfl).word_before
    (isWord_keyword "for" rfl)
  rw [← htext] at hwhole
  refine ⟨_, _, hwhole, .forLoop rfl rfl rfl rfl hinit' hcond' hincr' hbody', ?_, hbopen, ?_⟩
  · simp only [Stmt.source, hisource, hcsource, hnsource, hbsource]
  · rw [noOverflow_cons (by rw [hw]; decide), noOverflow_cons (by rw [ho]; decide),
      noOverflow_append, noOverflow_append, noOverflow_cons (by rw [hsemi]; decide),
      noOverflow_append, noOverflow_cons (by rw [hc]; decide), ← hishape, ← hcshape, ← hnshape,
      ← hbshape]
    simp [Stmt.sameShape, and_assoc]

/-- What declarations are read back as: each is printed the same, and all have the same
shape exactly under the condition `same`. -/
structure RereadAll (inFunction : Bool) (ss : List Stmt) (same : Prop)
    (parts : List (List Token × Stmt)) : Prop where
  derived : ∀ part ∈ parts, IsStmt inFunction .declaration part.1 part.2
  source_eq : (parts.map Prod.snd).map Stmt.source = ss.map Stmt.source
  sameShapes_iff : Stmt.sameShapes ss (parts.map Prod.snd) = true ↔ same

theorem rereadAll_nil : RereadAll inFunction [] (NoOverflow []) [] :=
  ⟨by simp, rfl, by simp [Stmt.sameShapes, noOverflow_nil]⟩

theorem RereadAll.cons {s s' : Stmt} {ss : List Stmt} {us : List Token} {same more : Prop}
    {parts : List (List Token × Stmt)} (hs : IsStmt inFunction .declaration us s')
    (hsource : s'.source = s.source) (hshape : s.sameShape s' = true ↔ same)
    (h : RereadAll inFunction ss more parts) :
    RereadAll inFunction (s :: ss) (same ∧ more) ((us, s') :: parts) where
  derived := List.forall_mem_cons.mpr ⟨hs, h.derived⟩
  source_eq := by
    rw [List.map_cons, List.map_cons, List.map_cons, hsource, h.source_eq]
  sameShapes_iff := by
    rw [← hshape, ← h.sameShapes_iff]
    simp [Stmt.sameShapes]

/-- Declarations, each with a space after it, and the closing brace. -/
theorem reprints_rest {parts : List (List Token × Stmt)}
    (hall : ∀ part ∈ parts,
      ReprintsStmt (IsStmt inFunction .declaration) part.2 (NoOverflow part.1)) (p : Position) :
    ∃ (parts' : List (List Token × Stmt)) (closing : Token), closing.kind = .rightBrace ∧
      Yields Free p (Stmt.restSource (parts.map Prod.snd)).toList
        ((parts'.map Prod.fst).flatten ++ [closing]) ∧
      RereadAll inFunction (parts.map Prod.snd) (NoOverflow (parts.map Prod.fst).flatten) parts' := by
  induction parts generalizing p with
  | nil => exact ⟨[], _, rfl, yields_mark (c := '\x7d') rfl p, rereadAll_nil⟩
  | cons part parts ih =>
    obtain ⟨hone, hmore⟩ := List.forall_mem_cons.mp hall
    obtain ⟨us, s', hus, hs', hsource, -, hshape⟩ := hone p
    obtain ⟨parts', closing, hc, hvs, hreread⟩ := ih hmore ((p.after part.2.source.toList).advance ' ')
    have hwhole := hus.then (hvs.blank_before (c := ' ') (by decide))
    refine ⟨(us, s') :: parts', closing, hc, ?_, ?_⟩
    · simpa [Stmt.restSource] using hwhole
    · rw [List.map_cons, List.map_cons, List.flatten_cons, noOverflow_append]
      exact .cons hs' hsource hshape hreread

theorem reprints_body {parts : List (List Token × Stmt)}
    (hall : ∀ part ∈ parts,
      ReprintsStmt (IsStmt inFunction .declaration) part.2 (NoOverflow part.1)) (p : Position) :
    ∃ (parts' : List (List Token × Stmt)) (opening closing : Token),
      opening.kind = .leftBrace ∧ closing.kind = .rightBrace ∧
      Yields Free p (Stmt.bodySource (parts.map Prod.snd)).toList
        (opening :: ((parts'.map Prod.fst).flatten ++ [closing])) ∧
      RereadAll inFunction (parts.map Prod.snd) (NoOverflow (parts.map Prod.fst).flatten) parts' := by
  cases parts with
  | nil =>
    exact ⟨[], ⟨.leftBrace, String.ofList ['\x7b'], p⟩, _, rfl, rfl,
      (yields_mark (c := '\x7d') rfl _).mark_before (c := '\x7b') rfl, rereadAll_nil⟩
  | cons part parts =>
    obtain ⟨parts', closing, hc, hvs, hreread⟩ :=
      reprints_rest hall ((p.advance '\x7b').advance ' ')
    have hwhole := (hvs.blank_before (c := ' ') (by decide)).mark_before (c := '\x7b') rfl
    refine ⟨parts', ⟨.leftBrace, String.ofList ['\x7b'], p⟩, closing, rfl, hc, ?_, hreread⟩
    simpa [Stmt.bodySource, Stmt.restSource] using hwhole

theorem restSource_congr {ss ss' : List Stmt} (h : ss.map Stmt.source = ss'.map Stmt.source) :
    Stmt.restSource ss = Stmt.restSource ss' := by
  induction ss generalizing ss' with
  | nil =>
    cases ss' with
    | nil => rfl
    | cons => cases h
  | cons s ss ih =>
    cases ss' with
    | nil => cases h
    | cons s' ss' =>
      obtain ⟨hs, hss⟩ := List.cons.inj h
      rw [Stmt.restSource, hs, ih hss, Stmt.restSource]

theorem bodySource_congr {ss ss' : List Stmt} (h : ss.map Stmt.source = ss'.map Stmt.source) :
    Stmt.bodySource ss = Stmt.bodySource ss' := by
  cases ss with
  | nil =>
    cases ss' with
    | nil => rfl
    | cons => cases h
  | cons s ss =>
    cases ss' with
    | nil => cases h
    | cons s' ss' =>
      obtain ⟨hs, hss⟩ := List.cons.inj h
      rw [Stmt.bodySource, hs, restSource_congr hss, Stmt.bodySource]

theorem reprints_block {opening closing : Token} {parts : List (List Token × Stmt)}
    (position : Position) (ho : opening.kind = .leftBrace) (hc : closing.kind = .rightBrace)
    (hall : ∀ part ∈ parts,
      ReprintsStmt (IsStmt inFunction .declaration) part.2 (NoOverflow part.1)) :
    ReprintsStmt (IsStmt inFunction .statement) (.block position (parts.map Prod.snd))
      (NoOverflow (opening :: ((parts.map Prod.fst).flatten ++ [closing]))) := by
  intro p
  obtain ⟨parts', opening', closing', ho', hc', hwhole, hreread⟩ := reprints_body hall p
  refine ⟨_, _, hwhole, .block ho' hc' hreread.derived, ?_, rfl, ?_⟩
  · rw [Stmt.source, bodySource_congr hreread.source_eq, Stmt.source]
  · rw [noOverflow_cons (by rw [ho]; decide), noOverflow_concat (by rw [hc]; decide),
      ← hreread.sameShapes_iff]
    simp [Stmt.sameShape]

/-- Parameters, as they stand between the parentheses of a function. -/
theorem reprints_parameters {names : List String} (h : ∀ name ∈ names, IsName name)
    (p : Position) :
    ∃ (params us : List Token), Yields Apart p (", ".intercalate names).toList us ∧
      CommaSeparated (params.map ([·])) us ∧ (∀ param ∈ params, param.kind = .identifier) ∧
      params.map Token.lexeme = names := by
  induction names generalizing p with
  | nil => exact ⟨[], [], (yields_nil p).weaken, .nil, by simp, rfl⟩
  | cons name names ih =>
    obtain ⟨hname, hnames⟩ := List.forall_mem_cons.mp h
    have hone := yields_name hname p
    cases names with
    | nil =>
      refine ⟨[⟨.identifier, name, p⟩], _, ?_, .single _, by simp, rfl⟩
      simpa using hone
    | cons next names =>
      obtain ⟨params, us, hus, hsep, hparams, hlexemes⟩ :=
        ih hnames (p.after (name.toList ++ [',', ' ']))
      obtain ⟨param, more, rfl⟩ := List.exists_cons_of_ne_nil (l := params) (by
        rintro rfl
        cases hlexemes)
      have hspace : Yields Free ((p.after name.toList).advance ',') [' '] [] :=
        yields_blank (by decide) _
      have hwhole := (hone.before (hspace.mark_before rfl) (by decide)).then hus
      have hwholeSep : CommaSeparated
          ((⟨.identifier, name, p⟩ :: param :: more : List Token).map ([·]))
          ([⟨.identifier, name, p⟩] ++
            ⟨.comma, String.ofList [','], p.after name.toList⟩ :: us) := .cons rfl hsep
      refine ⟨⟨.identifier, name, p⟩ :: param :: more, _, ?_, hwholeSep, ?_, ?_⟩
      · simpa [String.intercalate_cons_cons] using hwhole
      · exact List.forall_mem_cons.mpr ⟨rfl, hparams⟩
      · rw [List.map_cons, hlexemes]

theorem noOverflow_parameters {params ts : List Token}
    (hparams : ∀ param ∈ params, param.kind = .identifier)
    (h : CommaSeparated (params.map ([·])) ts) : NoOverflow ts := by
  induction params generalizing ts with
  | nil =>
    cases h
    exact noOverflow_nil
  | cons param params ih =>
    obtain ⟨hparam, hmore⟩ := List.forall_mem_cons.mp hparams
    have hone : NoOverflow [param] := noOverflow_single (by rw [hparam]; decide)
    cases params with
    | nil =>
      cases h
      exact hone
    | cons next params =>
      cases h with
      | cons hcomma hsep =>
        exact noOverflow_append.mpr
          ⟨hone, (noOverflow_cons (by rw [hcomma]; decide)).mpr (ih hmore hsep)⟩

theorem reprints_function {word name opening closing openBody closeBody : Token}
    {params ts : List Token} {parts : List (List Token × Stmt)} (position : Position)
    (hw : word.kind = .funWord) (hname : name.kind = .identifier) (ho : opening.kind = .leftParen)
    (hc : closing.kind = .rightParen) (hob : openBody.kind = .leftBrace)
    (hcb : closeBody.kind = .rightBrace) (hparams : ∀ param ∈ params, param.kind = .identifier)
    (hlength : params.length ≤ maxArity) (hsep : CommaSeparated (params.map ([·])) ts)
    (hname' : IsName name.lexeme) (hnames : ∀ param ∈ params, IsName param.lexeme)
    (hall : ∀ part ∈ parts,
      ReprintsStmt (IsStmt true .declaration) part.2 (NoOverflow part.1)) :
    ReprintsStmt (IsStmt inFunction .declaration)
      (.function position name.lexeme (params.map Token.lexeme) (parts.map Prod.snd) .any)
      (NoOverflow (word :: name :: opening :: (ts ++
        closing :: openBody :: ((parts.map Prod.fst).flatten ++ [closeBody])))) := by
  intro p
  have htext : (Stmt.function position name.lexeme (params.map Token.lexeme) (parts.map Prod.snd)
      .any).source.toList = "fun".toList ++ ' ' :: (name.lexeme.toList ++
        '(' :: ((", ".intercalate (params.map Token.lexeme)).toList ++
          ')' :: ' ' :: (Stmt.bodySource (parts.map Prod.snd)).toList)) := by
    simp [Stmt.source]
  have hspelled : ∀ n ∈ params.map Token.lexeme, IsName n := by
    intro n hn
    obtain ⟨param, hmem, rfl⟩ := List.mem_map.mp hn
    exact hnames param hmem
  obtain ⟨params', us, hus, hsep', hparams', hlexemes⟩ := reprints_parameters hspelled _
  obtain ⟨parts', openBody', closeBody', hob', hcb', hbody, hreread⟩ := reprints_body hall _
  have hwhole : Yields Free p _ _ := ((yields_name hname' _).before ((hus.before
    ((hbody.blank_before (c := ' ') (by decide)).mark_before (c := ')') rfl)
      (by decide)).mark_before (c := '(') rfl) (by decide)).word_before
    (isWord_keyword "fun" rfl)
  rw [← htext] at hwhole
  have hlength' : params'.length ≤ maxArity := by
    have hlengths := congrArg List.length hlexemes
    rw [List.length_map, List.length_map] at hlengths
    omega
  refine ⟨_, _, hwhole, .function rfl rfl rfl rfl hob' hcb' hparams' hlength' hsep'
    hreread.derived, ?_, rfl, ?_⟩
  · rw [Stmt.source, hlexemes, bodySource_congr hreread.source_eq, Stmt.source]
  · have hts := noOverflow_parameters hparams hsep
    rw [noOverflow_cons (by rw [hw]; decide), noOverflow_cons (by rw [hname]; decide),
      noOverflow_cons (by rw [ho]; decide), noOverflow_append, noOverflow_cons (by rw [hc]; decide),
      noOverflow_cons (by rw [hob]; decide), noOverflow_concat (by rw [hcb]; decide),
      and_iff_right hts, ← hreread.sameShapes_iff]
    simp [Stmt.sameShape, hlexemes]

/-- The parts of spelled tokens are spelled. -/
theorem allSpelled_flatten {parts : List (List Token × Stmt)}
    (h : AllSpelled (parts.map Prod.fst).flatten) : ∀ part ∈ parts, AllSpelled part.1 := by
  intro part hpart t ht
  exact h t (List.mem_flatten.mpr ⟨part.1, List.mem_map_of_mem hpart, ht⟩)

/-- By induction on the derivation, with a lemma for each rule. -/
theorem IsStmt.reprints {form : Form} {ts : List Token} {s : Stmt} (h : IsStmt inFunction form ts s)
    (hts : AllSpelled ts) : ReprintsStmt (IsStmt inFunction form) s (NoOverflow ts) := by
  induction h with
  | expression he => exact (reprints_exprStmt he hts).lift fun _ _ => .expression
  | print hw hsemi he =>
    exact reprints_print _ hw hsemi (he.reprints (allSpelled_append.mp (allSpelled_cons.mp hts).2).1)
  | block ho hc _ ih =>
    have hparts := allSpelled_flatten (allSpelled_append.mp (allSpelled_cons.mp hts).2).1
    exact reprints_block _ ho hc fun part hpart => ih part hpart (hparts part hpart)
  | ifThen hw ho hc he _ ih =>
    obtain ⟨hcs, hrest⟩ := allSpelled_append.mp (allSpelled_cons.mp (allSpelled_cons.mp hts).2).2
    exact reprints_ifThen _ hw ho hc (he.reprints hcs) (ih (allSpelled_cons.mp hrest).2)
  | ifElse hw ho hc hother he _ hclosed _ ihyes ihno =>
    obtain ⟨hcs, hrest⟩ := allSpelled_append.mp (allSpelled_cons.mp (allSpelled_cons.mp hts).2).2
    obtain ⟨hys, hns⟩ := allSpelled_append.mp (allSpelled_cons.mp hrest).2
    exact reprints_ifElse _ hw ho hc hother hclosed (he.reprints hcs) (ihyes hys)
      (ihno (allSpelled_cons.mp hns).2)
  | whileLoop hw ho hc he _ ih =>
    obtain ⟨hcs, hrest⟩ := allSpelled_append.mp (allSpelled_cons.mp (allSpelled_cons.mp hts).2).2
    exact reprints_whileLoop _ hw ho hc (he.reprints hcs) (ih (allSpelled_cons.mp hrest).2)
  | forLoop hw ho hsemi hc hinit hcond hincr _ ih =>
    obtain ⟨his, hrest⟩ := allSpelled_append.mp (allSpelled_cons.mp (allSpelled_cons.mp hts).2).2
    obtain ⟨hcs, hrest⟩ := allSpelled_append.mp hrest
    obtain ⟨hns, hrest⟩ := allSpelled_append.mp (allSpelled_cons.mp hrest).2
    exact reprints_forLoop _ hw ho hsemi hc (reprints_init hinit his) (reprints_clause hcond hcs)
      (reprints_clause hincr hns) (ih (allSpelled_cons.mp hrest).2)
  | ret hw hsemi hvalue =>
    exact reprints_ret _ hw hsemi
      (reprints_clause hvalue (allSpelled_append.mp (allSpelled_cons.mp hts).2).1)
  | statement _ ih => exact (ih hts).lift fun _ _ => .statement
  | var hv => exact (reprints_var hv hts).lift fun _ _ => .var
  | @function _ word name opening closing openBody closeBody params ts parts hw hname ho hc hob hcb
      hparams hlength hsep _ ih =>
    obtain ⟨hspelled, hrest⟩ := allSpelled_cons.mp (allSpelled_cons.mp hts).2
    obtain ⟨hps, hrest⟩ := allSpelled_append.mp (allSpelled_cons.mp hrest).2
    have hbody := (allSpelled_cons.mp (allSpelled_cons.mp hrest).2).2
    have hparts := allSpelled_flatten (allSpelled_append.mp hbody).1
    rw [hname] at hspelled
    have hnames : ∀ param ∈ params, IsName param.lexeme := by
      intro param hmem
      have hone := hsep.allSpelled hps [param] (List.mem_map.mpr ⟨param, hmem, rfl⟩)
      have hparam := (allSpelled_cons.mp hone).1
      rwa [hparams param hmem] at hparam
    exact reprints_function _ hw hname ho hc hob hcb hparams hlength hsep hspelled hnames
      fun part hpart => ih part hpart (hparts part hpart)

end

end GradualScript.Grammar
