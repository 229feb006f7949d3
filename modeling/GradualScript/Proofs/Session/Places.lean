import GradualScript.Proofs.Evaluation.Places
import GradualScript.Proofs.Grammar.Exact
import GradualScript.Proofs.Grammar.Sealed
import GradualScript.Proofs.Scanning.Joining
import GradualScript.Proofs.Grammar.Stretches
import GradualScript.Proofs.Typing.Order
import GradualScript.Session

/-!
# Places of errors

Every error of a text stands in it, whichever phase stopped: at the character where the
scanner is stuck, at a token or at the end for the parser, and at the first token of a part
of the program for the phases after that.
-/
namespace GradualScript

open Grammar Scanner

/-- The lexeme of the token stands in the text, and its first character at the place of the
token. The token without a lexeme stands at the end. -/
def Token.StandsIn (source : String) (t : Token) : Prop :=
  ∃ before after, source.toList = before ++ (t.lexeme.toList ++ after) ∧
    t.position = .following before ∧ (t.lexeme.toList = [] → after = [])

/-- The token is the leftmost of the tokens of an expression or a statement of the program. -/
def Token.LeadsPart (source : String) (t : Token) : Prop :=
  ∃ tokens p part ts, scan source = .ok tokens ∧ parse tokens = .ok p ∧
    part ∈ Stmt.partsAll p ∧ t :: ts <:+: significant tokens ∧ IsPart (t :: ts) part

/-- The error stands in the text: for the scanner at an opening quote or a character that
starts no token, for the parser at a token or at the end, and later at the leftmost token of
a part of the program. -/
inductive Error.PointsInto (source : String) : Error → Prop
  | scan {read rest : List Char} {cause : ScanFault} : source.toList = read ++ rest →
      Stuck rest cause → PointsInto source (.scan ⟨cause, .following read⟩)
  | parse {tokens : List Token} {t : Token} {cause : ParseFault} :
      GradualScript.scan source = .ok tokens →
      t ∈ tokens → t.StandsIn source → PointsInto source (.parse ⟨cause, t.position⟩)
  | check {t : Token} {cause : TypeFault} : t.LeadsPart source → t.StandsIn source →
      PointsInto source (.check ⟨cause, t.position⟩)
  | run {t : Token} {cause : RuntimeFault} : t.LeadsPart source → t.StandsIn source →
      PointsInto source (.run ⟨cause, t.position⟩)

theorem Scanner.Tiles.stands {done text rest : List Char} {tokens : List Token}
    (h : Tiles done text tokens rest) {t : Token} (ht : t ∈ tokens) :
    ∃ before after, done ++ text = before ++ (t.lexeme.toList ++ after) ∧
      t.position = .following before ∧ t.lexeme.toList ≠ [] := by
  induction h with
  | stop => cases ht
  | @blank done text rest tokens c _ _ ih =>
    obtain ⟨before, after, htext, hplace⟩ := ih ht
    exact ⟨before, after, by rw [← htext]; simp, hplace⟩
  | @token done text rest lexeme tokens kind hlongest _ ih =>
    rcases List.mem_cons.mp ht with rfl | ht
    · obtain ⟨c, line, rfl, -⟩ := hlongest.isToken.head
      refine ⟨done, text, ?_, rfl, ?_⟩
      · rw [String.toList_ofList]
      · simp
    · obtain ⟨before, after, htext, hplace⟩ := ih ht
      exact ⟨before, after, by rw [← htext]; simp, hplace⟩

/-- The tokens of a text stand in it. -/
theorem standsIn_of_scan {source : String} {tokens : List Token} (h : scan source = .ok tokens)
    {t : Token} (ht : t ∈ tokens) : t.StandsIn source := by
  obtain ⟨body, htiles, rfl⟩ := scan_ok_iff.mp h
  rcases List.mem_append.mp ht with ht | ht
  · obtain ⟨before, after, htext, hplace, hlexeme⟩ := htiles.stands (List.mem_filter.mp ht).1
    exact ⟨before, after, htext, hplace, fun hnone => absurd hnone hlexeme⟩
  · cases List.mem_singleton.mp ht
    exact ⟨source.toList, [], by simp [Token.endAt], rfl, fun _ => rfl⟩

/-- The place of a part of the program is that of a token that leads it, unless the part is a
`nil`. -/
theorem exists_leading_token {source : String} {tokens : List Token} {p : Program}
    (hscan : scan source = .ok tokens) (hparse : parse tokens = .ok p) {part : Part}
    (hpart : part ∈ Stmt.partsAll p) (hnil : ∀ m, part ≠ .expression (.nil m)) :
    ∃ t : Token, t.LeadsPart source ∧ t.StandsIn source ∧ part.position = t.position := by
  rcases (isProgram_of_parse hparse).covers part hpart with ⟨us, hus, hderived⟩ | ⟨m, hm⟩
  · obtain ⟨t, ts, rfl, hposition⟩ := hderived.head
    have ht : t ∈ tokens := by
      have hmem := hus.subset (List.mem_cons_self (a := t) (l := ts))
      exact List.takeWhile_subset _ (List.mem_filter.mp hmem).1
    exact ⟨t, ⟨tokens, p, part, ts, hscan, hparse, hpart, hus, hderived⟩,
      standsIn_of_scan hscan ht, hposition⟩
  · exact absurd hm (hnil m)

theorem scanWithComments_of_error {source : String} {e : ScanError} (h : scan source = .error e) :
    scanWithComments source = .error e := by
  rw [scan] at h
  cases hall : scanWithComments source with
  | ok all =>
    rw [hall] at h
    cases h
  | error fault =>
    rw [hall] at h
    cases h
    rfl

theorem readProgram_cases (source : String) :
    (∃ e, scan source = .error e ∧ readProgram source = .error (.scan e)) ∨
      ∃ tokens, scan source = .ok tokens ∧ readProgram source = (parse tokens).mapError .parse := by
  unfold readProgram
  cases scan source with
  | error e => exact .inl ⟨e, rfl, rfl⟩
  | ok tokens => exact .inr ⟨tokens, rfl, rfl⟩

theorem pointsInto_of_read {source : String} {e : Error} (h : readProgram source = .error e) :
    e.PointsInto source := by
  rcases readProgram_cases source with ⟨fault, hscan, hread⟩ | ⟨tokens, hscan, hread⟩
  · rw [hread] at h
    cases h
    obtain ⟨cause, position⟩ := fault
    obtain ⟨-, read, rest, htext, -, hstuck, rfl⟩ :=
      scanWithComments_error_iff.mp (scanWithComments_of_error hscan)
    exact .scan htext hstuck
  · have hne : tokens ≠ [] := by
      obtain ⟨body, -, rfl⟩ := scan_ok_iff.mp hscan
      simp
    rw [hread] at h
    cases hparse : parse tokens with
    | ok p =>
      rw [hparse] at h
      cases h
    | error fault =>
      rw [hparse] at h
      cases h
      obtain ⟨t, ht, hposition⟩ := exists_token_of_error hne hparse
      obtain ⟨cause, position⟩ := fault
      obtain rfl : t.position = position := hposition
      exact .parse hscan ht (standsIn_of_scan hscan ht)

theorem parse_of_read {source : String} {p : Program} (h : readProgram source = .ok p) :
    ∃ tokens, scan source = .ok tokens ∧ parse tokens = .ok p := by
  rcases readProgram_cases source with ⟨fault, -, hread⟩ | ⟨tokens, hscan, hread⟩
  · rw [hread] at h
    cases h
  · exact ⟨tokens, hscan, mapError_eq_ok.mp (hread.symm.trans h)⟩

section

variable {source : String} {p : Program}

theorem pointsInto_of_check {env : TypeEnv} {e : TypeError} (hread : readProgram source = .ok p)
    (h : (p.check env).verdict = .error e) : (Error.check e).PointsInto source := by
  obtain ⟨tokens, hscan, hparse⟩ := parse_of_read hread
  obtain ⟨part, hpart, hposition, hnil⟩ := Program.exists_part_of_fault h
  obtain ⟨t, hleads, hstands, ht⟩ := exists_leading_token hscan hparse hpart hnil
  obtain ⟨cause, position⟩ := e
  obtain rfl : t.position = position := ht.symm.trans hposition
  exact .check hleads hstands

theorem pointsInto_of_execute {limit : Option Nat} {budget : Nat} {m m' : Machine}
    {e : RuntimeError} (hread : readProgram source = .ok p) (hm : m.Within (Stmt.partsAll p))
    (h : p.execute limit budget m = (.failed e, m')) : (Error.run e).PointsInto source := by
  obtain ⟨tokens, hscan, hparse⟩ := parse_of_read hread
  obtain ⟨x, hx, hfails, hposition⟩ := Program.placedIn_of_execute hm h
  have hnil : ∀ m, Part.expression x ≠ .expression (.nil m) := by
    rintro m ⟨rfl⟩
    exact hfails
  obtain ⟨t, hleads, hstands, ht⟩ := exists_leading_token hscan hparse hx hnil
  obtain ⟨cause, position⟩ := e
  obtain rfl : t.position = position := ht.symm.trans hposition
  exact .run hleads hstands

end

/-- Every error points into the source: where the scanner is stuck, to a token or the end of
the text if the parser fails, and to the leftmost token of an expression or a statement of the
program if checking or running it fails, in a called function or outside of all. -/
theorem runSource_points_into (budget : Nat) (source : String) (sink : Sink) (e : Error)
    (h : (runSource budget source sink).1 = .failed e) : e.PointsInto source := by
  unfold runSource at h
  cases hread : readProgram source with
  | error fault =>
    rw [hread] at h
    cases h
    exact pointsInto_of_read hread
  | ok p =>
    rw [hread] at h
    dsimp only at h
    cases hcheck : (p.check .fresh).verdict with
    | error fault =>
      rw [hcheck] at h
      cases h
      exact pointsInto_of_check hread hcheck
    | ok =>
      rw [hcheck] at h
      dsimp only at h
      cases hrun : p.execute (some defaultCallLimit) budget (.fresh globalScope sink) with
      | mk outcome m =>
        rw [hrun] at h
        cases outcome with
        | finished | unfinished => cases h
        | failed fault =>
          cases h
          exact pointsInto_of_execute hread (Machine.within_fresh _ globalScope sink) hrun

/-- A fault in a called function. -/
theorem runSource_points_into_called :
    let source := "fun f(a, b) \x7b return a - b; \x7d\nprint f(nil, true);"
    let e : Error := .run ⟨.wrongOperands .subtract [.nil, .boolean], ⟨1, 22⟩⟩
    (runSource 9 source .silent).1 = .failed e ∧ e.PointsInto source := by
  intro source e
  have hfails : (runSource 9 source .silent).1 = .failed e := by cbv
  exact ⟨hfails, runSource_points_into 9 source .silent e hfails⟩

end GradualScript
