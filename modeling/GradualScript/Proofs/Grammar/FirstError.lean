import GradualScript.Proofs.Grammar.CompletedProgram
import GradualScript.Proofs.Grammar.Moved
import GradualScript.Proofs.Grammar.Views
import GradualScript.Proofs.Scanning.Layout

/-!
# The first bad token

A syntax error is reported at the first token that cannot stand where it stands. Whatever
follows this token, the error is the same, and the tokens before it begin a program.
-/
namespace GradualScript

open Grammar

variable {tokens before ts more : List Token} {t : Token} {e : ParseError} {i : Nat}

theorem significant_cons_end (h : t.kind = .endOfFile) (more : List Token) :
    significant (t :: more) = [] := by
  simp [significant, h]

theorem significant_cons_comment (h : t.kind = .comment) (more : List Token) :
    significant (t :: more) = significant more := by
  simp [significant, h]

theorem significant_cons (hend : t.kind ≠ .endOfFile) (hcomment : t.kind ≠ .comment)
    (more : List Token) : significant (t :: more) = t :: significant more := by
  simp [significant, hend, hcomment]

/-- Before the first end, what the grammar sees comes in the order of the tokens. -/
theorem significant_append (h : ∀ b ∈ before, b.kind ≠ .endOfFile) (more : List Token) :
    significant (before ++ more) = significant before ++ significant more := by
  induction before with
  | nil => rfl
  | cons b before ih =>
    obtain ⟨hb, hbefore⟩ := List.forall_mem_cons.mp h
    rw [List.cons_append]
    by_cases hcomment : b.kind = .comment
    · rw [significant_cons_comment hcomment, significant_cons_comment hcomment, ih hbefore]
    · rw [significant_cons hb hcomment, significant_cons hb hcomment, ih hbefore, List.cons_append]

/-- Where what the grammar sees is split, the list is, at a token that is no comment. -/
theorem exists_cut_of_significant (hend : ∃ t ∈ tokens, t.kind = .endOfFile)
    (h : significant tokens = ts ++ more) :
    ∃ before t after, tokens = before ++ t :: after ∧ (∀ b ∈ before, b.kind ≠ .endOfFile) ∧
      t.kind ≠ .comment ∧ significant before = ts := by
  induction tokens generalizing ts with
  | nil => obtain ⟨t, ht, -⟩ := hend; cases ht
  | cons a tokens ih =>
    by_cases hkind : a.kind = .endOfFile
    · rw [significant_cons_end hkind] at h
      obtain ⟨rfl, -⟩ := List.append_eq_nil_iff.mp h.symm
      exact ⟨[], a, tokens, rfl, nofun, by rw [hkind]; decide, rfl⟩
    have hend : ∃ t ∈ tokens, t.kind = .endOfFile := by
      obtain ⟨t, ht, hkind'⟩ := hend
      rcases List.mem_cons.mp ht with rfl | ht
      · exact absurd hkind' hkind
      · exact ⟨t, ht, hkind'⟩
    by_cases hcomment : a.kind = .comment
    · rw [significant_cons_comment hcomment] at h
      obtain ⟨before, t, after, rfl, hbefore, ht, rfl⟩ := ih hend h
      exact ⟨a :: before, t, after, rfl, List.forall_mem_cons.mpr ⟨hkind, hbefore⟩, ht,
        significant_cons_comment hcomment _⟩
    rw [significant_cons hkind hcomment] at h
    cases ts with
    | nil => exact ⟨[], a, tokens, rfl, nofun, hcomment, rfl⟩
    | cons b ts =>
      obtain ⟨rfl, hrest⟩ := List.cons.inj h
      obtain ⟨before, t, after, rfl, hbefore, ht, rfl⟩ := ih hend hrest
      exact ⟨a :: before, t, after, rfl, List.forall_mem_cons.mpr ⟨hkind, hbefore⟩, ht,
        significant_cons hkind hcomment _⟩

namespace Stream

/-- After the tokens before it, a stream shows the token at which it is cut. -/
theorem ofTokens_cut (h : ∀ b ∈ before, b.kind ≠ .endOfFile) (ht : t.kind ≠ .comment)
    (more : List Token) : ∃ rest : Stream, rest.Closed ∧ rest.current = t.asRead ∧
      ofTokens (before ++ t :: more) = rest.prepend (significant before) := by
  refine ⟨⟨significant (t :: more), stopOf (before ++ t :: more)⟩,
    fun _ => ne_endOfFile_of_mem_significant, ?_, ?_⟩
  · by_cases hend : t.kind = .endOfFile
    · have hnone : before.find? (·.kind = .endOfFile) = none := by simpa using h
      have hstop : stopOf (before ++ t :: more) = t.position := by
        simp [stopOf, List.find?_append, hnone, hend]
      rw [significant_cons_end hend, hstop, Token.asRead, if_pos hend]
      rfl
    · rw [significant_cons hend ht, Token.asRead, if_neg hend]
      rfl
  · rw [prepend, ← significant_append h]
    rfl

theorem prepend_left_cancel {s s' : Stream} (h : s.prepend ts = s'.prepend ts) : s = s' := by
  obtain ⟨htokens, hstop⟩ := Stream.mk.inj h
  exact congr (congrArg Stream.mk (List.append_cancel_left htokens)) hstop

/-- Where a stream is split, the list is cut. -/
theorem exists_cut {rest : Stream} (hend : ∃ t ∈ tokens, t.kind = .endOfFile)
    (h : Stream.ofTokens tokens = rest.prepend ts) :
    ∃ before t after, tokens = before ++ t :: after ∧ (∀ b ∈ before, b.kind ≠ .endOfFile) ∧
      t.kind ≠ .comment ∧ significant before = ts ∧ rest.current = t.asRead := by
  obtain ⟨before, t, after, rfl, hbefore, ht, rfl⟩ :=
    exists_cut_of_significant hend (congrArg Stream.tokens h)
  obtain ⟨rest', -, hcurrent, hrest'⟩ := ofTokens_cut hbefore ht after
  obtain rfl := prepend_left_cancel (h.symm.trans hrest')
  exact ⟨before, t, after, rfl, hbefore, ht, rfl, hcurrent⟩

end Stream

theorem Token.asRead_kind (t : Token) : t.asRead.kind = t.kind := by
  unfold asRead
  split
  · next h => exact h.symm
  · rfl

theorem Token.asRead_position (t : Token) : t.asRead.position = t.position := by
  unfold asRead
  split <;> rfl

/-- The list is cut at the token where it fails, which is the one that was found. The error stays
the same if the list goes on in another way. -/
theorem exists_failing_token (hend : ∃ t ∈ tokens, t.kind = .endOfFile)
    (h : parse tokens = .error e) (hfound : e.cause.found? ≠ none) :
    ∃ before t after, tokens = before ++ t :: after ∧ (∀ b ∈ before, b.kind ≠ .endOfFile) ∧
      e.cause.found? = some t.kind ∧ t.position = e.position ∧
      ∀ more, parse (before ++ t :: more) = .error e := by
  have hfailed := parse_eq_error_iff.mp h
  generalize (Stream.ofTokens tokens).budget = n at hfailed
  have hrepeated := Parser.repeats_program (Nat.le_refl n) _ (Stream.closed_ofTokens tokens)
  rw [hfailed] at hrepeated
  cases hrepeated with
  | @failed _ rest ts hsplit hat hagain =>
    obtain ⟨kind, hkind⟩ := Option.ne_none_iff_exists'.mp hfound
    obtain ⟨hcurrent, hposition⟩ := hat kind hkind
    obtain ⟨before, t, after, rfl, hbefore, ht, rfl, hrest⟩ := Stream.exists_cut hend hsplit
    rw [hrest, Token.asRead_kind] at hcurrent
    rw [hrest, Token.asRead_position] at hposition
    refine ⟨before, t, after, rfl, hbefore, hcurrent ▸ hkind, hposition, fun more => ?_⟩
    obtain ⟨rest', hclosed, hcurrent', hmore⟩ := Stream.ofTokens_cut hbefore ht more
    have hfails : Parser.program n (Stream.ofTokens (before ++ t :: more)) = .failed e :=
      hmore ▸ hagain rest' hclosed (hcurrent'.trans hrest.symm)
    refine parse_eq_error_iff.mpr ?_
    rw [Parser.program_budget (Stream.closed_ofTokens _) (by rw [hfails]; nofun), hfails]

/-- The list is cut at the token where it fails, and what stands before this token begins a
program, unless it misassigns. -/
theorem exists_viable_prefix (hend : ∃ t ∈ tokens, t.kind = .endOfFile)
    (h : parse tokens = .error e) (hfound : e.cause.found? ≠ none) :
    ∃ before t after, tokens = before ++ t :: after ∧ t.position = e.position ∧
      Viable (fun ts => ∃ p, IsProgram ts p) (significant before) := by
  obtain ⟨ts, rest, hsplit, hposition, hviable⟩ :=
    Parser.completable_program _ _ e (parse_eq_error_iff.mp h) hfound
  obtain ⟨before, t, after, rfl, -, -, rfl, hrest⟩ := Stream.exists_cut hend hsplit
  rw [hrest, Token.asRead_position] at hposition
  exact ⟨before, t, after, rfl, hposition, hviable⟩

/-- The error is raised at the token of number `i`: that is where it stands if the tokens stand
at places of their own. -/
def RaisedAt (tokens : List Token) (e : ParseError) (i : Nat) : Prop :=
  parse (tokens.mapIdx Token.numbered) = .error ⟨e.cause, .numbered i⟩

/-- An error that is raised at a token stands at its place. -/
theorem RaisedAt.parse_eq (h : RaisedAt tokens e i) (ht : tokens[i]? = some t) :
    parse tokens = .error ⟨e.cause, t.position⟩ := by
  obtain ⟨g, htokens, hg⟩ := exists_moved_of_spelling (rfl : tokens.map Token.spelling = _)
  have hne : tokens.mapIdx Token.numbered ≠ [] := by
    rintro hnil
    rw [List.mapIdx_eq_nil_iff.mp hnil] at ht
    cases ht
  have hmoved := parse_moved_error g hne h
  rw [← htokens, Located.moved, hg i t ht] at hmoved
  exact hmoved

/-- Every error is raised at a token. -/
theorem exists_raisedAt (hne : tokens ≠ []) (h : parse tokens = .error e) :
    ∃ i t, RaisedAt tokens e i ∧ tokens[i]? = some t ∧ e.position = t.position := by
  obtain ⟨g, htokens, hg⟩ := exists_moved_of_spelling (rfl : tokens.map Token.spelling = _)
  have hnumbered : tokens.mapIdx Token.numbered ≠ [] := by simpa using hne
  cases hparse : parse (tokens.mapIdx Token.numbered) with
  | ok p =>
    have hmoved := parse_moved_ok g hnumbered hparse
    rw [← htokens, h] at hmoved
    cases hmoved
  | error e₀ =>
    have hmoved := parse_moved_error g hnumbered hparse
    rw [← htokens, h, Except.error.injEq] at hmoved
    obtain ⟨u, hu, hposition⟩ := exists_token_of_error hnumbered hparse
    obtain ⟨i, hi, rfl⟩ := List.mem_mapIdx.mp hu
    obtain ⟨cause, position⟩ := e₀
    obtain rfl : Position.numbered i = position := hposition
    have ht := List.getElem?_eq_getElem hi
    subst hmoved
    exact ⟨i, tokens[i], hparse, ht, hg i _ ht⟩

section

variable {front back after : List Token} {u : Token}

theorem numbered_append (front : List Token) (u : Token) (back : List Token) :
    ∃ rest, (front ++ u :: back).mapIdx Token.numbered =
      front.mapIdx Token.numbered ++ u.numbered front.length :: rest := by
  rw [List.mapIdx_append, List.mapIdx_cons, Nat.zero_add]
  exact ⟨_, rfl⟩

/-- At places of their own, a token is found by its place. -/
theorem numbered_cut (h : (front ++ u :: back).mapIdx Token.numbered = before ++ t :: after)
    (ht : t.position = .numbered front.length) :
    before = front.mapIdx Token.numbered ∧ t = u.numbered front.length := by
  have hat : ((front ++ u :: back).mapIdx Token.numbered)[before.length]? = some t := by simp [h]
  rw [List.getElem?_mapIdx] at hat
  obtain ⟨v, -, rfl⟩ := Option.map_eq_some_iff.mp hat
  have hlength : before.length = front.length := congrArg Position.line ht
  obtain ⟨rest, hrest⟩ := numbered_append front u back
  rw [hrest] at h
  obtain ⟨hbefore, htail⟩ := List.append_inj h (by rw [List.length_mapIdx, hlength])
  exact ⟨hbefore.symm, (List.cons.inj htail).1.symm⟩

theorem exists_end_numbered (h : ∃ t ∈ tokens, t.kind = .endOfFile) :
    ∃ t ∈ tokens.mapIdx Token.numbered, t.kind = .endOfFile := by
  obtain ⟨t, ht, hkind⟩ := h
  obtain ⟨k, hk, rfl⟩ := List.mem_iff_getElem.mp ht
  exact ⟨tokens[k].numbered k, List.mem_mapIdx.mpr ⟨k, hk, rfl⟩, hkind⟩

/-- Whatever follows the token at which an error is raised, it is raised there. -/
theorem RaisedAt.again (h : RaisedAt (front ++ u :: back) e front.length)
    (hend : ∃ t ∈ front ++ u :: back, t.kind = .endOfFile) (hfound : e.cause.found? ≠ none) :
    (∀ t ∈ front, t.kind ≠ .endOfFile) ∧ e.cause.found? = some u.kind ∧
      ∀ more, RaisedAt (front ++ u :: more) e front.length := by
  obtain ⟨before, t, after, hcut, hbefore, hkind, hposition, hagain⟩ :=
    exists_failing_token (exists_end_numbered hend) h hfound
  obtain ⟨rfl, rfl⟩ := numbered_cut hcut hposition
  refine ⟨fun t ht => ?_, hkind, fun more => ?_⟩
  · obtain ⟨k, hk, rfl⟩ := List.mem_iff_getElem.mp ht
    exact hbefore (front[k].numbered k) (List.mem_mapIdx.mpr ⟨k, hk, rfl⟩)
  obtain ⟨rest, hrest⟩ := numbered_append front u more
  rw [RaisedAt, hrest]
  exact hagain rest

theorem Grammar.Misassigns.moved (g : Position → Position) (h : Misassigns ts) :
    Misassigns (ts.map (Token.moved g)) := by
  obtain ⟨before, target, eq, after, e, rfl, heq, htarget, hname⟩ := h
  refine ⟨before.map (Token.moved g), _, eq.moved g, after.map (Token.moved g), _, ?_, heq,
    htarget.moved g, fun m name he => ?_⟩
  · rw [List.map_append, List.map_append, List.map_cons]
  · cases e with
    | name m' name' => exact hname m' name' rfl
    | _ => cases he

/-- What stands before the token at which an error is raised begins a program, unless it
misassigns. -/
theorem RaisedAt.completion (h : RaisedAt (front ++ u :: back) e front.length)
    (hend : ∃ t ∈ front ++ u :: back, t.kind = .endOfFile) (hfound : e.cause.found? ≠ none)
    (hfront : ∀ t ∈ front, t.kind ≠ .endOfFile) (hmisassigns : ¬ Misassigns (significant front))
    {last : Token} (hlast : last.kind = .endOfFile) :
    ∃ more p, parse (front ++ more ++ [last]) = .ok p := by
  obtain ⟨before, t, after, hcut, hposition, hviable⟩ :=
    exists_viable_prefix (exists_end_numbered hend) h hfound
  obtain ⟨rfl, rfl⟩ := numbered_cut hcut hposition
  -- the places are given back
  obtain ⟨g, hmoved, -⟩ := exists_moved_of_spelling (rfl : front.map Token.spelling = _)
  have hsignificant := significant_moved g (front.mapIdx Token.numbered)
  rw [← hmoved] at hsignificant
  rcases hviable with hmis | ⟨kinds, hseen, p, hp⟩
  · exact absurd (hsignificant ▸ Misassigns.moved g hmis) hmisassigns
  have hfill : ∀ t ∈ (fill kinds).map (Token.moved g), t.kind ≠ .endOfFile ∧ t.kind ≠ .comment := by
    intro t ht
    obtain ⟨filled, hfilled, rfl⟩ := List.mem_map.mp ht
    obtain ⟨kind, hkind, rfl⟩ := List.mem_map.mp hfilled
    exact hseen kind hkind
  have hprogram := IsBody.moved g hp
  rw [List.map_append, ← hsignificant] at hprogram
  refine ⟨(fill kinds).map (Token.moved g), _, parse_of_isProgram (p := Stmt.movedAll g p) ?_⟩
  rw [List.append_assoc, significant_append hfront,
    significant_closed (fun t ht => (hfill t ht).1) hlast,
    List.filter_eq_self.mpr fun t ht => decide_eq_true (hfill t ht).2]
  exact hprogram

/-- Tokens that misassign begin no program. -/
theorem not_misassigns_of_parse {p : Program} (hfront : ∀ t ∈ front, t.kind ≠ .endOfFile)
    (h : parse (front ++ more) = .ok p) : ¬ Misassigns (significant front) := by
  have hprogram := isProgram_of_parse h
  rw [significant_append hfront] at hprogram
  exact hprogram.not_misassigns

end

/-- Syntax errors are reported at the first bad token. Let a list of tokens, with an end-of-file
token at its end, fail for want of another token or of an expression. The error is raised at a
token and names the kind of this token. Every list with the same tokens up to and including this
one fails with the same error there. And the tokens before it begin a list that is parsed,
exactly if no `=` among them follows an expression that is no bare name. -/
theorem parse_first_bad_token (tokens body : List Token) (last : Token) (e : ParseError)
    (htokens : tokens = body ++ [last]) (hlast : last.kind = .endOfFile)
    (h : parse tokens = .error e) (hfound : e.cause.found? ≠ none) :
    ∃ i t, RaisedAt tokens e i ∧ tokens[i]? = some t ∧ e.position = t.position ∧
      e.cause.found? = some t.kind ∧
      (∀ more, RaisedAt (tokens.take (i + 1) ++ more) e i ∧
        parse (tokens.take (i + 1) ++ more) = .error e) ∧
      ((∃ more p, parse (tokens.take i ++ more ++ [last]) = .ok p) ↔
        ¬ Misassigns (significant (tokens.take i))) := by
  have hend : ∃ t ∈ tokens, t.kind = .endOfFile := ⟨last, by simp [htokens], hlast⟩
  obtain ⟨i, t, hraised, ht, hposition⟩ := exists_raisedAt (by simp [htokens]) h
  obtain ⟨front, back, hcut, rfl⟩ :
      ∃ front back, tokens = front ++ t :: back ∧ front.length = i := by
    obtain ⟨hi, rfl⟩ := List.getElem?_eq_some_iff.mp ht
    refine ⟨tokens.take i, tokens.drop (i + 1), ?_, List.length_take_of_le (Nat.le_of_lt hi)⟩
    rw [← List.drop_eq_getElem_cons hi, List.take_append_drop]
  subst hcut
  obtain ⟨hfront, hkind, hagain⟩ := hraised.again hend hfound
  have htake : (front ++ t :: back).take front.length = front := List.take_left
  have htakeSucc : (front ++ t :: back).take (front.length + 1) = front ++ [t] := by
    simp [List.take_append]
  refine ⟨front.length, t, hraised, ht, hposition, hkind, fun more => ?_, ?_⟩
  · rw [htakeSucc, List.append_assoc, List.singleton_append]
    have hat : (front ++ t :: more)[front.length]? = some t := by simp
    refine ⟨hagain more, ?_⟩
    rw [(hagain more).parse_eq hat, ← hposition]
  · rw [htake]
    constructor
    · rintro ⟨more, p, hp⟩
      rw [List.append_assoc] at hp
      exact not_misassigns_of_parse hfront hp
    · exact fun hmisassigns => hraised.completion hend hfound hfront hmisassigns hlast

/-- An argument is wanted where a semicolon stands, in the body of a function. -/
theorem parse_first_bad_token_argument :
    let front : List Token := [⟨.funWord, "fun", ⟨1, 1⟩⟩, ⟨.identifier, "f", ⟨1, 5⟩⟩,
      ⟨.leftParen, "(", ⟨1, 6⟩⟩, ⟨.identifier, "a", ⟨1, 7⟩⟩, ⟨.rightParen, ")", ⟨1, 8⟩⟩,
      ⟨.leftBrace, "\x7b", ⟨1, 10⟩⟩, ⟨.printWord, "print", ⟨1, 12⟩⟩, ⟨.identifier, "a", ⟨1, 18⟩⟩,
      ⟨.leftParen, "(", ⟨1, 19⟩⟩]
    let bad : Token := ⟨.semicolon, ";", ⟨1, 20⟩⟩
    let last : Token := .endAt ⟨1, 21⟩
    let e : ParseError := ⟨.missingTerminal .semicolon, ⟨1, 20⟩⟩
    parse (front ++ [bad, last]) = .error e ∧ e.cause.found? ≠ none ∧
      (∀ more, parse (front ++ bad :: more) = .error e) ∧
      ∃ more p, parse (front ++ more ++ [last]) = .ok p := by
  intro front bad last e
  have hparse : parse (front ++ [bad, last]) = .error e := by cbv
  have hfound : e.cause.found? ≠ none := Option.some_ne_none _
  refine ⟨hparse, hfound, ?_⟩
  obtain ⟨i, t, hraised, -, -, -, hagain, hbegins⟩ :=
    parse_first_bad_token (front ++ [bad, last]) (front ++ [bad]) last e (by simp) rfl hparse hfound
  have hnine : RaisedAt (front ++ [bad, last]) e 9 := by cbv
  obtain rfl : i = 9 := by
    rw [RaisedAt, hnine] at hraised
    exact congrArg (fun e : ParseError => e.position.line) (Except.error.inj hraised).symm
  refine ⟨fun more => (hagain more).2, hbegins.mpr ?_⟩
  rintro ⟨before, target, eq, after, e, hsplit, heq, -⟩
  have hnone : ∀ t ∈ front, t.kind ≠ .equal := by decide
  have hfront : significant ((front ++ [bad, last]).take 9) = front := rfl
  exact hnone eq (hfront ▸ hsplit ▸ by simp) heq

end GradualScript
