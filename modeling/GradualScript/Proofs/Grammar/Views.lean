import GradualScript.Proofs.Grammar.Lookahead
import GradualScript.Proofs.Grammar.Mirrored
import GradualScript.Proofs.Grammar.Unspent

/-!
# Lists of tokens and their streams

A cursor that goes from token to token, steps over comments and stays at the end shows
what the stream of its list shows. So a list is parsed as its stream is. Tokens that are
moved have a moved stream, and are parsed to the moved tree.
-/
namespace GradualScript

open Grammar

/-- The place of the last token. -/
def lastPosition (tokens : List Token) : Position :=
  (tokens.getLast?.map Token.position).getD .start

/-- The first end-of-file token, or one that stands at `stop`. -/
def endOf (stop : Position) (tokens : List Token) : Token :=
  (tokens.find? (·.kind = .endOfFile)).getD (.endAt stop)

variable {stop : Position} {tokens : List Token}

theorem endOf_kind (stop : Position) (ts : List Token) : (endOf stop ts).kind = .endOfFile := by
  unfold endOf
  cases h : ts.find? (·.kind = .endOfFile) with
  | none => rfl
  | some t => simpa using List.find?_some h

/-- The grammar sees no end-of-file token: what is significant stands before the first. -/
theorem ne_endOfFile_of_mem_significant {tokens : List Token} {t : Token}
    (h : t ∈ significant tokens) : t.kind ≠ .endOfFile := by
  have hall := List.all_eq_true.mp (List.all_takeWhile (l := tokens)) t (List.mem_filter.mp h).1
  exact of_decide_eq_true hall

theorem Stream.ofTokens_eq (tokens : List Token) :
    Stream.ofTokens tokens =
      ⟨significant tokens, (endOf (lastPosition tokens) tokens).position⟩ := by
  rw [ofTokens, stopOf, endOf]
  cases tokens.find? (·.kind = .endOfFile) <;> rfl

/-- A stream that comes from tokens has no end in its midst. -/
theorem Stream.closed_ofTokens (tokens : List Token) : (Stream.ofTokens tokens).Closed :=
  fun _ => ne_endOfFile_of_mem_significant

namespace Cursor

variable {c : Cursor}

/-- The grammar sees the same tokens before and after comments are skipped. -/
theorem significant_settle (ahead : List Token) (last? : Option Token) :
    significant (settle ahead last?).ahead = significant ahead := by
  induction ahead with
  | nil => rfl
  | cons t ts ih =>
    by_cases hcomment : t.kind = .comment
    · simpa [settle, significant, hcomment] using ih
    · simp [settle, hcomment]

theorem endOf_settle (ahead : List Token) (last? : Option Token) :
    endOf stop (settle ahead last?).ahead = endOf stop ahead := by
  induction ahead with
  | nil => rfl
  | cons t ts ih =>
    by_cases hcomment : t.kind = .comment
    · simpa [settle, endOf, hcomment] using ih
    · simp [settle, hcomment]

/-- The end is shown where nothing is left for the grammar. -/
theorem current_of_end (h : c.current.kind = .endOfFile) :
    significant c.ahead = [] ∧ c.current = endOf c.stop c.ahead := by
  obtain ⟨_ | ⟨t, ts⟩, last?, settled⟩ := c
  · exact ⟨rfl, rfl⟩
  · have hend : t.kind = .endOfFile := h
    simp [significant, endOf, current, hend]

/-- A token other than the end is the first significant one, and taking it leaves the rest. -/
theorem current_of_ne (h : c.current.kind ≠ .endOfFile) :
    significant c.ahead = c.current :: significant c.move.ahead ∧
      endOf c.stop c.ahead = endOf c.move.stop c.move.ahead := by
  obtain ⟨_ | ⟨t, ts⟩, last?, settled⟩ := c
  · exact absurd rfl h
  · have hend : t.kind ≠ .endOfFile := h
    have hcomment : t.kind ≠ .comment := settled t rfl
    rw [move, if_neg h, significant_settle, endOf_settle]
    simp [significant, endOf, current, settle, stop, hend, hcomment]

/-- What is left of the list, as a stream. -/
def stream (c : Cursor) : Stream := ⟨significant c.ahead, (endOf c.stop c.ahead).position⟩

theorem stream_start (tokens : List Token) : (start tokens).stream = .ofTokens tokens := by
  rw [stream, start, significant_settle, endOf_settle, Stream.ofTokens_eq]
  rfl

theorem seenAs_current (c : Cursor) : c.current.SeenAs id c.stream.current := by
  by_cases hend : c.current.kind = .endOfFile
  · obtain ⟨hnone, hcurrent⟩ := current_of_end hend
    rw [hcurrent, stream, Stream.current, hnone]
    exact ⟨(endOf_kind _ _).symm, rfl, fun hne => absurd (endOf_kind _ _) hne⟩
  · rw [stream, Stream.current, (current_of_ne hend).1]
    exact ⟨rfl, rfl, fun _ => rfl⟩

/-- To take a token and then look is to look and then take one. -/
theorem next_stream (c : Cursor) : c.stream.next = c.move.stream := by
  by_cases hend : c.current.kind = .endOfFile
  · rw [move, if_pos hend, stream, Stream.next, (current_of_end hend).1]
    rfl
  · obtain ⟨htokens, hstop⟩ := current_of_ne hend
    rw [stream, Stream.next, htokens, hstop]
    rfl

/-- A cursor is seen as a stream that has no comments, and of the end only its place. -/
def view : View id Cursor Stream := ⟨stream, seenAs_current, next_stream⟩

end Cursor

namespace Parser

/-- A verdict that is reached with any number of steps is reached with the budget. -/
theorem program_budget {n : Nat} {s : Stream} (hs : s.Closed) (hne : program n s ≠ .spent) :
    program s.budget s = program n s := by
  rcases Nat.le_total n s.budget with hle | hle
  · exact (repeats_program hle s hs).eq hs hne
  · exact ((repeats_program hle s hs).eq hs (program_ne_spent (Nat.le_refl _))).symm

/-- The trees of the parser carry no types: sent where they are, they stay as they are. -/
theorem movedAll_of_program {σ : Type} [Feed σ] {n : Nat} {s rest : σ} {p : Program}
    (h : program n s = .done p rest) : Stmt.movedAll id p = p := by
  have hsame := mirrors_program (View.refl σ) n s
  change program n s = (program n s).moved id id (Stmt.movedAll id) at hsame
  rw [h, Reply.moved, Reply.done.injEq] at hsame
  exact hsame.1.symm

end Parser

/-- A list of tokens is parsed as its stream is. -/
theorem parse_eq (tokens : List Token) : parse tokens = (Stream.ofTokens tokens).parse := by
  have hbudget : (Stream.ofTokens tokens).budget ≤ Parser.budget tokens := by
    have hlength := Stream.length_ofTokens_le tokens
    rw [Stream.budget, Parser.budget]
    omega
  have hne := Parser.program_ne_spent hbudget
  have hseen := Parser.mirrors_program Cursor.view (Parser.budget tokens) (Cursor.start tokens)
  rw [show Cursor.view.state = Cursor.stream from rfl, Cursor.stream_start] at hseen
  unfold parse Stream.parse
  dsimp only
  rw [Parser.program_budget (Stream.closed_ofTokens tokens) hne, hseen]
  rw [hseen] at hne
  cases hreply : Parser.program (Parser.budget tokens) (Cursor.start tokens) with
  | done p rest =>
    change Except.ok p = Except.ok (Stmt.movedAll id p)
    rw [Parser.movedAll_of_program hreply]
  | failed e => rfl
  | spent =>
    rw [hreply] at hne
    exact absurd rfl hne

/-- The parser reads a list through its stream. -/
theorem parse_congr {tokens tokens' : List Token}
    (h : Stream.ofTokens tokens = Stream.ofTokens tokens') : parse tokens = parse tokens' := by
  rw [parse_eq, parse_eq, h]

theorem parse_eq_ok_iff {p : Program} :
    parse tokens = .ok p ↔ ∃ rest, Parser.program (Stream.ofTokens tokens).budget
      (Stream.ofTokens tokens) = .done p rest := by
  rw [parse_eq, Stream.parse_eq_ok_iff]

theorem parse_eq_error_iff {e : ParseError} :
    parse tokens = .error e ↔
      Parser.program (Stream.ofTokens tokens).budget (Stream.ofTokens tokens) = .failed e := by
  rw [parse_eq, Stream.parse_eq_error_iff]

/-- The stream with every position replaced, also that of its end. -/
def Stream.moved (g : Position → Position) (s : Stream) : Stream :=
  ⟨s.tokens.map (Token.moved g), g s.stop⟩

/-- A stream is seen as a moved one. -/
def Stream.movedView (g : Position → Position) : View g Stream Stream where
  state := Stream.moved g
  current s := by
    obtain ⟨ts, stop⟩ := s
    cases ts with
    | nil => exact ⟨rfl, rfl, fun _ => rfl⟩
    | cons t ts => exact ⟨rfl, rfl, fun _ => rfl⟩
  next s := by
    obtain ⟨ts, stop⟩ := s
    cases ts with
    | nil => rfl
    | cons t ts => rfl

/-- The parser asks no position, so positions can be changed before it or after it. -/
theorem Stream.parse_moved (g : Position → Position) (s : Stream) :
    (s.moved g).parse = (s.parse.mapError (Located.moved g)).map (Stmt.movedAll g) := by
  have hbudget : (s.moved g).budget = s.budget := by simp [budget, moved]
  have hseen : Parser.program s.budget (s.moved g) = _ :=
    Parser.mirrors_program (movedView g) s.budget s
  rw [parse, hbudget, hseen, parse]
  cases Parser.program s.budget s with
  | _ => rfl

theorem significant_moved (g : Position → Position) (tokens : List Token) :
    Grammar.significant (tokens.map (Token.moved g)) =
      (Grammar.significant tokens).map (Token.moved g) := by
  unfold Grammar.significant
  rw [List.takeWhile_map, List.filter_map]
  rfl

theorem Stream.ofTokens_moved (g : Position → Position) (h : tokens ≠ []) :
    Stream.ofTokens (tokens.map (Token.moved g)) = (Stream.ofTokens tokens).moved g := by
  have hend : (endOf (lastPosition (tokens.map (Token.moved g)))
      (tokens.map (Token.moved g))).position = g (endOf (lastPosition tokens) tokens).position := by
    have hlast : lastPosition (tokens.map (Token.moved g)) = g (lastPosition tokens) := by
      rw [lastPosition, List.getLast?_map, lastPosition, List.getLast?_eq_some_getLast h]
      rfl
    have hfind : (tokens.map (Token.moved g)).find? (·.kind = .endOfFile) =
        (tokens.find? (·.kind = .endOfFile)).map (Token.moved g) := List.find?_map ..
    rw [endOf, endOf, hfind, hlast]
    cases tokens.find? (·.kind = .endOfFile) <;> rfl
  rw [ofTokens_eq, ofTokens_eq, significant_moved, hend]
  rfl

/-- Moved tokens are parsed like the tokens, up to the move. -/
theorem parse_moved (g : Position → Position) (h : tokens ≠ []) :
    parse (tokens.map (Token.moved g)) =
      ((parse tokens).mapError (Located.moved g)).map (Stmt.movedAll g) := by
  rw [parse_eq, parse_eq, Stream.ofTokens_moved g h, Stream.parse_moved]

theorem parse_moved_ok {p : Program} (g : Position → Position) (hne : tokens ≠ [])
    (h : parse tokens = .ok p) : parse (tokens.map (Token.moved g)) = .ok (Stmt.movedAll g p) := by
  rw [parse_moved g hne, h]
  rfl

theorem parse_moved_error {e : ParseError} (g : Position → Position) (hne : tokens ≠ [])
    (h : parse tokens = .error e) : parse (tokens.map (Token.moved g)) = .error (e.moved g) := by
  rw [parse_moved g hne, h]
  rfl

/-- An error stands at one of the tokens: no other place can be told from the tokens. -/
theorem exists_token_of_error {e : ParseError} (hne : tokens ≠ []) (h : parse tokens = .error e) :
    ∃ t ∈ tokens, t.position = e.position := by
  refine Classical.byContradiction fun hnone => ?_
  let g : Position → Position := fun p =>
    if p = e.position then ⟨e.position.line + 1, e.position.column⟩ else p
  have hstay : tokens.map (Token.moved g) = tokens := by
    refine (List.map_congr_left fun t ht => ?_).trans (List.map_id tokens)
    rw [Token.moved, show g t.position = t.position from if_neg fun heq => hnone ⟨t, ht, heq⟩]
    rfl
  have hmoved := parse_moved_error g hne h
  rw [hstay, h, Except.error.injEq] at hmoved
  have hposition : e.position = ⟨e.position.line + 1, e.position.column⟩ :=
    (congrArg Located.position hmoved).trans (if_pos rfl)
  exact Nat.succ_ne_self _ (congrArg Position.line hposition).symm

end GradualScript
