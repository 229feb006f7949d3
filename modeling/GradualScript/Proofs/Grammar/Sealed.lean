import Mathlib.Logic.Function.Iterate
import GradualScript.Proofs.Grammar.Exact
import GradualScript.Proofs.Scanning.Lexemes
import GradualScript.Session

/-!
# Comments and the end of a token list

A list of tokens is sealed when its comments are left out and it stops at its first
end-of-file token; a list without one gets one at the place of its last token. A
reader that goes from token to token, steps over comments and stays at the end meets
the same tokens in the list and in its sealed form, and they are those of the stream.
So both are parsed alike, and the comments of a text do not count.
-/
namespace GradualScript

open Grammar

/-- The tokens through the first end-of-file token. Where there is none, one follows
the last token and stands at `stop`. -/
def closedAt (stop : Position) : List Token → List Token
  | [] => [.endAt stop]
  | t :: ts => if t.kind = .endOfFile then [t] else t :: closedAt stop ts

/-- The list without comments, through one end-of-file token. -/
def sealed (tokens : List Token) : List Token :=
  closedAt (lastPosition tokens) (tokens.filter (·.kind ≠ .comment))

variable {stop : Position} {t last : Token} {ts body : List Token}

theorem endOf_append (hbody : ∀ t ∈ body, t.kind ≠ .endOfFile) (hlast : last.kind = .endOfFile) :
    endOf stop (body ++ [last]) = last := by
  have hnone : body.find? (·.kind = .endOfFile) = none := by simpa using hbody
  simp [endOf, List.find?_append, hnone, hlast]

theorem closedAt_eq (stop : Position) (ts : List Token) :
    closedAt stop ts = ts.takeWhile (·.kind ≠ .endOfFile) ++ [endOf stop ts] := by
  induction ts with
  | nil => rfl
  | cons t ts ih =>
    by_cases hend : t.kind = .endOfFile
    · simp [closedAt, endOf, hend]
    · simp [closedAt, endOf, hend, ih]

/-- A comment is no end, so it does not matter whether comments are left out before
the list is cut or after. -/
theorem sealed_eq (tokens : List Token) :
    sealed tokens = significant tokens ++ [endOf (lastPosition tokens) tokens] := by
  have hvisible : (tokens.filter (·.kind ≠ .comment)).takeWhile (·.kind ≠ .endOfFile) =
      significant tokens := by
    rw [significant, List.takeWhile_filter]
    congr 2
    funext t
    cases t.kind <;> decide
  have hend : (tokens.filter (·.kind ≠ .comment)).find? (·.kind = .endOfFile) =
      tokens.find? (·.kind = .endOfFile) := by
    rw [List.find?_filter]
    congr 1
    funext t
    cases t.kind <;> decide
  rw [sealed, closedAt_eq, hvisible, endOf, endOf, hend]

theorem significant_kinds (h : t ∈ significant ts) : t.kind ≠ .endOfFile ∧ t.kind ≠ .comment :=
  ⟨ne_endOfFile_of_mem_significant h, of_decide_eq_true (List.mem_filter.mp h).2⟩

/-- The stream of a list that has its one end at the end. -/
theorem Stream.ofTokens_closed (hbody : ∀ t ∈ body, t.kind ≠ .endOfFile)
    (hlast : last.kind = .endOfFile) :
    Stream.ofTokens (body ++ [last]) = ⟨body.filter (·.kind ≠ .comment), last.position⟩ := by
  rw [ofTokens_eq, significant_closed hbody hlast, endOf_append hbody hlast]

theorem Stream.ofTokens_sealed (tokens : List Token) :
    Stream.ofTokens (sealed tokens) = Stream.ofTokens tokens := by
  rw [sealed_eq, ofTokens_closed (fun t ht => (significant_kinds ht).1) (endOf_kind _ _),
    ofTokens_eq]
  congr 1
  exact List.filter_eq_self.mpr fun t ht => decide_eq_true (significant_kinds ht).2

theorem significant_sealed (tokens : List Token) :
    significant (sealed tokens) = significant tokens :=
  congrArg Stream.tokens (Stream.ofTokens_sealed tokens)

theorem endOf_sealed (stop : Position) (tokens : List Token) :
    endOf stop (sealed tokens) = endOf (lastPosition tokens) tokens := by
  rw [sealed_eq, endOf_append (fun t ht => (significant_kinds ht).1) (endOf_kind _ _)]

namespace Cursor

/-- After `n` moves the token of that number among those the grammar sees is shown,
and the end after all of them. -/
theorem current_moves (n : Nat) (c : Cursor) :
    (move^[n] c).current = (significant c.ahead)[n]?.getD (endOf c.stop c.ahead) := by
  induction n generalizing c with
  | zero =>
    by_cases hend : c.current.kind = .endOfFile
    · obtain ⟨hnone, hcurrent⟩ := current_of_end hend
      simpa [hnone] using hcurrent
    · simp [(current_of_ne hend).1]
  | succ n ih =>
    rw [Function.iterate_succ_apply, ih]
    by_cases hend : c.current.kind = .endOfFile
    · obtain ⟨hnone, -⟩ := current_of_end hend
      simp [move, if_pos hend, hnone]
    · obtain ⟨htokens, hstop⟩ := current_of_ne hend
      rw [htokens, hstop, List.getElem?_cons_succ]

theorem current_start (n : Nat) (tokens : List Token) :
    (move^[n] (start tokens)).current =
      (significant tokens)[n]?.getD (endOf (lastPosition tokens) tokens) := by
  rw [start, current_moves, significant_settle, endOf_settle]
  rfl

end Cursor

theorem Stream.current_next (n : Nat) (s : Stream) :
    (Stream.next^[n] s).current = s.tokens[n]?.getD (.endAt s.stop) := by
  induction n generalizing s with
  | zero => rw [Function.iterate_zero, id, current, List.head?_eq_getElem?]
  | succ n ih => rw [Function.iterate_succ_apply, ih, next, List.getElem?_tail]

/-- The token as the grammar reads it: an end has a place and no text. -/
def Token.asRead (t : Token) : Token := if t.kind = .endOfFile then .endAt t.position else t

/-- The program of a text whose comments are left among its tokens. -/
def readWithComments (source : String) : Except Error Program :=
  match scanWithComments source with
  | .error e => .error (.scan e)
  | .ok tokens => (parse tokens).mapError .parse

theorem readWithComments_eq (source : String) : readWithComments source = readProgram source := by
  unfold readWithComments readProgram scan
  cases hscan : scanWithComments source with
  | error e => rfl
  | ok all =>
    obtain ⟨body, stop, rfl, hbody⟩ := Scanner.tokensFrom_eq_ok hscan
    have hends : ∀ t ∈ body, t.kind ≠ .endOfFile := fun t ht => (hbody t ht).2
    have hfilter : (body ++ [Token.endAt stop]).filter (·.kind ≠ .comment) =
        body.filter (·.kind ≠ .comment) ++ [.endAt stop] := by simp [Token.endAt]
    have hstream : Stream.ofTokens (body ++ [.endAt stop]) =
        Stream.ofTokens (body.filter (·.kind ≠ .comment) ++ [.endAt stop]) := by
      rw [Stream.ofTokens_closed hends rfl,
        Stream.ofTokens_closed (fun t ht => hends t (List.mem_filter.mp ht).1) rfl,
        List.filter_filter]
      simp only [Bool.and_self]
    simp only [List.reverse_nil, List.nil_append, Except.map, hfilter, parse_congr hstream]

/-- Comments and the end mark are transparent. A list of tokens, whatever it holds, is
parsed to the same tree or the same error as its sealed form and as its stream. At each
move the cursor of the list meets the token that the cursor of the sealed form meets,
which is that of the stream, and on going on it hands out a token at this place: the token
itself unless it is the end. A text is read alike with its comments and without them. -/
theorem parse_sealed :
    (∀ tokens, parse (sealed tokens) = parse tokens ∧
      (Stream.ofTokens tokens).parse = parse tokens ∧
      ∀ n, (Cursor.move^[n] (.start (sealed tokens))).current =
          (Cursor.move^[n] (.start tokens)).current ∧
        (Stream.next^[n] (.ofTokens tokens)).current =
          (Cursor.move^[n] (.start tokens)).current.asRead ∧
        (Cursor.move^[n] (.start tokens)).taken.position =
          (Cursor.move^[n] (.start tokens)).current.position ∧
        ((Cursor.move^[n] (.start tokens)).current.kind ≠ .endOfFile →
          (Cursor.move^[n] (.start tokens)).taken =
            (Cursor.move^[n] (.start tokens)).current)) ∧
    ∀ source, readWithComments source = readProgram source := by
  refine ⟨fun tokens => ⟨parse_congr (Stream.ofTokens_sealed tokens), (parse_eq tokens).symm,
    fun n => ⟨?_, ?_, Cursor.position_taken _, Cursor.taken_eq_current⟩⟩, readWithComments_eq⟩
  · rw [Cursor.current_start, Cursor.current_start, significant_sealed, endOf_sealed]
  · rw [Cursor.current_start, Stream.current_next, Stream.ofTokens_eq]
    cases htoken : (significant tokens)[n]? with
    | none => exact (if_pos (endOf_kind _ _)).symm
    | some t =>
      exact (if_neg (significant_kinds (List.mem_of_getElem? htoken)).1).symm

end GradualScript
