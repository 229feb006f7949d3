import GradualScript.Proofs.Position.Offsets

/-!
# Cursors agree with their table

A cursor stands between two characters of the text and has counted the lines and columns of
what is before it. It moves where it counts on, and asks the table where it cannot. So it
answers every request as the table does, whatever was asked before.
-/
namespace GradualScript.LineCursor

open Text

variable {source : String} {before skipped : List Char}

/-- The cursor that has counted all of the text `before`. -/
def after (before : List Char) : LineCursor :=
  ⟨byteLength before, before.count '\n', (lastLine before).length⟩

/-- The answers of a cursor to requests that are made one after the other. -/
def positions (table : LineTable) (cursor : LineCursor) : List Nat → List Position
  | [] => []
  | offset :: offsets =>
      let answer := cursor.position table offset
      answer.1 :: answer.2.positions table offsets

/-- Counting on over more characters counts them all. -/
theorem moved_after (before skipped : List Char) :
    (after before).moved (byteLength (before ++ skipped)) skipped = after (before ++ skipped) := by
  simp only [moved, after, List.count_append, lastLine_append, mk.injEq, true_and]
  split
  · rfl
  · rw [List.length_append]

/-- Offsets past the end count as the end. -/
theorem position_min (table : LineTable) (offset : Nat) :
    table.position (min offset table.size) = table.position offset := by
  simp only [LineTable.position, Nat.min_assoc, Nat.min_self]

/-- One request: the cursor answers as the table does, and stands between two characters
again. -/
theorem position_after (hbefore : before <+: source.toList) (offset : Nat) :
    ∃ reached, reached <+: source.toList ∧
      (after before).position (.build source) offset =
        ((LineTable.build source).position offset, after reached) := by
  rw [position]
  dsimp only
  split
  · next skipped hslice =>
    obtain ⟨start, hstart, hreached⟩ := sliceBytes_eq_some_iff.mp hslice
    obtain rfl : start = before := hstart.unique ⟨hbefore, rfl⟩
    have htable := LineTable.position_of_reaches hreached
    rw [position_min] at htable
    refine ⟨start ++ skipped, hreached.1, ?_⟩
    rw [← hreached.2, moved_after, htable]
    rfl
  · exact ⟨before, hbefore, by rw [position_min]⟩

theorem positions_after (hbefore : before <+: source.toList) (offsets : List Nat) :
    (after before).positions (.build source) offsets =
      offsets.map (LineTable.build source).position := by
  induction offsets generalizing before with
  | nil => rfl
  | cons offset offsets ih =>
    obtain ⟨reached, hreached, hanswer⟩ := position_after hbefore offset
    rw [positions, hanswer, List.map_cons, ih hreached]

/-- For every text and every sequence of offsets, in whatever order, past the end or inside a
character, a cursor from the start answers each request as the table does. -/
theorem positions_eq_table (source : String) (offsets : List Nat) :
    start.positions (.build source) offsets = offsets.map (LineTable.build source).position := by
  have hstart : [] <+: source.toList := List.nil_prefix
  exact positions_after hstart offsets

end GradualScript.LineCursor
