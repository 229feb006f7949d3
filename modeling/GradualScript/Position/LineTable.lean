import GradualScript.Position

/-!
# Byte offsets and positions

A line table answers which position a byte offset of one text has, by a binary
search over the offsets at which lines start. A line cursor answers the same for
offsets that mostly grow: it counts only the characters since its last answer.
Bytes are those of the text's UTF-8 form.
-/
namespace GradualScript

namespace Text

/-- The number of bytes of a text. -/
def byteLength : List Char → Nat
  | [] => 0
  | c :: rest => c.utf8Size + byteLength rest

/-- The text after its first `n` bytes; nothing if they end inside a character
or run past the end. -/
def dropBytes : List Char → Nat → Option (List Char)
  | text, 0 => some text
  | [], _ + 1 => none
  | c :: rest, n + 1 => if c.utf8Size ≤ n + 1 then dropBytes rest (n + 1 - c.utf8Size) else none

/-- The first `n` bytes of a text; nothing if they end inside a character or run
past the end. -/
def takeBytes : List Char → Nat → Option (List Char)
  | _, 0 => some []
  | [], _ + 1 => none
  | c :: rest, n + 1 =>
      if c.utf8Size ≤ n + 1 then (takeBytes rest (n + 1 - c.utf8Size)).map (c :: ·) else none

/-- The characters between two byte offsets; nothing if one of them falls inside
a character or they are out of order. -/
def sliceBytes (text : List Char) (first last : Nat) : Option (List Char) :=
  if first ≤ last then (dropBytes text first).bind (takeBytes · (last - first)) else none

/-- The characters after the last newline. -/
def lastLine (text : List Char) : List Char := (text.reverse.takeWhile (· ≠ '\n')).reverse

end Text

/-- The offsets at which the lines of one text start, in ascending order. -/
structure LineTable where
  text : List Char
  size : Nat
  starts : Array Nat

namespace LineTable

/-- The offsets just after each newline, for a text that itself starts at `offset`. -/
def startsFrom (offset : Nat) : List Char → List Nat
  | [] => []
  | c :: rest =>
      let next := offset + c.utf8Size
      if c = '\n' then next :: startsFrom next rest else startsFrom next rest

def build (source : String) : LineTable :=
  let text := source.toList
  ⟨text, Text.byteLength text, (0 :: startsFrom 0 text).toArray⟩

/-- The last index from `low` on and below `high` whose entry is at most `target`,
given that the entry at `low` is. -/
def lastAtMost (entries : Array Nat) (target low high : Nat) : Nat :=
  if low + 1 < high then
    let middle := (low + high) / 2
    if entries.getD middle 0 ≤ target then lastAtMost entries target middle high
    else lastAtMost entries target low middle
  else low
termination_by high - low

/-- The position of a byte offset. An offset past the end counts as the end. An
offset inside a character has column one on its line. -/
def position (table : LineTable) (offset : Nat) : Position :=
  let offset := min offset table.size
  let line := lastAtMost table.starts offset 0 table.starts.size
  let columns := match Text.sliceBytes table.text (table.starts.getD line 0) offset with
    | some before => before.length
    | none => 0
  .ofCounts line columns

end LineTable

/-- A place in a text that was reached by counting: its byte offset, the newlines
before it, and the characters before it on its own line. -/
structure LineCursor where
  offset : Nat
  lines : Nat
  columns : Nat

namespace LineCursor

def start : LineCursor := ⟨0, 0, 0⟩

/-- The cursor after the characters `skipped`, which end at `offset`. -/
def moved (cursor : LineCursor) (offset : Nat) (skipped : List Char) : LineCursor where
  offset := offset
  lines := cursor.lines + skipped.count '\n'
  columns :=
    if '\n' ∈ skipped then (Text.lastLine skipped).length else cursor.columns + skipped.length

/-- The position of a byte offset and the cursor afterwards. An offset behind the
cursor, or inside a character, is looked up in the table and moves nothing. -/
def position (cursor : LineCursor) (table : LineTable) (offset : Nat) : Position × LineCursor :=
  let offset := min offset table.size
  match Text.sliceBytes table.text cursor.offset offset with
  | some skipped =>
      let next := cursor.moved offset skipped
      (.ofCounts next.lines next.columns, next)
  | none => (table.position offset, cursor)

end LineCursor

end GradualScript
