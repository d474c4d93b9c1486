import Phrase.Cursor

/-!
# Lines and columns

A line ends behind a line feed; a carriage return directly in front of a line feed belongs
to the line break, and elsewhere it is an ordinary unit.  Lines and columns count from one.
A column counts units, or code points; malformed units then count once for each chunk that
recovery skips.
-/

namespace Phrase

/-- What a column counts. -/
inductive Counting where
  | units
  | codePoints
  deriving DecidableEq, Repr

/-- A place in a source as people count it. -/
structure Location where
  line : Nat
  column : Nat
  /-- Where the line starts. -/
  lineBegin : Nat
  position : Nat
  deriving DecidableEq, Repr

/-- A location as it is written: `line:column`. -/
def Location.text (l : Location) : String := s!"{l.line}:{l.column}"

/-! ## Algorithm -/

/-- The unit of a line feed, in every encoding. -/
def lineFeed : Nat := 10

/-- The unit of a carriage return, in every encoding. -/
def carriageReturn : Nat := 13

/-- Where the lines behind the line feeds of `units` start, if `units` starts at `index`. -/
def lineStartsFrom (index : Nat) : List Nat → List Nat
  | [] => []
  | u :: us =>
    if u = lineFeed then (index + 1) :: lineStartsFrom (index + 1) us
    else lineStartsFrom (index + 1) us

/-- The starts of all lines of a source. -/
structure LineIndex where
  source : Source
  starts : List Nat

/-- Scans a source once. -/
def LineIndex.ofSource (s : Source) : LineIndex := ⟨s, 0 :: lineStartsFrom 0 s.units.toList⟩

/-- Passes over one chunk: a code point, or the malformed units skipped in its place, but at
least one unit. -/
def Cursor.pastChunk (c : Cursor) : Cursor :=
  { c with position := c.position + max 1 c.decode.extent }

/-- The number of chunks up to the end, as far as `fuel` chunks reach. -/
def Cursor.countChunks (c : Cursor) : Nat → Nat
  | 0 => 0
  | fuel + 1 => if c.position < c.stop then 1 + c.pastChunk.countChunks fuel else 0

namespace LineIndex

/-- The number of lines. -/
def lineCount (x : LineIndex) : Nat := x.starts.length

/-- Where the text of a line ends for a position on it: a position on the line feed of a
line break of two units belongs in front of its carriage return. -/
def inLine (x : LineIndex) (lineBegin position : Nat) : Nat :=
  if lineBegin < position ∧ x.source.units[position]? = some lineFeed ∧
      x.source.units[position - 1]? = some carriageReturn then position - 1
  else position

/-- The columns between the start of a line and a position on it. -/
def columns (x : LineIndex) (counting : Counting) (lineBegin position : Nat) : Nat :=
  let position := x.inLine lineBegin position
  match counting with
  | .units => position - lineBegin
  | .codePoints => (Cursor.mk x.source lineBegin position).countChunks (position - lineBegin)

/-- The location of a position; one behind the end counts as the end. -/
def location (x : LineIndex) (counting : Counting) (position : Nat) : Location :=
  let position := min position x.source.size
  let before := x.starts.takeWhile (· ≤ position)
  let lineBegin := before.getLastD 0
  { line := before.length
    column := x.columns counting lineBegin position + 1
    lineBegin
    position }

end LineIndex

end Phrase
