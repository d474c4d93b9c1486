import Phrase.Encoding.Decoding
import Phrase.Source

/-!
# Cursors

A cursor stands at a position of a source and reads up to its end.  Looking ahead does not
move it.  The operations that move it check that it does not pass its end.
-/

namespace Phrase

/-- A place in a source, and where reading ends. -/
structure Cursor where
  source : Source
  position : Nat
  stop : Nat

namespace Cursor

/-- The cursor at the start of a source. -/
def ofSource (s : Source) : Cursor := ⟨s, 0, s.size⟩

/-! ## Looking -/

/-- The unit `offset` places after the position. -/
def peekAt (c : Cursor) (offset : Nat) : Option Nat :=
  if c.position + offset < c.stop then c.source.units[c.position + offset]? else none

/-- The unit at the position. -/
def peek (c : Cursor) : Option Nat := c.peekAt 0

/-- Whether nothing is left. -/
def isAtEnd (c : Cursor) : Bool := c.stop ≤ c.position

/-- At most `n` of the units that are left. -/
def ahead (c : Cursor) (n : Nat) : List Nat :=
  (c.source.units.extract c.position (min c.stop (c.position + n))).toList

/-- All units that are left. -/
def remaining (c : Cursor) : Except Fault (List Nat) := c.source.slice ⟨c.position, c.stop⟩

/-- Decodes at the position. -/
def decode (c : Cursor) : Decoding := c.source.encoding.decode (c.ahead c.source.encoding.maxUnits)

/-! ## Moving -/

/-- Passes over one unit. -/
def bump (c : Cursor) : Except Fault Cursor :=
  if c.position < c.stop then .ok { c with position := c.position + 1 } else .error .bumpPastEnd

/-- Moves to a position. -/
def moveTo (c : Cursor) (position : Nat) : Except Fault Cursor :=
  if position ≤ c.stop then .ok { c with position } else .error (.positionPastEnd position c.stop)

/-- The cursor at the same position that reads up to `stop` only. -/
def partialTo (c : Cursor) (stop : Nat) : Except Fault Cursor :=
  if c.position ≤ stop ∧ stop ≤ c.stop then .ok { c with stop }
  else .error (.partialOutside stop c.position c.stop)

/-- Skips the malformed units that a decoding at the position has found. -/
def recover (c : Cursor) (d : Decoding) : Except Fault Cursor :=
  match d.status with
  | .success => .error .recoverAfterSuccess
  | .eof => .ok c
  | .leadsWithContinuation => c.bump
  | _ => c.moveTo (c.position + d.length)

/-- Passes over a code point, or over the malformed units in its place. -/
def skip (c : Cursor) (d : Decoding) : Except Fault Cursor :=
  if d.status = .success then c.moveTo (c.position + d.length) else c.recover d

end Cursor

/-! ## Decoding a whole input -/

/-- Decodes again and again: what was found at each step, and the position after it.  The
last step is the first one that finds the end. -/
def Cursor.decodeSteps : Nat → Cursor → Except Fault (List (Decoding × Nat))
  | 0, _ => .ok []
  | n + 1, c => do
    let d := c.decode
    let next ← c.skip d
    let rest ← if d.status = .eof then pure [] else next.decodeSteps n
    return (d, next.position) :: rest

/-- The decoding steps from the position to the end. -/
def Cursor.decodeAll (c : Cursor) : Except Fault (List (Decoding × Nat)) :=
  c.decodeSteps (c.stop - c.position + 1)

end Phrase
