import Phrase.CodePoint

/-!
# Faults

Operations with a condition on their arguments answer with a fault when it does not hold.
A fault names the condition; a caller that keeps the conditions never sees one.
-/

namespace Phrase

/-- A broken condition of an operation. -/
inductive Fault where
  /-- A code point above `7F` was to be encoded in ASCII. -/
  | notAscii (value : Nat)
  /-- A number that is no scalar value was to be encoded. -/
  | notScalar (value : Nat)
  /-- Recovery was asked for after a successful decoding. -/
  | recoverAfterSuccess
  /-- The cursor stood at its end. -/
  | bumpPastEnd
  /-- The cursor was to be moved behind its end. -/
  | positionPastEnd (position stop : Nat)
  /-- A partial cursor was to end outside of `position..limit`. -/
  | partialOutside (stop position limit : Nat)
  /-- The tree has no node with this number. -/
  | nodeOutside (id : Nat)
  /-- An index or a range reached outside of a sequence. -/
  | outOfBounds
  /-- A production was closed that is not the innermost open one. -/
  | markerOutOfOrder (node current : Nat)
  /-- A tree was finished inside of this production. -/
  | unfinishedProductions (current : Nat)
  /-- More productions were closed than were started. -/
  | depthUnderflow
  deriving DecidableEq, Repr

/-- The wording of a fault. -/
def Fault.message : Fault → String
  | .notAscii v => CodePoint.text v ++ " is not ASCII"
  | .notScalar v => CodePoint.text v ++ " is not a scalar value"
  | .recoverAfterSuccess => "recover_code_point called on a decoded code point"
  | .bumpPastEnd => "bump past the end of the input"
  | .positionPastEnd p e => s!"position {p} past the end {e}"
  | .partialOutside x p e => s!"partial reader end {x} outside {p}..{e}"
  | .nodeOutside n => s!"node {n} outside the tree"
  | .outOfBounds => "out of bounds"
  | .markerOutOfOrder _ _ => "productions closed out of order"
  | .unfinishedProductions _ => "unfinished productions"
  | .depthUnderflow => "attempt to subtract with overflow"

end Phrase
