import Phrase.Encoding.Basic

/-!
# Decoding one code point

`Encoding.decode` reads one code point from the front of a list of units.  It never fails:
malformed units are classified by a status, together with the number of units the attempt
took.  `Decoding.extent` is how far a reader moves to get past what was found.

In UTF-8 a continuation byte cannot start a sequence, a sequence can be cut short, and a
complete one can be a surrogate, longer than needed, or out of range.  The bytes `F8` to
`FF` never start a sequence and count as the end of the input.
-/

namespace Phrase

/-- The outcome of a decoding attempt. -/
inductive DecodeStatus where
  | success
  | eof
  | leadsWithContinuation
  | missingContinuation
  | surrogate
  | overlong
  | outOfRange
  deriving DecidableEq, Repr

namespace DecodeStatus

/-- All statuses. -/
def all : List DecodeStatus :=
  [.success, .eof, .leadsWithContinuation, .missingContinuation, .surrogate, .overlong,
    .outOfRange]

/-- The status in words. -/
def name : DecodeStatus → String
  | .success => "success"
  | .eof => "end of input"
  | .leadsWithContinuation => "leads with continuation unit"
  | .missingContinuation => "missing continuation unit"
  | .surrogate => "surrogate"
  | .overlong => "overlong sequence"
  | .outOfRange => "out of range"

/-- The status in data. -/
def tag : DecodeStatus → String
  | .success => "success"
  | .eof => "eof"
  | .leadsWithContinuation => "leads_with_continuation"
  | .missingContinuation => "missing_continuation"
  | .surrogate => "surrogate"
  | .overlong => "overlong"
  | .outOfRange => "out_of_range"

/-- The status with this tag. -/
def ofTag? (t : String) : Option DecodeStatus := all.find? (·.tag == t)

/-- All but a success. -/
def isError (s : DecodeStatus) : Bool := s != .success

end DecodeStatus

/-- What a decoding attempt found: its status, the number that was assembled (zero when it
did not come that far), and how many units the attempt took. -/
structure Decoding where
  status : DecodeStatus
  value : Nat
  length : Nat
  deriving DecidableEq, Repr

namespace Decoding

/-- Nothing to decode. -/
def atEnd : Decoding := ⟨.eof, 0, 0⟩

/-- The units a reader passes over: the sequence, or what recovery skips.  A continuation
unit in front is skipped alone, and at the end there is nothing to skip. -/
def extent (d : Decoding) : Nat :=
  match d.status with
  | .eof => 0
  | .leadsWithContinuation => 1
  | _ => d.length

end Decoding

namespace Encoding

/-! ## Algorithm -/

/-- Bytes that continue a UTF-8 sequence. -/
abbrev IsContinuation (u : Nat) : Prop := 0x80 ≤ u ∧ u < 0xC0

/-- Units that start a UTF-16 pair. -/
abbrev IsHighSurrogate (u : Nat) : Prop := 0xD800 ≤ u ∧ u < 0xDC00

/-- Units that end a UTF-16 pair. -/
abbrev IsLowSurrogate (u : Nat) : Prop := 0xDC00 ≤ u ∧ u < 0xE000

/-- The status of a complete UTF-8 sequence of two to four bytes that starts with `lead` and
`second` and assembles to `value`. -/
def classifyUtf8 (lead second value : Nat) : DecodeStatus :=
  if lead < 0xE0 then
    if lead < 0xC2 then .overlong else .success
  else if lead < 0xF0 then
    if CodePoint.IsSurrogate value then .surrogate
    else if lead = 0xE0 ∧ second < 0xA0 then .overlong
    else .success
  else
    if 0x10FFFF < value then .outOfRange
    else if lead = 0xF0 ∧ second < 0x90 then .overlong
    else .success

/-- A sequence of `1 + count` bytes: `lead`, whose payload is `bits`, and continuation
bytes from the front of `rest`. -/
def decodeSequence (lead bits count : Nat) (rest : List Nat) : Decoding :=
  let tail := (rest.take count).takeWhile fun u => IsContinuation u
  if tail.length < count then ⟨.missingContinuation, 0, 1 + tail.length⟩
  else
    let value := tail.foldl (fun v u => v * 0x40 + (u - 0x80)) bits
    ⟨classifyUtf8 lead (tail.headD 0) value, value, 1 + count⟩

/-- Decodes UTF-8. -/
def decodeUtf8 : List Nat → Decoding
  | [] => .atEnd
  | b :: rest =>
    if b < 0x80 then ⟨.success, b, 1⟩
    else if b < 0xC0 then ⟨.leadsWithContinuation, 0, 0⟩
    else if b < 0xE0 then decodeSequence b (b - 0xC0) 1 rest
    else if b < 0xF0 then decodeSequence b (b - 0xE0) 2 rest
    else if b < 0xF8 then decodeSequence b (b - 0xF0) 3 rest
    else .atEnd

/-- Decodes UTF-16. -/
def decodeUtf16 : List Nat → Decoding
  | [] => .atEnd
  | u :: rest =>
    if IsHighSurrogate u then
      match rest with
      | w :: _ =>
        if IsLowSurrogate w then
          ⟨.success, 0x10000 + (u - 0xD800) * 0x400 + (w - 0xDC00), 2⟩
        else ⟨.missingContinuation, 0, 1⟩
      | [] => ⟨.missingContinuation, 0, 1⟩
    else if IsLowSurrogate u then ⟨.leadsWithContinuation, 0, 0⟩
    else ⟨.success, u, 1⟩

/-- Decodes UTF-32. -/
def decodeUtf32 : List Nat → Decoding
  | [] => .atEnd
  | u :: _ =>
    if 0x10FFFF < u then ⟨.outOfRange, u, 1⟩
    else if CodePoint.IsSurrogate u then ⟨.surrogate, u, 1⟩
    else ⟨.success, u, 1⟩

/-- Decodes ASCII. -/
def decodeAscii : List Nat → Decoding
  | [] => .atEnd
  | u :: _ => if CodePoint.IsAscii u then ⟨.success, u, 1⟩ else ⟨.outOfRange, u, 1⟩

/-- Decodes the code point at the front of a list of units. -/
def decode : Encoding → List Nat → Decoding
  | .ascii => decodeAscii
  | .utf8 => decodeUtf8
  | .utf16 => decodeUtf16
  | .utf32 => decodeUtf32

end Encoding

end Phrase
