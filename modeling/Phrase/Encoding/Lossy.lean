import Phrase.Encoding.Basic

/-!
# Showing units as text

Any units can be shown: what is not well formed becomes the replacement character `U+FFFD`.
In UTF-8 one replacement stands for each longest start of a well-formed sequence that is
not continued, or else for one byte; in the other encodings one stands for each unit.
-/

namespace Phrase.Encoding

/-! ## Algorithm -/

/-- Stands for malformed units. -/
def replacement : Char := Char.ofNat 0xFFFD

/-- The bytes that may follow a lead byte of UTF-8 so that the sequence is the shortest one
and no surrogate, with the number of bytes the lead announces behind itself. -/
def secondByte? (lead : Nat) : Option (Nat × Nat × Nat) :=
  if lead < 0xC2 then none
  else if lead < 0xE0 then some (0x80, 0xBF, 1)
  else if lead = 0xE0 then some (0xA0, 0xBF, 2)
  else if lead = 0xED then some (0x80, 0x9F, 2)
  else if lead < 0xF0 then some (0x80, 0xBF, 2)
  else if lead = 0xF0 then some (0x90, 0xBF, 3)
  else if lead < 0xF4 then some (0x80, 0xBF, 3)
  else if lead = 0xF4 then some (0x80, 0x8F, 3)
  else none

/-- What the bytes starting with `lead` show as, and how many bytes of `rest` go with it. -/
def showUtf8 (lead : Nat) (rest : List Nat) : Char × Nat :=
  if lead < 0x80 then (Char.ofNat lead, 0)
  else
    match secondByte? lead, rest with
    | some (low, high, count), second :: more =>
      if low ≤ second ∧ second ≤ high then
        let tail := second :: (more.take (count - 1)).takeWhile fun u => 0x80 ≤ u ∧ u ≤ 0xBF
        if tail.length < count then (replacement, tail.length)
        else
          let bits := lead % (if count = 1 then 0x20 else if count = 2 then 0x10 else 0x08)
          (Char.ofNat (tail.foldl (fun v u => v * 0x40 + u % 0x40) bits), count)
      else (replacement, 0)
    | _, _ => (replacement, 0)

/-- What the units starting with `unit` show as in UTF-16, and how many units of `rest` go
with it. -/
def showUtf16 (unit : Nat) (rest : List Nat) : Char × Nat :=
  if 0xD800 ≤ unit ∧ unit ≤ 0xDBFF then
    match rest with
    | low :: _ =>
      if 0xDC00 ≤ low ∧ low ≤ 0xDFFF then
        (Char.ofNat (0x10000 + (unit % 0x400) * 0x400 + low % 0x400), 1)
      else (replacement, 0)
    | [] => (replacement, 0)
  else ((CodePoint.toChar? unit).getD replacement, 0)

/-- What `unit` and the units behind it show as, and how many units of `rest` go with it. -/
def showFront (e : Encoding) (unit : Nat) (rest : List Nat) : Char × Nat :=
  match e with
  | .ascii => (if unit ≤ 0x7F then Char.ofNat unit else replacement, 0)
  | .utf8 => showUtf8 unit rest
  | .utf16 => showUtf16 unit rest
  | .utf32 => ((CodePoint.toChar? unit).getD replacement, 0)

/-- Shows the units behind the next `skip` ones. -/
def showFrom (e : Encoding) : Nat → List Nat → List Char
  | _, [] => []
  | skip + 1, _ :: rest => e.showFrom skip rest
  | 0, unit :: rest =>
    let (c, taken) := e.showFront unit rest
    c :: e.showFrom taken rest

/-- Units as text. -/
def display (e : Encoding) (units : List Nat) : String := String.ofList (e.showFrom 0 units)

end Phrase.Encoding
