/-!
# Code points

A code point is a number.  Those an encoding can carry are the scalar values: at most
`10FFFF` and no surrogate.  Other numbers are kept as they are, so that a decoder can say
what it found.
-/

namespace Phrase.CodePoint

/-! ## Classes -/

/-- Code points of the ASCII range. -/
abbrev IsAscii (v : Nat) : Prop := v ≤ 0x7F

/-- Code points of the basic multilingual plane. -/
abbrev IsBmp (v : Nat) : Prop := v ≤ 0xFFFF

/-- Code points reserved for the halves of UTF-16 pairs. -/
abbrev IsSurrogate (v : Nat) : Prop := 0xD800 ≤ v ∧ v ≤ 0xDFFF

/-- The scalar values: in range and no surrogate. -/
abbrev IsScalar (v : Nat) : Prop := v ≤ 0x10FFFF ∧ ¬ IsSurrogate v

/-- The character with this number, for a scalar value. -/
def toChar? (v : Nat) : Option Char :=
  if h : v.isValidChar then some (Char.ofNatAux v h) else none

/-! ## Text -/

/-- Number `v` in upper case hexadecimal, with zeros in front up to four digits. -/
def hex4 (v : Nat) : String :=
  let digits := (Nat.toDigits 16 v).map Char.toUpper
  String.ofList (List.replicate (4 - digits.length) '0' ++ digits)

/-- The usual way to write a code point: `U+00E4`. -/
def text (v : Nat) : String := "U+" ++ hex4 v

/-! ## Lemmas -/

theorem isScalar_iff_isValidChar (v : Nat) : IsScalar v ↔ v.isValidChar := by
  unfold IsScalar IsSurrogate Nat.isValidChar
  omega

theorem isScalar_toNat (c : Char) : IsScalar c.toNat :=
  (isScalar_iff_isValidChar _).2 c.valid

end Phrase.CodePoint
