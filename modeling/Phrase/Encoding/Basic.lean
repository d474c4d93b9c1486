import Phrase.Fault

/-!
# Encodings

An encoding writes code points as sequences of code units, here numbers below the
encoding's unit limit.  `Encoding.units?` is the writer: it answers exactly for the code
points the encoding can represent, and every unit it writes is below the limit.
-/

namespace Phrase

/-- The supported encodings. -/
inductive Encoding where
  | ascii
  | utf8
  | utf16
  | utf32
  deriving DecidableEq, Repr, Inhabited

namespace Encoding

/-! ## Names -/

/-- All encodings, in order of unit size. -/
def all : List Encoding := [.ascii, .utf8, .utf16, .utf32]

/-- The encoding's name for people. -/
def name : Encoding → String
  | .ascii => "ASCII"
  | .utf8 => "UTF-8"
  | .utf16 => "UTF-16"
  | .utf32 => "UTF-32"

/-- The encoding's name in data and options. -/
def tag : Encoding → String
  | .ascii => "ascii"
  | .utf8 => "utf8"
  | .utf16 => "utf16"
  | .utf32 => "utf32"

/-- The encoding with this tag. -/
def ofTag? (t : String) : Option Encoding := all.find? (·.tag == t)

/-- What is missing where a code point was expected. -/
def codePointClass (e : Encoding) : String := e.name ++ ".code-point"

/-! ## Units -/

/-- Units are the numbers below this limit. -/
def unitLimit : Encoding → Nat
  | .ascii => 0x100
  | .utf8 => 0x100
  | .utf16 => 0x10000
  | .utf32 => 0x100000000

/-- The most units one code point takes. -/
def maxUnits : Encoding → Nat
  | .ascii => 1
  | .utf8 => 4
  | .utf16 => 2
  | .utf32 => 1

/-- The code points the encoding can represent. -/
def CanEncode : Encoding → Nat → Prop
  | .ascii, v => CodePoint.IsAscii v
  | _, v => CodePoint.IsScalar v

instance (e : Encoding) (v : Nat) : Decidable (e.CanEncode v) := by
  cases e <;> unfold CanEncode <;> infer_instance

/-- UTF-8: a lead byte that announces the length, then six bits per continuation byte. -/
def utf8Units (v : Nat) : List Nat :=
  if v ≤ 0x7F then [v]
  else if v ≤ 0x7FF then [0xC0 + v / 0x40, 0x80 + v % 0x40]
  else if v ≤ 0xFFFF then [0xE0 + v / 0x1000, 0x80 + v / 0x40 % 0x40, 0x80 + v % 0x40]
  else [0xF0 + v / 0x40000, 0x80 + v / 0x1000 % 0x40, 0x80 + v / 0x40 % 0x40, 0x80 + v % 0x40]

/-- UTF-16: one unit, or a pair of surrogates behind the basic multilingual plane. -/
def utf16Units (v : Nat) : List Nat :=
  if v ≤ 0xFFFF then [v]
  else [0xD800 + (v - 0x10000) / 0x400, 0xDC00 + (v - 0x10000) % 0x400]

/-- The units of a code point the encoding can represent. -/
def units? (e : Encoding) (v : Nat) : Option (List Nat) :=
  if e.CanEncode v then
    some <| match e with
      | .ascii => [v]
      | .utf8 => utf8Units v
      | .utf16 => utf16Units v
      | .utf32 => [v]
  else none

/-- The units of a text; characters the encoding cannot represent are dropped. -/
def encodeText (e : Encoding) (text : String) : List Nat :=
  text.toList.flatMap fun c => (e.units? c.toNat).getD []

/-- The units of a text, if the encoding can represent all of it. -/
def encodeText? (e : Encoding) (text : String) : Option (List Nat) :=
  (text.toList.mapM fun c => e.units? c.toNat).map List.flatten

/-- Writes a code point to the front of a buffer; the answer is the number of units
written and the buffer.  The code point is checked first, then the room. -/
def encodeInto (e : Encoding) (v : Nat) (buffer : List Nat) : Except Fault (Nat × List Nat) :=
  match e.units? v with
  | none => .error (if e = .ascii then .notAscii v else .notScalar v)
  | some us =>
    if us.length ≤ buffer.length then .ok (us.length, us ++ buffer.drop us.length)
    else .error .outOfBounds

/-! ## Lemmas -/

theorem utf8Units_lt {v : Nat} (h : CodePoint.IsScalar v) : ∀ u ∈ utf8Units v, u < 0x100 := by
  intro u hu
  unfold utf8Units at hu
  split at hu
  · simp at hu; omega
  · split at hu
    · simp at hu; omega
    · split at hu
      · simp at hu; omega
      · simp at hu; omega

theorem utf16Units_lt {v : Nat} (h : CodePoint.IsScalar v) : ∀ u ∈ utf16Units v, u < 0x10000 := by
  intro u hu
  unfold utf16Units at hu
  split at hu
  · simp at hu; omega
  · simp at hu; omega

/-- Every unit written is a unit of the encoding. -/
theorem units?_lt {e : Encoding} {v : Nat} {us : List Nat} (h : e.units? v = some us) :
    ∀ u ∈ us, u < e.unitLimit := by
  unfold units? at h
  split at h
  · next hc =>
    cases h
    cases e with
    | ascii => simp only [CanEncode] at hc; simp [unitLimit]; omega
    | utf8 => exact utf8Units_lt hc
    | utf16 => exact utf16Units_lt hc
    | utf32 => simp only [CanEncode] at hc; simp [unitLimit]; omega
  · cases h

theorem encodeText_lt (e : Encoding) (text : String) :
    ∀ u ∈ e.encodeText text, u < e.unitLimit := by
  intro u hu
  obtain ⟨c, -, hu⟩ := List.mem_flatMap.1 hu
  cases h : e.units? c.toNat with
  | none => simp [h] at hu
  | some us => exact units?_lt h u (by simpa [h] using hu)

end Encoding

end Phrase
