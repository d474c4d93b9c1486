import Phrase.Cursor

/-!
# Character classes

A class is matched one character at a time.  An ASCII class looks at a single unit and works
in every encoding; a filter looks at a whole code point.
-/

namespace Phrase

/-! ## ASCII -/

/-- The ASCII classes. -/
inductive AsciiClass where
  | space
  | blank
  | alpha
  | upper
  | lower
  | digit
  | alnum
  | alphaUnderscore
  | alnumUnderscore
  | punct
  | print
  deriving DecidableEq, Repr

namespace AsciiClass

/-- Small letters. -/
abbrev IsLower (u : Nat) : Prop := 0x61 ≤ u ∧ u ≤ 0x7A

/-- Capital letters. -/
abbrev IsUpper (u : Nat) : Prop := 0x41 ≤ u ∧ u ≤ 0x5A

/-- Decimal digits. -/
abbrev IsDigit (u : Nat) : Prop := 0x30 ≤ u ∧ u ≤ 0x39

/-- Letters. -/
abbrev IsAlpha (u : Nat) : Prop := IsLower u ∨ IsUpper u

/-- The units of a class; all of them are ASCII. -/
def contains (c : AsciiClass) (u : Nat) : Bool :=
  match c with
  | .space => u = 0x20 ∨ (0x09 ≤ u ∧ u ≤ 0x0D)
  | .blank => u = 0x20 ∨ u = 0x09
  | .alpha => IsAlpha u
  | .upper => IsUpper u
  | .lower => IsLower u
  | .digit => IsDigit u
  | .alnum => IsAlpha u ∨ IsDigit u
  | .alphaUnderscore => IsAlpha u ∨ u = 0x5F
  | .alnumUnderscore => IsAlpha u ∨ IsDigit u ∨ u = 0x5F
  | .punct => 0x21 ≤ u ∧ u ≤ 0x7E ∧ ¬ (IsAlpha u ∨ IsDigit u)
  | .print => 0x20 ≤ u ∧ u ≤ 0x7E

/-- The name of a class in errors. -/
def name : AsciiClass → String
  | .space => "ASCII.space"
  | .blank => "ASCII.blank"
  | .alpha => "ASCII.alpha"
  | .upper => "ASCII.upper"
  | .lower => "ASCII.lower"
  | .digit => "ASCII.digit"
  | .alnum => "ASCII.alpha-digit"
  | .alphaUnderscore => "ASCII.alpha-underscore"
  | .alnumUnderscore => "ASCII.alpha-digit-underscore"
  | .punct => "ASCII.punct"
  | .print => "ASCII.print"

/-- The names under which a grammar refers to the classes. -/
def named : List (String × AsciiClass) :=
  [("space", .space), ("blank", .blank), ("alpha", .alpha), ("upper", .upper),
    ("lower", .lower), ("digit", .digit), ("alnum", .alnum),
    ("alpha_underscore", .alphaUnderscore), ("alnum_underscore", .alnumUnderscore),
    ("punct", .punct), ("print", .print)]

/-- Where the character at the cursor ends, if it is in the class. -/
def matchOne (c : AsciiClass) (cur : Cursor) : Option Nat :=
  match cur.peek with
  | some u => if c.contains u then some (cur.position + 1) else none
  | none => none

end AsciiClass

/-! ## Code points -/

/-- Which code points are accepted. -/
inductive CodePointFilter where
  | any
  | exactly (value : Nat)
  | range (low high : Nat)
  /-- The code points with a property that errors call by name. -/
  | satisfying (name : String) (property : Nat → Bool)

namespace CodePointFilter

/-- Whether a code point passes. -/
def accepts : CodePointFilter → Nat → Bool
  | .any, _ => true
  | .exactly value, v => v = value
  | .range low high, v => low ≤ v ∧ v ≤ high
  | .satisfying _ property, v => property v

/-- The name of a filter in errors. -/
def name : CodePointFilter → String
  | .any => "code-point"
  | .exactly _ => "code-point.literal"
  | .range _ _ => "code-point.range"
  | .satisfying name _ => name

/-- Where the code point at the cursor ends, if it is well formed and passes. -/
def matchOne (f : CodePointFilter) (cur : Cursor) : Option Nat :=
  let d := cur.decode
  if d.status = .success ∧ f.accepts d.value then some (cur.position + d.length) else none

end CodePointFilter

/-! ## Either -/

/-- A class of characters. -/
inductive CharClass where
  | ascii (c : AsciiClass)
  | codePoint (f : CodePointFilter)

namespace CharClass

/-- The name of a class in errors. -/
def name : CharClass → String
  | .ascii c => c.name
  | .codePoint f => f.name

/-- Where the character at the cursor ends, if it is in the class. -/
def matchOne : CharClass → Cursor → Option Nat
  | .ascii c => c.matchOne
  | .codePoint f => f.matchOne

end CharClass

end Phrase
