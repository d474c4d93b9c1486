import Phrase.Rule.Class

/-!
# Numbers

Digits of a radix, and the integer types whose values they can write.
-/

namespace Phrase

/-- The base of a written number. -/
inductive Radix where
  | decimal
  | hex
  deriving DecidableEq, Repr

namespace Radix

/-- The number of digits. -/
def base : Radix → Nat
  | .decimal => 10
  | .hex => 16

/-- What is missing where a digit was expected. -/
def className : Radix → String
  | .decimal => "digit.decimal"
  | .hex => "digit.hex"

/-- The value of a digit; hexadecimal digits above nine are letters of either case. -/
def digit? (r : Radix) (u : Nat) : Option Nat :=
  if AsciiClass.IsDigit u then some (u - 0x30)
  else match r with
    | .decimal => none
    | .hex =>
      if 0x61 ≤ u ∧ u ≤ 0x66 then some (u - 0x61 + 10)
      else if 0x41 ≤ u ∧ u ≤ 0x46 then some (u - 0x41 + 10)
      else none

/-- Where the digit at the cursor ends. -/
def matchOne (r : Radix) (cur : Cursor) : Option Nat :=
  match cur.peek with
  | some u => if (r.digit? u).isSome then some (cur.position + 1) else none
  | none => none

end Radix

/-- A type of integers with a sign or without one. -/
structure IntegerType where
  signed : Bool
  bits : Nat
  deriving DecidableEq, Repr

namespace IntegerType

/-- The largest value. -/
def max (t : IntegerType) : Nat :=
  if t.signed then Nat.pow 2 (t.bits - 1) - 1 else Nat.pow 2 t.bits - 1

/-- A number, if the type has it. -/
def fit? (t : IntegerType) (n : Nat) : Option Nat := if n ≤ t.max then some n else none

/-- Puts a digit behind a number.  It is the type that computes: the base, the digit, the product
and the sum have to fit. -/
def pushDigit? (t : IntegerType) (r : Radix) (n digit : Nat) : Option Nat := do
  let base ← t.fit? r.base
  let digit ← t.fit? digit
  let product ← t.fit? (n * base)
  t.fit? (product + digit)

/-- The number that digits write, if it fits. -/
def ofDigits? (t : IntegerType) (r : Radix) (units : List Nat) : Option Nat :=
  units.foldlM (fun n u => (r.digit? u).bind (t.pushDigit? r n)) 0

/-- The types and their names. -/
def named : List (String × IntegerType) :=
  [("u8", ⟨false, 8⟩), ("u16", ⟨false, 16⟩), ("u32", ⟨false, 32⟩), ("u64", ⟨false, 64⟩),
    ("u128", ⟨false, 128⟩), ("usize", ⟨false, 64⟩), ("i8", ⟨true, 8⟩), ("i16", ⟨true, 16⟩),
    ("i32", ⟨true, 32⟩), ("i64", ⟨true, 64⟩), ("i128", ⟨true, 128⟩), ("isize", ⟨true, 64⟩)]

end IntegerType

end Phrase
