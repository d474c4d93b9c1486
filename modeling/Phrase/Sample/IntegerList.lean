import Phrase.Grammar

/-!
# Lists of integers

`1, 2, 3`: unsigned integers of 64 bits with commas between them, and whitespace anywhere
around them.  An item that is no such number is reported and stands for zero; only what
follows the list can fail it.
-/

namespace Phrase.Sample.IntegerList

/-- Unsigned integers of 64 bits. -/
def u64 : IntegerType := ⟨false, 64⟩

/-- One item. -/
def item : Rule := .recover (.integer u64 .decimal)

/-- The items, up to the end of the input. -/
def list : Production where
  name := "int-list"
  rule := .seq .scopeWhitespace
    (.seq (.listSep item (.token (.literal ","))) (.token .eof))
  value := .list false
  whitespace := some (.token (.charClass .space))
  isToken := false

/-- The grammar; its root is production 0. -/
def grammar : Grammar := ⟨#[list], #[]⟩

/-- The number that an item stands for. -/
def number : Value → Nat
  | .int n => n.toNat
  | _ => 0

/-- The numbers in the value of a list. -/
def numbers : Value → List Nat
  | .list items => items.map number
  | _ => []

/-- Numbers as data. -/
def toJson (ns : List Nat) : Json := .arr (ns.map Json.nat)

end Phrase.Sample.IntegerList
