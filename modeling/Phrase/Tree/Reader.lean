import Phrase.Format.JsonReader
import Phrase.Tree.Snapshot

/-!
# Reading snapshots

A snapshot is read from an object with its members, or from a list of them in order.  Members
of other names are passed over, but a known one may not occur twice.  Text and children may
be absent.
-/

namespace Phrase.Snapshot

/-- The value of a member, which may be absent but not occur twice. -/
def atMostOnce? (name : String) (members : List (String × Json)) : Option (Option Json) :=
  match members.filter (·.1 == name) with
  | [] => some none
  | [m] => some (some m.2)
  | _ => none

/-- The value of a member, which has to occur once. -/
def once? (name : String) (members : List (String × Json)) : Option Json :=
  (atMostOnce? name members).join

/-- The members of a node in an object, or in a list. -/
def members? : Json → Option (List (String × Json))
  | .obj members => some members
  | .arr items =>
    let names := ["node_type", "name", "start", "end", "text", "children"]
    if items.length ≤ names.length then some (names.zip items) else none
  | _ => none

/-- A text. -/
def text? : Json → Option String
  | .str s => some s
  | _ => none

/-- A position, which fits 64 bits. -/
def position? : Json → Option Nat
  | .int n => if 0 ≤ n ∧ n < 0x10000000000000000 then some n.toNat else none
  | _ => none

/-- A text, which may be absent or null. -/
def optionalText? : Option Json → Option (Option String)
  | none | some .null => some none
  | some j => (text? j).map some

/-- The deepest nesting of objects and lists. -/
def maxNesting : Nat := 127

mutual

/-- Reads a node whose objects and lists are nested at most `nesting` deep. -/
def ofJsonWithin? : Nat → Json → Option Snapshot
  | 0, _ => none
  | nesting + 1, j => do
    let members ← members? j
    let nodeType ← text? (← once? "node_type" members)
    let name ← text? (← once? "name" members)
    let start ← position? (← once? "start" members)
    let stop ← position? (← once? "end" members)
    let text ← optionalText? (← atMostOnce? "text" members)
    let children ← childrenWithin? nesting (← atMostOnce? "children" members)
    return ⟨nodeType, name, start, stop, text, children⟩

/-- Reads the children of a node, which may be absent. -/
def childrenWithin? : Nat → Option Json → Option (List Snapshot)
  | _, none => some []
  | nesting + 1, some (.arr items) => items.mapM (ofJsonWithin? nesting)
  | _, some _ => none

end

/-- Reads a snapshot from its JSON text. -/
def read? (text : String) : Option Snapshot :=
  (Json.read? text).bind (ofJsonWithin? maxNesting)

end Phrase.Snapshot
