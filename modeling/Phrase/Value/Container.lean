import Phrase.Value.Basic

/-!
# Containers

A container takes up items one by one; in the end it becomes a value.  Sets and maps come in
two kinds, one that keeps its contents sorted and one that keeps them in order of arrival
and sorts them in the end.
-/

namespace Phrase

/-! ## Sorted lists -/

namespace Value

/-- Puts a value in its place, unless it is there already. -/
def insertSorted (v : Value) : List Value → List Value
  | [] => [v]
  | w :: ws =>
    match compare v w with
    | .lt => v :: w :: ws
    | .eq => w :: ws
    | .gt => w :: insertSorted v ws

/-- Puts an entry in the place of its key, instead of an older entry. -/
def insertEntrySorted (k v : Value) : List (Value × Value) → List (Value × Value)
  | [] => [(k, v)]
  | (l, w) :: es =>
    match compare k l with
    | .lt => (k, v) :: (l, w) :: es
    | .eq => (l, v) :: es
    | .gt => (l, w) :: insertEntrySorted k v es

/-! ## Lists in order of arrival -/

/-- Adds a value behind the others, unless it is there already. -/
def insertNew (v : Value) : List Value → List Value
  | [] => [v]
  | w :: ws => if compare v w = .eq then w :: ws else w :: insertNew v ws

/-- Adds an entry behind the others, or gives the entry of its key another value. -/
def insertEntryNew (k v : Value) : List (Value × Value) → List (Value × Value)
  | [] => [(k, v)]
  | (l, w) :: es => if compare k l = .eq then (l, v) :: es else (l, w) :: insertEntryNew k v es

/-- The sorted list of some values, each once. -/
def sortSet (vs : List Value) : List Value := vs.foldl (fun s v => insertSorted v s) []

/-- The sorted list of some entries, the last one for each key. -/
def sortMap (es : List (Value × Value)) : List (Value × Value) :=
  es.foldl (fun m e => insertEntrySorted e.1 e.2 m) []

end Value

/-! ## Containers -/

/-- What items are taken up into. -/
inductive Container where
  /-- Drops every item. -/
  | nothing
  /-- Appends items; the last one comes first. -/
  | items (reversed : List Value)
  /-- Appends the texts of items. -/
  | text (s : String)
  | sortedSet (items : List Value)
  | hashedSet (items : List Value)
  | sortedMap (entries : List (Value × Value))
  | hashedMap (entries : List (Value × Value))
  /-- Counts items. -/
  | count (n : Nat)

namespace Container

/-- The entry that an item of a map stands for. -/
def entryOf : Value → Value × Value
  | .tuple [k, v] => (k, v)
  | .default => (.default, .default)
  | v => (v, .unit)

/-- Takes up an item. -/
def add (c : Container) (v : Value) : Container :=
  match c with
  | .nothing => .nothing
  | .items reversed => .items (v :: reversed)
  | .text s => .text (s ++ v.text?.getD "")
  | .sortedSet vs => .sortedSet (v.insertSorted vs)
  | .hashedSet vs => .hashedSet (v.insertNew vs)
  | .sortedMap entries => .sortedMap (Value.insertEntrySorted (entryOf v).1 (entryOf v).2 entries)
  | .hashedMap entries => .hashedMap (Value.insertEntryNew (entryOf v).1 (entryOf v).2 entries)
  | .count n => .count (n + 1)

/-- Takes up items in order. -/
def addAll (c : Container) (vs : List Value) : Container := vs.foldl add c

/-- The value a container becomes. -/
def finish : Container → Value
  | .nothing => .unit
  | .items reversed => .list reversed.reverse
  | .text s => .str s
  | .sortedSet vs => .set vs
  | .hashedSet vs => .set (Value.sortSet vs)
  | .sortedMap entries => .map entries
  | .hashedMap entries => .map (Value.sortMap entries)
  | .count n => .count n

end Container

end Phrase
