import Phrase.Value.Container

/-!
# How productions build values

Every production says how the outputs of its rule become its value.  A rule that repeats
another one does not output the items; it asks the production for a container, takes every
item up into it and outputs the finished container.  Therefore all kinds that build
containers pass a single output through; where text is built, a name passes as its text.  If
that output stands for a failed rule, the value is an empty container.
-/

namespace Phrase

/-- What the caller of a parse hands in for the values: nothing, the first contents of
seeded containers, or something that no container is made from. -/
inductive ParseState where
  | none
  | seed (items : List Value)
  | other
  deriving Inhabited

/-- The contents that seeded containers start with. -/
def ParseState.seedItems : ParseState → List Value
  | .seed items => items
  | _ => []

/-- How much of its outputs' text a production for text takes when it is called with
outputs, not with a container. -/
inductive TextPart where
  | whole
  | firstChar
  deriving DecidableEq, Repr

/-- How the outputs of a rule become a value. -/
inductive ValueKind where
  /-- No value. -/
  | discard
  /-- A list, which may start with the items of the parse state. -/
  | list (seeded : Bool)
  /-- A list that can grow at both ends. -/
  | deque
  /-- A list of pairs. -/
  | pairs
  /-- The texts of the outputs, joined. -/
  | text (part : TextPart)
  /-- A sorted set, which may start with the items of the parse state. -/
  | sortedSet (seeded : Bool)
  | hashedSet
  | sortedMap
  | hashedMap
  /-- The number of items. -/
  | count
  /-- The list of the items' tuples. -/
  | tuples
  /-- The tuple of the outputs. -/
  | callback
  /-- The tuple of the outputs behind a label. -/
  | labelled (label : String)
  deriving DecidableEq, Repr, Inhabited

namespace ValueKind

/-- The container to start with. -/
def container (kind : ValueKind) (state : ParseState) : Container :=
  match kind with
  | .list true => .items state.seedItems.reverse
  | .list false | .deque | .pairs | .tuples => .items []
  | .text _ => .text ""
  | .sortedSet true => .sortedSet (Value.sortSet state.seedItems)
  | .sortedSet false => .sortedSet []
  | .hashedSet => .hashedSet []
  | .sortedMap => .sortedMap []
  | .hashedMap => .hashedMap []
  | .count => .count 0
  | .discard | .callback | .labelled _ => .nothing

/-- The item that outputs taken up together stand for: a single output is the item itself,
several are one tuple. -/
def item (kind : ValueKind) (outputs : List Value) : Value :=
  match kind, outputs with
  | .tuples, vs => .tuple vs
  | _, [v] => v
  | _, vs => .tuple vs

/-- Takes the outputs of one repetition up into a container. -/
def push (kind : ValueKind) (c : Container) (outputs : List Value) : Container :=
  c.add (kind.item outputs)

/-- The item that one of several outputs stands for. -/
def argument (kind : ValueKind) (v : Value) : Value :=
  match kind, v.text? with
  | .text .firstChar, some s => .str (String.ofList (s.toList.take 1))
  | .tuples, _ => .tuple [v]
  | _, _ => v

/-- The value of a production whose rule had these outputs. -/
def call (kind : ValueKind) (state : ParseState) (outputs : List Value) : Value :=
  match kind, outputs with
  | .discard, _ => .unit
  | .callback, vs => .tuple vs
  | .labelled label, vs => .tuple (.sym label :: vs)
  | kind, [.default] => (kind.container .none).finish
  | .text _, [v] => (v.text?.map .str).getD v
  | _, [v] => v
  | kind, vs => ((kind.container state).addAll (vs.map kind.argument)).finish

/-- The names of the kinds that a grammar can choose. -/
def named : List (String × ValueKind) :=
  [("discard", .discard), ("list", .list false), ("deque", .deque), ("pair_list", .pairs),
    ("string", .text .whole), ("string_str", .text .whole), ("string_char", .text .firstChar),
    ("btree_set", .sortedSet false), ("hash_set", .hashedSet), ("btree_map", .sortedMap),
    ("hash_map", .hashedMap), ("seeded_list", .list true), ("seeded_set", .sortedSet true),
    ("collect", .count), ("collect_into", .tuples), ("callback", .callback)]

end ValueKind

end Phrase
