/-!
# Tries over units

A trie holds keys, each a list of units, and a number for each key.  `Trie.longest` finds
the longest key at the front of a list of units.
-/

namespace Phrase

/-- A node: the number of the key that ends here, and the ways on, sorted by unit. -/
inductive Trie where
  | node (key? : Option Nat) (edges : List (Nat × Trie))

namespace Trie

/-- The trie without keys. -/
def empty : Trie := .node none []

/-- The way on along a unit. -/
def follow (unit : Nat) : List (Nat × Trie) → Option Trie
  | [] => none
  | (u, t) :: rest => if u = unit then some t else if unit < u then none else follow unit rest

/-- Puts a way on along a unit in its place. -/
def connect (unit : Nat) (t : Trie) : List (Nat × Trie) → List (Nat × Trie)
  | [] => [(unit, t)]
  | (u, s) :: rest =>
    if u = unit then (unit, t) :: rest
    else if unit < u then (unit, t) :: (u, s) :: rest
    else (u, s) :: connect unit t rest

/-- Adds a key with its number. -/
def insert (number : Nat) : List Nat → Trie → Trie
  | [], .node _ edges => .node (some number) edges
  | u :: us, .node key? edges =>
    .node key? (connect u (insert number us ((follow u edges).getD empty)) edges)

/-- The number and the length of the longest key at the front of the units. -/
def longest : List Nat → Trie → Option (Nat × Nat)
  | [], .node key? _ => key?.map (·, 0)
  | u :: us, .node key? edges =>
    match (follow u edges).bind (longest us) with
    | some (number, length) => some (number, length + 1)
    | none => key?.map (·, 0)

/-- The trie of some keys. -/
def ofKeys (keys : List (Nat × List Nat)) : Trie :=
  keys.foldl (fun t k => t.insert k.1 k.2) empty

end Trie

end Phrase
