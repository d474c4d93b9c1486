import Phrase.Cursor
import Phrase.Symbol.Trie
import Phrase.Text.Quoted

/-!
# Symbol tables

A symbol table maps keys to values.  Keys are not empty and occur once.  Looking up in a
source finds the longest key at a position; keys the encoding of the source cannot represent
are never found there.  The index for an encoding is built at the first lookup in it and
kept until another key is added.
-/

namespace Phrase

/-- The keys as units of one encoding. -/
structure SymbolIndex where
  trie : Trie
  /-- The length of the longest key. -/
  reach : Nat

/-- The keys that the encoding can represent, numbered from `number` on. -/
def encodeKeys (e : Encoding) : Nat → List String → List (Nat × List Nat)
  | _, [] => []
  | number, key :: keys =>
    match e.encodeText? key with
    | some us => (number, us) :: encodeKeys e (number + 1) keys
    | none => encodeKeys e (number + 1) keys

/-- Builds the index of some keys, numbered in order. -/
def SymbolIndex.ofKeys (e : Encoding) (keys : List String) : SymbolIndex :=
  let encoded := encodeKeys e 0 keys
  { trie := .ofKeys encoded
    reach := encoded.foldl (fun n k => max n k.2.length) 0 }

/-- A map from keys to values, with the indexes that have been built. -/
structure SymbolTable (α : Type) where
  entries : Array (String × α)
  index? : Encoding → Option SymbolIndex

/-- The refusal of a key that is empty or already in the table. -/
structure DuplicateSymbol where
  key : String
  deriving DecidableEq, Repr

/-- The refusal in words. -/
def DuplicateSymbol.message (d : DuplicateSymbol) : String :=
  if d.key.isEmpty then "symbol keys must not be empty" else s!"duplicate symbol '{d.key}'"

namespace SymbolTable

variable {α : Type}

/-- The table without keys. -/
def empty : SymbolTable α := ⟨#[], fun _ => none⟩

instance : Inhabited (SymbolTable α) := ⟨empty⟩

/-- The keys in order. -/
def keys (t : SymbolTable α) : List String := t.entries.toList.map (·.1)

/-- Adds an entry behind the others; all indexes have to be built again. -/
def add (t : SymbolTable α) (key : String) (value : α) :
    Except DuplicateSymbol (SymbolTable α) :=
  if key.isEmpty ∨ key ∈ t.keys then .error ⟨key⟩
  else .ok ⟨t.entries.push (key, value), fun _ => none⟩

/-- Adds entries in order and leaves out those that are refused. -/
def ofEntries (entries : List (String × α)) : SymbolTable α :=
  entries.foldl (fun t e => (t.add e.1 e.2).toOption.getD t) empty

/-- The number of entries. -/
def size (t : SymbolTable α) : Nat := t.entries.size

/-- The value of a key. -/
def get? (t : SymbolTable α) (key : String) : Option α :=
  (t.entries.find? (·.1 == key)).map (·.2)

/-- Whether the index for an encoding has been built. -/
def isCompiled (t : SymbolTable α) (e : Encoding) : Bool := (t.index? e).isSome

/-- The index for an encoding, built if need be. -/
def index (t : SymbolTable α) (e : Encoding) : SymbolIndex :=
  (t.index? e).getD (.ofKeys e t.keys)

/-- The table with the index for an encoding built. -/
def compile (t : SymbolTable α) (e : Encoding) : SymbolTable α :=
  let x := t.index e
  { t with index? := fun e' => if e' = e then some x else t.index? e' }

/-- The number and the length in units of the longest key at a cursor. -/
def longestKey (t : SymbolTable α) (c : Cursor) : Option (Nat × Nat) :=
  let x := t.index c.source.encoding
  x.trie.longest (c.ahead x.reach)

/-- The entries in braces, with the keys in quotes. -/
def render (t : SymbolTable α) (value : α → String) : String :=
  let entries := t.entries.toList.map fun e => Text.quote e.1 ++ ": " ++ value e.2
  "\x7b" ++ ", ".intercalate entries ++ "\x7d"

/-- Finds the longest key at a cursor, and keeps the index that this needs. -/
def lookup (t : SymbolTable α) (c : Cursor) : Option (Nat × Nat) × SymbolTable α :=
  let t := t.compile c.source.encoding
  (t.longestKey c, t)

end SymbolTable

end Phrase
