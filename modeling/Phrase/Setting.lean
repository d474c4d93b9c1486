import Phrase.Format.Toml

/-!
# Settings

Settings stand in sections, and a path leads to a place in them, by keys and by numbers of
items.  Whatever stands in the way of a path gives way: a key makes a section, a number makes
a list.  Sections put on sections are merged entry by entry.  The keys of sections are in lower
case, however they are given.
-/

namespace Phrase

/-- A setting, or a section with settings in it. -/
inductive Setting where
  | unset
  | str (s : String)
  | int (n : Int)
  | float (x : Float)
  | bool (b : Bool)
  | list (items : List Setting)
  | section (entries : List (String × Setting))
  deriving Inhabited

namespace Setting

/-! ## Documents -/

mutual

/-- A value of a document as a setting. -/
def ofToml : Toml → Setting
  | .str s | .date s => .str s
  | .int n => .int n
  | .float x => .float x
  | .bool b => .bool b
  | .arr items => .list (ofTomls items)
  | .table _ entries => .section (ofEntries entries)
  | .tables reversed => .list (ofTomls reversed).reverse

/-- Some values as settings. -/
def ofTomls : List Toml → List Setting
  | [] => []
  | t :: ts => ofToml t :: ofTomls ts

/-- Some entries as settings. -/
def ofEntries : List (String × Toml) → List (String × Setting)
  | [] => []
  | (k, t) :: es => (k, ofToml t) :: ofEntries es

end

/-! ## Sections and lists -/

/-- The entries of a section; other settings have none. -/
def entries : Setting → List (String × Setting)
  | .section es => es
  | _ => []

/-- The items of a list; other settings have none. -/
def items : Setting → List Setting
  | .list is => is
  | _ => []

/-- The text in lower case, for comparing. -/
def fold (s : String) : String := s.map Char.toLower

/-- Gives a key a value, in its place if it has one already. -/
def put (key : String) (v : Setting) : List (String × Setting) → List (String × Setting)
  | [] => [(key, v)]
  | (k, w) :: es => if k = key then (k, v) :: es else (k, w) :: put key v es

mutual

/-- Puts a value below a key.  Sections are merged entry by entry, and what is no section
gives way to one as soon as there is an entry. -/
def merge (key : String) (value : Setting) (root : Setting) : Setting :=
  match value with
  | .section es =>
    let old := (root.entries.lookup (fold key)).getD (.section [])
    .section (put (fold key) (mergeAll es old) root.entries)
  | v => .section (put (fold key) v root.entries)

/-- Puts entries into a section. -/
def mergeAll : List (String × Setting) → Setting → Setting
  | [], root => root
  | (k, v) :: es, root => mergeAll es (merge k v root)

end

/-- Sets the item at a place; a list that is too short grows. -/
def setItem (v : Setting) : Nat → List Setting → List Setting
  | 0, [] => [v]
  | 0, _ :: is => v :: is
  | n + 1, [] => .unset :: setItem v n []
  | n + 1, i :: is => i :: setItem v n is

/-! ## Paths -/

/-- A step of a path: to the entry of a key, or to an item by its number, which counts from
the end if it is negative. -/
inductive Step where
  | key (name : String)
  | item (number : Int)
  deriving DecidableEq, Repr

/-- The characters of keys. -/
def isKeyChar (c : Char) : Bool := c.isAlphanum || c = '_' || c = '-' || c = ' '

/-- The number that decimal digits write. -/
def ofDigits (cs : List Char) : Nat := cs.foldl (fun n c => n * 10 + (c.toNat - 0x30)) 0

/-- The number of an item, in its brackets but for the last one.  It has a minus or no sign,
and it may stand between blanks. -/
def itemNumber? : List Char → Option Int
  | '[' :: cs =>
    let isBlank (c : Char) := c = ' ' || c = '\t'
    let (sign, cs) : Int × List Char := match cs.dropWhile isBlank with
      | '-' :: cs => (-1, cs)
      | cs => (1, cs)
    let digits := cs.takeWhile Char.isDigit
    let n := sign * (ofDigits digits : Int)
    if digits.isEmpty || !(cs.dropWhile Char.isDigit).all isBlank ||
        n < -0x8000000000000000 || 0x8000000000000000 ≤ n then none
    else some n
  | _ => none

/-- The steps of a part of a path: a key, and numbers in brackets behind it. -/
def partSteps? (cs : List Char) : Option (List Step) := do
  let name := cs.takeWhile isKeyChar
  let numbers := ((String.ofList (cs.dropWhile isKeyChar)).splitOn "]").map String.toList
  if name.isEmpty || numbers.getLast? != some [] then none
  else
    let ns ← numbers.dropLast.mapM itemNumber?
    return .key (String.ofList name) :: ns.map .item

/-- The steps of a path, which has parts with dots between them. -/
def steps? (path : String) : Option (List Step) := do
  return (← (path.splitOn ".").mapM fun part => partSteps? part.toList).flatten

/-- Where the item with a number is in a list of this length. -/
def place? (length : Nat) (number : Int) : Option Nat :=
  if 0 ≤ number then some number.toNat
  else if number.natAbs ≤ length then some (length - number.natAbs)
  else none

/-- Puts a value below a path; absent if a number counts from the end further than there are
items. -/
def mergeAt? (value : Setting) : List Step → Setting → Option Setting
  | [], root => some root
  | [.key key], root => some (merge key value root)
  | .key key :: path, root => do
    let v ← mergeAt? value path ((root.entries.lookup (fold key)).getD .unset)
    return .section (put (fold key) v root.entries)
  | .item n :: path, root => do
    let i ← place? root.items.length n
    let v ← if path.isEmpty then some value
      else mergeAt? value path ((root.items[i]?).getD .unset)
    return .list (setItem v i root.items)

/-- Puts the entries of a file into a configuration.  A key that is a path stands for what it
leads to. -/
def mergeFile? (file : List (String × Setting)) (root : Setting) : Option Setting :=
  file.foldlM (fun root (key, v) => mergeAt? v ((steps? key).getD [.key key]) root) root

end Setting

end Phrase
