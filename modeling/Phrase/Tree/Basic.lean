import Phrase.Event

/-!
# Syntax trees

A syntax tree keeps every token of the input, also whitespace and errors.  Its leaves are
tokens, and its inner nodes are productions.  Nodes are numbered in document order, each
production in front of what is inside of it; the numbers of a subtree are consecutive.
-/

namespace Phrase

/-- A node with all that is below it. -/
inductive Node where
  | token (kind : TokenKind) (range : Span)
  | production (name : String) (range : Span) (children : List Node)
  deriving Inhabited

namespace Node

/-- The production's name, or the name of the token's class. -/
def name : Node → String
  | .token kind _ => kind.name
  | .production name _ _ => name

/-- The units that a node covers. -/
def range : Node → Span
  | .token _ range => range
  | .production _ range _ => range

/-- Whether a node is a leaf. -/
def isToken : Node → Bool
  | .token _ _ => true
  | .production _ _ _ => false

/-- The class of a token. -/
def kind? : Node → Option TokenKind
  | .token kind _ => some kind
  | .production _ _ _ => none

/-- The nodes right below. -/
def children : Node → List Node
  | .token _ _ => []
  | .production _ _ children => children

mutual

/-- The number of nodes. -/
def size : Node → Nat
  | .token _ _ => 1
  | .production _ _ children => sizeList children + 1

/-- The number of nodes of some trees. -/
def sizeList : List Node → Nat
  | [] => 0
  | n :: ns => n.size + sizeList ns

end

mutual

/-- Where the last node in document order ends. -/
def lastStop : Node → Nat
  | .token _ range => range.stop
  | .production _ range children => lastStopList range.stop children

/-- Where the last node of some trees ends, or `stop` if there is none. -/
def lastStopList (stop : Nat) : List Node → Nat
  | [] => stop
  | n :: ns => lastStopList n.lastStop ns

end

mutual

/-- The tokens in document order. -/
def tokens : Node → List Node
  | .token kind range => [.token kind range]
  | .production _ _ children => tokensList children

/-- The tokens of some trees in document order. -/
def tokensList : List Node → List Node
  | [] => []
  | n :: ns => n.tokens ++ tokensList ns

end

end Node

/-! ## Numbered nodes -/

/-- A node with its place in the tree. -/
structure Entry where
  id : Nat
  parent : Option Nat
  children : List Nat
  node : Node

/-- The numbers of trees that follow each other, the first one of which has number `id`. -/
def childIds (id : Nat) : List Node → List Nat
  | [] => []
  | n :: ns => id :: childIds (id + n.size) ns

mutual

/-- The nodes of a tree in document order, numbered from `id` on. -/
def Node.entries (id : Nat) (parent : Option Nat) : Node → List Entry
  | .token kind range => [⟨id, parent, [], .token kind range⟩]
  | .production name range children =>
    ⟨id, parent, childIds (id + 1) children, .production name range children⟩ ::
      entriesList (id + 1) id children

/-- The nodes of trees that follow each other below a parent. -/
def Node.entriesList (id : Nat) (parent : Nat) : List Node → List Entry
  | [] => []
  | n :: ns => n.entries id (some parent) ++ entriesList (id + n.size) parent ns

end

/-- A step of a walk through a tree. -/
inductive Visit where
  /-- A production is entered. -/
  | enter (e : Entry)
  /-- A production is left. -/
  | exit (e : Entry)
  /-- A token is passed. -/
  | leaf (e : Entry)

mutual

/-- The walk through a tree whose nodes are numbered from `id` on. -/
def Node.walk (id : Nat) (parent : Option Nat) : Node → List Visit
  | .token kind range => [.leaf ⟨id, parent, [], .token kind range⟩]
  | .production name range children =>
    let e : Entry := ⟨id, parent, childIds (id + 1) children, .production name range children⟩
    .enter e :: walkList (id + 1) id children ++ [.exit e]

/-- The walk through trees that follow each other below a parent. -/
def Node.walkList (id : Nat) (parent : Nat) : List Node → List Visit
  | [] => []
  | n :: ns => n.walk id (some parent) ++ walkList (id + n.size) parent ns

end

/-! ## Trees -/

/-- A tree, which may be empty. -/
structure SyntaxTree where
  root? : Option Node

namespace SyntaxTree

/-- The tree without nodes. -/
def empty : SyntaxTree := ⟨none⟩

/-- Whether there is no node. -/
def isEmpty (t : SyntaxTree) : Bool := t.root?.isNone

/-- The number of nodes. -/
def size (t : SyntaxTree) : Nat := (t.root?.map Node.size).getD 0

/-- All nodes in document order. -/
def entries (t : SyntaxTree) : List Entry := (t.root?.map (Node.entries 0 none)).getD []

/-- The node with a number. -/
def entry (t : SyntaxTree) (id : Nat) : Except Fault Entry :=
  match t.entries[id]? with
  | some e => .ok e
  | none => .error (.nodeOutside id)

/-- The tokens in document order. -/
def tokens (t : SyntaxTree) : List Entry := t.entries.filter (·.node.isToken)

/-- The walk from the root through all nodes and back. -/
def walk (t : SyntaxTree) : List Visit := (t.root?.map (Node.walk 0 none)).getD []

end SyntaxTree

end Phrase
