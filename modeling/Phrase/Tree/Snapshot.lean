import Phrase.Tree.Basic
import Phrase.Text.Quoted

/-!
# Snapshots

A snapshot is a tree on its own, with the text of every token.  `Snapshot.draw` shows it as
one line for each node, with connectors for the nesting.
-/

namespace Phrase

/-- A node with the text of its tokens. -/
structure Snapshot where
  /-- `token`, or `production`. -/
  nodeType : String
  name : String
  start : Nat
  stop : Nat
  text : Option String
  children : List Snapshot
  deriving Inhabited

namespace Snapshot

/-- Whether the node says that it is a token. -/
def isToken (s : Snapshot) : Bool := s.nodeType == "token"

/-- Whether the node is a token of whitespace. -/
def isWhitespace (s : Snapshot) : Bool := s.isToken && s.name == "whitespace"

mutual

/-- The text of a node, or else the texts below it, joined. -/
def content : Snapshot → String
  | ⟨_, _, _, _, some text, _⟩ => text
  | ⟨_, _, _, _, none, children⟩ => contentList children

/-- The texts of some nodes, joined. -/
def contentList : List Snapshot → String
  | [] => ""
  | s :: ss => s.content ++ contentList ss

end

/-! ## Snapshots of trees -/

mutual

/-- The snapshot of a node over a source, in which its tokens have to lie. -/
def ofNode (source : Source) : Node → Except Fault Snapshot
  | .token kind range => do
    let text ← source.sliceText range
    return ⟨"token", kind.name, range.start, range.stop, some text, []⟩
  | .production name range children => do
    return ⟨"production", name, range.start, range.stop, none, ← ofNodes source children⟩

/-- The snapshots of some nodes. -/
def ofNodes (source : Source) : List Node → Except Fault (List Snapshot)
  | [] => return []
  | n :: ns => do
    let s ← ofNode source n
    return s :: (← ofNodes source ns)

end

/-! ## Snapshots as data -/

/-- The members of a node without children. -/
def ownMembers (nodeType name : String) (start stop : Nat) (text : Option String) :
    List (String × Json) :=
  [("node_type", .str nodeType), ("name", .str name), ("start", .nat start),
    ("end", .nat stop)] ++ (text.map fun t => ("text", Json.str t)).toList

mutual

/-- A node as data; a text that is absent is left out, and so are children if there are
none. -/
def toJson : Snapshot → Json
  | ⟨nodeType, name, start, stop, text, []⟩ => .obj (ownMembers nodeType name start stop text)
  | ⟨nodeType, name, start, stop, text, child :: children⟩ =>
    .obj (ownMembers nodeType name start stop text ++
      [("children", .arr (child.toJson :: toJsonList children))])

/-- Some nodes as data. -/
def toJsonList : List Snapshot → List Json
  | [] => []
  | s :: ss => s.toJson :: toJsonList ss

end

/-! ## Drawing -/

/-- The most characters of a text that are drawn. -/
def maxText : Nat := 30

/-- The first characters of a text. -/
def truncate (text : String) : String :=
  if maxText < text.length then String.ofList (text.toList.take maxText) ++ "..." else text

/-- The name of a node, with its text or else with its span. -/
def label (s : Snapshot) : String :=
  match s.text with
  | some text => s.name ++ " " ++ Text.quote (truncate text)
  | none => s.name ++ " " ++ (Span.mk s.start s.stop).text

mutual

/-- The lines below a node whose own line starts with `indent`. -/
def drawBelow (showWhitespace : Bool) (indent : String) : Snapshot → String
  | ⟨_, _, _, _, _, children⟩ => drawList showWhitespace indent children

/-- The lines of nodes that follow each other. -/
def drawList (showWhitespace : Bool) (indent : String) : List Snapshot → String
  | [] => ""
  | s :: ss =>
    if showWhitespace || !s.isWhitespace then
      let isLast := ss.all fun s => !(showWhitespace || !s.isWhitespace)
      indent ++ (if isLast then "└─ " else "├─ ") ++ s.label ++ "\n" ++
        drawBelow showWhitespace (indent ++ if isLast then "  " else "│ ") s ++
        drawList showWhitespace indent ss
    else drawList showWhitespace indent ss

end

/-- One line for each node.  Whitespace can be left out, as if it were not in the tree. -/
def draw (showWhitespace : Bool) (s : Snapshot) : String :=
  s.label ++ "\n" ++ drawBelow showWhitespace "" s

end Snapshot

/-- The snapshot of a tree, unless it is empty. -/
def SyntaxTree.snapshot? (t : SyntaxTree) (source : Source) : Except Fault (Option Snapshot) :=
  match t.root? with
  | none => return none
  | some n => return some (← Snapshot.ofNode source n)

/-- The drawing of a tree; nothing for an empty one. -/
def SyntaxTree.draw (t : SyntaxTree) (source : Source) (showWhitespace : Bool) :
    Except Fault String := do
  return ((← t.snapshot? source).map (·.draw showWhitespace)).getD ""

end Phrase
