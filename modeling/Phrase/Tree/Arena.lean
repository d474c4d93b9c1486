import Phrase.Tree.Basic

/-!
# Arenas

A tree can be held as a list of its nodes in document order, which refer to each other by
number.  Such an arena is built from the top down: a node is added behind the others and
becomes a child of the open production.  Whoever starts a production is given a marker to
hand back when it is closed, and markers come back innermost first.  Cancelling a production
cuts off the nodes from it on.
-/

namespace Phrase

/-- What a node of an arena stands for. -/
inductive NodeKind where
  | production (name : String)
  | token (kind : TokenKind)
  deriving DecidableEq, Repr

/-- A node of an arena. -/
structure NodeData where
  kind : NodeKind
  range : Span
  parent : Option Nat
  children : List Nat
  deriving DecidableEq, Repr

/-- A numbered node as it stands in an arena. -/
def Entry.data (e : Entry) : NodeData where
  kind := match e.node with
    | .token kind _ => .token kind
    | .production name _ _ => .production name
  range := e.node.range
  parent := e.parent
  children := e.children

/-- The arena of a tree. -/
def SyntaxTree.arena (t : SyntaxTree) : List NodeData := t.entries.map Entry.data

/-! ## Building -/

/-- An arena in which a production is open. -/
structure ArenaBuilder where
  nodes : List NodeData
  /-- The number of the innermost open production. -/
  current : Nat

/-- An open production. -/
structure Marker where
  node : Nat
  /-- The production that is open again when this one is closed. -/
  parent : Nat

namespace ArenaBuilder

/-- Starts with the root. -/
def new (root : String) (start : Nat) : ArenaBuilder :=
  ⟨[⟨.production root, ⟨start, start⟩, none, []⟩], 0⟩

/-- Changes a node. -/
def update (b : ArenaBuilder) (id : Nat) (f : NodeData → NodeData) :
    Except Fault ArenaBuilder :=
  match b.nodes[id]? with
  | some n => .ok { b with nodes := b.nodes.set id (f n) }
  | none => .error .outOfBounds

/-- Adds a node to the open production. -/
def push (b : ArenaBuilder) (kind : NodeKind) (range : Span) : Except Fault ArenaBuilder :=
  let id := b.nodes.length
  let added : ArenaBuilder := { b with nodes := b.nodes ++ [⟨kind, range, some b.current, []⟩] }
  added.update b.current fun n => { n with children := n.children ++ [id] }

/-- Starts a production inside of the open one. -/
def start (b : ArenaBuilder) (name : String) (position : Nat) :
    Except Fault (ArenaBuilder × Marker) := do
  let added ← b.push (.production name) ⟨position, position⟩
  return ({ added with current := b.nodes.length }, ⟨b.nodes.length, b.current⟩)

/-- Adds a token. -/
def token (b : ArenaBuilder) (kind : TokenKind) (range : Span) : Except Fault ArenaBuilder :=
  b.push (.token kind) range

/-- Where the content of a production ends: with the last node of all, but not in front of
the start. -/
def contentEnd (b : ArenaBuilder) (id : Nat) : Except Fault Nat :=
  match b.nodes[id]? with
  | none => .error .outOfBounds
  | some n =>
    match (b.nodes.drop id).getLast? with
    | some last => .ok (max last.range.stop n.range.start)
    | none => .ok n.range.start

/-- Ends a production with its content. -/
def closeContent (b : ArenaBuilder) (id : Nat) : Except Fault ArenaBuilder := do
  let stop ← b.contentEnd id
  b.update id fun n => { n with range := ⟨n.range.start, stop⟩ }

/-- Finishes the production of a marker. -/
def finish (b : ArenaBuilder) (m : Marker) : Except Fault ArenaBuilder :=
  if m.node ≠ b.current then .error (.markerOutOfOrder m.node b.current)
  else do
    let closed ← b.closeContent m.node
    return { closed with current := m.parent }

/-- Drops the production of a marker and all that was added since. -/
def cancel (b : ArenaBuilder) (m : Marker) : Except Fault ArenaBuilder :=
  if m.node ≠ b.current then .error (.markerOutOfOrder m.node b.current)
  else do
    let cut : ArenaBuilder := { b with nodes := b.nodes.take m.node }
    let cut ← cut.update m.parent fun n => { n with children := n.children.dropLast }
    return { cut with current := m.parent }

/-- Where the production of a marker starts. -/
def startOf (b : ArenaBuilder) (m : Marker) : Except Fault Nat :=
  match b.nodes[m.node]? with
  | some n => .ok n.range.start
  | none => .error .outOfBounds

/-- The arena, once only the root is open. -/
def tree (b : ArenaBuilder) : Except Fault (List NodeData) :=
  if b.current ≠ 0 then .error (.unfinishedProductions b.current)
  else (b.closeContent 0).map (·.nodes)

end ArenaBuilder

end Phrase
