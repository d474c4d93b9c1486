import Phrase.Tree.Basic

/-!
# Building trees

A tree is built from the top down and in document order.  The builder holds the open
productions, innermost first, each with the children it has so far.  Only the innermost one
can be finished or cancelled; cancelling drops all that has been added since it was started.
-/

namespace Phrase

/-- An open production. -/
structure Frame where
  name : String
  start : Nat
  /-- The children so far, the last one first. -/
  reversed : List Node

namespace Frame

/-- Where the content ends: with the last node, but not in front of the start. -/
def stop (f : Frame) : Nat :=
  match f.reversed with
  | [] => f.start
  | n :: _ => max n.lastStop f.start

/-- The finished production. -/
def toNode (f : Frame) : Node := .production f.name ⟨f.start, f.stop⟩ f.reversed.reverse

/-- Adds a child behind the others. -/
def push (f : Frame) (n : Node) : Frame := { f with reversed := n :: f.reversed }

end Frame

/-- The open productions. -/
structure TreeBuilder where
  current : Frame
  /-- The productions around the current one, innermost first. -/
  outer : List Frame

namespace TreeBuilder

/-- Starts with the root. -/
def new (name : String) (start : Nat) : TreeBuilder := ⟨⟨name, start, []⟩, []⟩

/-- Whether only the root is open. -/
def atRoot (b : TreeBuilder) : Bool := b.outer.isEmpty

/-- Starts a production inside of the current one. -/
def start (b : TreeBuilder) (name : String) (position : Nat) : TreeBuilder :=
  ⟨⟨name, position, []⟩, b.current :: b.outer⟩

/-- Adds a token. -/
def token (b : TreeBuilder) (kind : TokenKind) (range : Span) : TreeBuilder :=
  { b with current := b.current.push (.token kind range) }

/-- Finishes the current production; the root stays open. -/
def finish (b : TreeBuilder) : TreeBuilder :=
  match b.outer with
  | [] => b
  | f :: fs => ⟨f.push b.current.toNode, fs⟩

/-- Drops the current production; the root stays. -/
def cancel (b : TreeBuilder) : TreeBuilder :=
  match b.outer with
  | [] => b
  | f :: fs => ⟨f, fs⟩

/-- Drops the current production and keeps what it has passed as one error token. -/
def cancelAt (b : TreeBuilder) (position : Nat) : TreeBuilder :=
  let start := b.current.start
  if start < position then b.cancel.token .error ⟨start, position⟩ else b.cancel

/-- Finishes all productions but the root. -/
def finishAll (b : TreeBuilder) : TreeBuilder :=
  b.outer.foldl (fun b _ => b.finish) b

/-- The tree, once only the root is open. -/
def tree (b : TreeBuilder) : SyntaxTree := ⟨some b.current.toNode⟩

end TreeBuilder

/-! ## Trees of event streams -/

/-- What is known of the tree in the middle of an event stream: the productions that are
open, and the tree of the last root that was finished. -/
structure TreeSketch where
  builder? : Option TreeBuilder
  tree : SyntaxTree

namespace TreeSketch

/-- What is known at the start. -/
def empty : TreeSketch := ⟨none, .empty⟩

/-- What is known behind an event. -/
def on (s : TreeSketch) : Event → TreeSketch
  | .start name position =>
    match s.builder? with
    | none => { s with builder? := some (.new name position) }
    | some b => { s with builder? := some (b.start name position) }
  | .finish _ _ =>
    match s.builder? with
    | none => s
    | some b => if b.atRoot then ⟨none, b.tree⟩ else { s with builder? := some b.finish }
  | .cancel _ position =>
    match s.builder? with
    | none => s
    | some b => if b.atRoot then .empty else { s with builder? := some (b.cancelAt position) }
  | .token kind range => { s with builder? := s.builder?.map fun b => b.token kind range }
  | .error _ => s

end TreeSketch

/-- The tree of an event stream; it is empty unless the root was finished. -/
def SyntaxTree.ofEvents (events : List Event) : SyntaxTree :=
  (events.foldl TreeSketch.on .empty).tree

end Phrase
