import Phrase.Tree.Arena
import Phrase.Tree.Builder

/-!
# The arena of open productions

A builder of nested frames and a builder of an arena do the same.  `TreeBuilder.arena` says
which arena belongs to some open productions, and `TreeBuilder.markers` which markers are out;
every operation on the frames is the one on the arena, and no marker comes back out of order.
-/

namespace Phrase

/-! ## Numbering -/

namespace Node

theorem entriesList_append (ms ns : List Node) (id parent : Nat) :
    entriesList id parent (ms ++ ns) =
      entriesList id parent ms ++ entriesList (id + sizeList ms) parent ns := by
  induction ms generalizing id with
  | nil => rfl
  | cons m ms ih =>
    show m.entries id (some parent) ++ entriesList (id + m.size) parent (ms ++ ns) = _
    rw [ih, Nat.add_assoc, entriesList, List.append_assoc]
    rfl

mutual

theorem length_entries : (n : Node) → (id : Nat) → (parent : Option Nat) →
    (n.entries id parent).length = n.size
  | .token _ _, _, _ => rfl
  | .production name range children, id, parent => by
    rw [entries, List.length_cons, length_entriesList children, size]

theorem length_entriesList : (ns : List Node) → (id parent : Nat) →
    (entriesList id parent ns).length = sizeList ns
  | [], _, _ => rfl
  | n :: ns, id, parent => by
    rw [entriesList, List.length_append, length_entries n, length_entriesList ns, sizeList]

end

mutual

/-- The last node of a tree ends where `lastStop` says. -/
theorem getLast?_entries : (n : Node) → (id : Nat) → (parent : Option Nat) →
    (n.entries id parent).getLast?.map (·.node.range.stop) = some n.lastStop
  | .token kind range, id, parent => rfl
  | .production name range children, id, parent => by
    have hchildren := getLast?_entriesList children (id + 1) id range.stop
    rw [entries, List.getLast?_cons, lastStop, ← hchildren]
    cases (entriesList (id + 1) id children).getLast? with
    | none => rfl
    | some e => rfl

/-- The last node of some trees ends where `lastStopList` says. -/
theorem getLast?_entriesList : (ns : List Node) → (id parent stop : Nat) →
    ((entriesList id parent ns).getLast?.map (·.node.range.stop)).getD stop =
      lastStopList stop ns
  | [], id, parent, stop => rfl
  | n :: ns, id, parent, stop => by
    have hn := getLast?_entries n id (some parent)
    have hns := getLast?_entriesList ns (id + n.size) parent n.lastStop
    rw [entriesList, List.getLast?_append, lastStopList, ← hns]
    cases (entriesList (id + n.size) parent ns).getLast? with
    | none =>
      rw [Option.none_or, hn]
      rfl
    | some e => rfl

end

end Node

theorem childIds_append (ms ns : List Node) (id : Nat) :
    childIds id (ms ++ ns) = childIds id ms ++ childIds (id + Node.sizeList ms) ns := by
  induction ms generalizing id with
  | nil => rfl
  | cons m ms ih =>
    show id :: childIds (id + m.size) (ms ++ ns) = _
    rw [ih, Nat.add_assoc]
    rfl

/-! ## Changing one node -/

namespace ArenaBuilder

variable {pre post : List NodeData} {n : NodeData} {id c : Nat}

theorem getElem?_split (h : pre.length = id) : (pre ++ n :: post)[id]? = some n := by
  rw [← h, List.getElem?_append_right (Nat.le_refl _), Nat.sub_self]
  rfl

theorem update_split (h : pre.length = id) (f : NodeData → NodeData) :
    (⟨pre ++ n :: post, c⟩ : ArenaBuilder).update id f = .ok ⟨pre ++ f n :: post, c⟩ := by
  unfold update
  simp only [getElem?_split h]
  rw [← h, List.set_append_right _ _ (Nat.le_refl _), Nat.sub_self]
  rfl

/-- The content of a production ends with the last node behind it. -/
theorem closeContent_split (h : pre.length = id) {last : NodeData} {stop : Nat}
    (hlast : (n :: post).getLast? = some last) (hstop : max last.range.stop n.range.start = stop) :
    (⟨pre ++ n :: post, c⟩ : ArenaBuilder).closeContent id =
      .ok ⟨pre ++ { n with range := ⟨n.range.start, stop⟩ } :: post, c⟩ := by
  have hend : (⟨pre ++ n :: post, c⟩ : ArenaBuilder).contentEnd id = .ok stop := by
    unfold contentEnd
    simp only [getElem?_split h]
    rw [← h, List.drop_left, hlast]
    exact congrArg _ hstop
  unfold closeContent
  rw [hend]
  exact update_split h _

end ArenaBuilder

/-! ## Open productions -/

namespace Frame

/-- The number of nodes of some open productions, innermost first. -/
def count : List Frame → Nat
  | [] => 0
  | f :: fs => count fs + 1 + Node.sizeList f.reversed.reverse

/-- The number of the innermost of some open productions. -/
def innermost? : List Frame → Option Nat
  | [] => none
  | _ :: fs => some (count fs)

/-- An open production in an arena; `more` are the children that are open themselves. -/
def data (f : Frame) (fs : List Frame) (more : List Nat) : NodeData where
  kind := .production f.name
  range := ⟨f.start, f.start⟩
  parent := innermost? fs
  children := childIds (count fs + 1) f.reversed.reverse ++ more

/-- What an open production has inside so far, in an arena. -/
def content (f : Frame) (fs : List Frame) : List NodeData :=
  (Node.entriesList (count fs + 1) (count fs) f.reversed.reverse).map Entry.data

/-- The nodes of some open productions in an arena; `more` are the children of the innermost
one that are open themselves. -/
def nodes : List Nat → List Frame → List NodeData
  | _, [] => []
  | more, f :: fs => nodes [count fs] fs ++ f.data fs more :: f.content fs

/-- The markers of all these productions, those around them apart from the root. -/
def markers : List Frame → List Marker
  | [] => []
  | _ :: [] => []
  | _ :: g :: fs => ⟨count (g :: fs), count fs⟩ :: markers (g :: fs)

theorem length_nodes (more : List Nat) (fs : List Frame) : (nodes more fs).length = count fs := by
  induction fs generalizing more with
  | nil => rfl
  | cons f fs ih =>
    rw [nodes, List.length_append, List.length_cons, ih, content, List.length_map,
      Node.length_entriesList, count]
    omega

/-- A finished child stands behind all other nodes. -/
theorem nodes_push (f : Frame) (fs : List Frame) (n : Node) :
    nodes [] (f.push n :: fs) = nodes [count (f :: fs)] (f :: fs) ++
      (n.entries (count (f :: fs)) (some (count fs))).map Entry.data := by
  have hcount : count fs + 1 + Node.sizeList f.reversed.reverse = count (f :: fs) := rfl
  have hreversed : (f.push n).reversed.reverse = f.reversed.reverse ++ [n] := List.reverse_cons
  have hdata : (f.push n).data fs [] = f.data fs [count (f :: fs)] := by
    rw [data, hreversed, childIds_append, hcount, List.append_nil]
    rfl
  have hcontent : (f.push n).content fs = f.content fs ++
      (n.entries (count (f :: fs)) (some (count fs))).map Entry.data := by
    rw [content, hreversed, Node.entriesList_append, hcount, List.map_append]
    show _ ++ (n.entries _ _ ++ []).map Entry.data = _
    rw [List.append_nil]
    rfl
  rw [nodes, nodes, hdata, hcontent, List.append_assoc, List.cons_append]

/-- The innermost open production ends with the last node of all. -/
theorem exists_getLast?_content (f : Frame) (fs : List Frame) (more : List Nat) :
    ∃ last, (f.data fs more :: f.content fs).getLast? = some last ∧
      max last.range.stop f.start = f.stop := by
  cases hreversed : f.reversed with
  | nil =>
    have hcontent : f.content fs = [] := by
      rw [content, hreversed]
      rfl
    refine ⟨f.data fs more, by rw [hcontent]; rfl, ?_⟩
    rw [stop, hreversed]
    exact Nat.max_self f.start
  | cons n ns =>
    obtain ⟨e, he, hstop⟩ := Option.map_eq_some_iff.1 (Node.getLast?_entries n
      (count fs + 1 + Node.sizeList ns.reverse) (some (count fs)))
    refine ⟨e.data, ?_, ?_⟩
    · rw [content, hreversed, List.reverse_cons, Node.entriesList_append, List.map_append]
      show (_ :: (_ ++ (n.entries _ _ ++ []).map Entry.data)).getLast? = _
      rw [List.append_nil, List.getLast?_cons, List.getLast?_append, List.getLast?_map, he]
      rfl
    · rw [stop, hreversed]
      show max e.node.range.stop f.start = max n.lastStop f.start
      rw [hstop]

theorem kinds_markers (more : List Nat) (f : Frame) (fs : List Frame) (post : List NodeData) :
    ((markers (f :: fs)).map Marker.node ++ [0]).map
        (fun id => (nodes more (f :: fs) ++ post)[id]?.map NodeData.kind) =
      (f :: fs).map fun f => some (.production f.name) := by
  induction fs generalizing more f post with
  | nil => rfl
  | cons g fs ih =>
    have hnodes : nodes more (f :: g :: fs) ++ post = nodes [count (g :: fs)] (g :: fs) ++
        f.data (g :: fs) more :: (f.content (g :: fs) ++ post) := by
      rw [nodes, List.append_assoc, List.cons_append]
    rw [hnodes, markers, List.map_cons, List.cons_append, List.map_cons, ih,
      ArenaBuilder.getElem?_split (length_nodes _ (g :: fs))]
    rfl

end Frame

/-! ## Builders -/

namespace TreeBuilder

open Phrase.Frame

/-- The arena of the open productions. -/
def arena (b : TreeBuilder) : ArenaBuilder := ⟨nodes [] (b.current :: b.outer), count b.outer⟩

/-- The markers that are out. -/
def markers (b : TreeBuilder) : List Marker := Frame.markers (b.current :: b.outer)

variable (b : TreeBuilder)

theorem arena_push (kind : NodeKind) (range : Span) :
    b.arena.push kind range =
      .ok ⟨nodes [count (b.current :: b.outer)] (b.current :: b.outer) ++
        [⟨kind, range, some (count b.outer), []⟩], count b.outer⟩ := by
  obtain ⟨f, fs⟩ := b
  have hlength : (nodes [] (f :: fs)).length = count (f :: fs) := length_nodes _ _
  unfold ArenaBuilder.push arena
  simp only [hlength]
  rw [nodes, List.append_assoc, List.cons_append, ArenaBuilder.update_split (length_nodes _ fs)]
  rw [nodes, List.append_assoc, List.cons_append]
  simp only [data, List.append_nil]

theorem arena_start (name : String) (position : Nat) :
    b.arena.start name position =
      .ok ((b.start name position).arena, ⟨count (b.current :: b.outer), count b.outer⟩) := by
  have hlength : b.arena.nodes.length = count (b.current :: b.outer) := length_nodes _ _
  unfold ArenaBuilder.start
  rw [arena_push, hlength]
  rfl

theorem arena_token (kind : TokenKind) (range : Span) :
    b.arena.token kind range = .ok (b.token kind range).arena := by
  unfold ArenaBuilder.token
  rw [arena_push]
  obtain ⟨f, fs⟩ := b
  show Except.ok _ = Except.ok (⟨nodes [] (f.push (.token kind range) :: fs), count fs⟩ : ArenaBuilder)
  rw [nodes_push]
  rfl

variable {f g : Frame} {fs : List Frame}

theorem arena_finish :
    (⟨f, g :: fs⟩ : TreeBuilder).arena.finish ⟨count (g :: fs), count fs⟩ =
      .ok (⟨f, g :: fs⟩ : TreeBuilder).finish.arena := by
  obtain ⟨last, hlast, hstop⟩ := f.exists_getLast?_content (g :: fs) []
  unfold ArenaBuilder.finish
  rw [if_neg (by exact fun h => h rfl)]
  unfold arena
  rw [nodes, ArenaBuilder.closeContent_split (length_nodes _ (g :: fs)) hlast hstop]
  show Except.ok _ = Except.ok (⟨nodes [] (g.push f.toNode :: fs), count fs⟩ : ArenaBuilder)
  rw [nodes_push]
  simp only [data, List.append_nil]
  rfl

theorem arena_cancel :
    (⟨f, g :: fs⟩ : TreeBuilder).arena.cancel ⟨count (g :: fs), count fs⟩ =
      .ok (⟨g, fs⟩ : TreeBuilder).arena := by
  have htake : (nodes [] (f :: g :: fs)).take (count (g :: fs)) =
      nodes [count (g :: fs)] (g :: fs) := by
    rw [nodes]
    exact List.take_left' (length_nodes _ _)
  unfold ArenaBuilder.cancel
  rw [if_neg (by exact fun h => h rfl)]
  unfold arena
  simp only [htake]
  rw [nodes, ArenaBuilder.update_split (length_nodes _ fs)]
  simp only [data, List.dropLast_concat]
  rw [nodes, data, List.append_nil]
  rfl

theorem arena_startOf (m : Nat) : b.arena.startOf ⟨count b.outer, m⟩ = .ok b.current.start := by
  unfold ArenaBuilder.startOf arena
  simp only
  rw [nodes, ArenaBuilder.getElem?_split (length_nodes _ b.outer)]
  rfl

theorem arena_tree : (⟨f, []⟩ : TreeBuilder).arena.tree = .ok (⟨f, []⟩ : TreeBuilder).tree.arena := by
  obtain ⟨last, hlast, hstop⟩ := f.exists_getLast?_content [] []
  unfold ArenaBuilder.tree
  rw [if_neg (by exact fun h => h rfl)]
  show ((⟨nodes [] [f], 0⟩ : ArenaBuilder).closeContent (count [])).map _ = _
  rw [nodes, ArenaBuilder.closeContent_split (length_nodes _ []) hlast hstop]
  simp only [data, List.append_nil]
  rfl

/-- The markers lead to the open productions that they were handed out for. -/
theorem kinds_markers (b : TreeBuilder) :
    (b.markers.map Marker.node ++ [0]).map (fun id => b.arena.nodes[id]?.map NodeData.kind) =
      (b.current :: b.outer).map fun f => some (.production f.name) := by
  have h := Frame.kinds_markers [] b.current b.outer []
  rw [List.append_nil] at h
  exact h

end TreeBuilder

end Phrase
