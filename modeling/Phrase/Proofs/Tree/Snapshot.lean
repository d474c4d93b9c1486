import Phrase.Proofs.Tree.Arena
import Phrase.Proofs.Tree.Lossless
import Phrase.Tree.Snapshot

/-!
# Snapshots of arenas

A snapshot can be made from an arena as well, by following the numbers of the children.  In the
arena of a tree every number is that of a node, and what comes out is the snapshot of the tree
(`Snapshot.ofArena_arena`).  A tree that loses nothing has a snapshot over every source
that it lies in (`Snapshot.exists_ofNode`).
-/

namespace Phrase

namespace NodeKind

/-- The class of a node in a snapshot. -/
def nodeType : NodeKind → String
  | .production _ => "production"
  | .token _ => "token"

/-- The production's name, or the name of the token's class. -/
def name : NodeKind → String
  | .production name => name
  | .token kind => kind.name

end NodeKind

/-- The text of a token, which has to lie inside of the source. -/
def NodeData.text? (n : NodeData) (source : Source) : Except Fault (Option String) :=
  match n.kind with
  | .token _ => (source.sliceText n.range).map some
  | .production _ => .ok none

namespace Snapshot

/-- The snapshot of the node with a number in an arena, no deeper than `fuel` says. -/
def ofArenaNode (source : Source) (nodes : List NodeData) : Nat → Nat → Except Fault Snapshot
  | 0, id => .error (.nodeOutside id)
  | fuel + 1, id =>
    match nodes[id]? with
    | none => .error (.nodeOutside id)
    | some n => do
      let text ← n.text? source
      let children ← n.children.mapM (ofArenaNode source nodes fuel)
      return ⟨n.kind.nodeType, n.kind.name, n.range.start, n.range.stop, text, children⟩

/-- The snapshot of an arena, unless it is empty.  No tree is deeper than it has nodes. -/
def ofArena (source : Source) (nodes : List NodeData) : Except Fault (Option Snapshot) :=
  if nodes.isEmpty then return none
  else return some (← ofArenaNode source nodes nodes.length 0)

/-! ## Arenas of trees -/

mutual

/-- Following the numbers from a node in the arena of a tree finds what is below the node. -/
theorem ofArenaNode_entries (source : Source) : (n : Node) → (pre : List Entry) → {id : Nat} →
    pre.length = id → (parent : Option Nat) → (post : List Entry) → (fuel : Nat) →
    n.size ≤ fuel → ofArenaNode source ((pre ++ (n.entries id parent ++ post)).map Entry.data)
      fuel id = ofNode source n
  | .token kind range, pre, id, hpre, parent, post, fuel, hfuel => by
    obtain ⟨fuel, rfl⟩ := Nat.exists_eq_add_one.2 hfuel
    rw [Node.entries, List.map_append, List.singleton_append, List.map_cons, ofArenaNode,
      ArenaBuilder.getElem?_split ((List.length_map _).trans hpre), ofNode]
    show (source.sliceText range).map some >>= _ = _
    cases source.sliceText range with
    | error f => rfl
    | ok text => rfl
  | .production name range children, pre, id, hpre, parent, post, fuel, hfuel => by
    obtain ⟨fuel, rfl⟩ := Nat.exists_eq_add_one.2 (Nat.lt_of_lt_of_le (Nat.succ_pos _) hfuel)
    have hchildren := mapM_ofArenaNode source children
      (pre ++ [⟨id, parent, childIds (id + 1) children, .production name range children⟩])
      (by rw [List.length_append, hpre, List.length_singleton]) id post fuel
      (Nat.le_of_succ_le_succ hfuel)
    rw [← List.append_cons, List.map_append, List.map_cons] at hchildren
    rw [Node.entries, List.cons_append, List.map_append, List.map_cons, ofArenaNode,
      ArenaBuilder.getElem?_split ((List.length_map _).trans hpre), ofNode, ← hchildren]
    rfl

theorem mapM_ofArenaNode (source : Source) : (ns : List Node) → (pre : List Entry) → {id : Nat} →
    pre.length = id → (parent : Nat) → (post : List Entry) → (fuel : Nat) →
    Node.sizeList ns ≤ fuel → (childIds id ns).mapM (ofArenaNode source
      ((pre ++ (Node.entriesList id parent ns ++ post)).map Entry.data) fuel) = ofNodes source ns
  | [], _, _, _, _, _, _, _ => by
    rw [childIds, List.mapM_nil]
    rfl
  | n :: ns, pre, id, hpre, parent, post, fuel, hfuel => by
    rw [Node.sizeList] at hfuel
    have hn := ofArenaNode_entries source n pre hpre (some parent)
      (Node.entriesList (id + n.size) parent ns ++ post) fuel (by omega)
    have hns := mapM_ofArenaNode source ns (pre ++ n.entries id (some parent))
      (by rw [List.length_append, hpre, Node.length_entries]) parent post fuel (by omega)
    rw [List.append_assoc] at hns
    rw [childIds, List.mapM_cons, Node.entriesList, List.append_assoc, hn, hns, ofNodes]

end

/-- The snapshot of the arena of a tree is that of the tree. -/
theorem ofArena_arena (source : Source) (t : SyntaxTree) :
    ofArena source t.arena = t.snapshot? source := by
  obtain ⟨root?⟩ := t
  cases root? with
  | none => rfl
  | some n =>
    have harena : SyntaxTree.arena ⟨some n⟩ = (n.entries 0 none).map Entry.data := rfl
    have hlength : ((n.entries 0 none).map Entry.data).length = n.size := by
      rw [List.length_map, Node.length_entries]
    have hempty : ((n.entries 0 none).map Entry.data).isEmpty = false := by
      cases n with
      | token kind range => rfl
      | production name range children => rfl
    have hroot := ofArenaNode_entries source n [] List.length_nil none [] n.size (Nat.le_refl _)
    rw [List.nil_append, List.append_nil] at hroot
    rw [ofArena, harena, hempty, hlength, hroot]
    rfl

/-! ## Trees inside of a source -/

mutual

/-- A tree that loses nothing has a snapshot over a source that it lies in. -/
theorem exists_ofNode {source : Source} : (n : Node) → n.Lossless →
    n.range.stop ≤ source.size → ∃ s, ofNode source n = .ok s
  | .token kind range, hn, hstop => by
    obtain ⟨us, hus⟩ : ∃ us, source.slice range = .ok us :=
      ⟨_, Source.slice_eq_ok_iff.2 ⟨hn, hstop, rfl⟩⟩
    refine ⟨⟨"token", kind.name, range.start, range.stop, some (source.encoding.display us), []⟩,
      ?_⟩
    rw [ofNode, Source.sliceText, hus]
    rfl
  | .production name range children, hn, hstop => by
    rw [Node.Lossless] at hn
    obtain ⟨ss, hss⟩ := exists_ofNodes children hn.2 hn.1 hstop
    refine ⟨⟨"production", name, range.start, range.stop, none, ss⟩, ?_⟩
    rw [ofNode, hss]
    rfl

theorem exists_ofNodes {source : Source} : (ns : List Node) → Node.LosslessList ns →
    {p q : Nat} → Span.Tile p q (ns.map Node.range) → q ≤ source.size →
    ∃ ss, ofNodes source ns = .ok ss
  | [], _, _, _, _, _ => ⟨[], rfl⟩
  | n :: ns, hns, p, q, htile, hq => by
    rw [Node.LosslessList] at hns
    obtain ⟨-, -, htile⟩ := htile
    obtain ⟨s, hs⟩ := exists_ofNode n hns.1 (Nat.le_trans htile.le hq)
    obtain ⟨ss, hss⟩ := exists_ofNodes ns hns.2 htile hq
    exact ⟨s :: ss, by rw [ofNodes, hs, hss]; rfl⟩

end

end Snapshot

end Phrase
