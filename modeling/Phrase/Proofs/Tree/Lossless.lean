import Phrase.Proofs.Run.Root

/-!
# Trees keep everything

The tree of a run whose root has matched covers what the root has passed over: the children
of every production lie behind each other, without a gap, from where the production starts to
where it ends, and so do the tokens of the whole tree (`Outcome.Rooted.lossless_tree`).

A production ends with the node added last, wherever in the tree that is.  Below it lie
productions that have ended in the same way, so that node ends where the last child does.
-/

namespace Phrase

/-! ## Nodes -/

namespace Node

mutual

/-- The children of every production in a tree lie behind each other, without a gap, in all
of its span. -/
def Lossless : Node → Prop
  | .token _ range => range.start ≤ range.stop
  | .production _ range children =>
    Span.Tile range.start range.stop (children.map Node.range) ∧ LosslessList children

/-- The same for some trees. -/
def LosslessList : List Node → Prop
  | [] => True
  | n :: ns => n.Lossless ∧ LosslessList ns

end

theorem losslessList_iff {ns : List Node} : LosslessList ns ↔ ∀ n ∈ ns, n.Lossless := by
  induction ns with
  | nil => exact ⟨fun _ n h => absurd h List.not_mem_nil, fun _ => trivial⟩
  | cons n ns ih => rw [LosslessList, ih, List.forall_mem_cons]

theorem Lossless.start_le_stop {n : Node} (h : n.Lossless) : n.range.start ≤ n.range.stop := by
  cases n with
  | token kind range => exact h
  | production name range children =>
    rw [Lossless] at h
    exact h.1.le

mutual

/-- A tree that loses nothing ends with the last node in it. -/
theorem Lossless.lastStop_eq : {n : Node} → n.Lossless → n.lastStop = n.range.stop
  | .token _ _, _ => rfl
  | .production name range [], h => rfl
  | .production name range (n :: ns), h => by
    rw [Lossless, List.map_cons, LosslessList] at h
    obtain ⟨⟨-, -, htile⟩, hn, hns⟩ := h
    show lastStopList n.lastStop ns = range.stop
    rw [hn.lastStop_eq]
    exact LosslessList.lastStopList_eq hns htile

/-- Trees that lie behind each other end with the last node in them. -/
theorem LosslessList.lastStopList_eq : {ns : List Node} → {p q : Nat} → LosslessList ns →
    Span.Tile p q (ns.map Node.range) → lastStopList p ns = q
  | [], _, _, _, htile => htile
  | n :: ns, p, q, h, htile => by
    rw [LosslessList] at h
    rw [List.map_cons] at htile
    obtain ⟨-, -, htile⟩ := htile
    show lastStopList n.lastStop ns = q
    rw [h.1.lastStop_eq]
    exact LosslessList.lastStopList_eq h.2 htile

end

mutual

/-- The tokens of a tree that loses nothing lie behind each other in all of its span. -/
theorem Lossless.tile_tokens : {n : Node} → n.Lossless →
    Span.Tile n.range.start n.range.stop (n.tokens.map Node.range)
  | .token _ _, h => ⟨rfl, h, rfl⟩
  | .production name range children, h => by
    rw [Lossless] at h
    exact LosslessList.tile_tokensList h.2 h.1

theorem LosslessList.tile_tokensList : {ns : List Node} → {p q : Nat} → LosslessList ns →
    Span.Tile p q (ns.map Node.range) → Span.Tile p q ((tokensList ns).map Node.range)
  | [], _, _, _, htile => htile
  | n :: ns, p, q, h, htile => by
    rw [LosslessList] at h
    rw [List.map_cons] at htile
    obtain ⟨rfl, -, htile⟩ := htile
    rw [tokensList, List.map_append]
    exact h.1.tile_tokens.append (LosslessList.tile_tokensList h.2 htile)

end

mutual

/-- Every node in a tree that loses nothing loses nothing. -/
theorem Lossless.entries : {n : Node} → {id : Nat} → {parent : Option Nat} → n.Lossless →
    ∀ e ∈ n.entries id parent, e.node.Lossless
  | .token kind range, id, parent, h => by
    intro e he
    rw [Node.entries, List.mem_singleton] at he
    rw [he]
    exact h
  | .production name range children, id, parent, h => by
    intro e he
    rw [Node.entries, List.mem_cons] at he
    rcases he with rfl | he
    · exact h
    · rw [Lossless] at h
      exact LosslessList.entriesList h.2 e he

theorem LosslessList.entriesList : {ns : List Node} → {id parent : Nat} → LosslessList ns →
    ∀ e ∈ Node.entriesList id parent ns, e.node.Lossless
  | [], _, _, _ => by
    intro e he
    cases he
  | n :: ns, id, parent, h => by
    intro e he
    rw [LosslessList] at h
    rw [Node.entriesList, List.mem_append] at he
    rcases he with he | he
    · exact h.1.entries e he
    · exact LosslessList.entriesList h.2 e he

end

mutual

/-- The nodes of a tree that are tokens are its tokens. -/
theorem filter_entries : (n : Node) → (id : Nat) → (parent : Option Nat) →
    ((n.entries id parent).filter (·.node.isToken)).map (·.node) = n.tokens
  | .token kind range, id, parent => rfl
  | .production name range children, id, parent => by
    rw [Node.entries, List.filter_cons_of_neg (by exact Bool.false_ne_true)]
    exact filter_entriesList children (id + 1) id

theorem filter_entriesList : (ns : List Node) → (id parent : Nat) →
    ((Node.entriesList id parent ns).filter (·.node.isToken)).map (·.node) = tokensList ns
  | [], _, _ => rfl
  | n :: ns, id, parent => by
    rw [Node.entriesList, List.filter_append, List.map_append, filter_entries n,
      filter_entriesList ns, tokensList]

end

end Node

/-! ## Building -/

/-- The children of an open production lie behind each other up to a position. -/
structure Frame.Reaches (f : Frame) (q : Nat) : Prop where
  tile : Span.Tile f.start q (f.reversed.reverse.map Node.range)
  children : ∀ n ∈ f.reversed, n.Lossless

namespace Frame.Reaches

variable {f : Frame} {p q : Nat}

/-- A production has no content to start with. -/
theorem start (name : String) (p : Nat) : Frame.Reaches ⟨name, p, []⟩ p :=
  ⟨rfl, fun _ h => by cases h⟩

theorem push {n : Node} (h : f.Reaches p) (hn : n.Lossless) (hrange : n.range = ⟨p, q⟩) :
    (f.push n).Reaches q := by
  have hpq : p ≤ q := by
    have := hn.start_le_stop
    rw [hrange] at this
    exact this
  constructor
  · show Span.Tile f.start q ((n :: f.reversed).reverse.map Node.range)
    rw [List.reverse_cons, List.map_append]
    refine h.tile.append ?_
    rw [List.map_singleton, hrange]
    exact ⟨rfl, hpq, rfl⟩
  · intro m hm
    rcases List.mem_cons.1 hm with rfl | hm
    · exact hn
    · exact h.children m hm

/-- The content ends where the children do. -/
theorem stop_eq (h : f.Reaches q) : f.stop = q := by
  obtain ⟨name, start, reversed⟩ := f
  obtain ⟨htile, hchildren⟩ := h
  cases reversed with
  | nil => exact htile
  | cons n ns =>
    have hle : start ≤ q := htile.le
    have hstop : n.lastStop = q := by
      rw [(hchildren n List.mem_cons_self).lastStop_eq]
      simp only [List.reverse_cons, List.map_append, List.map_singleton] at htile
      exact htile.stop_eq_of_append
    show max n.lastStop start = q
    omega

/-- Finishing makes a node that loses nothing. -/
theorem toNode (h : f.Reaches q) : f.toNode.Lossless ∧ f.toNode.range = ⟨f.start, q⟩ := by
  have hstop := h.stop_eq
  constructor
  · rw [Frame.toNode, Node.Lossless, hstop, Node.losslessList_iff]
    exact ⟨h.tile, fun n hn => h.children n (List.mem_reverse.1 hn)⟩
  · show (⟨f.start, f.stop⟩ : Span) = _
    rw [hstop]

end Frame.Reaches

/-- Whatever is laid out from where an open production has got to becomes part of it, and
leaves the productions around it as they are. -/
theorem Layout.foldl_on {p q : Nat} {es : List Event} (h : Layout p q es) {f : Frame}
    (hf : f.Reaches p) (fs : List Frame) (t : SyntaxTree) :
    ∃ f', es.foldl TreeSketch.on ⟨some ⟨f, fs⟩, t⟩ = ⟨some ⟨f', fs⟩, t⟩ ∧
      f'.Reaches q ∧ f'.name = f.name ∧ f'.start = f.start := by
  induction h generalizing f fs with
  | nil p => exact ⟨f, rfl, hf, rfl, rfl⟩
  | @token p q r es kind hpq _ ih => exact ih (hf.push (n := .token kind ⟨p, q⟩) hpq rfl) fs
  | error e _ ih => exact ih hf fs
  | @production p q r inner es name finished hinner _ ihinner ih =>
    obtain ⟨g, hg, hreaches, hname, hstart⟩ := ihinner (.start name p) (f :: fs)
    rw [List.foldl_cons, List.foldl_append]
    show ∃ f', (_ :: es).foldl TreeSketch.on
      (inner.foldl TreeSketch.on ⟨some ⟨⟨name, p, []⟩, f :: fs⟩, t⟩) = _ ∧ _
    rw [hg, List.foldl_cons]
    cases finished with
    | true =>
      obtain ⟨hlossless, hrange⟩ := hreaches.toNode
      rw [hstart] at hrange
      exact ih (hf.push hlossless hrange) fs
    | false =>
      -- What was passed over in vain is kept as one token, if it is anything.
      have hpq := hinner.tile_tokenRanges.le
      show ∃ f', es.foldl TreeSketch.on ⟨some (TreeBuilder.cancelAt ⟨g, f :: fs⟩ q), t⟩ = _ ∧ _
      rw [TreeBuilder.cancelAt, hstart]
      by_cases hlt : p < q
      · simp only [if_pos hlt]
        exact ih (hf.push (n := .token .error ⟨p, q⟩) hpq rfl) fs
      · obtain rfl : p = q := by omega
        simp only [if_neg hlt]
        exact ih hf fs

/-! ## Runs -/

/-- A tree covers everything up to `c`, at every level of it. -/
structure SyntaxTree.Lossless (t : SyntaxTree) (c : Nat) : Prop where
  root : ∃ n, t.root? = some n ∧ n.range = ⟨0, c⟩
  children : ∀ e ∈ t.entries, e.node.isToken = false →
    Span.Tile e.node.range.start e.node.range.stop (e.node.children.map Node.range)
  tokens : Span.Tile 0 c (t.tokens.map (·.node.range))

theorem SyntaxTree.lossless_of_root {n : Node} {c : Nat} (hn : n.Lossless)
    (hrange : n.range = ⟨0, c⟩) : SyntaxTree.Lossless ⟨some n⟩ c := by
  refine ⟨⟨n, rfl, hrange⟩, ?_, ?_⟩
  · intro e he htoken
    have hlossless : e.node.Lossless := Node.Lossless.entries hn e he
    revert hlossless htoken
    cases e.node with
    | token kind range =>
      intro htoken
      cases htoken
    | production name range children =>
      intro _ hlossless
      rw [Node.Lossless] at hlossless
      exact hlossless.1
  · have htile := hn.tile_tokens
    rw [hrange] at htile
    show Span.Tile 0 c (((n.entries 0 none).filter (·.node.isToken)).map (·.node.range))
    rw [← Node.filter_entries n 0 none, List.map_map] at htile
    exact htile

/-- The tree of a run whose root has matched. -/
theorem Outcome.Rooted.tree_eq {o : Outcome Outputs} {name : String} {inner : List Event}
    (h : o.Rooted name inner) (hmatched : o.result.isSome) :
    ∃ f : Frame, o.tree = ⟨some f.toNode⟩ ∧ f.name = name ∧ f.start = 0 ∧
      f.Reaches o.position := by
  obtain ⟨f, hfold, hreaches, hname, hstart⟩ :=
    h.layout.foldl_on (.start name 0) [] .empty
  refine ⟨f, ?_, hname, hstart, hreaches⟩
  rw [Outcome.tree, SyntaxTree.ofEvents, h.events, List.foldl_cons, List.foldl_append]
  show ([Event.close name o.result.isSome o.position].foldl TreeSketch.on
    (inner.foldl TreeSketch.on ⟨some ⟨⟨name, 0, []⟩, []⟩, .empty⟩)).tree = _
  rw [hfold, hmatched]
  rfl

/-- A run whose root has failed leaves no tree. -/
theorem Outcome.Rooted.tree_eq_empty {o : Outcome Outputs} {name : String} {inner : List Event}
    (h : o.Rooted name inner) (hfailed : o.result = none) : o.tree = .empty := by
  obtain ⟨f, hfold, -⟩ := h.layout.foldl_on (.start name 0) [] .empty
  rw [Outcome.tree, SyntaxTree.ofEvents, h.events, List.foldl_cons, List.foldl_append]
  show ([Event.close name o.result.isSome o.position].foldl TreeSketch.on
    (inner.foldl TreeSketch.on ⟨some ⟨⟨name, 0, []⟩, []⟩, .empty⟩)).tree = _
  rw [hfold, hfailed]
  rfl

/-- The tree of a run whose root has matched loses nothing of what the root has passed over. -/
theorem Outcome.Rooted.lossless_tree {o : Outcome Outputs} {name : String} {inner : List Event}
    (h : o.Rooted name inner) (hmatched : o.result.isSome) : o.tree.Lossless o.position := by
  obtain ⟨f, htree, -, hstart, hreaches⟩ := h.tree_eq hmatched
  obtain ⟨hlossless, hrange⟩ := hreaches.toNode
  rw [hstart] at hrange
  rw [htree]
  exact SyntaxTree.lossless_of_root hlossless hrange

end Phrase
