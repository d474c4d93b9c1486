import Phrase.Proofs.Tree.Snapshot
import Phrase.Proofs.Tree.Traversal

/-!
# Texts in snapshots

A snapshot can have the texts of its tokens from anywhere: `Snapshot.ofArenaBy` asks for them, and
over a source it is the snapshot there is (`Snapshot.ofArenaBy_sliceText`).  In the snapshot of the
arena of a tree, the nodes with a text are those of the tokens, in the same order, and the content
is what their texts are when joined (`Snapshot.texts_ofArenaBy`).
-/

namespace Phrase

/-! ## Texts from anywhere -/

/-- The text of a token, as `text` has it. -/
def NodeData.textBy? (text : Span → Except Fault String) (n : NodeData) :
    Except Fault (Option String) :=
  match n.kind with
  | .token _ => (text n.range).map some
  | .production _ => .ok none

namespace Snapshot

section
variable (text : Span → Except Fault String) (nodes : List NodeData)

/-- The snapshot of the node with a number in an arena, no deeper than `fuel` says, with texts that
`text` has. -/
def ofArenaNodeBy : Nat → Nat → Except Fault Snapshot
  | 0, id => .error (.nodeOutside id)
  | fuel + 1, id =>
    match nodes[id]? with
    | none => .error (.nodeOutside id)
    | some n => do
      let text? ← n.textBy? text
      let children ← n.children.mapM (ofArenaNodeBy fuel)
      return ⟨n.kind.nodeType, n.kind.name, n.range.start, n.range.stop, text?, children⟩

/-- The snapshot of an arena with texts that `text` has, unless the arena is empty. -/
def ofArenaBy : Except Fault (Option Snapshot) :=
  if nodes.isEmpty then return none
  else return some (← ofArenaNodeBy text nodes nodes.length 0)

theorem ofArenaNodeBy_sliceText (source : Source) (fuel : Nat) :
    ofArenaNodeBy source.sliceText nodes fuel = ofArenaNode source nodes fuel := by
  induction fuel with
  | zero => rfl
  | succ fuel ih =>
    funext id
    rw [ofArenaNodeBy, ofArenaNode, ih]
    rfl

/-- Texts can be cut out of a source. -/
theorem ofArenaBy_sliceText (source : Source) :
    ofArenaBy source.sliceText nodes = ofArena source nodes := by
  rw [ofArenaBy, ofArena, ofArenaNodeBy_sliceText]

end

/-! ## Nodes with a text -/

mutual

/-- The nodes with a text, each one in front of those below it. -/
def withText : Snapshot → List Snapshot
  | ⟨nodeType, name, start, stop, text, children⟩ =>
    if text.isSome then ⟨nodeType, name, start, stop, text, children⟩ :: withTextList children
    else withTextList children

/-- The nodes with a text in some snapshots. -/
def withTextList : List Snapshot → List Snapshot
  | [] => []
  | s :: ss => s.withText ++ withTextList ss

end

/-- The texts of some nodes, joined. -/
def joined (ss : List Snapshot) : String := String.join (ss.filterMap Snapshot.text)

theorem joined_append (ss ts : List Snapshot) : joined (ss ++ ts) = joined ss ++ joined ts := by
  rw [joined, List.filterMap_append, String.join_append]
  rfl

end Snapshot

namespace Entry

variable (text : Span → Except Fault String)

/-- The snapshot of a token. -/
def leafBy (e : Entry) : Except Fault Snapshot :=
  (text e.node.range).map fun t =>
    ⟨"token", e.node.name, e.node.range.start, e.node.range.stop, some t, []⟩

/-- The snapshots of the tokens among some nodes. -/
def leavesBy (es : List Entry) : Except Fault (List Snapshot) :=
  (es.filter (·.node.isToken)).mapM (leafBy text)

theorem leavesBy_append (es fs : List Entry) : leavesBy text (es ++ fs) = (do
    let ss ← leavesBy text es
    let ts ← leavesBy text fs
    return ss ++ ts) := by
  rw [leavesBy, List.filter_append, List.mapM_append]
  rfl

end Entry

/-! ## The arena of a tree -/

/-- Results that agree as far as two functions tell. -/
theorem Except.cases_of_map_eq {ε α β γ : Type} {x : Except ε α} {y : Except ε β} {f : α → γ}
    {g : β → γ} (h : x.map f = y.map g) :
    (∃ e, x = .error e ∧ y = .error e) ∨ ∃ a b, x = .ok a ∧ y = .ok b ∧ f a = g b := by
  cases x with
  | error e =>
    cases y with
    | error e' => exact .inl ⟨e, rfl, by cases h; rfl⟩
    | ok b => cases h
  | ok a =>
    cases y with
    | error e => cases h
    | ok b => exact .inr ⟨a, b, rfl, rfl, Except.ok.inj h⟩

namespace Snapshot

variable {text : Span → Except Fault String} {nodes : List NodeData}

theorem ofArenaNodeBy_leaf {e : Entry} (hd : nodes[e.id]? = some e.data)
    (htoken : e.node.isToken = true) (hchildren : e.children = []) (fuel : Nat) :
    ofArenaNodeBy text nodes (fuel + 1) e.id = e.leafBy text := by
  obtain ⟨id, parent, children, n⟩ := e
  obtain rfl : children = [] := hchildren
  cases n with
  | production name range children => cases htoken
  | token kind range =>
    rw [ofArenaNodeBy, hd]
    show (text range).map some >>= _ = (text range).map _
    cases text range with
    | error f => rfl
    | ok t => rfl

mutual

/-- The nodes with a text are the snapshots of the tokens, and their texts are the content. -/
theorem texts_ofArenaNodeBy : (n : Node) → {id : Nat} → {parent : Option Nat} →
    (∀ e ∈ n.entries id parent, nodes[e.id]? = some e.data) → (fuel : Nat) → n.size ≤ fuel →
    (ofArenaNodeBy text nodes fuel id).map (fun s => (s.withText, s.content)) =
      (Entry.leavesBy text (n.entries id parent)).map fun ts => (ts, joined ts)
  | .token kind range, id, parent, hnodes, fuel, hfuel => by
    obtain ⟨fuel, rfl⟩ := Nat.exists_eq_add_one.2 hfuel
    rw [ofArenaNodeBy_leaf (hnodes _ (List.mem_singleton_self _)) rfl rfl fuel]
    show _ = ([_].mapM (Entry.leafBy text) : Except Fault _).map _
    rw [List.mapM_cons, List.mapM_nil, Entry.leafBy]
    cases text (Node.token kind range).range with
    | error f => rfl
    | ok t =>
      have hjoined : t = String.join [t] := (String.empty_append).symm
      exact congrArg (fun joined => Except.ok ([_], joined)) hjoined
  | .production name range children, id, parent, hnodes, fuel, hfuel => by
    obtain ⟨fuel, rfl⟩ := Nat.exists_eq_add_one.2 (Nat.lt_of_lt_of_le (Nat.succ_pos _) hfuel)
    have hchildren := texts_mapM children (fun e he => hnodes e (List.mem_cons_of_mem _ he)) fuel
      (Nat.le_of_succ_le_succ hfuel)
    have hd := hnodes _ (List.mem_cons_self ..)
    show _ = (Entry.leavesBy text (Node.entriesList (id + 1) id children)).map _
    rw [← hchildren, ofArenaNodeBy, hd]
    show ((childIds (id + 1) children).mapM (ofArenaNodeBy text nodes fuel) >>= _).map _ = _
    cases (childIds (id + 1) children).mapM (ofArenaNodeBy text nodes fuel) with
    | error f => rfl
    | ok ss => rfl

theorem texts_mapM : (ns : List Node) → {id parent : Nat} →
    (∀ e ∈ Node.entriesList id parent ns, nodes[e.id]? = some e.data) → (fuel : Nat) →
    Node.sizeList ns ≤ fuel →
    ((childIds id ns).mapM (ofArenaNodeBy text nodes fuel)).map
        (fun ss => (withTextList ss, contentList ss)) =
      (Entry.leavesBy text (Node.entriesList id parent ns)).map fun ts => (ts, joined ts)
  | [], _, _, _, _, _ => rfl
  | n :: ns, id, parent, hnodes, fuel, hfuel => by
    rw [Node.sizeList] at hfuel
    have hn := texts_ofArenaNodeBy n (fun e he => hnodes e (List.mem_append_left _ he)) fuel
      (by omega)
    have hns := texts_mapM ns (fun e he => hnodes e (List.mem_append_right _ he)) fuel (by omega)
    rw [childIds, Node.entriesList, Entry.leavesBy_append, List.mapM_cons]
    rcases Except.cases_of_map_eq hn with ⟨f, hs, hts⟩ | ⟨s, ts, hs, hts, htexts⟩
    · rw [hs, hts]
      rfl
    rcases Except.cases_of_map_eq hns with ⟨f, hss, hus⟩ | ⟨ss, us, hss, hus, hrest⟩
    · rw [hs, hts, hss, hus]
      rfl
    · obtain ⟨rfl, hcontent⟩ := Prod.mk.inj htexts
      obtain ⟨rfl, hcontents⟩ := Prod.mk.inj hrest
      rw [hs, hts, hss, hus]
      show Except.ok (_, s.content ++ contentList ss) = Except.ok (_, joined (_ ++ _))
      rw [joined_append, ← hcontent, ← hcontents]
      rfl

end

/-- The tokens of the arena of a tree, one after another, have the snapshots of the leaves. -/
theorem mapM_numbersOf_isToken (text : Span → Except Fault String) (n : Node) :
    (numbersOf (SyntaxTree.arena ⟨some n⟩) NodeData.isToken).mapM
        (ofArenaNodeBy text (SyntaxTree.arena ⟨some n⟩) (SyntaxTree.arena ⟨some n⟩).length) =
      Entry.leavesBy text (n.entries 0 none) := by
  have htokens : ((n.entries 0 none).filter fun e => e.data.isToken) =
      (n.entries 0 none).filter (·.node.isToken) :=
    List.filter_congr fun e _ => e.isToken_data
  have hleaves : ((n.entries 0 none).filter (·.node.isToken)).map (ofArenaNodeBy text
      (SyntaxTree.arena ⟨some n⟩) (SyntaxTree.arena ⟨some n⟩).length ∘ Entry.id) =
      ((n.entries 0 none).filter (·.node.isToken)).map (Entry.leafBy text) := by
    refine List.map_congr_left fun e he => ?_
    obtain ⟨he, htoken⟩ := List.mem_filter.1 he
    have hchildren : e.children = [] := by
      rw [Node.children_of_mem he]
      cases hn : e.node with
      | token kind range => rfl
      | production name range children => rw [hn] at htoken; cases htoken
    rw [SyntaxTree.length_arena, Node.size_eq]
    exact ofArenaNodeBy_leaf (SyntaxTree.getElem?_arena he) htoken hchildren _
  rw [SyntaxTree.numbersOf_arena, htokens, List.mapM_map, Entry.leavesBy, ← Function.id_comp
    (ofArenaNodeBy _ _ _ ∘ _), ← List.mapM_map, hleaves, List.mapM_map, Function.id_comp]

/-- In the snapshot of the arena of a tree, the nodes with a text are the snapshots of the tokens,
and their texts are the content. -/
theorem texts_ofArenaBy (text : Span → Except Fault String) (n : Node) :
    (ofArenaBy text (SyntaxTree.arena ⟨some n⟩)).map (Option.map fun s => (s.withText, s.content)) =
      ((numbersOf (SyntaxTree.arena ⟨some n⟩) NodeData.isToken).mapM
        (ofArenaNodeBy text (SyntaxTree.arena ⟨some n⟩) (SyntaxTree.arena ⟨some n⟩).length)).map
        fun ts => some (ts, joined ts) := by
  have htexts := @texts_ofArenaNodeBy text _ n 0 none (fun e he => SyntaxTree.getElem?_arena he) _
    (Nat.le_of_eq (SyntaxTree.length_arena n).symm)
  rw [mapM_numbersOf_isToken, ofArenaBy, SyntaxTree.isEmpty_arena]
  show (ofArenaNodeBy text _ _ 0 >>= _).map _ = _
  rcases Except.cases_of_map_eq htexts with ⟨f, hs, hts⟩ | ⟨s, ts, hs, hts, hst⟩
  · rw [hs, hts]
    rfl
  · rw [hs, hts]
    exact congrArg (fun pair => Except.ok (some pair)) hst

end Snapshot

end Phrase
