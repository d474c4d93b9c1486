import Phrase.Proofs.Run.Actions
import Phrase.Proofs.Tree.Order

/-!
# Runs lose nothing

Parsing for a tree leaves an arena, the nodes of which refer to each other by number.  The
numbers lead to the children, so what is known of trees is known of their arenas: unless a
run is fatal, its arena covers at every level what the root has passed over
(`Grammar.Runs.lossless`).
-/

namespace Phrase

/-! ## Children by number -/

/-- Among these nodes the numbers of a node's children lead to its children. -/
def Entry.Refers (e : Entry) (es : List Entry) : Prop :=
  e.children.map (fun k => es[k]?.map (·.node)) = e.node.children.map some

namespace Node

variable {pre : List Entry} {id : Nat}

theorem getElem?_entries (h : pre.length = id) (n : Node) (parent : Option Nat)
    (post : List Entry) : (pre ++ (n.entries id parent ++ post))[id]?.map (·.node) = some n := by
  rw [← h, List.getElem?_append_right (Nat.le_refl _), Nat.sub_self]
  cases n with
  | token kind range => rfl
  | production name range children => rfl

/-- The numbers of trees that follow each other lead to those trees. -/
theorem getElem?_childIds (ns : List Node) (h : pre.length = id) (parent : Nat)
    (post : List Entry) :
    (childIds id ns).map (fun k => (pre ++ (entriesList id parent ns ++ post))[k]?.map (·.node)) =
      ns.map some := by
  induction ns generalizing pre id with
  | nil => rfl
  | cons n ns ih =>
    have hlength : (pre ++ n.entries id (some parent)).length = id + n.size := by
      rw [List.length_append, length_entries, h]
    have htail := ih hlength
    rw [List.append_assoc] at htail
    rw [childIds, entriesList, List.append_assoc, List.map_cons, List.map_cons,
      getElem?_entries h, htail]

mutual

theorem refers_entries : (n : Node) → {pre : List Entry} → {id : Nat} → pre.length = id →
    (parent : Option Nat) → (post : List Entry) →
    ∀ e ∈ n.entries id parent, e.Refers (pre ++ (n.entries id parent ++ post))
  | .token kind range, pre, id, h, parent, post => by
    intro e he
    rw [entries, List.mem_singleton] at he
    rw [he]
    rfl
  | .production name range children, pre, id, h, parent, post => by
    intro e he
    have hlength : (pre ++ [⟨id, parent, childIds (id + 1) children,
        .production name range children⟩] : List Entry).length = id + 1 := by
      rw [List.length_append, h, List.length_singleton]
    rw [entries, List.mem_cons] at he
    rw [entries, List.cons_append, List.append_cons]
    rcases he with rfl | he
    · exact getElem?_childIds children hlength id post
    · exact refers_entriesList children hlength id post e he

theorem refers_entriesList : (ns : List Node) → {pre : List Entry} → {id : Nat} →
    pre.length = id → (parent : Nat) → (post : List Entry) →
    ∀ e ∈ entriesList id parent ns, e.Refers (pre ++ (entriesList id parent ns ++ post))
  | [], _, _, _, _, _ => by
    intro e he
    cases he
  | n :: ns, pre, id, h, parent, post => by
    intro e he
    have hlength : (pre ++ n.entries id (some parent)).length = id + n.size := by
      rw [List.length_append, length_entries, h]
    rw [entriesList, List.mem_append] at he
    rw [entriesList, List.append_assoc]
    rcases he with he | he
    · exact refers_entries n h (some parent) _ e he
    · rw [← List.append_assoc]
      exact refers_entriesList ns hlength parent post e he

end

end Node

theorem SyntaxTree.refers (t : SyntaxTree) : ∀ e ∈ t.entries, e.Refers t.entries := by
  obtain ⟨root?⟩ := t
  cases root? with
  | none =>
    intro e he
    cases he
  | some n =>
    intro e he
    have h := n.refers_entries List.length_nil none [] e he
    rw [List.nil_append, List.append_nil] at h
    exact h

/-! ## Arenas -/

/-- An arena covers everything up to `c`, at every level of it. -/
structure LosslessArena (nodes : List NodeData) (c : Nat) : Prop where
  root : ∃ n, nodes[0]? = some n ∧ n.range = ⟨0, c⟩
  /-- The numbers of a production's children lead to nodes that lie behind each other. -/
  children : ∀ n ∈ nodes, n.isToken = false → ∃ ranges,
    n.children.map (fun k => nodes[k]?.map (·.range)) = ranges.map some ∧
      Span.Tile n.range.start n.range.stop ranges
  tokens : Span.Tile 0 c ((nodes.filter (·.isToken)).map (·.range))

theorem SyntaxTree.range_getElem?_arena (t : SyntaxTree) (k : Nat) :
    t.arena[k]?.map (·.range) = (t.entries[k]?.map (·.node)).map Node.range := by
  rw [arena, List.getElem?_map, Option.map_map, Option.map_map]
  rfl

/-- The arena of a tree that loses nothing loses nothing. -/
theorem SyntaxTree.Lossless.arena {t : SyntaxTree} {c : Nat} (h : t.Lossless c) :
    LosslessArena t.arena c := by
  constructor
  case root =>
    obtain ⟨n, hn, hrange⟩ := h.root
    have hentries : t.entries = n.entries 0 none := by
      rw [entries, hn]
      rfl
    have hroot : t.arena[0]?.map (·.range) = some ⟨0, c⟩ := by
      have hnode := Node.getElem?_entries List.length_nil n none []
      rw [List.nil_append, List.append_nil, ← hentries] at hnode
      rw [range_getElem?_arena, hnode, ← hrange]
      rfl
    exact Option.map_eq_some_iff.1 hroot
  case children =>
    intro n hn htoken
    obtain ⟨e, he, rfl⟩ := List.mem_map.1 hn
    rw [Entry.isToken_data] at htoken
    refine ⟨e.node.children.map Node.range, ?_, h.children e he htoken⟩
    have hrefers : e.children.map (fun k => t.entries[k]?.map (·.node)) =
        e.node.children.map some := t.refers e he
    calc e.children.map (fun k => t.arena[k]?.map (·.range))
        = (e.children.map (fun k => t.entries[k]?.map (·.node))).map (Option.map Node.range) := by
          rw [List.map_map]
          exact List.map_congr_left fun k _ => t.range_getElem?_arena k
      _ = (e.node.children.map Node.range).map some := by
          rw [hrefers, List.map_map, List.map_map]
          rfl
  case tokens =>
    have hfilter : t.arena.filter (·.isToken) = t.tokens.map Entry.data := by
      rw [SyntaxTree.arena, List.filter_map, SyntaxTree.tokens]
      exact congrArg _ (List.filter_congr fun e _ => e.isToken_data)
    rw [hfilter, List.map_map]
    exact h.tokens

/-! ## Runs -/

/-- Unless parsing for a tree is fatal, the arena loses nothing of what the root has passed
over. -/
theorem Grammar.Runs.lossless {g : Grammar} {root : Nat} {source : Source} {options : Options}
    {o : Outcome Outputs} (h : g.Runs root source options o) {before nodes : List NodeData}
    {report : Report} (hparse : o.parseAsTree before = .ok (report, nodes))
    (hstatus : report.status ≠ .fatalError) :
    ∃ inner c, o.events =
        .start (g.production root).name 0 :: (inner ++ [.finish (g.production root).name c]) ∧
      c = o.position ∧ LosslessArena nodes c := by
  obtain ⟨inner, hroot⟩ := h.rooted
  have hagree := hroot.agree
  rw [hagree.parseAsTree] at hparse
  obtain ⟨rfl, rfl⟩ := Prod.mk.inj (Except.ok.inj hparse)
  rw [hagree.validate] at hstatus
  have hmatched : o.result.isSome = true := by
    rw [← Bool.not_eq_false]
    exact fun hfailed => hstatus ((Status.of_eq_fatalError_iff _ _).2 hfailed)
  refine ⟨inner, o.position, ?_, rfl, (hroot.lossless_tree hmatched).arena⟩
  rw [hroot.events, hmatched]
  rfl

/-- A pair of digits is given up behind the first one, and the root goes on with a letter. -/
theorem Grammar.Runs.lossless_given_up :
    let g : Grammar := ⟨#[
      ⟨"root", .seq (.recover (.production 1)) (.token (.charClass .alpha)), .discard, none, false⟩,
      ⟨"pair", .seq (.token (.charClass .digit)) (.token (.charClass .digit)), .discard, none,
        false⟩], #[]⟩
    let source : Source := ⟨.ascii, #[0x31, 0x61], by decide⟩
    ∃ o report nodes, g.Runs 0 source .standard o ∧
      o.parseAsTree [] = .ok (report, nodes) ∧ report.status ≠ .fatalError ∧
      o.position = 2 ∧ LosslessArena nodes 2 := by
  intro g source
  have hrun : ((g.environment source).parse 6 (.production 0)
      (.outer .none Scope.defaultMaxDepth .discard)).answers 0 (fun o =>
        o.validate.status == .recoveredError && o.position == 2) = true := by decide +kernel
  obtain ⟨o, ho, hcheck⟩ := Parse.exists_of_answers hrun
  rw [Bool.and_eq_true, beq_iff_eq, beq_iff_eq] at hcheck
  have hruns : g.Runs 0 source .standard o := ⟨6, ho⟩
  have hparse := hruns.parseAsTree_eq []
  have hstatus : o.validate.status ≠ .fatalError := by
    rw [hcheck.1]
    decide
  obtain ⟨_, c, -, hc, hlossless⟩ := hruns.lossless hparse hstatus
  obtain rfl : c = 2 := hc.trans hcheck.2
  exact ⟨o, _, _, hruns, hparse, hstatus, hcheck.2, hlossless⟩

end Phrase
