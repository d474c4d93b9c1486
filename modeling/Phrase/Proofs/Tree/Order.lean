import Phrase.Proofs.Tree.Arena
import Mathlib.Data.List.Nodup
import Mathlib.Logic.Relation

/-!
# Document order

The arena of a tree is in document order (`DocumentOrder`): the numbers of the nodes are their
places, parents come in front of their children, and the nodes below a node stand right behind it.
All of this follows from how the nodes of a tree are numbered: the nodes below a node are a segment
of the whole list (`Node.exists_segment`), and every node but the first one is a child of another
one (`Node.parent_of_mem`).
-/

namespace Phrase

/-! ## Arenas in document order -/

/-- Whether a node is a leaf. -/
def NodeData.isToken (n : NodeData) : Bool :=
  match n.kind with
  | .token _ => true
  | .production _ => false

/-- In an arena, `child` says that `parent` is its parent. -/
def IsChild (nodes : List NodeData) (parent child : Nat) : Prop :=
  ∃ n, nodes[child]? = some n ∧ n.parent = some parent

/-- What it means for the nodes of an arena to stand in document order. -/
structure DocumentOrder (nodes : List NodeData) : Prop where
  /-- The first node has no parent. -/
  root : ∃ n, nodes[0]? = some n ∧ n.parent = none
  /-- Every other node has one, which is a production, stands in front of it and has it as a child
  once. -/
  parent {id : Nat} {n : NodeData} : nodes[id]? = some n → 0 < id →
    ∃ parent m, n.parent = some parent ∧ parent < id ∧ nodes[parent]? = some m ∧
      m.isToken = false ∧ m.children.count id = 1
  /-- Children stand in order. -/
  increasing {id : Nat} {n : NodeData} : nodes[id]? = some n → n.children.Pairwise (· < ·)
  /-- Nodes are the parents of their children. -/
  child {id c : Nat} {n : NodeData} : nodes[id]? = some n → c ∈ n.children → IsChild nodes id c
  /-- The nodes below a node, itself included, stand behind each other. -/
  subtree {id : Nat} : id < nodes.length → ∃ stop, ∀ j,
    Relation.ReflTransGen (IsChild nodes) id j ↔ id ≤ j ∧ j < stop

theorem Node.size_pos (n : Node) : 0 < n.size := by
  cases n <;> exact Nat.succ_pos _

/-! ## Children -/

section
variable {ns : List Node} {id c : Nat}

theorem length_childIds (ns : List Node) (id : Nat) : (childIds id ns).length = ns.length := by
  induction ns generalizing id with
  | nil => rfl
  | cons n ns ih => exact congrArg Nat.succ (ih _)

theorem mem_childIds (h : c ∈ childIds id ns) : id ≤ c ∧ c < id + Node.sizeList ns := by
  induction ns generalizing id with
  | nil => cases h
  | cons n ns ih =>
    have hsize := n.size_pos
    rw [Node.sizeList]
    rcases List.mem_cons.1 h with rfl | h
    · omega
    · have hrest := ih h
      omega

theorem pairwise_childIds (ns : List Node) (id : Nat) : (childIds id ns).Pairwise (· < ·) := by
  induction ns generalizing id with
  | nil => exact .nil
  | cons n ns ih =>
    refine List.pairwise_cons.2 ⟨fun c hc => ?_, ih _⟩
    have hsize := n.size_pos
    have hrest := (mem_childIds hc).1
    omega

end

namespace Node

/-- A node stands in front of the nodes below it. -/
theorem entries_eq (n : Node) (id : Nat) (parent : Option Nat) : n.entries id parent =
    ⟨id, parent, childIds (id + 1) n.children, n⟩ :: entriesList (id + 1) id n.children := by
  cases n <;> rfl

theorem size_eq (n : Node) : n.size = sizeList n.children + 1 := by
  cases n <;> rfl

/-! ## Numbers -/

mutual

/-- The numbers of the nodes are their places. -/
theorem id_entries : (n : Node) → (id : Nat) → (parent : Option Nat) →
    (n.entries id parent).map Entry.id = List.range' id n.size
  | .token _ _, _, _ => rfl
  | .production _ _ children, id, parent => by
    rw [entries, List.map_cons, id_entriesList children, size, List.range'_succ]

theorem id_entriesList : (ns : List Node) → (id parent : Nat) →
    (entriesList id parent ns).map Entry.id = List.range' id (sizeList ns)
  | [], _, _ => rfl
  | n :: ns, id, parent => by
    rw [entriesList, List.map_append, id_entries n, id_entriesList ns, sizeList,
      ← List.range'_append_1]

end

variable {n : Node} {ns : List Node} {id : Nat} {parent : Option Nat} {e : Entry}

theorem id_of_getElem? {k : Nat} (h : (n.entries id parent)[k]? = some e) : e.id = id + k := by
  obtain ⟨hk, -⟩ := List.getElem?_eq_some_iff.1 h
  rw [length_entries] at hk
  have hid : ((n.entries id parent).map Entry.id)[k]? = some e.id := by
    rw [List.getElem?_map, h]
    rfl
  rw [id_entries, List.getElem?_range' hk, Nat.one_mul] at hid
  exact (Option.some.inj hid).symm

/-- A node is found at its number, counted from that of the first one. -/
theorem getElem?_of_mem (he : e ∈ n.entries id parent) :
    (n.entries id parent)[e.id - id]? = some e := by
  obtain ⟨k, hk⟩ := List.getElem?_of_mem he
  rw [id_of_getElem? hk, Nat.add_sub_cancel_left]
  exact hk

/-! ## Segments -/

mutual

/-- A node and the nodes below it are a segment of the nodes of the tree. -/
theorem exists_segment : (n : Node) → (id : Nat) → (parent : Option Nat) → {e : Entry} →
    e ∈ n.entries id parent → ∃ pre post, id + pre.length = e.id ∧
      n.entries id parent = pre ++ (e.node.entries e.id e.parent ++ post)
  | .token kind range, id, parent, e, he => by
    rw [List.mem_singleton.1 he]
    exact ⟨[], [], rfl, rfl⟩
  | .production name range children, id, parent, e, he => by
    rw [entries] at he ⊢
    rcases List.mem_cons.1 he with rfl | he
    · exact ⟨[], [], rfl, (List.append_nil _).symm⟩
    · obtain ⟨pre, post, hpre, hsegment⟩ := exists_segmentList children (id + 1) id he
      rw [hsegment, ← List.cons_append]
      refine ⟨_, post, ?_, rfl⟩
      rw [List.length_cons]
      omega

theorem exists_segmentList : (ns : List Node) → (id parent : Nat) → {e : Entry} →
    e ∈ entriesList id parent ns → ∃ pre post, id + pre.length = e.id ∧
      entriesList id parent ns = pre ++ (e.node.entries e.id e.parent ++ post)
  | [], _, _, _, he => nomatch he
  | n :: ns, id, parent, e, he => by
    rw [entriesList] at he ⊢
    rcases List.mem_append.1 he with he | he
    · obtain ⟨pre, post, hpre, hsegment⟩ := exists_segment n id (some parent) he
      refine ⟨pre, post ++ entriesList (id + n.size) parent ns, hpre, ?_⟩
      rw [hsegment, List.append_assoc, List.append_assoc]
    · obtain ⟨pre, post, hpre, hsegment⟩ := exists_segmentList ns (id + n.size) parent he
      refine ⟨n.entries id (some parent) ++ pre, post, ?_, ?_⟩
      · rw [List.length_append, length_entries]
        omega
      · rw [hsegment, List.append_assoc]

end

/-! ## Parents -/

mutual

/-- Every node but the first one is a child of another one. -/
theorem parent_of_mem : (n : Node) → (id : Nat) → (parent : Option Nat) → {e : Entry} →
    e ∈ n.entries id parent → (e.id = id ∧ e.parent = parent) ∨ ∃ f ∈ n.entries id parent,
      e.parent = some f.id ∧ e.id ∈ f.children ∧ f.node.isToken = false
  | .token kind range, id, parent, e, he => by
    rw [List.mem_singleton.1 he]
    exact .inl ⟨rfl, rfl⟩
  | .production name range children, id, parent, e, he => by
    rw [entries] at he ⊢
    rcases List.mem_cons.1 he with rfl | he
    · exact .inl ⟨rfl, rfl⟩
    · refine .inr ?_
      rcases parent_of_memList children (id + 1) id he with ⟨hparent, hid⟩ | ⟨f, hf, hparent⟩
      · exact ⟨_, List.mem_cons_self .., hparent, hid, rfl⟩
      · exact ⟨f, List.mem_cons_of_mem _ hf, hparent⟩

theorem parent_of_memList : (ns : List Node) → (id parent : Nat) → {e : Entry} →
    e ∈ entriesList id parent ns → (e.parent = some parent ∧ e.id ∈ childIds id ns) ∨
      ∃ f ∈ entriesList id parent ns,
        e.parent = some f.id ∧ e.id ∈ f.children ∧ f.node.isToken = false
  | [], _, _, _, he => nomatch he
  | n :: ns, id, parent, e, he => by
    rw [entriesList] at he ⊢
    rcases List.mem_append.1 he with he | he
    · rcases parent_of_mem n id (some parent) he with ⟨rfl, hparent⟩ | ⟨f, hf, hparent⟩
      · exact .inl ⟨hparent, List.mem_cons_self ..⟩
      · exact .inr ⟨f, List.mem_append_left _ hf, hparent⟩
    · rcases parent_of_memList ns (id + n.size) parent he with ⟨hparent, hid⟩ | ⟨f, hf, hparent⟩
      · exact .inl ⟨hparent, List.mem_cons_of_mem _ hid⟩
      · exact .inr ⟨f, List.mem_append_right _ hf, hparent⟩

end

/-- A child's number is that of a node whose parent is this one. -/
theorem exists_of_mem_childIds {c : Nat} (parent : Nat) (h : c ∈ childIds id ns) :
    ∃ e ∈ entriesList id parent ns, e.id = c ∧ e.parent = some parent := by
  induction ns generalizing id with
  | nil => cases h
  | cons n ns ih =>
    rw [entriesList]
    rcases List.mem_cons.1 h with rfl | h
    · refine ⟨⟨c, some parent, childIds (c + 1) n.children, n⟩, List.mem_append_left _ ?_, rfl, rfl⟩
      rw [entries_eq]
      exact List.mem_cons_self ..
    · obtain ⟨e, he, hid⟩ := ih h
      exact ⟨e, List.mem_append_right _ he, hid⟩

/-- The nodes below a node are those of the segment behind it. -/
theorem mem_segment_iff (he : e ∈ n.entries id parent) {f : Entry} :
    f ∈ e.node.entries e.id e.parent ↔
      f ∈ n.entries id parent ∧ e.id ≤ f.id ∧ f.id < e.id + e.node.size := by
  obtain ⟨pre, post, hpre, hsegment⟩ := exists_segment n id parent he
  constructor
  · intro hf
    have hid : f.id ∈ List.range' e.id e.node.size := by
      rw [← id_entries e.node e.id e.parent]
      exact List.mem_map_of_mem hf
    rw [List.mem_range'_1] at hid
    refine ⟨?_, hid⟩
    rw [hsegment]
    exact List.mem_append_right _ (List.mem_append_left _ hf)
  · rintro ⟨hf, hle, hlt⟩
    have hplace := getElem?_of_mem hf
    have hlength := length_entries e.node e.id e.parent
    rw [hsegment, List.getElem?_append_right (by omega), List.getElem?_append_left (by omega)]
      at hplace
    exact List.mem_of_getElem? hplace

/-- Below a node there are no more nodes than below the root. -/
theorem segment_le (he : e ∈ n.entries id parent) : e.id + e.node.size ≤ id + n.size := by
  obtain ⟨pre, post, hpre, hsegment⟩ := exists_segment n id parent he
  have hlength := congrArg List.length hsegment
  rw [length_entries, List.length_append, List.length_append, length_entries] at hlength
  omega

/-- Whether it is a production or a token: the children of a node are those it has been numbered
with. -/
theorem children_of_mem (he : e ∈ n.entries id parent) :
    e.children = childIds (e.id + 1) e.node.children := by
  obtain ⟨pre, post, hpre, hsegment⟩ := exists_segment n id parent he
  have hplace := getElem?_of_mem he
  rw [hsegment, List.getElem?_append_right (by omega), entries_eq] at hplace
  have hzero : e.id - id - pre.length = 0 := by omega
  rw [hzero] at hplace
  exact (congrArg Entry.children (Option.some.inj hplace)).symm

end Node

/-! ## The arena of a tree -/

theorem Entry.isToken_data (e : Entry) : e.data.isToken = e.node.isToken := by
  obtain ⟨id, parent, children, n⟩ := e
  cases n with
  | token kind range => rfl
  | production name range children => rfl

namespace SyntaxTree

variable {n : Node} {id c : Nat} {e : Entry} {d : NodeData}

theorem length_arena (n : Node) : (SyntaxTree.arena ⟨some n⟩).length = n.size :=
  (List.length_map _).trans (Node.length_entries ..)

theorem isEmpty_arena (n : Node) : (SyntaxTree.arena ⟨some n⟩).isEmpty = false := by
  rw [List.isEmpty_eq_false_iff_exists_mem]
  exact ⟨_, List.getElem_mem (Nat.lt_of_lt_of_eq n.size_pos (length_arena n).symm)⟩

theorem getElem?_arena (he : e ∈ n.entries 0 none) :
    (SyntaxTree.arena ⟨some n⟩)[e.id]? = some e.data := by
  have hplace : (n.entries 0 none)[e.id]? = some e := Node.getElem?_of_mem he
  show ((n.entries 0 none).map Entry.data)[e.id]? = _
  rw [List.getElem?_map, hplace]
  rfl

theorem exists_entry (h : (SyntaxTree.arena ⟨some n⟩)[id]? = some d) :
    ∃ e ∈ n.entries 0 none, e.id = id ∧ e.data = d := by
  change ((n.entries 0 none).map Entry.data)[id]? = _ at h
  rw [List.getElem?_map] at h
  obtain ⟨e, he, hd⟩ := Option.map_eq_some_iff.1 h
  exact ⟨e, List.mem_of_getElem? he, (Node.id_of_getElem? he).trans (Nat.zero_add id), hd⟩

theorem isChild_iff {parent : Nat} : IsChild (SyntaxTree.arena ⟨some n⟩) parent c ↔
    ∃ e ∈ n.entries 0 none, e.id = c ∧ e.parent = some parent := by
  constructor
  · rintro ⟨d, hd, hparent⟩
    obtain ⟨e, he, hid, rfl⟩ := exists_entry hd
    exact ⟨e, he, hid, hparent⟩
  · rintro ⟨e, he, rfl, hparent⟩
    exact ⟨e.data, getElem?_arena he, hparent⟩

/-- Whoever is below a node stands right behind it, with all that is below it. -/
theorem below_iff (he : e ∈ n.entries 0 none) (j : Nat) :
    Relation.ReflTransGen (IsChild (SyntaxTree.arena ⟨some n⟩)) e.id j ↔
      e.id ≤ j ∧ j < e.id + e.node.size := by
  constructor
  · intro h
    induction h with
    | refl =>
      have hsize := e.node.size_pos
      omega
    | @tail k j _ hchild ih =>
      obtain ⟨f, hf, rfl, hparent⟩ := isChild_iff.1 hchild
      rcases Node.parent_of_mem n 0 none hf with ⟨-, hnone⟩ | ⟨g, hg, hg', hmem, -⟩
      · cases hnone.symm.trans hparent
      · obtain rfl : g.id = k := Option.some.inj (hg'.symm.trans hparent)
        have hsegment := Node.segment_le ((Node.mem_segment_iff he).2 ⟨hg, ih⟩)
        rw [Node.children_of_mem hg] at hmem
        have hrange := mem_childIds hmem
        have hsize := g.node.size_eq
        omega
  · rintro ⟨hle, hlt⟩
    induction j using Nat.strongRecOn with
    | _ j ih =>
      rcases Nat.eq_or_lt_of_le hle with rfl | hlt'
      · exact .refl
      · obtain ⟨f, hf, hid⟩ : ∃ f ∈ e.node.entries e.id e.parent, f.id = j := by
          have hmem : j ∈ (e.node.entries e.id e.parent).map Entry.id := by
            rw [Node.id_entries, List.mem_range'_1]
            exact ⟨hle, hlt⟩
          exact List.mem_map.1 hmem
        rcases Node.parent_of_mem _ _ _ hf with ⟨hfirst, -⟩ | ⟨g, hg, hparent, hmem, -⟩
        · omega
        · obtain ⟨hg, hrange⟩ := (Node.mem_segment_iff he).1 hg
          rw [Node.children_of_mem hg] at hmem
          have hbehind := (mem_childIds hmem).1
          exact .tail (ih g.id (by omega) hrange.1 hrange.2)
            (isChild_iff.2 ⟨f, ((Node.mem_segment_iff he).1 hf).1, hid, hparent⟩)

theorem documentOrder (n : Node) : DocumentOrder (SyntaxTree.arena ⟨some n⟩) where
  root := by
    have hroot : (⟨0, none, childIds 1 n.children, n⟩ : Entry) ∈ n.entries 0 none := by
      rw [Node.entries_eq]
      exact List.mem_cons_self ..
    exact ⟨_, getElem?_arena hroot, rfl⟩
  parent h hpos := by
    obtain ⟨e, he, rfl, rfl⟩ := exists_entry h
    rcases Node.parent_of_mem n 0 none he with ⟨hzero, -⟩ | ⟨f, hf, hparent, hmem, htoken⟩
    · omega
    · have hnodup : f.children.Nodup := by
        rw [Node.children_of_mem hf]
        exact (pairwise_childIds _ _).imp Nat.ne_of_lt
      have hbehind : f.id + 1 ≤ e.id := by
        rw [Node.children_of_mem hf] at hmem
        exact (mem_childIds hmem).1
      exact ⟨f.id, f.data, hparent, hbehind, getElem?_arena hf, f.isToken_data.trans htoken,
        List.count_eq_one_of_mem hnodup hmem⟩
  increasing h := by
    obtain ⟨e, he, rfl, rfl⟩ := exists_entry h
    show e.children.Pairwise (· < ·)
    rw [Node.children_of_mem he]
    exact pairwise_childIds _ _
  child h hc := by
    obtain ⟨e, he, rfl, rfl⟩ := exists_entry h
    change _ ∈ e.children at hc
    rw [Node.children_of_mem he] at hc
    obtain ⟨f, hf, rfl, hparent⟩ := Node.exists_of_mem_childIds e.id hc
    have hsegment : f ∈ e.node.entries e.id e.parent := by
      rw [Node.entries_eq]
      exact List.mem_cons_of_mem _ hf
    exact isChild_iff.2 ⟨f, ((Node.mem_segment_iff he).1 hsegment).1, rfl, hparent⟩
  subtree h := by
    obtain ⟨e, he, rfl, -⟩ := exists_entry (List.getElem?_eq_getElem h)
    exact ⟨e.id + e.node.size, below_iff he⟩

end SyntaxTree

end Phrase
