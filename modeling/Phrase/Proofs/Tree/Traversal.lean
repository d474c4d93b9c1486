import Phrase.Proofs.Tree.Order

/-!
# Walks through arenas

An arena is walked with a stack of the open productions, each with the number of its next child
(`Traversal`).  Over the arena of a tree the walk comes to an end, and it is the one that follows
the tree (`Traversal.yields_iff`).  So it comes to the nodes in their order, and what it enters and
leaves is nested (`Node.balanced_walk`).
-/

namespace Phrase

/-! ## Walking -/

/-- A step of a walk through an arena, with the number of the node. -/
inductive ArenaVisit where
  | enter (id : Nat)
  | exit (id : Nat)
  | leaf (id : Nat)
  deriving DecidableEq, Repr

namespace ArenaVisit

/-- The node that is come to: everything but to leave a production does. -/
def reached? : ArenaVisit → Option Nat
  | .enter id | .leaf id => some id
  | .exit _ => none

/-- The production that is entered. -/
def entered? : ArenaVisit → Option Nat
  | .enter id => some id
  | .exit _ | .leaf _ => none

/-- The production that is left. -/
def left? : ArenaVisit → Option Nat
  | .exit id => some id
  | .enter _ | .leaf _ => none

/-- The token that is passed. -/
def leaf? : ArenaVisit → Option Nat
  | .leaf id => some id
  | .enter _ | .exit _ => none

/-- What is entered is left again, the innermost production first. -/
inductive Balanced : List ArenaVisit → Prop where
  | nil : Balanced []
  | leaf {vs : List ArenaVisit} (id : Nat) : Balanced vs → Balanced (.leaf id :: vs)
  | pair {inner vs : List ArenaVisit} (id : Nat) : Balanced inner → Balanced vs →
      Balanced (.enter id :: inner ++ .exit id :: vs)

theorem Balanced.append {vs ws : List ArenaVisit} (hv : Balanced vs) (hw : Balanced ws) :
    Balanced (vs ++ ws) := by
  induction hv with
  | nil => exact hw
  | leaf id _ ih => exact .leaf id ih
  | pair id hinner _ _ ih =>
    rw [List.append_assoc, List.cons_append]
    exact .pair id hinner ih

/-- Each production is left as often as it is entered. -/
theorem Balanced.left_perm {vs : List ArenaVisit} (h : Balanced vs) :
    (vs.filterMap left?).Perm (vs.filterMap entered?) := by
  induction h with
  | nil => exact .refl _
  | leaf id _ ih => exact ih
  | @pair inner vs id _ _ ihinner ih =>
    rw [List.filterMap_append, List.filterMap_append]
    exact List.perm_middle.trans (.cons id (ihinner.append ih))

end ArenaVisit

/-- A walk through an arena on its way. -/
structure Traversal where
  /-- The open productions, innermost first, and which of its children is the next one. -/
  stack : List (Nat × Nat)
  started : Bool

namespace Traversal

/-- A walk that has not begun. -/
def new : Traversal := ⟨[], false⟩

/-- Comes to a node; a production is opened. -/
def visit (nodes : List NodeData) (t : Traversal) (id : Nat) :
    Except Fault (ArenaVisit × Traversal) :=
  match nodes[id]? with
  | none => .error .outOfBounds
  | some n =>
    if n.isToken then .ok (.leaf id, t)
    else .ok (.enter id, { t with stack := (id, 0) :: t.stack })

/-- The next step: to the root, then to the next child of the innermost open production, or out of
it if it has no more. -/
def next (nodes : List NodeData) (t : Traversal) : Except Fault (Option (ArenaVisit × Traversal)) :=
  if !t.started then
    if nodes.isEmpty then .ok none else (visit nodes ⟨t.stack, true⟩ 0).map some
  else
    match t.stack with
    | [] => .ok none
    | (id, k) :: stack =>
      match nodes[id]? with
      | none => .error .outOfBounds
      | some n =>
        match n.children[k]? with
        | some child => (visit nodes ⟨(id, k + 1) :: stack, true⟩ child).map some
        | none => .ok (some (.exit id, ⟨stack, true⟩))

/-- A walk makes these steps, and then no more. -/
inductive Yields (nodes : List NodeData) : Traversal → List ArenaVisit → Prop where
  | done {t : Traversal} : t.next nodes = .ok none → Yields nodes t []
  | step {t t' : Traversal} {v : ArenaVisit} {vs : List ArenaVisit} :
      t.next nodes = .ok (some (v, t')) → Yields nodes t' vs → Yields nodes t (v :: vs)

variable {nodes : List NodeData} {t : Traversal} {vs : List ArenaVisit}

theorem Yields.unique {ws : List ArenaVisit} (hv : Yields nodes t vs) (hw : Yields nodes t ws) :
    ws = vs := by
  induction hv generalizing ws with
  | done h =>
    cases hw with
    | done => rfl
    | step h' _ => cases h.symm.trans h'
  | step h _ ih =>
    cases hw with
    | done h' => cases h.symm.trans h'
    | step h' hw =>
      cases h.symm.trans h'
      rw [ih hw]

end Traversal

/-- A step as one in an arena. -/
def Visit.arena : Visit → ArenaVisit
  | .enter e => .enter e.id
  | .exit e => .exit e.id
  | .leaf e => .leaf e.id

/-! ## Walks through trees -/

namespace Node

open ArenaVisit

theorem map_walk (name : String) (range : Span) (children : List Node) (id : Nat)
    (parent : Option Nat) : ((Node.production name range children).walk id parent).map Visit.arena =
      .enter id :: (walkList (id + 1) id children).map Visit.arena ++ [.exit id] := by
  rw [walk, List.map_append]
  rfl

/-- What is read off the steps of a walk is what is read off the nodes; nothing is read off leaving
a production. -/
structure Reads {α : Type} (f : ArenaVisit → Option α) (g : Entry → Option α) : Prop where
  leaf : ∀ e, e.node.isToken = true → f (.leaf e.id) = g e
  enter : ∀ e, e.node.isToken = false → f (.enter e.id) = g e
  exit : ∀ id, f (.exit id) = none

variable {α : Type} {f : ArenaVisit → Option α} {g : Entry → Option α}

mutual

/-- Apart from leaving productions, a walk passes the nodes in their order. -/
theorem Reads.filterMap_walk (h : Reads f g) : (n : Node) → (id : Nat) → (parent : Option Nat) →
    ((n.walk id parent).map Visit.arena).filterMap f = (n.entries id parent).filterMap g
  | .token kind range, id, parent => by
    have hstep := h.leaf ⟨id, parent, [], .token kind range⟩ rfl
    show [ArenaVisit.leaf id].filterMap f = [_].filterMap g
    rw [List.filterMap_cons, List.filterMap_cons, ← hstep]
    rfl
  | .production name range children, id, parent => by
    have hstep := h.enter
      ⟨id, parent, childIds (id + 1) children, .production name range children⟩ rfl
    have hlast : [ArenaVisit.exit id].filterMap f = [] := by
      rw [List.filterMap_cons, h.exit]
      rfl
    rw [map_walk, List.filterMap_append, hlast, List.append_nil, entries, List.filterMap_cons,
      List.filterMap_cons, ← hstep, h.filterMap_walkList children]

theorem Reads.filterMap_walkList (h : Reads f g) : (ns : List Node) → (id parent : Nat) →
    ((walkList id parent ns).map Visit.arena).filterMap f = (entriesList id parent ns).filterMap g
  | [], _, _ => rfl
  | n :: ns, id, parent => by
    rw [walkList, entriesList, List.map_append, List.filterMap_append, List.filterMap_append,
      h.filterMap_walk n, h.filterMap_walkList ns]

end

mutual

/-- A walk leaves what it has entered. -/
theorem balanced_walk : (n : Node) → (id : Nat) → (parent : Option Nat) →
    Balanced ((n.walk id parent).map Visit.arena)
  | .token _ _, id, _ => .leaf id .nil
  | .production name range children, id, parent => by
    rw [map_walk]
    exact .pair id (balanced_walkList children (id + 1) id) .nil

theorem balanced_walkList : (ns : List Node) → (id parent : Nat) →
    Balanced ((walkList id parent ns).map Visit.arena)
  | [], _, _ => .nil
  | n :: ns, id, parent => by
    rw [walkList, List.map_append]
    exact (balanced_walk n id (some parent)).append (balanced_walkList ns (id + n.size) parent)

end

end Node

/-! ## The arena of a tree -/

namespace Traversal

variable {nodes : List NodeData} {t : Traversal} {stack : List (Nat × Nat)} {vs : List ArenaVisit}

/-- The children of an open production are left behind when there are no more. -/
theorem next_exit {id k : Nat} {d : NodeData} (hd : nodes[id]? = some d)
    (hk : d.children[k]? = none) :
    next nodes ⟨(id, k) :: stack, true⟩ = .ok (some (.exit id, ⟨stack, true⟩)) := by
  unfold next
  simp only [Bool.not_true, Bool.false_eq_true, if_false, hd, hk]

theorem next_child {id k child : Nat} {d : NodeData} (hd : nodes[id]? = some d)
    (hk : d.children[k]? = some child) :
    next nodes ⟨(id, k) :: stack, true⟩ =
      (visit nodes ⟨(id, k + 1) :: stack, true⟩ child).map some := by
  unfold next
  simp only [Bool.not_true, Bool.false_eq_true, if_false, hd, hk]

mutual

/-- Where the next step is to come to a node, the walk goes through all that is below the node and
then on. -/
theorem yields_walk : (n : Node) → {id : Nat} → {parent : Option Nat} → {t : Traversal} →
    {stack : List (Nat × Nat)} → {vs : List ArenaVisit} →
    (∀ e ∈ n.entries id parent, nodes[e.id]? = some e.data) →
    t.next nodes = (visit nodes ⟨stack, true⟩ id).map some → Yields nodes ⟨stack, true⟩ vs →
    Yields nodes t ((n.walk id parent).map Visit.arena ++ vs)
  | .token kind range, id, parent, t, stack, vs, hnodes, hnext, hvs => by
    have hd := hnodes _ (List.mem_singleton_self _)
    refine .step (hnext.trans ?_) hvs
    unfold visit
    simp only [hd]
    rfl
  | .production name range children, id, parent, t, stack, vs, hnodes, hnext, hvs => by
    have hd := hnodes _ (List.mem_cons_self ..)
    have hopen : visit nodes ⟨stack, true⟩ id = .ok (.enter id, ⟨(id, 0) :: stack, true⟩) := by
      unfold visit
      simp only [hd]
      rfl
    rw [hopen] at hnext
    have hlength : (childIds (id + 1) children)[0 + children.length]? = none := by
      rw [Nat.zero_add, ← length_childIds children (id + 1), List.getElem?_eq_none (Nat.le_refl _)]
    rw [Node.map_walk, List.append_assoc, List.cons_append]
    exact .step hnext (yields_walkList children (fun e he => hnodes e (List.mem_cons_of_mem _ he))
      hd rfl (.step (next_exit hd hlength) hvs))

/-- The walk goes from one child to the next. -/
theorem yields_walkList : (ns : List Node) → {id parent k : Nat} → {d : NodeData} →
    {stack : List (Nat × Nat)} → {vs : List ArenaVisit} →
    (∀ e ∈ Node.entriesList id parent ns, nodes[e.id]? = some e.data) →
    nodes[parent]? = some d → d.children.drop k = childIds id ns →
    Yields nodes ⟨(parent, k + ns.length) :: stack, true⟩ vs →
    Yields nodes ⟨(parent, k) :: stack, true⟩ ((Node.walkList id parent ns).map Visit.arena ++ vs)
  | [], _, _, _, _, _, _, _, _, _, hvs => hvs
  | n :: ns, id, parent, k, d, stack, vs, hnodes, hd, hchildren, hvs => by
    have hchild : d.children[k]? = some id := by
      rw [← Nat.add_zero k, ← List.getElem?_drop, hchildren]
      rfl
    have hrest : d.children.drop (k + 1) = childIds (id + n.size) ns := by
      rw [← List.drop_drop, hchildren]
      rfl
    rw [List.length_cons, Nat.add_comm ns.length, ← Nat.add_assoc] at hvs
    rw [Node.walkList, List.map_append, List.append_assoc]
    exact yields_walk n (fun e he => hnodes e (List.mem_append_left _ he)) (next_child hd hchild)
      (yields_walkList ns (fun e he => hnodes e (List.mem_append_right _ he)) hd hrest hvs)

end

/-- The walk through the arena of a tree ends, and follows the tree. -/
theorem yields_iff (n : Node) {vs : List ArenaVisit} :
    Yields (SyntaxTree.arena ⟨some n⟩) new vs ↔
      vs = (SyntaxTree.walk ⟨some n⟩).map Visit.arena := by
  have hnodes : ∀ e ∈ n.entries 0 none, (SyntaxTree.arena ⟨some n⟩)[e.id]? = some e.data :=
    fun e he => SyntaxTree.getElem?_arena he
  have hroot : new.next (SyntaxTree.arena ⟨some n⟩) =
      (visit (SyntaxTree.arena ⟨some n⟩) ⟨[], true⟩ 0).map some := by
    unfold next
    rw [SyntaxTree.isEmpty_arena]
    rfl
  have hyields := yields_walk n hnodes hroot (.done rfl)
  rw [List.append_nil] at hyields
  constructor
  · exact fun h => hyields.unique h
  · rintro rfl
    exact hyields

end Traversal

/-- The numbers of the nodes that pass a check, in document order. -/
def numbersOf (nodes : List NodeData) (check : NodeData → Bool) : List Nat :=
  (List.range nodes.length).filter fun id => nodes[id]?.any check

namespace SyntaxTree

variable (n : Node)

theorem map_id_entries :
    (n.entries 0 none).map Entry.id = List.range (SyntaxTree.arena ⟨some n⟩).length := by
  rw [Node.id_entries, length_arena, List.range_eq_range']

theorem numbersOf_arena (check : NodeData → Bool) :
    numbersOf (SyntaxTree.arena ⟨some n⟩) check =
      ((n.entries 0 none).filter fun e => check e.data).map Entry.id := by
  rw [numbersOf, ← map_id_entries, List.filter_map]
  refine congrArg _ (List.filter_congr fun e he => ?_)
  show (SyntaxTree.arena ⟨some n⟩)[e.id]?.any check = _
  rw [getElem?_arena he]
  rfl

/-- The walk comes to the nodes in their order. -/
theorem reached_walk : ((SyntaxTree.walk ⟨some n⟩).map Visit.arena).filterMap ArenaVisit.reached? =
    List.range (SyntaxTree.arena ⟨some n⟩).length := by
  have hreads : Node.Reads ArenaVisit.reached? (some ∘ Entry.id) :=
    ⟨fun _ _ => rfl, fun _ _ => rfl, fun _ => rfl⟩
  refine (hreads.filterMap_walk n 0 none).trans ?_
  rw [List.filterMap_eq_map, map_id_entries]

/-- What comes up in a walk at the nodes that pass a check are those nodes. -/
theorem filterMap_walk {f : ArenaVisit → Option Nat} {check : NodeData → Bool}
    (hreads : Node.Reads f fun e => if check e.data then some e.id else none) :
    ((SyntaxTree.walk ⟨some n⟩).map Visit.arena).filterMap f =
      numbersOf (SyntaxTree.arena ⟨some n⟩) check := by
  refine (hreads.filterMap_walk n 0 none).trans ?_
  rw [numbersOf_arena, ← List.filterMap_eq_map, List.filterMap_filter]
  rfl

theorem leaf_walk : ((SyntaxTree.walk ⟨some n⟩).map Visit.arena).filterMap ArenaVisit.leaf? =
    numbersOf (SyntaxTree.arena ⟨some n⟩) NodeData.isToken := by
  refine filterMap_walk n ⟨fun e h => ?_, fun e h => ?_, fun _ => rfl⟩
  · rw [e.isToken_data, h]
    rfl
  · rw [e.isToken_data, h]
    rfl

theorem entered_walk : ((SyntaxTree.walk ⟨some n⟩).map Visit.arena).filterMap ArenaVisit.entered? =
    numbersOf (SyntaxTree.arena ⟨some n⟩) fun d => !d.isToken := by
  refine filterMap_walk n ⟨fun e h => ?_, fun e h => ?_, fun _ => rfl⟩
  · rw [e.isToken_data, h]
    rfl
  · rw [e.isToken_data, h]
    rfl

end SyntaxTree

end Phrase
