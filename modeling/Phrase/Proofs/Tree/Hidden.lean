import Phrase.Proofs.Tree.Drawing

/-!
# Drawings with whitespace hidden

Hiding whitespace is the same as drawing the tree from which it has been taken out
(`Snapshot.draw_withoutWhitespace`).  So a node is drawn as the last child of its parent as soon as
nothing but whitespace stands behind it (`Snapshot.shown`).

All of it is induction over the tree.  A connector depends on no more than whether a child that is
kept stands behind, so the tree without whitespace has the same ones.
-/

namespace Phrase

namespace Snapshot

/-! ## Trees without whitespace -/

mutual

/-- The tree without the tokens of whitespace that are below its root. -/
def withoutWhitespace : Snapshot → Snapshot
  | ⟨nodeType, name, start, stop, text, children⟩ =>
    ⟨nodeType, name, start, stop, text, withoutWhitespaceList children⟩

/-- The trees that are no tokens of whitespace, without the tokens of whitespace below them. -/
def withoutWhitespaceList : List Snapshot → List Snapshot
  | [] => []
  | s :: ss =>
    if s.isWhitespace then withoutWhitespaceList ss
    else s.withoutWhitespace :: withoutWhitespaceList ss

end

/-- Only the trees that are no tokens of whitespace are kept, and all of these. -/
theorem withoutWhitespaceList_eq (ss : List Snapshot) :
    withoutWhitespaceList ss = (ss.filter fun s => !s.isWhitespace).map withoutWhitespace := by
  induction ss with
  | nil => rfl
  | cons s ss ih =>
    rw [withoutWhitespaceList, ih]
    by_cases hs : s.isWhitespace <;> simp [hs]

@[simp] theorem label_withoutWhitespace (s : Snapshot) : s.withoutWhitespace.label = s.label := by
  cases s
  rw [withoutWhitespace]
  rfl

/-- Nothing is left of trees that are all whitespace, and of no others. -/
theorem isEmpty_withoutWhitespaceList (ss : List Snapshot) :
    (withoutWhitespaceList ss).isEmpty = ss.all isWhitespace := by
  rw [withoutWhitespaceList_eq, List.isEmpty_map, Bool.eq_iff_iff, List.isEmpty_iff,
    List.filter_eq_nil_iff, List.all_eq_true]
  simp

/-! ## Drawing them -/

theorem drawList_whitespace {s : Snapshot} (hs : s.isWhitespace) (indent : String)
    (ss : List Snapshot) : drawList false indent (s :: ss) = drawList false indent ss := by
  rw [drawList, if_neg (by simp [hs])]

/-- With whitespace hidden, the last child is the one with nothing but whitespace behind it. -/
theorem drawList_visible {s : Snapshot} (hs : ¬ s.isWhitespace) (indent : String)
    (ss : List Snapshot) :
    drawList false indent (s :: ss) =
      indent ++ connector (ss.all isWhitespace) ++ s.label ++ "\n" ++
        drawBelow false (indent ++ if ss.all isWhitespace then "  " else "│ ") s ++
        drawList false indent ss := by
  have hlast : (ss.all fun s => !(false || !s.isWhitespace)) = ss.all isWhitespace := by simp
  rw [drawList, hlast, if_pos (by simp [hs])]
  rfl

mutual

theorem drawBelow_withoutWhitespace : (s : Snapshot) → (indent : String) →
    drawBelow false indent s = drawBelow true indent s.withoutWhitespace
  | ⟨_, _, _, _, _, children⟩, indent => by
    rw [withoutWhitespace, drawBelow, drawBelow]
    exact drawList_withoutWhitespace children indent

theorem drawList_withoutWhitespace : (ss : List Snapshot) → (indent : String) →
    drawList false indent ss = drawList true indent (withoutWhitespaceList ss)
  | [], indent => by
    rw [withoutWhitespaceList, drawList, drawList]
  | s :: ss, indent => by
    rw [withoutWhitespaceList]
    by_cases hs : s.isWhitespace
    · rw [if_pos hs, drawList_whitespace hs, drawList_withoutWhitespace ss]
    · -- both connectors ask whether any child behind this one is kept
      rw [if_neg hs, drawList_visible hs, drawList_cons, isEmpty_withoutWhitespaceList,
        label_withoutWhitespace, drawBelow_withoutWhitespace s, drawList_withoutWhitespace ss]

end

/-! ## Lines -/

mutual

/-- The nodes of a tree that are drawn with whitespace hidden, in depth-first order, if `path` leads
to the tree.  The last child of a node is the one with nothing but whitespace behind it. -/
def shown (path : List Bool) : Snapshot → List Place
  | s@⟨_, _, _, _, _, children⟩ => ⟨path, s⟩ :: shownList path children

/-- The nodes that are drawn of the trees below the node that `path` leads to. -/
def shownList (path : List Bool) : List Snapshot → List Place
  | [] => []
  | s :: ss =>
    if s.isWhitespace then shownList path ss
    else s.shown (path ++ [ss.all isWhitespace]) ++ shownList path ss

end

theorem shown_eq (path : List Bool) (s : Snapshot) :
    s.shown path = ⟨path, s⟩ :: shownList path s.children := by
  cases s
  rw [shown]

/-- The place of a node in the tree without whitespace. -/
def Place.withoutWhitespace (p : Place) : Place := ⟨p.path, p.node.withoutWhitespace⟩

@[simp] theorem Place.line_withoutWhitespace (p : Place) : p.withoutWhitespace.line = p.line := by
  rw [line, line, Place.withoutWhitespace, label_withoutWhitespace]

mutual

theorem places_withoutWhitespace : (s : Snapshot) → (path : List Bool) →
    s.withoutWhitespace.places path = (s.shown path).map Place.withoutWhitespace
  | s@⟨_, _, _, _, _, children⟩, path => by
    rw [shown, List.map_cons, ← placesList_withoutWhitespace children path, Place.withoutWhitespace,
      withoutWhitespace, places]

theorem placesList_withoutWhitespace : (ss : List Snapshot) → (path : List Bool) →
    placesList path (withoutWhitespaceList ss) = (shownList path ss).map Place.withoutWhitespace
  | [], path => rfl
  | s :: ss, path => by
    rw [withoutWhitespaceList, shownList]
    by_cases hs : s.isWhitespace
    · rw [if_pos hs, if_pos hs, placesList_withoutWhitespace ss]
    · rw [if_neg hs, if_neg hs, placesList, isEmpty_withoutWhitespaceList,
        places_withoutWhitespace s, placesList_withoutWhitespace ss, List.map_append]

end

/-- Every child that is no whitespace is among those that are drawn, whatever stands around it. -/
theorem mem_shownList {c : Snapshot} (hc : ¬ c.isWhitespace) (path : List Bool)
    (before after : List Snapshot) :
    ⟨path ++ [after.all isWhitespace], c⟩ ∈ shownList path (before ++ c :: after) := by
  induction before with
  | nil =>
    rw [List.nil_append, shownList, if_neg hc, shown_eq]
    exact List.mem_append_left _ List.mem_cons_self
  | cons s before ih =>
    rw [List.cons_append, shownList]
    split
    · exact ih
    · exact List.mem_append_right _ ih

/-- With each node the list holds those of its children that are no whitespace. -/
def HoldsChildren (ps : List Place) : Prop :=
  ∀ p ∈ ps, ∀ before c after, p.node.children = before ++ c :: after → ¬ c.isWhitespace →
    ⟨p.path ++ [after.all isWhitespace], c⟩ ∈ ps

theorem HoldsChildren.append {ps qs : List Place} (hps : HoldsChildren ps)
    (hqs : HoldsChildren qs) : HoldsChildren (ps ++ qs) := by
  intro p hp before c after hchildren hc
  obtain hp | hp := List.mem_append.1 hp
  · exact List.mem_append_left _ (hps p hp before c after hchildren hc)
  · exact List.mem_append_right _ (hqs p hp before c after hchildren hc)

mutual

theorem holdsChildren_shown : (s : Snapshot) → (path : List Bool) → HoldsChildren (s.shown path)
  | s@⟨_, _, _, _, _, children⟩, path => by
    intro p hp before c after hchildren hc
    rw [shown_eq] at hp ⊢
    refine List.mem_cons_of_mem _ ?_
    obtain rfl | hp := List.mem_cons.1 hp
    · rw [hchildren]
      exact mem_shownList hc path before after
    · exact holdsChildren_shownList children path p hp before c after hchildren hc

theorem holdsChildren_shownList : (ss : List Snapshot) → (path : List Bool) →
    HoldsChildren (shownList path ss)
  | [], path => by
    intro p hp
    simp [shownList] at hp
  | s :: ss, path => by
    rw [shownList]
    split
    · exact holdsChildren_shownList ss path
    · exact (holdsChildren_shown s _).append (holdsChildren_shownList ss path)

end

/-- With whitespace hidden the drawing is that of the tree without it.  Its lines are those of the
nodes that are shown; and every child of such a node that is no whitespace is shown, with the
connector of a last child if nothing but whitespace stands behind it, and with that of another child
if not.  What is below the child is indented accordingly. -/
theorem draw_withoutWhitespace (s : Snapshot) :
    s.draw false = s.withoutWhitespace.draw true ∧
      s.draw false = written ((s.shown []).map Place.line) ∧
      ∀ p ∈ s.shown [], ∀ before c after, p.node.children = before ++ c :: after →
        ¬ c.isWhitespace →
        let child : Place := ⟨p.path ++ [after.all isWhitespace], c⟩
        child ∈ s.shown [] ∧
          child.line = indent p.path ++ connector (after.all isWhitespace) ++ c.label ∧
          indent child.path = indent p.path ++ if after.all isWhitespace then "  " else "│ " := by
  have hdraw : s.draw false = s.withoutWhitespace.draw true := by
    rw [draw, draw, label_withoutWhitespace, drawBelow_withoutWhitespace]
  refine ⟨hdraw, ?_, fun p hp before c after hchildren hc => ⟨?_, ?_, ?_⟩⟩
  · have hline : Place.line ∘ Place.withoutWhitespace = Place.line :=
      funext Place.line_withoutWhitespace
    rw [hdraw, draw_eq, places_withoutWhitespace, List.map_map, hline]
  · exact holdsChildren_shown s [] p hp before c after hchildren hc
  · rw [Place.line, lead_concat]
  · exact indent_concat p.path (after.all isWhitespace)

/-- Whitespace stands behind the last child that is drawn, at both depths. -/
example :
    let space : Snapshot := ⟨"token", "whitespace", 1, 2, some " ", []⟩
    draw false ⟨"production", "list", 0, 4, none,
      [⟨"production", "item", 0, 2, none, [⟨"token", "digits", 0, 1, some "1", []⟩, space]⟩,
        space, ⟨"token", "literal", 2, 3, some ",", []⟩, space]⟩ =
    "list 0..4\n├─ item 0..2\n│ └─ digits \"1\"\n└─ literal \",\"\n" := by
  decide +kernel

end Snapshot

end Phrase
