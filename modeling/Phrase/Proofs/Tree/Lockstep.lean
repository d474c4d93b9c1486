import Phrase.Proofs.Parse.Lockstep
import Phrase.Tree.Builder
import Phrase.Tree.Snapshot

/-!
# Trees in step

Event streams in step make trees of the same form, with their tokens at paired positions
(`Lockstep.tree_alike`).  If paired positions have the same text between them, the snapshots of
such trees differ in their positions only.
-/

namespace Phrase

/-! ## Trees -/

mutual

/-- Trees of the same form whose tokens stand at paired positions. -/
def Node.Alike (At : Nat → Nat → Prop) : Node → Node → Prop
  | .token kind r, .token kind' r' =>
    kind = kind' ∧ At r.start r'.start ∧ At r.stop r'.stop ∧ r.start ≤ r.stop
  | .production name _ ns, .production name' _ ns' => name = name' ∧ Node.AlikeList At ns ns'
  | _, _ => False

/-- The same for some trees. -/
def Node.AlikeList (At : Nat → Nat → Prop) : List Node → List Node → Prop
  | [], [] => True
  | n :: ns, n' :: ns' => n.Alike At n' ∧ Node.AlikeList At ns ns'
  | _, _ => False

end

theorem Node.alikeList_iff {At : Nat → Nat → Prop} {ns ns' : List Node} :
    Node.AlikeList At ns ns' ↔ List.Forall₂ (Node.Alike At) ns ns' := by
  constructor
  · intro h
    induction ns generalizing ns' with
    | nil =>
      cases ns' with
      | nil => exact .nil
      | cons n' ns' => exact h.elim
    | cons n ns ih =>
      cases ns' with
      | nil => exact h.elim
      | cons n' ns' => exact .cons h.1 (ih h.2)
  · intro h
    induction h with
    | nil => trivial
    | cons h _ ih => exact ⟨h, ih⟩

/-! ## Building -/

/-- Open productions of the same form. -/
structure Frame.Alike (At : Nat → Nat → Prop) (f f' : Frame) : Prop where
  name : f.name = f'.name
  start : At f.start f'.start
  reversed : List.Forall₂ (Node.Alike At) f.reversed f'.reversed

namespace Frame.Alike

variable {At : Nat → Nat → Prop} {f f' : Frame} {n n' : Node}

theorem push (h : f.Alike At f') (hn : n.Alike At n') : (f.push n).Alike At (f'.push n') :=
  ⟨h.name, h.start, .cons hn h.reversed⟩

theorem toNode (h : f.Alike At f') : f.toNode.Alike At f'.toNode :=
  ⟨h.name, Node.alikeList_iff.2 (List.rel_reverse h.reversed)⟩

end Frame.Alike

/-- Builders of the same form. -/
structure TreeBuilder.Alike (At : Nat → Nat → Prop) (b b' : TreeBuilder) : Prop where
  current : b.current.Alike At b'.current
  outer : List.Forall₂ (Frame.Alike At) b.outer b'.outer

namespace TreeBuilder.Alike

variable {At : Nat → Nat → Prop} {b b' : TreeBuilder} {p p' q q' : Nat}

theorem atRoot_eq (h : b.Alike At b') : b.atRoot = b'.atRoot := by
  obtain ⟨current, outer⟩ := b
  obtain ⟨current', outer'⟩ := b'
  cases h.outer with
  | nil => rfl
  | cons => rfl

theorem token (h : b.Alike At b') (kind : TokenKind) (hp : At p p') (hq : At q q')
    (hle : p ≤ q) : (b.token kind ⟨p, q⟩).Alike At (b'.token kind ⟨p', q'⟩) :=
  ⟨h.current.push (n := .token kind ⟨p, q⟩) ⟨rfl, hp, hq, hle⟩,
    h.outer⟩

theorem finish (h : b.Alike At b') : b.finish.Alike At b'.finish := by
  obtain ⟨current, outer⟩ := b
  obtain ⟨current', outer'⟩ := b'
  obtain ⟨hcurrent, houter⟩ := h
  cases houter with
  | nil => exact ⟨hcurrent, .nil⟩
  | cons hf hfs => exact ⟨hf.push hcurrent.toNode, hfs⟩

theorem cancel (h : b.Alike At b') : b.cancel.Alike At b'.cancel := by
  obtain ⟨current, outer⟩ := b
  obtain ⟨current', outer'⟩ := b'
  obtain ⟨hcurrent, houter⟩ := h
  cases houter with
  | nil => exact ⟨hcurrent, .nil⟩
  | cons hf hfs => exact ⟨hf, hfs⟩

theorem cancelAt (h : b.Alike At b')
    (hlt : ∀ {p p' q q'}, At p p' → At q q' → (p < q ↔ p' < q')) (hp : At p p') :
    (b.cancelAt p).Alike At (b'.cancelAt p') := by
  have hiff := hlt h.current.start hp
  unfold TreeBuilder.cancelAt
  simp only
  by_cases hcut : b.current.start < p
  · rw [if_pos hcut, if_pos (hiff.1 hcut)]
    exact h.cancel.token .error h.current.start hp (Nat.le_of_lt hcut)
  · rw [if_neg hcut, if_neg fun h' => hcut (hiff.2 h')]
    exact h.cancel

end TreeBuilder.Alike

/-- What is known of trees of the same form in the middle of their event streams. -/
structure TreeSketch.Alike (At : Nat → Nat → Prop) (s s' : TreeSketch) : Prop where
  builder : Option.Rel (TreeBuilder.Alike At) s.builder? s'.builder?
  tree : Option.Rel (Node.Alike At) s.tree.root? s'.tree.root?

namespace Lockstep

variable {env env' : Environment} {law : Lockstep env env'}

theorem EventAlike.on {e e' : Event} (he : law.EventAlike e e') {s s' : TreeSketch}
    (hs : s.Alike law.At s') : (s.on e).Alike law.At (s'.on e') := by
  obtain ⟨builder?, tree⟩ := s
  obtain ⟨builder?', tree'⟩ := s'
  obtain ⟨hbuilder, htree⟩ := hs
  cases he with
  | start name hp =>
    cases hbuilder with
    | none => exact ⟨.some ⟨⟨rfl, hp, .nil⟩, .nil⟩, htree⟩
    | some hb => exact ⟨.some ⟨⟨rfl, hp, .nil⟩, .cons hb.current hb.outer⟩, htree⟩
  | finish name hp =>
    cases hbuilder with
    | none => exact ⟨.none, htree⟩
    | @some b b' hb =>
      have hroot := hb.atRoot_eq
      simp only [TreeSketch.on, hroot]
      split
      · exact ⟨.none, .some hb.current.toNode⟩
      · exact ⟨.some hb.finish, htree⟩
  | cancel name hp =>
    cases hbuilder with
    | none => exact ⟨.none, htree⟩
    | @some b b' hb =>
      have hroot := hb.atRoot_eq
      simp only [TreeSketch.on, hroot]
      split
      · exact ⟨.none, .none⟩
      · exact ⟨.some (hb.cancelAt law.lt_iff hp), htree⟩
  | token kind hp hq hle =>
    cases hbuilder with
    | none => exact ⟨.none, htree⟩
    | some hb => exact ⟨.some (hb.token kind hp hq hle), htree⟩
  | error => exact ⟨hbuilder, htree⟩

/-- Event streams in step make trees in step. -/
theorem tree_alike {es es' : List Event} (hes : List.Forall₂ law.EventAlike es es') :
    Option.Rel (Node.Alike law.At) (SyntaxTree.ofEvents es).root?
      (SyntaxTree.ofEvents es').root? :=
  (List.rel_foldl (P := TreeSketch.Alike law.At) (fun _ _ hs _ _ he => he.on hs)
    ⟨.none, .none⟩ hes).tree

end Lockstep

/-! ## Snapshots -/

/-- Two sources with the same text between paired positions. -/
def Source.SameText (At : Nat → Nat → Prop) (source source' : Source) : Prop :=
  ∀ {p p' q q'}, At p p' → At q q' → p ≤ q →
    ∃ text, source.sliceText ⟨p, q⟩ = .ok text ∧ source'.sliceText ⟨p', q'⟩ = .ok text

namespace Snapshot

mutual

/-- A snapshot without its positions. -/
def unplaced : Snapshot → Snapshot
  | ⟨nodeType, name, _, _, text, children⟩ => ⟨nodeType, name, 0, 0, text, unplacedList children⟩

/-- Some snapshots without their positions. -/
def unplacedList : List Snapshot → List Snapshot
  | [] => []
  | s :: ss => s.unplaced :: unplacedList ss

end

mutual

/-- Trees in step have snapshots that differ in their positions only. -/
theorem ofNode_alike {At : Nat → Nat → Prop} {source source' : Source}
    (htext : source.SameText At source') : (n n' : Node) → n.Alike At n' →
    ∃ s s', ofNode source n = .ok s ∧ ofNode source' n' = .ok s' ∧ s.unplaced = s'.unplaced
  | .token kind r, .token kind' r', h => by
    obtain ⟨rfl, hstart, hstop, hle⟩ := h
    obtain ⟨text, hslice, hslice'⟩ := htext hstart hstop hle
    exact ⟨⟨"token", kind.name, r.start, r.stop, some text, []⟩,
      ⟨"token", kind.name, r'.start, r'.stop, some text, []⟩, by rw [ofNode, hslice]; rfl,
      by rw [ofNode, hslice']; rfl, rfl⟩
  | .production name r ns, .production name' r' ns', h => by
    obtain ⟨rfl, hns⟩ := h
    obtain ⟨ss, ss', hss, hss', heq⟩ := ofNodes_alike htext ns ns' hns
    refine ⟨⟨"production", name, r.start, r.stop, none, ss⟩,
      ⟨"production", name, r'.start, r'.stop, none, ss'⟩, by rw [ofNode, hss]; rfl,
      by rw [ofNode, hss']; rfl, ?_⟩
    rw [unplaced, unplaced, heq]
  | .token _ _, .production _ _ _, h => h.elim
  | .production _ _ _, .token _ _, h => h.elim

theorem ofNodes_alike {At : Nat → Nat → Prop} {source source' : Source}
    (htext : source.SameText At source') : (ns ns' : List Node) → Node.AlikeList At ns ns' →
    ∃ ss ss', ofNodes source ns = .ok ss ∧ ofNodes source' ns' = .ok ss' ∧
      unplacedList ss = unplacedList ss'
  | [], [], _ => ⟨[], [], rfl, rfl, rfl⟩
  | n :: ns, n' :: ns', h => by
    obtain ⟨s, s', hs, hs', heq⟩ := ofNode_alike htext n n' h.1
    obtain ⟨ss, ss', hss, hss', heqs⟩ := ofNodes_alike htext ns ns' h.2
    refine ⟨s :: ss, s' :: ss', by rw [ofNodes, hs]; simp only [bind, Except.bind, hss]; rfl,
      by rw [ofNodes, hs']; simp only [bind, Except.bind, hss']; rfl, ?_⟩
    rw [unplacedList, unplacedList, heq, heqs]
  | [], _ :: _, h => h.elim
  | _ :: _, [], h => h.elim

end

end Snapshot

end Phrase
