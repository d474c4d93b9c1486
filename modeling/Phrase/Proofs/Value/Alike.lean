import Mathlib.Data.List.Forall2
import Phrase.Value.Kind

/-!
# Values over related positions

Two parses in step build values of the same form that differ in their positions only.  That is
so for the kinds of values that do not look into what they are made from: tuples, labelled
tuples and lists (`ValueKind.call_alike`).
-/

namespace Phrase

/-- Values of the same form, with related positions in the same places. -/
inductive Value.Alike (At : Nat → Nat → Prop) : Value → Value → Prop where
  | default : Value.Alike At .default .default
  | unit : Value.Alike At .unit .unit
  | int (n : Int) : Value.Alike At (.int n) (.int n)
  | count (n : Nat) : Value.Alike At (.count n) (.count n)
  | sym (name : String) : Value.Alike At (.sym name) (.sym name)
  | pos {p p' : Nat} : At p p' → Value.Alike At (.pos p) (.pos p')
  | lexeme {p p' q q' : Nat} : At p p' → At q q' → p ≤ q →
      Value.Alike At (.lexeme ⟨p, q⟩) (.lexeme ⟨p', q'⟩)
  | tuple {vs vs' : List Value} : List.Forall₂ (Value.Alike At) vs vs' →
      Value.Alike At (.tuple vs) (.tuple vs')
  | list {vs vs' : List Value} : List.Forall₂ (Value.Alike At) vs vs' →
      Value.Alike At (.list vs) (.list vs')

/-- Containers with related contents, for those that are nothing or keep their items. -/
inductive Container.Alike (At : Nat → Nat → Prop) : Container → Container → Prop where
  | nothing : Container.Alike At .nothing .nothing
  | items {vs vs' : List Value} : List.Forall₂ (Value.Alike At) vs vs' →
      Container.Alike At (.items vs) (.items vs')

variable {At : Nat → Nat → Prop} {v v' : Value} {vs vs' : List Value} {c c' : Container}

/-- Values in step are both a name with another value, or none of them is. -/
theorem Value.Alike.named_or_not (h : v.Alike At v') :
    (∃ name w w', v = .tuple [.sym name, w] ∧ v' = .tuple [.sym name, w'] ∧ w.Alike At w') ∨
      (∀ name w, v ≠ .tuple [.sym name, w]) ∧ ∀ name w, v' ≠ .tuple [.sym name, w] := by
  by_cases hv : ∃ name w, v = .tuple [.sym name, w]
  · obtain ⟨name, w, rfl⟩ := hv
    cases h with
    | tuple hvs =>
      obtain ⟨_, vs, hname, hws, rfl⟩ := List.forall₂_cons_left_iff.1 hvs
      obtain ⟨w', ws, hw, hnil, rfl⟩ := List.forall₂_cons_left_iff.1 hws
      obtain rfl := List.forall₂_nil_left_iff.1 hnil
      cases hname
      exact .inl ⟨name, w, w', rfl, rfl, hw⟩
  · refine .inr ⟨fun name w hw => hv ⟨name, w, hw⟩, ?_⟩
    rintro name w' rfl
    cases h with
    | tuple hvs =>
      obtain ⟨_, vs, hname, hws, rfl⟩ := List.forall₂_cons_right_iff.1 hvs
      obtain ⟨w, ws, hw, hnil, rfl⟩ := List.forall₂_cons_right_iff.1 hws
      obtain rfl := List.forall₂_nil_right_iff.1 hnil
      cases hname
      exact hv ⟨name, w, rfl⟩

namespace Container.Alike

theorem add (h : c.Alike At c') (hv : v.Alike At v') : (c.add v).Alike At (c'.add v') := by
  cases h with
  | nothing => exact .nothing
  | items hvs => exact .items (.cons hv hvs)

theorem addAll (h : c.Alike At c') (hvs : List.Forall₂ (Value.Alike At) vs vs') :
    (c.addAll vs).Alike At (c'.addAll vs') := by
  induction hvs generalizing c c' with
  | nil => exact h
  | cons hv _ ih => exact ih (h.add hv)

theorem finish (h : c.Alike At c') : c.finish.Alike At c'.finish := by
  cases h with
  | nothing => exact .unit
  | items hvs => exact .list (List.rel_reverse hvs)

end Container.Alike

namespace ValueKind

variable {kind : ValueKind}

/-- Whether a kind keeps what it is made from as it is: such kinds do not start with the items
of the state, and they neither join, nor sort, nor count. -/
def isPlain : ValueKind → Bool
  | .discard | .list false | .deque | .pairs | .callback | .labelled _ => true
  | _ => false

theorem container_alike (h : kind.isPlain = true) (state : ParseState) :
    (kind.container state).Alike At (kind.container state) := by
  match kind, h with
  | .discard, _ | .callback, _ | .labelled _, _ => exact .nothing
  | .list false, _ | .deque, _ | .pairs, _ => exact .items .nil

theorem item_alike (kind : ValueKind) (hvs : List.Forall₂ (Value.Alike At) vs vs') :
    (kind.item vs).Alike At (kind.item vs') := by
  cases hvs with
  | nil => cases kind <;> exact .tuple .nil
  | cons hv hvs =>
    cases hvs with
    | nil =>
      cases kind with
      | tuples => exact .tuple (.cons hv .nil)
      | _ => exact hv
    | cons hw hvs => cases kind <;> exact .tuple (.cons hv (.cons hw hvs))

theorem push_alike (kind : ValueKind) (hc : c.Alike At c')
    (hvs : List.Forall₂ (Value.Alike At) vs vs') :
    (kind.push c vs).Alike At (kind.push c' vs') := hc.add (item_alike kind hvs)

theorem argument_eq (h : kind.isPlain = true) (v : Value) : kind.argument v = v := by
  match kind, h with
  | .discard, _ | .callback, _ | .labelled _, _ | .list false, _ | .deque, _ | .pairs, _ =>
    simp only [argument]

/-- Plain kinds make values in step from outputs in step. -/
theorem call_alike (h : kind.isPlain = true) (state : ParseState)
    (hvs : List.Forall₂ (Value.Alike At) vs vs') :
    (kind.call state vs).Alike At (kind.call state vs') := by
  match kind, h with
  | .discard, _ => exact .unit
  | .callback, _ => exact .tuple hvs
  | .labelled label, _ => exact .tuple (.cons (.sym label) hvs)
  | .list false, h | .deque, h | .pairs, h =>
    cases hvs with
    | nil => exact .list .nil
    | cons hv hvs =>
      cases hvs with
      | nil =>
        cases hv with
        | default => exact .list .nil
        | unit => exact .unit
        | int n => exact .int n
        | count n => exact .count n
        | sym name => exact .sym name
        | pos hp => exact .pos hp
        | lexeme hp hq hle => exact .lexeme hp hq hle
        | tuple hvs => exact .tuple hvs
        | list hvs => exact .list hvs
      | cons hw hvs =>
        simp only [call, container, List.map_congr_left fun v _ => argument_eq h v, List.map_id']
        exact (Container.Alike.addAll (.items .nil) (.cons hv (.cons hw hvs))).finish

end ValueKind

end Phrase
