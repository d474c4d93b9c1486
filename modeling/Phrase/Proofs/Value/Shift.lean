import Phrase.Value.Kind

/-!
# Values at other positions

Shifting a value moves every position in it, and leaves all else as it is.  The order of values
does not change by that (`Value.compare_shift`), so containers that are sorted or keep their items
apart take up shifted items as they take up the items themselves, and every kind of production
builds the shifted value from shifted outputs (`ValueKind.call_shift`).
-/

namespace Phrase

/-- The span that far behind. -/
def Span.shift (d : Nat) (r : Span) : Span := ⟨r.start + d, r.stop + d⟩

namespace Value

mutual

/-- The value with all its positions moved. -/
def shift (d : Nat) : Value → Value
  | .pos p => .pos (p + d)
  | .lexeme r => .lexeme (r.shift d)
  | .tuple vs => .tuple (shiftItems d vs)
  | .list vs => .list (shiftItems d vs)
  | .set vs => .set (shiftItems d vs)
  | .map es => .map (shiftEntries d es)
  | .default => .default
  | .unit => .unit
  | .int n => .int n
  | .count n => .count n
  | .sym name => .sym name
  | .str s => .str s

/-- Values with all their positions moved. -/
def shiftItems (d : Nat) : List Value → List Value
  | [] => []
  | v :: vs => shift d v :: shiftItems d vs

/-- Entries with all their positions moved. -/
def shiftEntries (d : Nat) : List (Value × Value) → List (Value × Value)
  | [] => []
  | (k, v) :: es => (shift d k, shift d v) :: shiftEntries d es

end

/-- Without positions: however far it is shifted, it stays as it is. -/
def Placeless (v : Value) : Prop := ∀ d, v.shift d = v

variable {d : Nat} {v w : Value} {vs : List Value} {es : List (Value × Value)}

theorem shiftItems_eq_map (d : Nat) (vs : List Value) : shiftItems d vs = vs.map (shift d) := by
  induction vs with
  | nil => rfl
  | cons v vs ih => rw [shiftItems, ih, List.map_cons]

theorem text?_shift (d : Nat) (v : Value) : (v.shift d).text? = v.text? := by
  cases v <;> rfl

/-! ## Order -/

theorem compare_add (a b d : Nat) : Ord.compare (a + d) (b + d) = Ord.compare a b := by
  rw [Nat.compare_eq_ite_lt, Nat.compare_eq_ite_lt]
  simp only [Nat.add_lt_add_iff_right]

mutual

/-- Shifted values are in the order of the values. -/
theorem compare_shift (d : Nat) : ∀ v w : Value, (v.shift d).compare (w.shift d) = v.compare w
  | .pos a, w => by
    cases w with
    | pos b => exact compare_add a b d
    | _ => rfl
  | .lexeme a, w => by
    cases w with
    | lexeme b =>
      rw [shift, shift, compare, compare, Span.shift, Span.shift, compare_add, compare_add]
    | _ => rfl
  | .tuple as, w => by
    cases w with
    | tuple bs => exact compareItems_shift d as bs
    | _ => rfl
  | .list as, w => by
    cases w with
    | list bs => exact compareItems_shift d as bs
    | _ => rfl
  | .set as, w => by
    cases w with
    | set bs => exact compareItems_shift d as bs
    | _ => rfl
  | .map as, w => by
    cases w with
    | map bs => exact compareEntries_shift d as bs
    | _ => rfl
  | .default, w | .unit, w | .int _, w | .count _, w | .sym _, w | .str _, w => by
    cases w <;> rfl

theorem compareItems_shift (d : Nat) : ∀ vs ws : List Value,
    compareItems (shiftItems d vs) (shiftItems d ws) = compareItems vs ws
  | [], [] => rfl
  | [], _ :: _ => rfl
  | _ :: _, [] => rfl
  | v :: vs, w :: ws => by
    rw [shiftItems, shiftItems, compareItems, compareItems, compare_shift d v w,
      compareItems_shift d vs ws]

theorem compareEntries_shift (d : Nat) : ∀ es fs : List (Value × Value),
    compareEntries (shiftEntries d es) (shiftEntries d fs) = compareEntries es fs
  | [], [] => rfl
  | [], _ :: _ => rfl
  | _ :: _, [] => rfl
  | (k, v) :: es, (l, w) :: fs => by
    rw [shiftEntries, shiftEntries, compareEntries, compareEntries, compare_shift d k l,
      compare_shift d v w, compareEntries_shift d es fs]

end

/-! ## Sorted lists and lists in order of arrival -/

theorem insertSorted_shift (d : Nat) (v : Value) (ws : List Value) :
    insertSorted (v.shift d) (shiftItems d ws) = shiftItems d (insertSorted v ws) := by
  induction ws with
  | nil => rfl
  | cons w ws ih =>
    rw [shiftItems, insertSorted, insertSorted, compare_shift]
    cases v.compare w with
    | lt | eq => rfl
    | gt => rw [shiftItems, ← ih]

theorem insertNew_shift (d : Nat) (v : Value) (ws : List Value) :
    insertNew (v.shift d) (shiftItems d ws) = shiftItems d (insertNew v ws) := by
  induction ws with
  | nil => rfl
  | cons w ws ih =>
    rw [shiftItems, insertNew, insertNew, compare_shift]
    split
    · rfl
    · rw [shiftItems, ← ih]

theorem insertEntrySorted_shift (d : Nat) (k v : Value) (es : List (Value × Value)) :
    insertEntrySorted (k.shift d) (v.shift d) (shiftEntries d es) =
      shiftEntries d (insertEntrySorted k v es) := by
  induction es with
  | nil => rfl
  | cons e es ih =>
    obtain ⟨l, w⟩ := e
    rw [shiftEntries, insertEntrySorted, insertEntrySorted, compare_shift]
    cases k.compare l with
    | lt | eq => rfl
    | gt => rw [shiftEntries, ← ih]

theorem insertEntryNew_shift (d : Nat) (k v : Value) (es : List (Value × Value)) :
    insertEntryNew (k.shift d) (v.shift d) (shiftEntries d es) =
      shiftEntries d (insertEntryNew k v es) := by
  induction es with
  | nil => rfl
  | cons e es ih =>
    obtain ⟨l, w⟩ := e
    rw [shiftEntries, insertEntryNew, insertEntryNew, compare_shift]
    split
    · rfl
    · rw [shiftEntries, ← ih]

theorem sortSet_shift (d : Nat) (vs : List Value) :
    sortSet (shiftItems d vs) = shiftItems d (sortSet vs) := by
  suffices h : ∀ ws, (shiftItems d vs).foldl (fun s v => insertSorted v s) (shiftItems d ws) =
      shiftItems d (vs.foldl (fun s v => insertSorted v s) ws) from h []
  induction vs with
  | nil => exact fun _ => rfl
  | cons v vs ih =>
    intro ws
    rw [shiftItems, List.foldl_cons, List.foldl_cons, insertSorted_shift, ih]

theorem sortMap_shift (d : Nat) (es : List (Value × Value)) :
    sortMap (shiftEntries d es) = shiftEntries d (sortMap es) := by
  suffices h : ∀ fs, (shiftEntries d es).foldl (fun m e => insertEntrySorted e.1 e.2 m)
      (shiftEntries d fs) =
      shiftEntries d (es.foldl (fun m e => insertEntrySorted e.1 e.2 m) fs) from h []
  induction es with
  | nil => exact fun _ => rfl
  | cons e es ih =>
    intro fs
    rw [shiftEntries, List.foldl_cons, List.foldl_cons, insertEntrySorted_shift, ih]

end Value

/-! ## Containers -/

namespace Container

open Value

/-- The container with all positions in it moved. -/
def shift (d : Nat) : Container → Container
  | .items vs => .items (shiftItems d vs)
  | .sortedSet vs => .sortedSet (shiftItems d vs)
  | .hashedSet vs => .hashedSet (shiftItems d vs)
  | .sortedMap es => .sortedMap (shiftEntries d es)
  | .hashedMap es => .hashedMap (shiftEntries d es)
  | .nothing => .nothing
  | .text s => .text s
  | .count n => .count n

theorem entryOf_shift (d : Nat) (v : Value) :
    entryOf (v.shift d) = ((entryOf v).1.shift d, (entryOf v).2.shift d) := by
  cases v with
  | tuple vs =>
    match vs with
    | [] | [_] | [_, _] | _ :: _ :: _ :: _ => rfl
  | _ => rfl

theorem add_shift (d : Nat) (c : Container) (v : Value) :
    (c.shift d).add (v.shift d) = (c.add v).shift d := by
  cases c with
  | nothing | items _ | count _ => rfl
  | text s => rw [shift, add, add, text?_shift, shift]
  | sortedSet vs => rw [shift, add, add, insertSorted_shift, shift]
  | hashedSet vs => rw [shift, add, add, insertNew_shift, shift]
  | sortedMap es => rw [shift, add, add, entryOf_shift, insertEntrySorted_shift, shift]
  | hashedMap es => rw [shift, add, add, entryOf_shift, insertEntryNew_shift, shift]

theorem addAll_shift (d : Nat) (c : Container) (vs : List Value) :
    (c.shift d).addAll (vs.map (·.shift d)) = (c.addAll vs).shift d := by
  induction vs generalizing c with
  | nil => rfl
  | cons v vs ih =>
    show ((c.shift d).add (v.shift d)).addAll _ = ((c.add v).addAll vs).shift d
    rw [add_shift, ih]

theorem finish_shift (d : Nat) (c : Container) : (c.shift d).finish = c.finish.shift d := by
  cases c with
  | nothing | text _ | sortedSet _ | sortedMap _ | count _ => rfl
  | items vs =>
    rw [shift, finish, finish, Value.shift, shiftItems_eq_map, shiftItems_eq_map,
      List.map_reverse]
  | hashedSet vs => rw [shift, finish, finish, sortSet_shift, Value.shift]
  | hashedMap es => rw [shift, finish, finish, sortMap_shift, Value.shift]

end Container

/-! ## Kinds of values -/

/-- What the caller hands in holds no positions. -/
def ParseState.Placeless (s : ParseState) : Prop := ∀ v ∈ s.seedItems, v.Placeless

theorem Value.shiftItems_of_placeless {vs : List Value} (h : ∀ v ∈ vs, v.Placeless) (d : Nat) :
    shiftItems d vs = vs := by
  rw [shiftItems_eq_map, List.map_congr_left fun v hv => h v hv d, List.map_id']

namespace ValueKind

theorem container_shift {state : ParseState} (h : state.Placeless) (kind : ValueKind) (d : Nat) :
    (kind.container state).shift d = kind.container state := by
  have hseed := Value.shiftItems_of_placeless h d
  match kind with
  | .list true =>
    show Container.items (Value.shiftItems d _) = _
    rw [Value.shiftItems_eq_map, List.map_reverse, ← Value.shiftItems_eq_map, hseed]
    rfl
  | .sortedSet true =>
    show Container.sortedSet (Value.shiftItems d _) = _
    rw [← Value.sortSet_shift, hseed]
    rfl
  | .list false | .deque | .pairs | .tuples | .text _ | .sortedSet false | .hashedSet
  | .sortedMap | .hashedMap | .count | .discard | .callback | .labelled _ => rfl

theorem item_shift (kind : ValueKind) (d : Nat) (vs : List Value) :
    kind.item (vs.map (·.shift d)) = (kind.item vs).shift d := by
  match vs with
  | [] => cases kind <;> rfl
  | [v] => cases kind <;> rfl
  | v :: w :: vs =>
    have htuple : Value.tuple ((v :: w :: vs).map (·.shift d)) =
        (Value.tuple (v :: w :: vs)).shift d := by
      rw [Value.shift, Value.shiftItems_eq_map]
    cases kind <;> exact htuple

theorem push_shift (kind : ValueKind) (d : Nat) (c : Container) (vs : List Value) :
    kind.push (c.shift d) (vs.map (·.shift d)) = (kind.push c vs).shift d := by
  rw [push, push, item_shift, Container.add_shift]

theorem argument_shift (kind : ValueKind) (d : Nat) (v : Value) :
    kind.argument (v.shift d) = (kind.argument v).shift d := by
  unfold argument
  rw [Value.text?_shift]
  split
  · rfl
  · rfl
  · rfl

theorem arguments_shift (kind : ValueKind) (d : Nat) (vs : List Value) :
    (vs.map (·.shift d)).map kind.argument = (vs.map kind.argument).map (·.shift d) := by
  rw [List.map_map, List.map_map]
  exact List.map_congr_left fun v _ => kind.argument_shift d v

theorem placeless_none : ParseState.none.Placeless := fun _ hv => nomatch hv

/-- What becomes of several outputs, whatever they are. -/
theorem call_cons_cons (kind : ValueKind) (state : ParseState) (v w : Value) (vs : List Value) :
    kind.call state (v :: w :: vs) = match kind with
      | .discard => .unit
      | .callback => .tuple (v :: w :: vs)
      | .labelled label => .tuple (.sym label :: v :: w :: vs)
      | kind => ((kind.container state).addAll ((v :: w :: vs).map kind.argument)).finish := by
  cases kind <;> simp only [call]

/-- Every kind builds the shifted value from shifted outputs. -/
theorem call_shift {state : ParseState} (h : state.Placeless) (kind : ValueKind) (d : Nat)
    (vs : List Value) :
    kind.call state (vs.map (·.shift d)) = (kind.call state vs).shift d := by
  have hempty : (kind.container .none).finish = (kind.container .none).finish.shift d := by
    rw [← Container.finish_shift, container_shift placeless_none]
  have hmany : ((kind.container state).addAll ((vs.map (·.shift d)).map kind.argument)).finish =
      ((kind.container state).addAll (vs.map kind.argument)).finish.shift d := by
    rw [arguments_shift, ← Container.finish_shift, ← Container.addAll_shift, container_shift h]
  match vs with
  | [] =>
    cases kind with
    | discard | callback | labelled _ => rfl
    | _ => exact hmany
  | [v] =>
    cases v with
    | default =>
      cases kind with
      | discard | callback | labelled _ => rfl
      | _ => exact hempty
    | _ => cases kind <;> rfl
  | v :: w :: vs =>
    rw [List.map_cons, List.map_cons] at hmany ⊢
    rw [call_cons_cons, call_cons_cons]
    cases kind with
    | discard => rfl
    | callback =>
      show Value.tuple _ = .tuple (Value.shiftItems d (v :: w :: vs))
      rw [Value.shiftItems_eq_map, List.map_cons, List.map_cons]
    | labelled label =>
      show Value.tuple (.sym label :: _) = .tuple (.sym label :: Value.shiftItems d (v :: w :: vs))
      rw [Value.shiftItems_eq_map, List.map_cons, List.map_cons]
    | _ => exact hmany

end ValueKind

end Phrase
