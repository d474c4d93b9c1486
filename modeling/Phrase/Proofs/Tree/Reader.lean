import Phrase.Proofs.Format.Json
import Phrase.Tree.Reader

/-!
# Snapshots and their JSON text

A snapshot is read back from its data as long as the reader's nesting allows for it: a node
takes one level of nesting for its object and one for the list around its children.  So of the
texts that snapshots are printed as, exactly those with up to 64 nodes below each other are
read (`Snapshot.read?_toJson`); what holds of a text holds of all its parts, so an absent text is
not taken for an empty one, and children that are left out are none.
-/

namespace Phrase.Snapshot

/-! ## Heights -/

mutual

/-- The number of nodes on the longest way down. -/
def height : Snapshot → Nat
  | ⟨_, _, _, _, _, children⟩ => heightList children + 1

/-- The largest height of some nodes. -/
def heightList : List Snapshot → Nat
  | [] => 0
  | s :: ss => max s.height (heightList ss)

end

theorem height_eq (s : Snapshot) : s.height = heightList s.children + 1 := by
  cases s
  rw [height]

/-- Every position in a node and below it fits 64 bits. -/
inductive Fits : Snapshot → Prop
  | mk {s : Snapshot} (hstart : s.start < 0x10000000000000000)
      (hstop : s.stop < 0x10000000000000000) (h : ∀ t ∈ s.children, Fits t) : Fits s

/-! ## Data -/

theorem toJsonList_eq (ss : List Snapshot) : toJsonList ss = ss.map toJson := by
  induction ss with
  | nil => rfl
  | cons s ss ih => rw [toJsonList, ih, List.map_cons]

/-- The children as data, which are left out if there are none. -/
def childData : List Snapshot → Option Json
  | [] => none
  | s :: ss => some (.arr ((s :: ss).map toJson))

theorem toJson_eq (s : Snapshot) : s.toJson =
    .obj (ownMembers s.nodeType s.name s.start s.stop s.text ++
      ((childData s.children).map ("children", ·)).toList) := by
  obtain ⟨nodeType, name, start, stop, text, children⟩ := s
  cases children with
  | nil =>
    rw [toJson]
    exact congrArg Json.obj (List.append_nil _).symm
  | cons child children =>
    rw [toJson, toJsonList_eq]
    rfl

theorem plain_ownMembers (nodeType name : String) (start stop : Nat) (text : Option String) :
    ∀ m ∈ ownMembers nodeType name start stop text, m.2.Plain := by
  refine List.forall_mem_append.2 ⟨?_, ?_⟩
  · simp only [List.forall_mem_cons]
    exact ⟨.str nodeType, .str name, .int start, .int stop, fun _ hm => nomatch hm⟩
  · cases text with
    | none => exact fun _ hm => nomatch hm
    | some text => exact fun m hm => List.mem_singleton.1 hm ▸ .str text

/-- The data of a snapshot has no raw text in it. -/
theorem plain_toJson : (s : Snapshot) → s.toJson.Plain
  | ⟨nodeType, name, start, stop, text, children⟩ => by
    have hchildren : ∀ t ∈ children, t.toJson.Plain := fun t _ => plain_toJson t
    rw [toJson_eq]
    refine .obj (List.forall_mem_append.2 ⟨plain_ownMembers _ _ _ _ _, fun m hm => ?_⟩)
    cases children with
    | nil => cases hm
    | cons t ts =>
      obtain rfl := List.mem_singleton.1 hm
      refine .arr fun j hj => ?_
      obtain ⟨t, ht, rfl⟩ := List.mem_map.1 hj
      exact hchildren t ht

/-! ## Reading -/

theorem position?_nat {n : Nat} (h : n < 0x10000000000000000) : position? (.nat n) = some n := by
  rw [Json.nat, position?]
  exact if_pos ⟨Int.natCast_nonneg n, by omega⟩

/-- The members of a node are found by their names, whichever are left out. -/
theorem lookup_members (nodeType name : String) (start stop : Nat) (text : Option String)
    (children : Option Json) {members : List (String × Json)}
    (h : members = ownMembers nodeType name start stop text ++
      (children.map ("children", ·)).toList) :
    once? "node_type" members = some (.str nodeType) ∧ once? "name" members = some (.str name) ∧
      once? "start" members = some (.nat start) ∧ once? "end" members = some (.nat stop) ∧
      atMostOnce? "text" members = some (text.map .str) ∧
      atMostOnce? "children" members = some children := by
  subst h
  cases text with
  | none =>
    cases children with
    | none => exact ⟨rfl, rfl, rfl, rfl, rfl, rfl⟩
    | some j => exact ⟨rfl, rfl, rfl, rfl, rfl, rfl⟩
  | some t =>
    cases children with
    | none => exact ⟨rfl, rfl, rfl, rfl, rfl, rfl⟩
    | some j => exact ⟨rfl, rfl, rfl, rfl, rfl, rfl⟩

theorem text?_str (t : String) : text? (.str t) = some t := rfl

theorem optionalText?_map (text : Option String) : optionalText? (text.map .str) = some text := by
  cases text with
  | none => rfl
  | some t => rfl

/-- A member is looked up and its value read. -/
theorem bind_read {α β γ : Type} {lookup : Option α} {read : α → Option β} {a : α} {b : β}
    (hlookup : lookup = some a) (hread : read a = some b) (k : β → Option γ) :
    (lookup.bind fun a => (read a).bind k) = k b := by
  rw [hlookup, Option.bind_some, hread, Option.bind_some]

/-- A node is read from its data if its children are. -/
theorem ofJsonWithin?_toJson_succ {s : Snapshot} (hstart : s.start < 0x10000000000000000)
    (hstop : s.stop < 0x10000000000000000) (nesting : Nat) :
    ofJsonWithin? (nesting + 1) s.toJson =
      (childrenWithin? nesting (childData s.children)).map fun ts => { s with children := ts } := by
  rw [toJson_eq]
  generalize hmembers : ownMembers s.nodeType s.name s.start s.stop s.text ++
    ((childData s.children).map ("children", ·)).toList = members
  obtain ⟨htype, hname, hs, he, htext, hchildren⟩ :=
    lookup_members _ _ _ _ _ _ hmembers.symm
  rw [ofJsonWithin?, members?]
  simp only [Option.bind_eq_bind]
  rw [Option.bind_some, bind_read htype (text?_str _), bind_read hname (text?_str _),
    bind_read hs (position?_nat hstart), bind_read he (position?_nat hstop),
    bind_read htext (optionalText?_map s.text), hchildren, Option.bind_some]
  exact Option.map_eq_bind.symm

/-- Nodes are read from a list if the highest of them is. -/
theorem mapM_toJson {ss : List Snapshot} {nesting : Nat} (h : ∀ s ∈ ss,
    ofJsonWithin? nesting s.toJson = if 2 * s.height ≤ nesting + 1 then some s else none) :
    (ss.map toJson).mapM (ofJsonWithin? nesting) =
      if 2 * heightList ss ≤ nesting + 1 then some ss else none := by
  induction ss with
  | nil =>
    rw [heightList, if_pos (by omega)]
    rfl
  | cons s ss ih =>
    obtain ⟨hs, hss⟩ := List.forall_mem_cons.1 h
    rw [List.map_cons, List.mapM_cons, hs, ih hss, heightList]
    by_cases hheight : 2 * s.height ≤ nesting + 1
    · by_cases hheights : 2 * heightList ss ≤ nesting + 1
      · rw [if_pos hheight, if_pos hheights, if_pos (by omega)]
        rfl
      · rw [if_pos hheight, if_neg hheights, if_neg (by omega)]
        rfl
    · rw [if_neg hheight, if_neg (show ¬ 2 * max s.height (heightList ss) ≤ _ by omega)]
      rfl

theorem childrenWithin?_childData {ss : List Snapshot} (h : ∀ s ∈ ss, ∀ nesting,
    ofJsonWithin? nesting s.toJson = if 2 * s.height ≤ nesting + 1 then some s else none)
    (nesting : Nat) : childrenWithin? nesting (childData ss) =
      if 2 * heightList ss ≤ nesting then some ss else none := by
  cases ss with
  | nil => rw [childData, childrenWithin?, heightList, if_pos (Nat.zero_le _)]
  | cons s ss =>
    rw [childData]
    cases nesting with
    | zero =>
      have hheight := s.height_eq
      rw [heightList, if_neg (by omega)]
      rfl
    | succ nesting => rw [childrenWithin?, mapM_toJson fun t ht => h t ht nesting]

/-- A node takes two levels of nesting for every node below it, and one for itself. -/
theorem Fits.ofJsonWithin?_toJson {s : Snapshot} (h : s.Fits) (nesting : Nat) :
    ofJsonWithin? nesting s.toJson = if 2 * s.height ≤ nesting + 1 then some s else none := by
  induction h generalizing nesting with
  | @mk s hstart hstop _ ih =>
    rw [height_eq]
    cases nesting with
    | zero => rw [ofJsonWithin?, if_neg (by omega)]
    | succ nesting =>
      rw [ofJsonWithin?_toJson_succ hstart hstop, childrenWithin?_childData ih]
      by_cases hheight : 2 * heightList s.children ≤ nesting
      · rw [if_pos hheight, if_pos (by omega)]
        cases s
        rfl
      · rw [if_neg hheight, if_neg (by omega)]
        rfl

/-- Reading what a snapshot is printed as is reading its data. -/
theorem read?_pretty (s : Snapshot) :
    read? s.toJson.pretty = ofJsonWithin? maxNesting s.toJson := by
  rw [read?, Json.read?_pretty s.plain_toJson, Option.bind_some]

/-- The text that a snapshot is printed as is read as that snapshot, unless more than 64 nodes
are below each other, which the reader refuses. -/
theorem read?_toJson {s : Snapshot} (h : s.Fits) :
    read? s.toJson.pretty = if s.height ≤ 64 then some s else none := by
  have hiff : 2 * s.height ≤ maxNesting + 1 ↔ s.height ≤ 64 := by
    rw [maxNesting]
    omega
  rw [read?_pretty, h.ofJsonWithin?_toJson]
  simp only [hiff]

/-- Texts with what has to be escaped, an empty one and none. -/
theorem read?_toJson_escapes :
    let s : Snapshot := ⟨"production", "a \"b\" \\ä😀\n\x01\x7f", 0, 0xFFFFFFFFFFFFFFFF, none,
      [⟨"token", "", 0, 0, some "", []⟩, ⟨"token", "", 0, 0, none, []⟩]⟩
    s.Fits ∧ read? s.toJson.pretty = some s := by
  intro s
  have hfits : s.Fits := by
    refine .mk (by decide) (by decide) (List.forall_mem_cons.2 ⟨?_, List.forall_mem_singleton.2 ?_⟩)
    · exact .mk (by decide) (by decide) fun _ ht => nomatch ht
    · exact .mk (by decide) (by decide) fun _ ht => nomatch ht
  exact ⟨hfits, (read?_toJson hfits).trans (if_pos (by decide))⟩

/-- Nodes that are nested in each other, so many below the first. -/
def nested : Nat → Snapshot
  | 0 => ⟨"production", "p", 0, 0, none, []⟩
  | n + 1 => ⟨"production", "p", 0, 0, none, [nested n]⟩

theorem fits_nested (n : Nat) : (nested n).Fits := by
  induction n with
  | zero => exact .mk (by decide) (by decide) fun _ ht => nomatch ht
  | succ n ih =>
    have hstart : 0 < 0x10000000000000000 := by decide
    exact .mk hstart hstart (List.forall_mem_singleton.2 ih)

theorem height_nested (n : Nat) : (nested n).height = n + 1 := by
  induction n with
  | zero => rfl
  | succ n ih => rw [nested, height, heightList, heightList, ih, Nat.max_eq_left (Nat.zero_le _)]

/-- With 64 nodes below the first a snapshot is not read back. -/
theorem read?_nested_64 :
    (nested 64).Fits ∧ read? (nested 64).toJson.pretty ≠ some (nested 64) := by
  refine ⟨fits_nested 64, ?_⟩
  rw [read?_pretty, (fits_nested 64).ofJsonWithin?_toJson, height_nested, if_neg (by decide)]
  exact nofun

end Phrase.Snapshot
