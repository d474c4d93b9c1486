import Mathlib.Data.List.Forall2
import Phrase.Tree.Snapshot

/-!
# Drawings of snapshots

With whitespace shown, a drawing has one line for each node, in depth-first order
(`Snapshot.draw_eq`), and as long as no name holds a newline, the drawing tells all that it shows:
the shape, and at each node the name with the text or the span (`Snapshot.draw_faithful`).

A label is read from its end.  A text in quotes and a span both tell where they start, whatever the
name in front is.  Lines are then read from the front: the lines below a node are those that start
with its indent, and a line further up has a connector at some place of it.
-/

namespace Phrase

namespace Text

/-- A text that is split twice at the same character is split at one place, or else one of the
pieces holds the other place. -/
theorem split_cases {c : Char} {a b d e : List Char} (h : a ++ c :: d = b ++ c :: e) :
    a = b ∧ d = e ∨ (∃ more, b = a ++ c :: more ∧ d = more ++ c :: e) ∨
      ∃ more, a = b ++ c :: more ∧ e = more ++ c :: d := by
  obtain ⟨more, hb, hmore⟩ | ⟨more, ha, hmore⟩ := List.append_eq_append_iff.1 h
  · cases more with
    | nil => exact .inl ⟨by simpa using hb.symm, (List.cons.inj hmore).2⟩
    | cons x more =>
      obtain ⟨rfl, hd⟩ := List.cons.inj hmore
      exact .inr (.inl ⟨more, hb, hd⟩)
  · cases more with
    | nil => exact .inl ⟨by simpa using ha, (List.cons.inj hmore).2.symm⟩
    | cons x more =>
      obtain ⟨rfl, he⟩ := List.cons.inj hmore
      exact .inr (.inr ⟨more, ha, he⟩)

/-! ## Texts in quotes -/

/-- What can stand between quotes: there is no newline, and right in front of every quote there is
a backslash. -/
structure Escaped (cs : List Char) : Prop where
  newline : '\n' ∉ cs
  quote {pre post : List Char} : cs = pre ++ '"' :: post → pre.getLast? = some '\\'

namespace Escaped

theorem of_notMem {cs : List Char} (hnewline : '\n' ∉ cs) (hquote : '"' ∉ cs) : Escaped cs where
  newline := hnewline
  quote := by
    rintro pre post rfl
    simp at hquote

theorem append {cs ds : List Char} (hc : Escaped cs) (hd : Escaped ds) : Escaped (cs ++ ds) where
  newline := by simp [hc.newline, hd.newline]
  quote := by
    intro pre post h
    obtain ⟨more, rfl, hds⟩ | ⟨more, hcs, hds⟩ := List.append_eq_append_iff.1 h
    · rw [List.getLast?_append, hd.quote hds, Option.some_or]
    · cases more with
      | nil =>
        have hfirst : ([] : List Char).getLast? = some '\\' := hd.quote hds.symm
        simp at hfirst
      | cons c more =>
        obtain ⟨rfl, -⟩ := List.cons.inj hds
        exact hc.quote hcs

/-- A backslash with a character behind it. -/
theorem pair {e : Char} (he : e ≠ '\n') : Escaped ['\\', e] where
  newline := by simp [he.symm]
  quote := by
    intro pre post h
    match pre with
    | [] => simp at h
    | [c] => simp [← (List.cons.inj h).1]
    | _ :: _ :: _ => simp at h

end Escaped

/-- Hexadecimal digits are no quotes and no newlines. -/
theorem notMem_toDigits {c : Char} (hc : ∀ d < 16, Nat.digitChar d ≠ c) (n : Nat) :
    c ∉ Nat.toDigits 16 n := by
  induction n using Nat.strongRecOn with
  | ind n ih =>
    rw [Nat.toDigits_eq_if (by decide)]
    by_cases hn : n < 16
    · rw [if_pos hn, List.mem_singleton]
      exact fun h => hc n hn h.symm
    · rw [if_neg hn, List.mem_append, List.mem_singleton, not_or]
      exact ⟨ih (n / 16) (by omega), fun h => hc (n % 16) (by omega) h.symm⟩

theorem escaped_escapeChar (c : Char) : Escaped (escapeChar c) := by
  have hself : c ≠ '"' → c ≠ '\n' → Escaped [c] := fun hquote hnewline =>
    .of_notMem (by simpa using hnewline.symm) (by simpa using hquote.symm)
  unfold escapeChar
  split_ifs with hquote _ hnewline
  · exact .pair (by decide)
  · exact .pair (by decide)
  · exact .pair (by decide)
  · exact .pair (by decide)
  · exact .pair (by decide)
  · exact .pair (by decide)
  · exact hself hquote hnewline
  · exact hself hquote hnewline
  · refine .of_notMem ?_ ?_
    · simpa using notMem_toDigits (c := '\n') (by decide) c.toNat
    · simpa using notMem_toDigits (c := '"') (by decide) c.toNat

theorem escaped_flatMap (cs : List Char) : Escaped (cs.flatMap escapeChar) := by
  induction cs with
  | nil => exact .of_notMem (by simp) (by simp)
  | cons c cs ih => exact (escaped_escapeChar c).append ih

end Text

/-- A span is written with digits and dots. -/
theorem Span.mem_text {r : Span} {c : Char} (h : c ∈ r.text.toList) :
    c.isDigit = true ∨ c = '.' := by
  have hdigit : ∀ n : Nat, c ∈ (toString n).toList → c.isDigit = true := by
    intro n hn
    rw [show toString n = n.repr from rfl, Nat.repr_eq_ofList_toDigits, String.toList_ofList] at hn
    exact Nat.isDigit_of_mem_toDigits (by decide) (by decide) hn
  have htext : r.text = toString r.start ++ ".." ++ toString r.stop := rfl
  rw [htext, String.toList_append, String.toList_append, List.mem_append, List.mem_append] at h
  obtain (h | h) | h := h
  · exact .inl (hdigit _ h)
  · exact .inr (by simpa using h)
  · exact .inl (hdigit _ h)

theorem Span.notMem_text {c : Char} (h : c.isDigit = false) (hdot : c ≠ '.') (r : Span) :
    c ∉ r.text.toList := by
  intro hc
  obtain hdigit | hd := Span.mem_text hc
  · rw [h] at hdigit
    exact absurd hdigit (by decide)
  · exact hdot hd

namespace Snapshot

/-! ## Labels -/

/-- What stands behind the name in a label: the text, or else the span. -/
def detail (s : Snapshot) : String :=
  match s.text with
  | some text => Text.quote (truncate text)
  | none => (Span.mk s.start s.stop).text

theorem label_eq (s : Snapshot) : s.label = s.name ++ " " ++ s.detail := by
  unfold label detail
  cases s.text with
  | some text => rfl
  | none => rfl

/-- A detail is a text in quotes or has no space and no quote. -/
theorem detail_cases (s : Snapshot) :
    (∃ cs, Text.Escaped cs ∧ s.detail.toList = '"' :: cs ++ ['"']) ∨
      (∀ c, c.isDigit = false → c ≠ '.' → c ∉ s.detail.toList) ∧ s.detail.toList ≠ [] := by
  unfold detail
  cases s.text with
  | some text =>
    exact .inl ⟨_, Text.escaped_flatMap (truncate text).toList, String.toList_ofList⟩
  | none =>
    refine .inr ⟨fun c h hdot => Span.notMem_text h hdot _, ?_⟩
    simp [Span.text]

theorem newline_notMem_detail (s : Snapshot) : '\n' ∉ s.detail.toList := by
  obtain ⟨cs, hcs, hs⟩ | ⟨hs, -⟩ := s.detail_cases
  · simp [hs, hcs.newline]
  · exact hs _ (by decide) (by decide)

/-- No detail ends with a space and another detail. -/
theorem detail_ne_append (s t : Snapshot) (pre : List Char) :
    s.detail.toList ≠ pre ++ ' ' :: t.detail.toList := by
  intro h
  obtain ⟨cs, hcs, hs⟩ | ⟨hs, -⟩ := s.detail_cases
  · obtain ⟨ds, -, ht⟩ | ⟨ht, hne⟩ := t.detail_cases
    · -- the quote that opens the second text would stand in the first one, behind the space
      rw [hs, ht, ← List.cons_append, ← List.append_assoc] at h
      have h := List.append_cancel_right h
      cases pre with
      | nil => simp at h
      | cons c pre =>
        have hcs' : cs = (pre ++ [' ']) ++ '"' :: ds := by simpa using (List.cons.inj h).2
        simpa using hcs.quote hcs'
    · -- a span does not end with a quote
      obtain ⟨ds, c, hds⟩ := (List.eq_nil_or_concat _).resolve_left hne
      rw [hs, hds, List.concat_eq_append, ← List.cons_append, ← List.append_assoc] at h
      obtain rfl : '"' = c := by simpa using (List.append_inj' h rfl).2
      exact ht '"' (by decide) (by decide) (by simp [hds])
  · exact hs ' ' (by decide) (by decide) (by simp [h])

/-- A label tells the name from the detail. -/
theorem label_inj {s t : Snapshot} (h : s.label = t.label) :
    s.name = t.name ∧ s.detail = t.detail := by
  rw [label_eq, label_eq, ← String.toList_inj] at h
  simp only [String.toList_append, List.append_assoc] at h
  obtain ⟨hname, hdetail⟩ | ⟨more, -, hdetail⟩ | ⟨more, -, hdetail⟩ := Text.split_cases h
  · exact ⟨String.toList_inj.1 hname, String.toList_inj.1 hdetail⟩
  · exact absurd hdetail (s.detail_ne_append t more)
  · exact absurd hdetail (t.detail_ne_append s more)

/-! ## Lines -/

/-- A node of a tree with the way to it from the root, which says of every node on it but the root
whether it is the last child. -/
structure Place where
  path : List Bool
  node : Snapshot

mutual

/-- The nodes of a tree in depth-first order, if `path` leads to the tree. -/
def places (path : List Bool) : Snapshot → List Place
  | s@⟨_, _, _, _, _, children⟩ => ⟨path, s⟩ :: placesList path children

/-- The nodes of the trees below the node that `path` leads to. -/
def placesList (path : List Bool) : List Snapshot → List Place
  | [] => []
  | s :: ss => s.places (path ++ [ss.isEmpty]) ++ placesList path ss

end

theorem places_eq (path : List Bool) (s : Snapshot) :
    s.places path = ⟨path, s⟩ :: placesList path s.children := by
  cases s
  rw [places]

/-- What the lines below a node start with. -/
def indent (path : List Bool) : String :=
  String.join (path.map fun last => if last then "  " else "│ ")

/-- What the connector looks like in front of a child. -/
def connector (last : Bool) : String := if last then "└─ " else "├─ "

theorem connector_inj {last last' : Bool} {l l' : String}
    (h : connector last ++ l = connector last' ++ l') : last = last' := by
  have h := congrArg String.toList h
  cases last <;> cases last' <;> simp [connector] at h ⊢

/-- What stands in front of a label: nothing for the root, or else the indent of the parent and a
connector. -/
def lead (path : List Bool) : String :=
  match path.getLast? with
  | none => ""
  | some last => indent path.dropLast ++ connector last

/-- The line of a node. -/
def Place.line (p : Place) : String := lead p.path ++ p.node.label

/-- Lines, each with a newline behind it. -/
def written (lines : List String) : String := String.join (lines.map (· ++ "\n"))

theorem written_cons (l : String) (ls : List String) :
    written (l :: ls) = l ++ "\n" ++ written ls := by
  rw [written, List.map_cons, String.join_cons]
  rfl

theorem written_toList (l : String) (ls : List String) :
    (written (l :: ls)).toList = l.toList ++ '\n' :: (written ls).toList := by
  rw [written_cons, String.toList_append, String.toList_append, List.append_assoc]
  rfl

theorem written_cons_ne (l : String) (ls : List String) : written (l :: ls) ≠ written [] := by
  intro h
  have h := congrArg String.toList h
  rw [written_toList] at h
  exact List.append_ne_nil_of_right_ne_nil _ (List.cons_ne_nil _ _) h

theorem written_append (ls ms : List String) : written (ls ++ ms) = written ls ++ written ms := by
  rw [written, List.map_append, String.join_append]
  rfl

theorem indent_concat (path : List Bool) (last : Bool) :
    indent (path ++ [last]) = indent path ++ if last then "  " else "│ " := by
  simp [indent, String.join_append]

theorem lead_concat (path : List Bool) (last : Bool) :
    lead (path ++ [last]) = indent path ++ connector last := by
  simp [lead]

/-- The lines of the nodes below a node: that of the first child, those below it, and the others. -/
theorem lines_cons (path : List Bool) (s : Snapshot) (ss : List Snapshot) :
    (placesList path (s :: ss)).map Place.line =
      (indent path ++ (connector ss.isEmpty ++ s.label)) ::
        ((placesList (path ++ [ss.isEmpty]) s.children).map Place.line ++
          (placesList path ss).map Place.line) := by
  have hline : (Place.mk (path ++ [ss.isEmpty]) s).line =
      indent path ++ (connector ss.isEmpty ++ s.label) := by
    rw [Place.line, lead_concat, String.append_assoc]
  rw [placesList, places_eq, List.cons_append, List.map_cons, List.map_append, hline]

/-- With whitespace shown, the last child is the one with nothing behind it. -/
theorem drawList_cons (indent : String) (s : Snapshot) (ss : List Snapshot) :
    drawList true indent (s :: ss) = indent ++ connector ss.isEmpty ++ s.label ++ "\n" ++
      drawBelow true (indent ++ if ss.isEmpty then "  " else "│ ") s ++ drawList true indent ss := by
  have hlast : (ss.all fun s => !(true || !s.isWhitespace)) = ss.isEmpty := by
    cases ss with
    | nil => rfl
    | cons t ss => rfl
  rw [drawList, hlast, Bool.true_or, if_pos rfl]
  rfl

mutual

theorem drawBelow_eq : (s : Snapshot) → (path : List Bool) →
    drawBelow true (indent path) s = written ((placesList path s.children).map Place.line)
  | ⟨_, _, _, _, _, children⟩, path => by
    rw [drawBelow]
    exact drawList_eq children path

theorem drawList_eq : (ss : List Snapshot) → (path : List Bool) →
    drawList true (indent path) ss = written ((placesList path ss).map Place.line)
  | [], path => by
    rw [drawList, placesList]
    rfl
  | s :: ss, path => by
    rw [drawList_cons, ← indent_concat, drawBelow_eq s, drawList_eq ss, lines_cons, written_cons,
      written_append]
    simp only [String.append_assoc]

end

/-- A drawing has the lines of the nodes in depth-first order. -/
theorem draw_eq (s : Snapshot) : s.draw true = written ((s.places []).map Place.line) := by
  have hline : (Place.mk [] s).line = s.label := by simp [Place.line, lead]
  have hbelow : drawBelow true "" s = written ((placesList [] s.children).map Place.line) :=
    drawBelow_eq s []
  rw [draw, hbelow, places_eq, List.map_cons, hline, written_cons]

/-! ## Reading lines -/

/-- Lines without newlines are told apart by what is written. -/
theorem written_inj {ls ms : List String} (hl : ∀ l ∈ ls, '\n' ∉ l.toList)
    (hm : ∀ l ∈ ms, '\n' ∉ l.toList) (h : written ls = written ms) : ls = ms := by
  induction ls generalizing ms with
  | nil =>
    cases ms with
    | nil => rfl
    | cons m ms => exact absurd h.symm (written_cons_ne m ms)
  | cons l ls ih =>
    cases ms with
    | nil => exact absurd h (written_cons_ne l ls)
    | cons m ms =>
      rw [List.forall_mem_cons] at hl hm
      have h := congrArg String.toList h
      rw [written_toList, written_toList] at h
      obtain ⟨hline, hrest⟩ | ⟨more, hmore, -⟩ | ⟨more, hmore, -⟩ := Text.split_cases h
      · rw [String.toList_inj.1 hline, ih hl.2 hm.2 (String.toList_inj.1 hrest)]
      · simp [hmore] at hm
      · simp [hmore] at hl

/-- No name in the tree holds a newline. -/
def OneLineNames (s : Snapshot) : Prop := ∀ p ∈ s.places [], '\n' ∉ p.node.name.toList

instance (s : Snapshot) : Decidable s.OneLineNames :=
  inferInstanceAs (Decidable (∀ p ∈ s.places [], '\n' ∉ p.node.name.toList))

/-- Neither indents nor connectors have newlines. -/
theorem newline_notMem_lead (path : List Bool) : '\n' ∉ (lead path).toList := by
  have hindent : ∀ path, '\n' ∉ (indent path).toList := by
    intro path
    induction path with
    | nil => simp [indent]
    | cons last path ih =>
      rw [indent, List.map_cons, String.join_cons, String.toList_append, List.mem_append, not_or]
      exact ⟨by cases last <;> decide, ih⟩
  unfold lead
  cases path.getLast? with
  | none => simp
  | some last =>
    rw [String.toList_append, List.mem_append, not_or]
    exact ⟨hindent _, by cases last <;> decide⟩

theorem OneLineNames.newline_notMem_line {s : Snapshot} (h : s.OneLineNames) :
    ∀ p ∈ s.places [], '\n' ∉ p.line.toList := by
  intro p hp
  have hspace : '\n' ∉ " ".toList := by decide
  rw [Place.line, label_eq]
  simp only [String.toList_append, List.mem_append, not_or]
  exact ⟨newline_notMem_lead p.path, ⟨h p hp, hspace⟩, p.node.newline_notMem_detail⟩

/-- Two trees have the same shape, with the same names and the same details. -/
inductive Alike : Snapshot → Snapshot → Prop where
  | node {s t : Snapshot} (name : s.name = t.name) (detail : s.detail = t.detail)
      (children : List.Forall₂ Alike s.children t.children) : Alike s t

/-- The first line, if there is one, does not belong below the node that `path` leads to. -/
def Stops (path : List Bool) (lines : List String) : Prop :=
  ∀ l ∈ lines.head?, ¬ (indent path).toList <+: l.toList

theorem Stops.of_child {path : List Bool} {rest : List String} (h : Stops path rest) (last : Bool) :
    Stops (path ++ [last]) rest := by
  intro l hl hprefix
  rw [indent_concat, String.toList_append] at hprefix
  exact h l hl ((List.prefix_append _ _).trans hprefix)

/-- Behind the lines below a child come those of the next one, or what stops the parent. -/
theorem Stops.child {path : List Bool} {rest : List String} (h : Stops path rest)
    (ss : List Snapshot) :
    Stops (path ++ [ss.isEmpty]) ((placesList path ss).map Place.line ++ rest) := by
  cases ss with
  | nil => exact h.of_child true
  | cons t ts =>
    intro l hl hprefix
    rw [lines_cons, List.cons_append, List.head?_cons, Option.mem_some] at hl
    rw [← hl, indent_concat, String.toList_append, String.toList_append,
      List.prefix_append_right_inj] at hprefix
    -- a connector does not start as the indent of a child that is not the last one does
    cases hlast : ts.isEmpty <;> simp [connector, hlast] at hprefix

theorem Stops.ne {path : List Bool} {rest : List String} (h : Stops path rest)
    (s : Snapshot) (ss : List Snapshot) (more : List String) :
    rest ≠ (placesList path (s :: ss)).map Place.line ++ more := by
  rintro rfl
  rw [lines_cons] at h
  refine h _ rfl ?_
  rw [String.toList_append]
  exact List.prefix_append _ _

mutual

theorem places_unique : (s t : Snapshot) → (path : List Bool) → {rest rest' : List String} →
    Stops path rest → Stops path rest' →
    (s.places path).map Place.line ++ rest = (t.places path).map Place.line ++ rest' →
    Alike s t ∧ rest = rest'
  | ⟨_, _, _, _, _, children⟩, t, path, rest, rest', hrest, hrest', h => by
    rw [places_eq, places_eq] at h
    obtain ⟨hline, hbelow⟩ := List.cons.inj h
    obtain ⟨hname, hdetail⟩ := label_inj ((String.append_right_inj _).1 hline)
    obtain ⟨hchildren, hrest⟩ :=
      placesList_unique children t.children path hrest hrest' hbelow
    exact ⟨.node hname hdetail hchildren, hrest⟩

theorem placesList_unique : (ss ts : List Snapshot) → (path : List Bool) →
    {rest rest' : List String} → Stops path rest → Stops path rest' →
    (placesList path ss).map Place.line ++ rest = (placesList path ts).map Place.line ++ rest' →
    List.Forall₂ Alike ss ts ∧ rest = rest'
  | [], [], path, rest, rest', hrest, hrest', h => ⟨.nil, by simpa [placesList] using h⟩
  | [], t :: ts, path, rest, rest', hrest, hrest', h => absurd h (hrest.ne t ts rest')
  | s :: ss, [], path, rest, rest', hrest, hrest', h => absurd h.symm (hrest'.ne s ss rest)
  | s :: ss, t :: ts, path, rest, rest', hrest, hrest', h => by
    have hlast : ss.isEmpty = ts.isEmpty := by
      rw [lines_cons, lines_cons] at h
      have hline := (List.cons.inj h).1
      exact connector_inj ((String.append_right_inj _).1 hline)
    rw [placesList, placesList, List.map_append, List.map_append, List.append_assoc,
      List.append_assoc, ← hlast] at h
    obtain ⟨hs, hnext⟩ := places_unique s t _ (hrest.child ss) (hlast ▸ hrest'.child ts) h
    obtain ⟨hss, hrest⟩ := placesList_unique ss ts path hrest hrest' hnext
    exact ⟨.cons hs hss, hrest⟩

end

mutual

/-- Alike trees have the same lines. -/
theorem places_alike : (s t : Snapshot) → (path : List Bool) → Alike s t →
    (s.places path).map Place.line = (t.places path).map Place.line
  | ⟨nodeType, name, start, stop, text, children⟩, t, path, h => by
    obtain ⟨hname, hdetail, hchildren⟩ := h
    rw [places_eq, places_eq, List.map_cons, List.map_cons,
      placesList_alike children t.children path hchildren]
    rw [Place.line, Place.line, label_eq, label_eq, hname, hdetail]

theorem placesList_alike : (ss ts : List Snapshot) → (path : List Bool) →
    List.Forall₂ Alike ss ts →
    (placesList path ss).map Place.line = (placesList path ts).map Place.line
  | [], [], path, h => rfl
  | s :: ss, t :: ts, path, h => by
    obtain ⟨hs, hss⟩ := List.forall₂_cons.1 h
    have hlast : ss.isEmpty = ts.isEmpty := by
      cases hss with
      | nil => rfl
      | cons _ _ => rfl
    rw [placesList, placesList, List.map_append, List.map_append, hlast, places_alike s t _ hs,
      placesList_alike ss ts path hss]

end

/-- The lines of a drawing hold no newline, and there is one for each node in depth-first order.
The drawing tells the shape, the names and the details of a tree, and nothing else. -/
theorem draw_faithful {s : Snapshot} (hs : s.OneLineNames) :
    s.draw true = written ((s.places []).map Place.line) ∧
      (∀ p ∈ s.places [], '\n' ∉ p.line.toList) ∧
      ∀ {t : Snapshot}, t.OneLineNames → (s.draw true = t.draw true ↔ Alike s t) := by
  refine ⟨draw_eq s, hs.newline_notMem_line, fun {t} ht => ⟨fun h => ?_, fun h => ?_⟩⟩
  · rw [draw_eq, draw_eq] at h
    have hlines := written_inj (List.forall_mem_map.2 hs.newline_notMem_line)
      (List.forall_mem_map.2 ht.newline_notMem_line) h
    have hstops : Stops [] [] := by simp [Stops]
    exact (places_unique s t [] hstops hstops (by rw [hlines])).1
  · rw [draw_eq, draw_eq, places_alike s t [] h]

/-- Two long texts are alike if they start alike.  The two labels of the other pair differ in a
backslash only. -/
theorem draw_faithful_quoted :
    let tree (name text : String) : Snapshot := ⟨"production", "list \"0..3\"", 0, 3, none,
      [⟨"token", name, 0, 3, some text, []⟩, ⟨"production", "item", 3, 3, none, []⟩]⟩
    Alike (tree "a" "123456789 123456789 123456789 1") (tree "a" "123456789 123456789 123456789 23") ∧
      ¬ Alike (tree "a" "b\" \"c\n") (tree "a \"b\\\"" "c\n") := by
  intro tree
  refine ⟨((draw_faithful ?_).2.2 ?_).1 ?_, fun h => absurd (((draw_faithful ?_).2.2 ?_).2 h) ?_⟩
  all_goals decide +kernel

end Snapshot

end Phrase
