import Phrase.Proofs.Encoding.Text
import Phrase.Proofs.Symbol.Trie
import Phrase.Symbol.Table

/-!
# Symbol tables find the longest key

However a table came about, by adding keys and looking up in any order and in any encodings,
its keys are those that were added first, and a lookup finds the longest of them.  An index is
only ever kept while it is that of the keys (`SymbolTable.Sound`); what an index finds is a
statement about the keys in front of some units (`Encoding.HasKey`).
-/

namespace Phrase

/-! ## Keys in an encoding -/

/-- A key that the encoding can represent, at the front of some units. -/
structure Encoding.HasKey (e : Encoding) (rest : List Nat) (key : String) : Prop where
  canEncode : e.CanEncodeAll key.toList
  front : e.encodeText key <+: rest

theorem Encoding.HasKey.encodeText?_eq {e : Encoding} {rest : List Nat} {key : String}
    (h : e.HasKey rest key) : e.encodeText? key = some (e.encodeText key) :=
  encodeText?_eq_some_iff.2 ⟨h.canEncode, rfl⟩

section Index

variable {e : Encoding} {keys : List String} {number n : Nat} {us rest : List Nat}
  {key : String}

theorem mem_encodeKeys :
    (n, us) ∈ encodeKeys e number keys ↔
      ∃ i key, keys[i]? = some key ∧ n = number + i ∧ e.encodeText? key = some us := by
  induction keys generalizing number with
  | nil => simp [encodeKeys]
  | cons key keys ih =>
    -- The first key, or one of the others.
    have hsplit : (∃ i other, (key :: keys)[i]? = some other ∧ n = number + i ∧
          e.encodeText? other = some us) ↔
        (n = number ∧ e.encodeText? key = some us) ∨
          ∃ i other, keys[i]? = some other ∧ n = number + 1 + i ∧
            e.encodeText? other = some us := by
      constructor
      · rintro ⟨_ | i, other, hother, rfl, henc⟩
        · obtain rfl := Option.some.inj hother
          exact .inl ⟨rfl, henc⟩
        · exact .inr ⟨i, other, hother, by omega, henc⟩
      · rintro (⟨rfl, henc⟩ | ⟨i, other, hother, rfl, henc⟩)
        · exact ⟨0, key, rfl, rfl, henc⟩
        · exact ⟨i + 1, other, hother, by omega, henc⟩
    rw [hsplit, ← ih, encodeKeys]
    cases e.encodeText? key with
    | none => simp only [reduceCtorEq, and_false, false_or]
    | some ws => simp only [List.mem_cons, Prod.mk.injEq, Option.some.injEq, eq_comm]

theorem mem_encodeKeys_zero :
    (n, us) ∈ encodeKeys e 0 keys ↔ ∃ key, keys[n]? = some key ∧ e.encodeText? key = some us := by
  rw [mem_encodeKeys]
  constructor
  · rintro ⟨i, key, hkey, rfl, henc⟩
    rw [Nat.zero_add]
    exact ⟨key, hkey, henc⟩
  · rintro ⟨key, hkey, henc⟩
    exact ⟨n, key, hkey, (Nat.zero_add n).symm, henc⟩

theorem nodup_encodeKeys (hkeys : keys.Nodup) (number : Nat) :
    ((encodeKeys e number keys).map (·.2)).Nodup := by
  induction keys generalizing number with
  | nil => exact List.nodup_nil
  | cons key keys ih =>
    obtain ⟨hnew, hkeys⟩ := List.nodup_cons.1 hkeys
    rw [encodeKeys]
    cases hus : e.encodeText? key with
    | none => exact ih hkeys _
    | some us =>
      refine List.nodup_cons.2 ⟨fun hmem => ?_, ih hkeys _⟩
      obtain ⟨⟨n, ws⟩, hmem, hws⟩ := List.mem_map.1 hmem
      obtain ⟨i, other, hother, -, henc⟩ := mem_encodeKeys.1 hmem
      simp only at hws
      rw [hws] at henc
      rw [Encoding.encodeText?_inj hus henc] at hnew
      exact hnew (List.mem_of_getElem? hother)

theorem length_le_foldl_max (encoded : List (Nat × List Nat)) (m : Nat) :
    m ≤ encoded.foldl (fun n k => max n k.2.length) m ∧
      ∀ k ∈ encoded, k.2.length ≤ encoded.foldl (fun n k => max n k.2.length) m := by
  induction encoded generalizing m with
  | nil => exact ⟨Nat.le_refl m, fun _ hk => nomatch hk⟩
  | cons k encoded ih =>
    obtain ⟨hle, hall⟩ := ih (max m k.2.length)
    refine ⟨Nat.le_trans (Nat.le_max_left _ _) hle, fun l hl => ?_⟩
    rcases List.mem_cons.1 hl with rfl | hl
    · exact Nat.le_trans (Nat.le_max_right _ _) hle
    · exact hall l hl

namespace SymbolIndex

theorem length_le_reach (hkey : keys[n]? = some key) (henc : e.encodeText? key = some us) :
    us.length ≤ (ofKeys e keys).reach :=
  (length_le_foldl_max _ 0).2 (n, us) (mem_encodeKeys_zero.2 ⟨key, hkey, henc⟩)

/-- The index finds a key where it stands at the front of the units it looks at. -/
theorem find?_take (hkeys : keys.Nodup) {length : Nat}
    (hle : length ≤ (rest.take (ofKeys e keys).reach).length) :
    (ofKeys e keys).trie.find? ((rest.take (ofKeys e keys).reach).take length) = some n ↔
      ∃ key, keys[n]? = some key ∧ e.HasKey rest key ∧ (e.encodeText key).length = length := by
  rw [List.take_take, Nat.min_eq_left (Nat.le_trans hle (List.length_take_le _ _))]
  rw [ofKeys, Trie.find?_ofKeys (nodup_encodeKeys hkeys 0), mem_encodeKeys_zero]
  constructor
  · rintro ⟨key, hkey, henc⟩
    obtain ⟨hcan, hus⟩ := Encoding.encodeText?_eq_some_iff.1 henc
    have hlength : length ≤ rest.length := Nat.le_trans hle (List.length_take_le' _ _)
    refine ⟨key, hkey, ⟨hcan, ?_⟩, ?_⟩
    · rw [← hus]
      exact List.take_prefix _ _
    · rw [← hus, List.length_take_of_le hlength]
  · rintro ⟨key, hkey, h, rfl⟩
    rw [← List.prefix_iff_eq_take.1 h.front]
    exact ⟨key, hkey, h.encodeText?_eq⟩

theorem length_le_ahead (hkey : keys[n]? = some key) (h : e.HasKey rest key) :
    (e.encodeText key).length ≤ (rest.take (ofKeys e keys).reach).length := by
  rw [List.length_take]
  exact Nat.le_min.2 ⟨length_le_reach hkey h.encodeText?_eq, h.front.length_le⟩

/-- The index finds the longest of the keys at the front of some units. -/
theorem longest_eq_some_iff (hkeys : keys.Nodup) {length : Nat} :
    (ofKeys e keys).trie.longest (rest.take (ofKeys e keys).reach) = some (n, length) ↔
      ∃ key, keys[n]? = some key ∧ e.HasKey rest key ∧ length = (e.encodeText key).length ∧
        ∀ other ∈ keys, e.HasKey rest other → (e.encodeText other).length ≤ length := by
  rw [Trie.longest_eq_some_iff]
  constructor
  · intro h
    obtain ⟨key, hkey, hhas, rfl⟩ := (find?_take hkeys h.length_le).1 h.find
    refine ⟨key, hkey, hhas, rfl, fun other hother hhas' => Nat.le_of_not_lt fun hlt => ?_⟩
    obtain ⟨i, hi⟩ := List.mem_iff_getElem?.1 hother
    have hle := length_le_ahead hi hhas'
    cases (h.longest _ hlt hle).symm.trans ((find?_take hkeys hle).2 ⟨other, hi, hhas', rfl⟩)
  · rintro ⟨key, hkey, hhas, rfl, hlongest⟩
    have hle := length_le_ahead hkey hhas
    refine ⟨hle, (find?_take hkeys hle).2 ⟨key, hkey, hhas, rfl⟩, fun m hlt hm => ?_⟩
    refine Option.eq_none_iff_forall_ne_some.2 fun i hi => ?_
    obtain ⟨other, hother, hhas', rfl⟩ := (find?_take hkeys hm).1 hi
    exact Nat.not_le.2 hlt (hlongest other (List.mem_of_getElem? hother) hhas')

theorem longest_eq_none_iff (hkeys : keys.Nodup) :
    (ofKeys e keys).trie.longest (rest.take (ofKeys e keys).reach) = none ↔
      ∀ key ∈ keys, ¬ e.HasKey rest key := by
  rw [Trie.longest_eq_none_iff]
  constructor
  · intro h key hkey hhas
    obtain ⟨i, hi⟩ := List.mem_iff_getElem?.1 hkey
    have hle := length_le_ahead hi hhas
    cases (h _ hle).symm.trans ((find?_take hkeys hle).2 ⟨key, hi, hhas, rfl⟩)
  · intro h m hm
    refine Option.eq_none_iff_forall_ne_some.2 fun i hi => ?_
    obtain ⟨key, hkey, hhas, -⟩ := (find?_take hkeys hm).1 hi
    exact h key (List.mem_of_getElem? hkey) hhas

end SymbolIndex

end Index

/-! ## Uses of a table -/

/-- What is done with a table: an entry is added, or something is looked up at a cursor. -/
inductive TableUse (α : Type) where
  | add (key : String) (value : α)
  | lookup (c : Cursor)

/-- The entry of a use that adds one. -/
def TableUse.mapping? {α : Type} : TableUse α → Option (String × α)
  | .add key value => some (key, value)
  | .lookup _ => none

/-- The entries that some uses add, refused ones as well. -/
def TableUse.added {α : Type} (uses : List (TableUse α)) : List (String × α) :=
  uses.filterMap (·.mapping?)

/-- The entries with a key that is not empty and not that of an earlier one. -/
def firstEntries {α : Type} : List (String × α) → List (String × α)
  | [] => []
  | entry :: entries =>
    if entry.1.isEmpty then firstEntries entries
    else entry :: (firstEntries entries).filter (·.1 ≠ entry.1)

theorem find?_firstEntries {α : Type} (entries : List (String × α)) (key : String) :
    (firstEntries entries).find? (·.1 == key) =
      if key.isEmpty then none else entries.find? (·.1 == key) := by
  induction entries with
  | nil => simp only [firstEntries, List.find?_nil, ite_self]
  | cons entry entries ih =>
    rw [firstEntries]
    by_cases hentry : entry.1 = key
    · subst hentry
      split
      · next hempty => rw [ih, if_pos hempty]
      · next hempty => rw [List.find?_cons_of_pos (by simp), List.find?_cons_of_pos (by simp)]
    · have hother : (firstEntries entries).find?
          (fun other => decide (decide (other.1 ≠ entry.1) ∧ other.1 == key)) =
          (firstEntries entries).find? (·.1 == key) := by
        congr 1
        funext other
        by_cases hkey : other.1 = key
        · simp [hkey, Ne.symm hentry]
        · simp [hkey]
      rw [List.find?_cons_of_neg (by simpa using hentry)]
      split
      · exact ih
      · rw [List.find?_cons_of_neg (by simpa using hentry), List.find?_filter, hother, ih]

namespace SymbolTable

variable {α : Type} {t : SymbolTable α}

/-- The table behind a use; a refused entry leaves it as it was. -/
def after (t : SymbolTable α) : TableUse α → SymbolTable α
  | .add key value => (t.add key value).toOption.getD t
  | .lookup c => (t.lookup c).2

/-- The table that some uses leave, one behind the other. -/
def ofUses (uses : List (TableUse α)) : SymbolTable α := uses.foldl after empty

/-- A table of entries has come about by adding them. -/
theorem ofEntries_eq_ofUses (entries : List (String × α)) :
    ofEntries entries = ofUses (entries.map fun entry => .add entry.1 entry.2) := by
  rw [ofUses, List.foldl_map]
  rfl

/-- The keys are distinct, and every index that has been built is that of the keys. -/
structure Sound (t : SymbolTable α) : Prop where
  nodup_keys : t.keys.Nodup
  index?_eq : ∀ e x, t.index? e = some x → x = .ofKeys e t.keys

theorem Sound.index_eq (h : t.Sound) (e : Encoding) : t.index e = .ofKeys e t.keys := by
  rw [index]
  cases hx : t.index? e with
  | none => rfl
  | some x => exact h.index?_eq e x hx

theorem sound_empty : (empty : SymbolTable α).Sound :=
  ⟨List.nodup_nil, fun _ _ hx => nomatch hx⟩

/-- An entry is refused, or it comes behind the others. -/
theorem after_add_cases (t : SymbolTable α) (key : String) (value : α) :
    (key.isEmpty ∨ key ∈ t.keys) ∧ t.after (.add key value) = t ∨
      ¬ key.isEmpty ∧ key ∉ t.keys ∧
        t.after (.add key value) = ⟨t.entries.push (key, value), fun _ => none⟩ := by
  rw [after, add]
  split
  · next h => exact .inl ⟨h, rfl⟩
  · next h => exact .inr ⟨fun hempty => h (.inl hempty), fun hmem => h (.inr hmem), rfl⟩

theorem keys_push (t : SymbolTable α) (key : String) (value : α)
    (index? : Encoding → Option SymbolIndex) :
    (⟨t.entries.push (key, value), index?⟩ : SymbolTable α).keys = t.keys ++ [key] := by
  rw [keys, Array.toList_push, List.map_append]
  rfl

theorem Sound.compile (h : t.Sound) (e : Encoding) : (t.compile e).Sound := by
  refine ⟨h.nodup_keys, fun e' x hx => ?_⟩
  simp only [SymbolTable.compile] at hx
  split at hx
  · next he =>
    rw [he, ← Option.some.inj hx]
    exact h.index_eq e
  · exact h.index?_eq e' x hx

/-- A use keeps the indexes those of the keys: a new key drops them all, and a lookup builds
the one that is missing. -/
theorem Sound.after (h : t.Sound) (use : TableUse α) : (t.after use).Sound := by
  cases use with
  | add key value =>
    rcases t.after_add_cases key value with ⟨-, heq⟩ | ⟨-, hnew, heq⟩
    · rw [heq]
      exact h
    · rw [heq]
      refine ⟨?_, fun _ _ hx => nomatch hx⟩
      rw [keys_push]
      exact List.nodup_append.2 ⟨h.nodup_keys, List.nodup_cons.2 ⟨List.not_mem_nil, List.nodup_nil⟩,
        fun a ha b hb => by rw [List.mem_singleton.1 hb]; exact fun hab => hnew (hab ▸ ha)⟩
  | lookup c => exact h.compile c.source.encoding

theorem sound_ofUses (uses : List (TableUse α)) : (ofUses uses).Sound := by
  have hrun : ∀ (uses : List (TableUse α)) {t : SymbolTable α}, t.Sound →
      (uses.foldl SymbolTable.after t).Sound := by
    intro uses
    induction uses with
    | nil => exact id
    | cons use uses ih => exact fun ht => ih (ht.after use)
  exact hrun uses sound_empty

theorem entries_foldl_after (uses : List (TableUse α)) (t : SymbolTable α) :
    (uses.foldl after t).entries.toList = t.entries.toList ++
      (firstEntries (TableUse.added uses)).filter (·.1 ∉ t.keys) := by
  induction uses generalizing t with
  | nil => exact (List.append_nil _).symm
  | cons use uses ih =>
    rw [List.foldl_cons, ih]
    cases use with
    | lookup c => rfl
    | add key value =>
      have hadded : TableUse.added (.add key value :: uses) = (key, value) :: TableUse.added uses :=
        rfl
      rw [hadded, firstEntries]
      rcases t.after_add_cases key value with ⟨hrefused, heq⟩ | ⟨hempty, hnew, heq⟩
      · rw [heq]
        split
        · rfl
        · next hempty =>
          have hmem : key ∈ t.keys := hrefused.resolve_left hempty
          rw [List.filter_cons_of_neg (by simpa using hmem), List.filter_filter]
          congr 2
          funext other
          by_cases hother : other.1 = key
          · simp [hother, hmem]
          · simp [hother]
      · rw [heq, if_neg hempty, List.filter_cons_of_pos (by simpa using hnew), List.filter_filter,
          keys_push, Array.toList_push, List.append_assoc, List.singleton_append]
        congr 3
        funext other
        simp only [List.mem_append, List.mem_singleton, not_or, Bool.decide_and]

theorem entries_ofUses (uses : List (TableUse α)) :
    (ofUses uses).entries.toList = firstEntries (TableUse.added uses) := by
  rw [ofUses, entries_foldl_after]
  exact List.filter_eq_self.2 fun _ _ => rfl

theorem get?_ofUses (uses : List (TableUse α)) (key : String) :
    (ofUses uses).get? key = if key.isEmpty then none
      else ((TableUse.added uses).find? (·.1 == key)).map (·.2) := by
  rw [get?, ← Array.find?_toList, entries_ofUses, find?_firstEntries]
  split
  · rfl
  · rfl

theorem Sound.longestKey_eq (h : t.Sound) {c : Cursor} {rest : List Nat}
    (hrest : c.remaining = .ok rest) :
    t.longestKey c = (SymbolIndex.ofKeys c.source.encoding t.keys).trie.longest
      (rest.take (SymbolIndex.ofKeys c.source.encoding t.keys).reach) := by
  rw [longestKey, h.index_eq, Cursor.ahead_eq_take hrest]

theorem lookup_eq (h : t.Sound) {c : Cursor} {rest : List Nat} (hrest : c.remaining = .ok rest) :
    (t.lookup c).1 = (SymbolIndex.ofKeys c.source.encoding t.keys).trie.longest
      (rest.take (SymbolIndex.ofKeys c.source.encoding t.keys).reach) :=
  (h.compile c.source.encoding).longestKey_eq hrest

/-- A table holds the entries that came first for their keys, however it was used.  A lookup
finds a key exactly if the encoding can represent it, it stands at the cursor, and no longer key
does; the length is that of the key's units, which the cursor can pass over. -/
theorem finds_longest (uses : List (TableUse α)) :
    let t := ofUses uses
    let added := TableUse.added uses
    t.entries.toList = firstEntries added ∧
    (∀ key, t.get? key =
      if key.isEmpty then none else (added.find? (·.1 == key)).map (·.2)) ∧
    ∀ c rest, c.remaining = .ok rest →
      (∀ n length, (t.lookup c).1 = some (n, length) ↔
        ∃ key, t.keys[n]? = some key ∧ c.source.encoding.HasKey rest key ∧
          length = (c.source.encoding.encodeText key).length ∧
          ∀ other ∈ t.keys, c.source.encoding.HasKey rest other →
            (c.source.encoding.encodeText other).length ≤ length) ∧
      ((t.lookup c).1 = none ↔ ∀ key ∈ t.keys, ¬ c.source.encoding.HasKey rest key) ∧
      (∀ n length, (t.lookup c).1 = some (n, length) →
        c.moveTo (c.position + length) = .ok { c with position := c.position + length }) := by
  intro t added
  have ht : t.Sound := sound_ofUses uses
  refine ⟨entries_ofUses uses, get?_ofUses uses, fun c rest hrest => ?_⟩
  have hsome : ∀ n length, (t.lookup c).1 = some (n, length) ↔
      ∃ key, t.keys[n]? = some key ∧ c.source.encoding.HasKey rest key ∧
        length = (c.source.encoding.encodeText key).length ∧
        ∀ other ∈ t.keys, c.source.encoding.HasKey rest other →
          (c.source.encoding.encodeText other).length ≤ length := by
    intro n length
    rw [lookup_eq ht hrest]
    exact SymbolIndex.longest_eq_some_iff ht.nodup_keys
  refine ⟨hsome, ?_, fun n length hfound => ?_⟩
  · rw [lookup_eq ht hrest]
    exact SymbolIndex.longest_eq_none_iff ht.nodup_keys
  · obtain ⟨key, -, hhas, rfl, -⟩ := (hsome n length).1 hfound
    have hlength := hhas.front.length_le
    have hle := (Source.slice_eq_ok_iff.1 hrest).1
    rw [Cursor.length_of_remaining hrest] at hlength
    simp only at hle
    rw [Cursor.moveTo, if_pos (by omega)]

/-- A key that is added behind a lookup is found, and where it is cut short, the shorter one. -/
theorem finds_longest_added_later :
    let uses : List (TableUse Nat) := [.add "if" 1, .lookup (.ofSource (.ofText .utf16 "if")),
      .add "ifä" 2, .add "if" 3, .add "" 4]
    let t := ofUses uses
    let c : Cursor := .ofSource (.ofText .utf16 "ifäx")
    let cut : Cursor := { c with stop := 2 }
    c.remaining = .ok [0x69, 0x66, 0xE4, 0x78] ∧ (t.lookup c).1 = some (1, 3) ∧
      c.moveTo 3 = .ok { c with position := 3 } ∧ cut.remaining = .ok [0x69, 0x66] ∧
      (t.lookup cut).1 = some (0, 2) ∧ ¬ Encoding.utf16.HasKey [0x69, 0x66] "ifä" ∧
      t.get? "if" = some 1 := by
  intro uses t c cut
  obtain ⟨-, hget, hlookup⟩ := finds_longest uses
  have hc : c.remaining = .ok [0x69, 0x66, 0xE4, 0x78] := by rfl
  have hcut : cut.remaining = .ok [0x69, 0x66] := by rfl
  have hfound : (t.lookup c).1 = some (1, 3) := by decide +kernel
  have hshorter : (t.lookup cut).1 = some (0, 2) := by decide +kernel
  obtain ⟨-, -, hmove⟩ := hlookup c _ hc
  obtain ⟨key, -, -, -, hlongest⟩ := ((hlookup cut _ hcut).1 0 2).1 hshorter
  refine ⟨hc, hfound, hmove 1 3 hfound, hcut, hshorter, fun hhas => ?_, (hget "if").trans ?_⟩
  · exact absurd (hlongest "ifä" (by decide +kernel) hhas) (by decide +kernel)
  · decide +kernel

end SymbolTable

end Phrase
