import Phrase.Proofs.Symbol.Arena
import Phrase.Proofs.Symbol.Table

/-!
# Looking up unit by unit

A lookup in a symbol table puts the keys into a trie in a list of nodes, walks through it one unit
after the other, moves behind the longest key and takes the value from the entries.  Each of these
steps has a condition; none is broken, and what is found is the same as when the units that lie
ahead are looked at as a whole (`SymbolTable.lookupStepwise_eq`).
-/

namespace Phrase

/-! ## Keys -/

/-- The units of some characters, written one by one; none if the encoding cannot represent one
of them. -/
def Encoding.writeKey (e : Encoding) : List Char → Except Fault (Option (List Nat))
  | [] => .ok (some [])
  | c :: cs =>
    if e.CanEncode c.toNat then do
      let us ← e.writeUnits c.toNat
      return (← e.writeKey cs).map (us ++ ·)
    else .ok none

namespace TrieArena

/-- Adds the keys that the encoding can represent, numbered from `number` on. -/
def addKeys (e : Encoding) : Nat → List String → TrieArena → Except Fault TrieArena
  | _, [], t => .ok t
  | number, key :: keys, t => do
    match ← e.writeKey key.toList with
    | some us => addKeys e (number + 1) keys (← t.insert number us)
    | none => addKeys e (number + 1) keys t

/-- The trie of some keys, numbered in order. -/
def ofKeys (e : Encoding) (keys : List String) : Except Fault TrieArena := addKeys e 0 keys empty

/-- Walks on along the units at a cursor, as long as they lead on: the number of the longest key
on the way, and where it ends.  So far that is `best`. -/
def walk (t : TrieArena) : Nat → Nat → Option (Nat × Nat) → Cursor →
    Except Fault (Option (Nat × Nat))
  | 0, _, best, _ => .ok best
  | fuel + 1, id, best, c => do
    match ← c.readAt 0 with
    | none => return best
    | some u =>
      let n ← t.node id
      match n.ways.locate u with
      | .error _ => return best
      | .ok i =>
        let next ← n.ways.target i
        let c ← c.bump
        let n ← t.node next
        t.walk fuel next ((n.key?.map fun number => (number, c.position)).or best) c

end TrieArena

/-- The value of the longest key at a cursor, and where the key ends: the keys are put into a
trie, the trie is walked, the cursor moves behind the key, and the value is looked up. -/
def SymbolTable.lookupStepwise {α : Type} (t : SymbolTable α) (c : Cursor) :
    Except Fault (Option (α × Nat)) := do
  let trie ← TrieArena.ofKeys c.source.encoding t.keys
  match ← trie.walk (c.stop - c.position) 0 none c with
  | none => return none
  | some (number, stop) =>
    let last ← c.moveTo stop
    match t.entries[number]? with
    | some entry => return some (entry.2, last.position)
    | none => .error .outOfBounds

/-! ## Lookups -/

theorem Encoding.writeKey_eq_mapM (e : Encoding) (cs : List Char) :
    e.writeKey cs = .ok ((cs.mapM fun c => e.units? c.toNat).map List.flatten) := by
  induction cs with
  | nil => rfl
  | cons c cs ih =>
    rw [writeKey, List.mapM_cons]
    by_cases hc : e.CanEncode c.toNat
    · rw [if_pos hc, writeUnits_of_units? (units?_of_canEncode hc), ok_bind, ih, ok_bind,
        units?_of_canEncode hc]
      cases cs.mapM fun c => e.units? c.toNat with
      | none => rfl
      | some uss => rfl
    · rw [if_neg hc, units?.eq_def, if_neg hc]
      rfl

theorem Encoding.writeKey_toList (e : Encoding) (key : String) :
    e.writeKey key.toList = .ok (e.encodeText? key) := e.writeKey_eq_mapM key.toList

namespace TrieArena

variable {t : TrieArena} {s : Trie} {e : Encoding} {keys : List String}

/-- Adding keys to a trie in a list of nodes breaks no condition, and changes the same words as
adding them to any other trie. -/
theorem Sound.addKeys (ht : t.Sound) (hfind : ∀ ws, t.find? ws = s.find? ws) (number : Nat) :
    ∃ t', TrieArena.addKeys e number keys t = .ok t' ∧ t'.Sound ∧ ∀ ws, t'.find? ws =
      ((encodeKeys e number keys).foldl (fun s k => s.insert k.1 k.2) s).find? ws := by
  induction keys generalizing t s number with
  | nil => exact ⟨t, rfl, ht, hfind⟩
  | cons key keys ih =>
    rw [TrieArena.addKeys, e.writeKey_toList, ok_bind, encodeKeys]
    cases e.encodeText? key with
    | none => exact ih ht hfind _
    | some us =>
      obtain ⟨t', hinsert, ht', hfind'⟩ := ht.insert number us
      simp only [hinsert, ok_bind, List.foldl_cons]
      refine ih ht' (fun ws => ?_) _
      rw [hfind', Trie.find?_insert, hfind]

theorem exists_ofKeys (e : Encoding) (keys : List String) :
    ∃ t, ofKeys e keys = .ok t ∧ t.Sound ∧
      ∀ ws, t.find? ws = (SymbolIndex.ofKeys e keys).trie.find? ws := by
  refine sound_empty.addKeys (fun ws => ?_) 0
  rw [find?_empty, Trie.find?_empty]

/-- What is known of a walk that has passed `n` of the units: the longest word among those it has
passed, and where it ends. -/
def Found (t : TrieArena) (rest : List Nat) (start n : Nat) : Option (Nat × Nat) → Prop
  | none => ∀ m, m ≤ n → t.find? (rest.take m) = none
  | some (number, stop) => ∃ length, length ≤ n ∧ stop = start + length ∧
      t.find? (rest.take length) = some number ∧
      ∀ m, length < m → m ≤ n → t.find? (rest.take m) = none

variable {rest : List Nat} {start n number : Nat} {best : Option (Nat × Nat)}

theorem Found.none_behind (h : t.Found rest start n best) {n' : Nat}
    (hbehind : ∀ m, n < m → m ≤ n' → t.find? (rest.take m) = none) (hle : n ≤ n') :
    t.Found rest start n' best := by
  cases best with
  | none =>
    intro m hm
    by_cases hmn : m ≤ n
    · exact h m hmn
    · exact hbehind m (by omega) hm
  | some found =>
    obtain ⟨length, hlength, hstop, hfind, hlonger⟩ := h
    refine ⟨length, by omega, hstop, hfind, fun m hlt hm => ?_⟩
    by_cases hmn : m ≤ n
    · exact hlonger m hlt hmn
    · exact hbehind m (by omega) hm

theorem Found.succ (h : t.Found rest start n best) :
    t.Found rest start (n + 1)
      (((t.find? (rest.take (n + 1))).map fun number => (number, start + (n + 1))).or best) := by
  cases hfind : t.find? (rest.take (n + 1)) with
  | none =>
    refine h.none_behind (fun m hlt hm => ?_) (Nat.le_succ n)
    obtain rfl : m = n + 1 := by omega
    exact hfind
  | some number =>
    exact ⟨n + 1, Nat.le_refl _, rfl, hfind, fun m hlt hm => absurd hm (Nat.not_le.2 hlt)⟩

/-- A word that leads nowhere starts no key. -/
theorem find?_take_eq_none (hnone : t.path (rest.take (n + 1)) = none) {m : Nat} (hm : n < m) :
    t.find? (rest.take m) = none := by
  have hsplit : rest.take m = rest.take (n + 1) ++ (rest.drop (n + 1)).take (m - (n + 1)) := by
    rw [← List.take_add]
    congr 1
    omega
  have hpath : t.path (rest.take m) = none := by
    rw [hsplit, path, List.foldlM_append]
    change (t.path (rest.take (n + 1))).bind _ = none
    rw [hnone]
    rfl
  rw [find?, hpath]
  rfl

/-- A walk breaks no condition and finds the longest word. -/
theorem Sound.walk (ht : t.Sound) {c : Cursor} (hrest : c.remaining = .ok rest) (fuel : Nat)
    {id : Nat} (hfuel : fuel + n = rest.length) (hpath : t.path (rest.take n) = some id)
    (hbest : t.Found rest c.position n best) :
    ∃ r, t.walk fuel id best (c.behind n) = .ok r ∧ t.Found rest c.position rest.length r := by
  induction fuel generalizing n id best with
  | zero =>
    rw [Nat.zero_add] at hfuel
    exact ⟨best, rfl, hfuel ▸ hbest⟩
  | succ fuel ih =>
    have hlt : n < rest.length := by omega
    have hnext := Cursor.remaining_behind hrest (Nat.le_of_lt hlt)
    rw [List.drop_eq_getElem_cons hlt] at hnext
    obtain ⟨node, hnode, hget⟩ := node_of_lt (ht.lt_length_of_path hpath)
    have hway : t.way id rest[n] = node.ways.lookup rest[n] := by rw [way, hget]; rfl
    have htake : t.path (rest.take (n + 1)) = node.ways.lookup rest[n] := by
      rw [← List.take_append_getElem hlt, path_concat, hpath, Option.bind_some, hway]
    rw [TrieArena.walk, Cursor.readAt_of_remaining hnext, ok_bind]
    simp only [List.getElem?_cons_zero, hnode, ok_bind]
    cases hlocate : node.ways.locate rest[n] with
    | error i =>
      have hmissing := (Ways.insertAt_of_locate (ht.sorted hget) hlocate 0).1
      rw [hmissing] at htake
      exact ⟨best, rfl, hbest.none_behind (fun m hlt _ => find?_take_eq_none htake hlt)
        (Nat.le_of_lt hlt)⟩
    | ok i =>
      obtain ⟨next, htarget, hlookup⟩ := Ways.target_of_locate hlocate
      rw [hlookup] at htake
      obtain ⟨node', hnode', hget'⟩ := node_of_lt (ht.lt_length_of_path htake)
      have hkey : node'.key? = t.find? (rest.take (n + 1)) := by
        rw [find?, htake, Option.bind_some, key?, hget']
        rfl
      simp only [htarget, ok_bind, Cursor.bump_of_remaining hnext, Cursor.behind_behind, hnode']
      rw [hkey]
      exact ih (by omega) htake hbest.succ

end TrieArena

/-- No key is longer than the index looks ahead. -/
theorem SymbolIndex.longest_take {e : Encoding} {keys : List String} (hkeys : keys.Nodup)
    {rest : List Nat} {number length : Nat}
    (h : (ofKeys e keys).trie.IsLongest rest number length) :
    (ofKeys e keys).trie.longest (rest.take (ofKeys e keys).reach) = some (number, length) := by
  have hle : length ≤ (ofKeys e keys).reach := by
    have hmem := (Trie.find?_ofKeys (nodup_encodeKeys hkeys 0)).1 h.find
    have hreach := (length_le_foldl_max _ 0).2 _ hmem
    rw [List.length_take_of_le h.length_le] at hreach
    exact hreach
  have htake : ∀ {n}, n ≤ (rest.take (ofKeys e keys).reach).length →
      (rest.take (ofKeys e keys).reach).take n = rest.take n := fun hn => by
    rw [List.take_take, Nat.min_eq_left (Nat.le_trans hn (List.length_take_le _ _))]
  have hlength : length ≤ (rest.take (ofKeys e keys).reach).length := by
    rw [List.length_take]
    exact Nat.le_min.2 ⟨hle, h.length_le⟩
  refine Trie.longest_eq_some_iff.2 ⟨hlength, ?_, fun n hlt hn => ?_⟩
  · rw [htake hlength]
    exact h.find
  · rw [htake hn]
    exact h.longest n hlt (Nat.le_trans hn (List.length_take_le' _ _))

namespace SymbolTable

variable {α : Type} {t : SymbolTable α} {c : Cursor}

theorem isEmpty_of_mem_firstEntries {entries : List (String × α)} {entry : String × α}
    (h : entry ∈ firstEntries entries) : entry.1.isEmpty = false := by
  induction entries with
  | nil => cases h
  | cons first entries ih =>
    rw [firstEntries] at h
    split at h
    · exact ih h
    · next hfirst =>
      rcases List.mem_cons.1 h with rfl | h
      · exact Bool.eq_false_iff.2 hfirst
      · exact ih (List.mem_filter.1 h).1

/-- No key of a table in use is empty. -/
theorem isEmpty_of_mem_keys_ofUses {uses : List (TableUse α)} {key : String}
    (h : key ∈ (ofUses uses).keys) : key.isEmpty = false := by
  rw [keys, entries_ofUses] at h
  obtain ⟨entry, hentry, rfl⟩ := List.mem_map.1 h
  exact isEmpty_of_mem_firstEntries hentry

/-- What a lookup is to find: the value of the longest key, and where it ends. -/
def valueAt (t : SymbolTable α) (c : Cursor) : Option (α × Nat) := do
  let (number, length) ← t.longestKey c
  let entry ← t.entries[number]?
  return (entry.2, c.position + length)

theorem longest_take_eq_none {trie : Trie} {rest : List Nat}
    (h : ∀ n, n ≤ rest.length → trie.find? (rest.take n) = none) (reach : Nat) :
    trie.longest (rest.take reach) = none := by
  refine Trie.longest_eq_none_iff.2 fun n hn => ?_
  rw [List.take_take, Nat.min_eq_left (Nat.le_trans hn (List.length_take_le _ _))]
  exact h n (Nat.le_trans hn (List.length_take_le' _ _))

/-- Looking up step by step breaks no condition and finds the same. -/
theorem lookupStepwise_eq (ht : t.Sound) (hkeys : ∀ key ∈ t.keys, key.isEmpty = false)
    (hc : c.Valid) : t.lookupStepwise c = .ok (t.valueAt c) := by
  have hrest := c.remaining_eq hc
  generalize (c.source.units.toList.drop c.position).take (c.stop - c.position) = rest at hrest
  have hlength := Cursor.length_of_remaining hrest
  obtain ⟨trie, hbuild, hsound, hfind⟩ := TrieArena.exists_ofKeys c.source.encoding t.keys
  have hmem : ∀ {number us}, trie.find? us = some number →
      ∃ key, t.keys[number]? = some key ∧ c.source.encoding.encodeText? key = some us := by
    intro number us h
    rw [hfind] at h
    exact mem_encodeKeys_zero.1 ((Trie.find?_ofKeys (nodup_encodeKeys ht.nodup_keys 0)).1 h)
  -- No key ends where the walk starts, since no key is empty.
  have hstart : trie.Found rest c.position 0 none := by
    intro m hm
    obtain rfl : m = 0 := by omega
    refine Option.eq_none_iff_forall_ne_some.2 fun number hnumber => ?_
    obtain ⟨key, hkey, hunits⟩ := hmem hnumber
    have hempty : key = "" :=
      Encoding.encodeText?_inj hunits
        (Encoding.encodeText?_eq_some_iff.2 ⟨Encoding.canEncodeAll_nil, rfl⟩)
    have hne := hkeys key (List.mem_of_getElem? hkey)
    rw [hempty] at hne
    cases hne
  obtain ⟨r, hwalk, hfound⟩ := hsound.walk hrest rest.length (Nat.add_zero _) rfl hstart
  rw [hlength] at hwalk
  change trie.walk (c.stop - c.position) 0 none c = _ at hwalk
  rw [lookupStepwise, hbuild, ok_bind, hwalk, ok_bind, valueAt, ht.longestKey_eq hrest]
  cases r with
  | none =>
    rw [longest_take_eq_none (fun n hn => (hfind _).symm.trans (hfound n hn))]
    rfl
  | some found =>
    obtain ⟨number, stop⟩ := found
    obtain ⟨length, hle, rfl, hnumber, hlonger⟩ := hfound
    obtain ⟨key, hkey, -⟩ := hmem hnumber
    rw [keys, List.getElem?_map, Option.map_eq_some_iff] at hkey
    obtain ⟨entry, hentry, -⟩ := hkey
    rw [Array.getElem?_toList] at hentry
    have hlongest :
        (SymbolIndex.ofKeys c.source.encoding t.keys).trie.IsLongest rest number length :=
      ⟨hle, (hfind _).symm.trans hnumber, fun n hlt hn => (hfind _).symm.trans (hlonger n hlt hn)⟩
    rw [SymbolIndex.longest_take ht.nodup_keys hlongest]
    have hmove : c.moveTo (c.position + length) =
        .ok { c with position := c.position + length } := by
      have := hc.position_le
      exact Cursor.moveTo_eq (by omega)
    simp only [hmove, ok_bind, hentry, Option.bind_eq_bind, Option.bind_some]
    rfl

end SymbolTable

end Phrase
