import Mathlib.Data.List.Basic
import Mathlib.Data.List.Induction
import Phrase.Proofs.Rule.Stepwise

/-!
# Tries in a list of nodes

A trie can also be held in a list of nodes that refer to each other by number.  Such a list grows
while keys are added; every number has to be that of a node, and every place in a list of ways
has to be inside of it.  Every node but the root is the end of one way only, so two words never
lead to the same node (`TrieArena.Sound.path_inj`).  So adding a key breaks no condition and
changes the number of one word and of no other, as it does in a trie (`TrieArena.Sound.insert`).
-/

namespace Phrase

/-! ## Ways -/

/-- The ways on from a node, each with its unit and the number of the node it leads to. -/
abbrev Ways : Type := List (Nat × Nat)

namespace Ways

/-- Where the way along a unit stands among ways that are sorted by unit, or else where it
belongs. -/
def locate (unit : Nat) : Ways → Except Nat Nat
  | [] => .error 0
  | (u, _) :: ways =>
    if u = unit then .ok 0
    else if unit < u then .error 0
    else match locate unit ways with
      | .ok i => .ok (i + 1)
      | .error i => .error (i + 1)

/-- The node at the end of a way. -/
def target (ways : Ways) (i : Nat) : Except Fault Nat :=
  match ways[i]? with
  | some way => .ok way.2
  | none => .error .outOfBounds

/-- Puts a way in a place. -/
def insertAt (ways : Ways) (i unit id : Nat) : Except Fault Ways :=
  if i ≤ ways.length then .ok (ways.insertIdx i (unit, id)) else .error .outOfBounds

/-- The ways are sorted by unit. -/
abbrev Sorted (ways : Ways) : Prop := ways.Pairwise fun v w => v.1 < w.1

variable {ways : Ways} {unit u i id : Nat}

theorem lookup_cons_eq (v : Nat) (way : Nat × Nat) (ways : Ways) :
    List.lookup v (way :: ways) = if v = way.1 then some way.2 else ways.lookup v := by
  rw [List.lookup_cons]
  split
  · next h => rw [if_pos (beq_iff_eq.1 h)]
  · next h => rw [if_neg (beq_eq_false_iff_ne.1 h)]

theorem target_of_locate (h : ways.locate unit = .ok i) :
    ∃ id, ways.target i = .ok id ∧ ways.lookup unit = some id := by
  induction ways generalizing i with
  | nil => cases h
  | cons way ways ih =>
    obtain ⟨u, id⟩ := way
    rw [locate] at h
    split at h
    · next hu =>
      subst hu
      cases h
      exact ⟨id, rfl, List.lookup_cons_self⟩
    · next hu =>
      split at h
      · cases h
      · split at h
        · next j hj =>
          cases h
          obtain ⟨id', htarget, hlookup⟩ := ih hj
          refine ⟨id', htarget, ?_⟩
          rw [lookup_cons_eq, if_neg (Ne.symm hu), hlookup]
        · cases h

theorem lookup_eq_none_of_lt (h : ∀ way ∈ ways, unit < way.1) : ways.lookup unit = none := by
  induction ways with
  | nil => rfl
  | cons way ways ih =>
    obtain ⟨hway, hways⟩ := List.forall_mem_cons.1 h
    rw [lookup_cons_eq, if_neg (Nat.ne_of_lt hway), ih hways]

/-- A way that is missing can be put where it belongs. -/
theorem insertAt_of_locate (hsorted : ways.Sorted) (h : ways.locate unit = .error i) (id : Nat) :
    ways.lookup unit = none ∧ ∃ ways', ways.insertAt i unit id = .ok ways' ∧ ways'.Sorted ∧
      (∀ way ∈ ways', way = (unit, id) ∨ way ∈ ways) ∧
      ∀ u, ways'.lookup u = if u = unit then some id else ways.lookup u := by
  induction ways generalizing i with
  | nil =>
    cases h
    exact ⟨rfl, [(unit, id)], rfl, List.pairwise_singleton _ _, fun way hway => .inl
      (List.mem_singleton.1 hway), fun u => lookup_cons_eq u (unit, id) []⟩
  | cons way ways ih =>
    obtain ⟨u, j⟩ := way
    obtain ⟨hfirst, hways⟩ := List.pairwise_cons.1 hsorted
    rw [locate] at h
    split at h
    · cases h
    · next hu =>
      split at h
      · next hlt =>
        -- All ways are behind the new one.
        cases h
        have hall : ∀ way ∈ (u, j) :: ways, unit < way.1 :=
          List.forall_mem_cons.2 ⟨hlt, fun way hway => Nat.lt_trans hlt (hfirst way hway)⟩
        exact ⟨lookup_eq_none_of_lt hall, (unit, id) :: (u, j) :: ways, rfl,
          List.pairwise_cons.2 ⟨hall, hsorted⟩, fun way hway => List.mem_cons.1 hway,
          fun v => lookup_cons_eq v (unit, id) _⟩
      · next hlt =>
        split at h
        · cases h
        · next i hi =>
          cases h
          obtain ⟨hnone, ways', hinsert, hsorted', hmem, hlookup⟩ := ih hways hi
          have hle : i ≤ ways.length := by
            unfold insertAt at hinsert
            split at hinsert
            · assumption
            · cases hinsert
          rw [insertAt, if_pos hle, Except.ok.injEq] at hinsert
          refine ⟨?_, (u, j) :: ways', ?_, List.pairwise_cons.2 ⟨fun way hway => ?_, hsorted'⟩,
            fun way hway => ?_, fun v => ?_⟩
          · rw [lookup_cons_eq, if_neg (Ne.symm hu), hnone]
          · rw [insertAt, if_pos (by rw [List.length_cons]; omega), List.insertIdx_succ_cons,
              hinsert]
          · rcases hmem way hway with rfl | hway
            · simp only
              omega
            · exact hfirst way hway
          · rcases List.mem_cons.1 hway with rfl | hway
            · exact .inr List.mem_cons_self
            · exact (hmem way hway).imp_right (List.mem_cons_of_mem _)
          · rw [lookup_cons_eq, hlookup, lookup_cons_eq]
            by_cases hv : v = u
            · rw [if_pos hv, if_neg (by omega), if_pos hv]
            · rw [if_neg hv, if_neg hv]

end Ways

/-! ## Nodes -/

/-- A node: the number of the key that ends here, and the ways on. -/
structure TrieNode where
  key? : Option Nat
  ways : Ways

/-- A trie as a list of nodes, the first one of which is the root. -/
structure TrieArena where
  nodes : List TrieNode

namespace TrieArena

/-- The trie without keys. -/
def empty : TrieArena := ⟨[⟨none, []⟩]⟩

/-- The node with a number. -/
def node (t : TrieArena) (id : Nat) : Except Fault TrieNode :=
  match t.nodes[id]? with
  | some n => .ok n
  | none => .error .outOfBounds

/-- Replaces a node. -/
def set (t : TrieArena) (id : Nat) (n : TrieNode) : Except Fault TrieArena :=
  if id < t.nodes.length then .ok ⟨t.nodes.set id n⟩ else .error .outOfBounds

/-- The node that a unit leads to, which is added behind the others if there is none. -/
def extend (t : TrieArena) (id unit : Nat) : Except Fault (TrieArena × Nat) := do
  let n ← t.node id
  match n.ways.locate unit with
  | .ok i => return (t, ← n.ways.target i)
  | .error i =>
    let child := t.nodes.length
    let ways ← n.ways.insertAt i unit child
    return (← TrieArena.set ⟨t.nodes ++ [⟨none, []⟩]⟩ id { n with ways }, child)

/-- The node that some units lead to. -/
def extendAll (t : TrieArena) (id : Nat) : List Nat → Except Fault (TrieArena × Nat)
  | [] => .ok (t, id)
  | u :: us => do
    let (t, id) ← t.extend id u
    t.extendAll id us

/-- Adds a key with its number. -/
def insert (t : TrieArena) (number : Nat) (us : List Nat) : Except Fault TrieArena := do
  let (t, id) ← t.extendAll 0 us
  let n ← t.node id
  t.set id { n with key? := some number }

/-! ## Words -/

/-- The number of the key that ends with a node. -/
def key? (t : TrieArena) (id : Nat) : Option Nat := t.nodes[id]?.bind TrieNode.key?

/-- Where a unit leads from a node. -/
def way (t : TrieArena) (id unit : Nat) : Option Nat :=
  t.nodes[id]?.bind fun n => n.ways.lookup unit

/-- Where a word leads from the root. -/
def path (t : TrieArena) (us : List Nat) : Option Nat := us.foldlM t.way 0

/-- The number of a word. -/
def find? (t : TrieArena) (us : List Nat) : Option Nat := (t.path us).bind t.key?

/-- Every way leads to a node that is not the root, and none to the end of another one. -/
structure Sound (t : TrieArena) : Prop where
  nonempty : 0 < t.nodes.length
  sorted : ∀ {id : Nat} {n : TrieNode}, t.nodes[id]? = some n → n.ways.Sorted
  inside : ∀ {id u j : Nat}, t.way id u = some j → 0 < j ∧ j < t.nodes.length
  unique : ∀ {id u id' u' j : Nat}, t.way id u = some j → t.way id' u' = some j → id = id' ∧ u = u'

variable {t t' : TrieArena} {us ws : List Nat} {id id' u number : Nat}

theorem path_concat (t : TrieArena) (us : List Nat) (u : Nat) :
    t.path (us ++ [u]) = (t.path us).bind fun id => t.way id u := by
  rw [path, List.foldlM_append]
  exact congrArg _ (funext fun id => Option.bind_fun_some (t.way id u))

theorem path_concat_eq_some_iff :
    t.path (us ++ [u]) = some id' ↔ ∃ id, t.path us = some id ∧ t.way id u = some id' := by
  rw [path_concat, Option.bind_eq_some_iff]

theorem lt_length_of_way (h : t.way id u = some id') : id < t.nodes.length := by
  obtain ⟨n, hn, -⟩ := Option.bind_eq_some_iff.1 h
  exact (List.getElem?_eq_some_iff.1 hn).1

theorem node_of_lt (h : id < t.nodes.length) : ∃ n, t.node id = .ok n ∧ t.nodes[id]? = some n := by
  refine ⟨t.nodes[id], ?_, List.getElem?_eq_getElem h⟩
  rw [node, List.getElem?_eq_getElem h]

theorem way_empty (id u : Nat) : empty.way id u = none := by
  cases id with
  | zero => rfl
  | succ id => rfl

theorem find?_empty (us : List Nat) : empty.find? us = none := by
  rcases List.eq_nil_or_concat' us with rfl | ⟨us, u, rfl⟩
  · rfl
  · have hpath : empty.path (us ++ [u]) = none := by
      rw [path_concat]
      simp only [way_empty, Option.bind_fun_none]
    rw [find?, hpath]
    rfl

theorem sound_empty : empty.Sound where
  nonempty := Nat.one_pos
  sorted {id n} h := by
    obtain rfl : n = ⟨none, []⟩ := List.mem_singleton.1 (List.mem_of_getElem? h)
    exact List.Pairwise.nil
  inside {id u j} h := by
    rw [way_empty] at h
    cases h
  unique {id u id' u' j} h := by
    rw [way_empty] at h
    cases h

namespace Sound

theorem lt_length_of_path (ht : t.Sound) (h : t.path us = some id) : id < t.nodes.length := by
  rcases List.eq_nil_or_concat' us with rfl | ⟨ws, u, rfl⟩
  · cases h
    exact ht.nonempty
  · obtain ⟨_, -, hway⟩ := path_concat_eq_some_iff.1 h
    exact (ht.inside hway).2

/-- Two words never lead to the same node. -/
theorem path_inj (ht : t.Sound) (hus : t.path us = some id) (hws : t.path ws = some id) :
    us = ws := by
  induction us using List.reverseRecOn generalizing ws id with
  | nil =>
    cases hus
    rcases List.eq_nil_or_concat' ws with rfl | ⟨ws, w, rfl⟩
    · rfl
    · obtain ⟨_, -, hway⟩ := path_concat_eq_some_iff.1 hws
      exact absurd (ht.inside hway).1 (Nat.lt_irrefl 0)
  | append_singleton us u ih =>
    obtain ⟨i, hi, hway⟩ := path_concat_eq_some_iff.1 hus
    rcases List.eq_nil_or_concat' ws with rfl | ⟨ws, w, rfl⟩
    · cases hws
      exact absurd (ht.inside hway).1 (Nat.lt_irrefl 0)
    · obtain ⟨j, hj, hway'⟩ := path_concat_eq_some_iff.1 hws
      obtain ⟨rfl, rfl⟩ := ht.unique hway hway'
      rw [ih hi hj]

end Sound

/-! ## Growing -/

/-- A node is added behind the others, at the end of a way that was missing. -/
structure Grows (t t' : TrieArena) (id unit : Nat) : Prop where
  missing : t.way id unit = none
  length_eq : t'.nodes.length = t.nodes.length + 1
  sorted : ∀ {k : Nat} {n : TrieNode}, t'.nodes[k]? = some n → n.ways.Sorted
  key?_eq : ∀ k, t'.key? k = t.key? k
  way_eq : ∀ k v, t'.way k v = if k = id ∧ v = unit then some t.nodes.length else t.way k v

theorem getElem?_set_append (nodes : List TrieNode) (hid : id < nodes.length) (n m : TrieNode)
    (k : Nat) : ((nodes ++ [m]).set id n)[k]? =
      if k = id then some n else if k = nodes.length then some m else nodes[k]? := by
  rw [List.getElem?_set]
  by_cases hk : id = k
  · subst hk
    rw [if_pos rfl, if_pos (by rw [List.length_append]; omega), if_pos rfl]
  · rw [if_neg hk, if_neg (Ne.symm hk), List.getElem?_append]
    split
    · rw [if_neg (by omega)]
    · by_cases hlast : k = nodes.length
      · rw [if_pos hlast, hlast, Nat.sub_self]
        rfl
      · rw [if_neg hlast, List.getElem?_eq_none (by rw [List.length_singleton]; omega),
          List.getElem?_eq_none (by omega)]

/-- A unit leads on already, or else to a node of its own. -/
theorem Sound.extend_cases (ht : t.Sound) (hid : id < t.nodes.length) (u : Nat) :
    (∃ j, t.extend id u = .ok (t, j) ∧ t.way id u = some j) ∨
      ∃ t', t.extend id u = .ok (t', t.nodes.length) ∧ t.Grows t' id u := by
  obtain ⟨n, hnode, hn⟩ := node_of_lt hid
  have hway : ∀ v, t.way id v = n.ways.lookup v := fun v => by rw [way, hn]; rfl
  cases hlocate : n.ways.locate u with
  | ok i =>
    obtain ⟨j, htarget, hlookup⟩ := Ways.target_of_locate hlocate
    refine .inl ⟨j, ?_, (hway u).trans hlookup⟩
    simp only [extend, hnode, ok_bind, hlocate, htarget]
    rfl
  | error i =>
    obtain ⟨hnone, ways, hinsert, hsorted, -, hlookup⟩ :=
      Ways.insertAt_of_locate (ht.sorted hn) hlocate t.nodes.length
    let added : TrieNode := ⟨none, []⟩
    let grown : TrieArena := ⟨(t.nodes ++ [added]).set id { n with ways }⟩
    have hset : TrieArena.set ⟨t.nodes ++ [added]⟩ id { n with ways } = .ok grown := by
      rw [set, if_pos (by rw [List.length_append]; omega)]
    have hget : ∀ k, grown.nodes[k]? = if k = id then some { n with ways }
        else if k = t.nodes.length then some added else t.nodes[k]? :=
      getElem?_set_append t.nodes hid _ _
    have hbehind : t.nodes[t.nodes.length]? = none := List.getElem?_eq_none (Nat.le_refl _)
    refine .inr ⟨grown, ?_, (hway u).trans hnone, ?_, fun {k m} hm => ?_, fun k => ?_,
      fun k v => ?_⟩
    · simp only [extend, hnode, ok_bind, hlocate, hinsert]
      rw [hset]
      rfl
    · rw [List.length_set, List.length_append, List.length_singleton]
    · rw [hget] at hm
      split at hm
      · cases hm
        exact hsorted
      · split at hm
        · cases hm
          exact List.Pairwise.nil
        · exact ht.sorted hm
    · rw [key?, key?, hget]
      split
      · next hk =>
        rw [hk, hn]
        rfl
      · split
        · next hk =>
          rw [hk, hbehind]
          rfl
        · rfl
    · rw [way, hget]
      by_cases hk : k = id
      · rw [if_pos hk, hk, hway, Option.bind_some, hlookup]
        simp only [true_and]
      · rw [if_neg hk, if_neg (show ¬ (k = id ∧ v = u) from fun h => hk h.1)]
        split
        · next hlast =>
          rw [hlast, way, hbehind]
          rfl
        · rfl

namespace Grows

theorem sound (h : t.Grows t' id u) (ht : t.Sound) : t'.Sound where
  nonempty := by
    have := h.length_eq
    omega
  sorted := h.sorted
  inside {k v j} hj := by
    rw [h.way_eq] at hj
    have := h.length_eq
    split at hj
    · cases hj
      exact ⟨ht.nonempty, by omega⟩
    · have := ht.inside hj
      omega
  unique {k v k' v' j} hj hj' := by
    rw [h.way_eq] at hj hj'
    split at hj
    · next hk =>
      split at hj'
      · next hk' => exact ⟨hk.1.trans hk'.1.symm, hk.2.trans hk'.2.symm⟩
      · cases hj
        exact absurd (ht.inside hj').2 (Nat.lt_irrefl _)
    · split at hj'
      · cases hj'
        exact absurd (ht.inside hj).2 (Nat.lt_irrefl _)
      · exact ht.unique hj hj'

/-- Ways stay. -/
theorem way_of_way (h : t.Grows t' id u) {k v j : Nat} (hj : t.way k v = some j) :
    t'.way k v = some j := by
  rw [h.way_eq, if_neg, hj]
  rintro ⟨rfl, rfl⟩
  cases h.missing.symm.trans hj

theorem path_of_path (h : t.Grows t' id u) {k : Nat} (hk : t.path us = some k) :
    t'.path us = some k := by
  induction us using List.reverseRecOn generalizing k with
  | nil => exact hk
  | append_singleton us v ih =>
    obtain ⟨m, hm, hway⟩ := path_concat_eq_some_iff.1 hk
    exact path_concat_eq_some_iff.2 ⟨m, ih hm, h.way_of_way hway⟩

/-- A word leads to the new node, or to where it has led before. -/
theorem path_cases (h : t.Grows t' id u) {k : Nat}
    (hk : t'.path us = some k) : k = t.nodes.length ∨ t.path us = some k := by
  induction us using List.reverseRecOn generalizing k with
  | nil => exact .inr hk
  | append_singleton us v ih =>
    obtain ⟨m, hm, hway⟩ := path_concat_eq_some_iff.1 hk
    rw [h.way_eq] at hway
    split at hway
    · exact .inl (Option.some.inj hway).symm
    · rcases ih hm with rfl | hm
      · exact absurd (lt_length_of_way hway) (Nat.lt_irrefl _)
      · exact .inr (path_concat_eq_some_iff.2 ⟨m, hm, hway⟩)

/-- The new node is no end of a key. -/
theorem find?_eq (h : t.Grows t' id u) (ws : List Nat) : t'.find? ws = t.find? ws := by
  have hnew : t'.key? t.nodes.length = none := by
    rw [h.key?_eq, key?, List.getElem?_eq_none (Nat.le_refl _)]
    rfl
  rw [find?, find?]
  cases hpath : t.path ws with
  | some k =>
    rw [h.path_of_path hpath]
    exact h.key?_eq k
  | none =>
    cases hpath' : t'.path ws with
    | none => rfl
    | some k =>
      rcases h.path_cases hpath' with rfl | hk
      · exact hnew
      · cases hpath.symm.trans hk

end Grows

namespace Sound

/-- Going on along units ends at the node that they lead to. -/
theorem extendAll (ht : t.Sound) (us pre : List Nat) (hpre : t.path pre = some id) :
    ∃ t' id', t.extendAll id us = .ok (t', id') ∧ t'.Sound ∧ t'.path (pre ++ us) = some id' ∧
      ∀ ws, t'.find? ws = t.find? ws := by
  induction us generalizing t id pre with
  | nil => exact ⟨t, id, rfl, ht, by rw [List.append_nil, hpre], fun _ => rfl⟩
  | cons u us ih =>
    have hid := ht.lt_length_of_path hpre
    rw [TrieArena.extendAll, List.append_cons]
    rcases ht.extend_cases hid u with ⟨j, hextend, hway⟩ | ⟨t', hextend, hgrows⟩
    · rw [hextend, ok_bind]
      exact ih ht _ (path_concat_eq_some_iff.2 ⟨id, hpre, hway⟩)
    · rw [hextend, ok_bind]
      have hway : t'.way id u = some t.nodes.length := by
        rw [hgrows.way_eq, if_pos ⟨rfl, rfl⟩]
      obtain ⟨t'', id'', hall, hsound, hpath, hfind⟩ := ih (hgrows.sound ht) _
        (path_concat_eq_some_iff.2 ⟨id, hgrows.path_of_path hpre, hway⟩)
      exact ⟨t'', id'', hall, hsound, hpath, fun ws =>
        (hfind ws).trans (hgrows.find?_eq ws)⟩

/-- Adding a key changes the number of one word and of no other. -/
theorem insert (ht : t.Sound) (number : Nat) (us : List Nat) :
    ∃ t', t.insert number us = .ok t' ∧ t'.Sound ∧
      ∀ ws, t'.find? ws = if us = ws then some number else t.find? ws := by
  obtain ⟨s, id, hall, hs, hpath, hfind⟩ := ht.extendAll us [] rfl
  rw [List.nil_append] at hpath
  have hid := hs.lt_length_of_path hpath
  obtain ⟨n, hnode, hn⟩ := node_of_lt hid
  let t' : TrieArena := ⟨s.nodes.set id { n with key? := some number }⟩
  have hget : ∀ k, t'.nodes[k]? =
      if k = id then some { n with key? := some number } else s.nodes[k]? := by
    intro k
    rw [List.getElem?_set]
    by_cases hk : id = k
    · subst hk
      rw [if_pos rfl, if_pos hid, if_pos rfl]
    · rw [if_neg hk, if_neg (Ne.symm hk)]
  -- The ways are as they were, so the words lead where they did.
  have hway : ∀ k v, t'.way k v = s.way k v := by
    intro k v
    rw [way, way, hget]
    split
    · next hk =>
      rw [hk, hn]
      rfl
    · rfl
  have hpaths : ∀ ws, t'.path ws = s.path ws := fun ws =>
    congrArg (fun f => ws.foldlM f 0) (funext fun k => funext fun v => hway k v)
  refine ⟨t', ?_, ⟨?_, fun {k m} hm => ?_, fun {k v j} hj => ?_, fun {k v k' v' j} hj hj' => ?_⟩,
    fun ws => ?_⟩
  · simp only [TrieArena.insert, hall, ok_bind, hnode, set, if_pos hid]
    rfl
  · rw [List.length_set]
    exact hs.nonempty
  · rw [hget] at hm
    split at hm
    · cases hm
      exact hs.sorted (n := n) hn
    · exact hs.sorted hm
  · rw [hway] at hj
    rw [List.length_set]
    exact hs.inside hj
  · rw [hway] at hj hj'
    exact hs.unique hj hj'
  · rw [find?, hpaths]
    by_cases hws : us = ws
    · subst hws
      rw [if_pos rfl, hpath, Option.bind_some, key?, hget, if_pos rfl]
      rfl
    · rw [if_neg hws, ← hfind, find?]
      cases hk : s.path ws with
      | none => rfl
      | some k =>
        have hne : k ≠ id := by
          rintro rfl
          exact hws (hs.path_inj hpath hk)
        rw [Option.bind_some, Option.bind_some, key?, hget, if_neg hne]
        rfl

end Sound

end TrieArena

end Phrase
