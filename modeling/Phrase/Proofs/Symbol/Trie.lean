import Phrase.Symbol.Trie

/-!
# The keys of a trie

`Trie.find?` reads a trie as a map from keys to numbers.  Insertion updates that map at one
key, and the longest key at the front of some units is a statement about it.
-/

namespace Phrase

namespace Trie

variable {t : Trie} {us ws : List Nat} {number length : Nat}

/-- The number of a key. -/
def find? : List Nat → Trie → Option Nat
  | [], .node key? _ => key?
  | u :: us, .node _ edges => (follow u edges).bind (find? us)

/-! ## Insertion -/

theorem follow_connect (u v : Nat) (t : Trie) (edges : List (Nat × Trie)) :
    follow v (connect u t edges) = if u = v then some t else follow v edges := by
  induction edges with
  | nil => simp only [connect, follow, ite_self]
  | cons edge rest ih =>
    obtain ⟨w, s⟩ := edge
    rw [connect]
    split
    · next hw =>
      subst hw
      simp only [follow]
      split
      · rfl
      · rfl
    · next hw =>
      split
      · next hlt =>
        -- A way that is looked for in front of the new one is in front of `w` as well.
        rw [follow]
        split
        · rfl
        · next huv =>
          split
          · next hv => rw [follow, if_neg (by omega), if_pos (by omega)]
          · rfl
      · next hlt =>
        rw [follow, follow, ih]
        split
        · next hwv => rw [if_neg (by omega)]
        · next hwv =>
          split
          · next hv => rw [if_neg (by omega)]
          · rfl

theorem find?_empty (us : List Nat) : empty.find? us = none := by
  cases us with
  | nil => rfl
  | cons u us => rfl

theorem find?_getD (us : List Nat) (t? : Option Trie) :
    (t?.getD empty).find? us = t?.bind (find? us) := by
  cases t? with
  | none => exact find?_empty us
  | some t => rfl

/-- Insertion changes the number of one key and no other. -/
theorem find?_insert (number : Nat) (us ws : List Nat) (t : Trie) :
    (t.insert number us).find? ws = if us = ws then some number else t.find? ws := by
  induction us generalizing ws t with
  | nil =>
    obtain ⟨key?, edges⟩ := t
    cases ws with
    | nil => rfl
    | cons w ws => simp only [insert, find?, reduceCtorEq, if_false]
  | cons u us ih =>
    obtain ⟨key?, edges⟩ := t
    cases ws with
    | nil => simp only [insert, find?, reduceCtorEq, if_false]
    | cons w ws =>
      rw [insert, find?, find?, follow_connect]
      by_cases huw : u = w
      · subst huw
        rw [if_pos rfl, Option.bind_some, ih, find?_getD]
        simp only [List.cons.injEq, true_and]
      · rw [if_neg huw, if_neg fun h => huw (List.cons.inj h).1]

theorem find?_foldl_insert {keys : List (Nat × List Nat)} (hdistinct : (keys.map (·.2)).Nodup) :
    (keys.foldl (fun t k => t.insert k.1 k.2) t).find? us = some number ↔
      (number, us) ∈ keys ∨ us ∉ keys.map (·.2) ∧ t.find? us = some number := by
  induction keys generalizing t with
  | nil => simp
  | cons key keys ih =>
    obtain ⟨n, ws⟩ := key
    obtain ⟨hnew, hdistinct⟩ := List.nodup_cons.1 hdistinct
    rw [List.foldl_cons, ih hdistinct, find?_insert]
    by_cases hws : ws = us
    · subst hws
      have hnotMem : (number, ws) ∉ keys := fun h => hnew (List.mem_map.2 ⟨_, h, rfl⟩)
      simp only [hnew, hnotMem, if_true, List.mem_cons, Prod.mk.injEq, List.map_cons,
        not_true_eq_false, not_false_eq_true, true_and, false_and, or_false, false_or, and_true,
        Option.some.injEq, eq_comm]
    · simp only [hws, Ne.symm hws, if_false, List.mem_cons, Prod.mk.injEq, List.map_cons,
        and_false, false_or]

/-- The trie of distinct keys numbers them as they were. -/
theorem find?_ofKeys {keys : List (Nat × List Nat)} (hdistinct : (keys.map (·.2)).Nodup) :
    (ofKeys keys).find? us = some number ↔ (number, us) ∈ keys := by
  rw [ofKeys, find?_foldl_insert hdistinct, find?_empty]
  simp only [reduceCtorEq, and_false, or_false]

/-! ## The longest key -/

/-- A key at the front of some units with no longer one there. -/
structure IsLongest (t : Trie) (us : List Nat) (number length : Nat) : Prop where
  length_le : length ≤ us.length
  find : t.find? (us.take length) = some number
  longest : ∀ n, length < n → n ≤ us.length → t.find? (us.take n) = none

theorem IsLongest.unique {number' length' : Nat} (h : t.IsLongest us number length)
    (h' : t.IsLongest us number' length') : number = number' ∧ length = length' := by
  rcases Nat.lt_trichotomy length length' with hlt | rfl | hlt
  · cases h'.find.symm.trans (h.longest _ hlt h'.length_le)
  · exact ⟨Option.some.inj (h.find.symm.trans h'.find), rfl⟩
  · cases h.find.symm.trans (h'.longest _ hlt h.length_le)

/-- Walking along the units finds the longest key, or there is none. -/
theorem longest_cases (us : List Nat) (t : Trie) :
    (∃ number length, t.longest us = some (number, length) ∧ t.IsLongest us number length) ∨
      t.longest us = none ∧ ∀ n, n ≤ us.length → t.find? (us.take n) = none := by
  induction us generalizing t with
  | nil =>
    obtain ⟨key?, edges⟩ := t
    cases key? with
    | none =>
      refine .inr ⟨rfl, fun n hn => ?_⟩
      rw [List.take_nil]
      rfl
    | some number =>
      refine .inl ⟨number, 0, rfl, Nat.zero_le _, rfl, fun n hn hn' => ?_⟩
      exact absurd hn' (Nat.not_le.2 hn)
  | cons u us ih =>
    obtain ⟨key?, edges⟩ := t
    have hfind : ∀ n, find? ((u :: us).take (n + 1)) (.node key? edges) =
        (follow u edges).bind (find? (us.take n)) := fun _ => rfl
    have hstep : (∃ number length,
          (follow u edges).bind (longest us) = some (number, length) ∧
            length ≤ us.length ∧
            (follow u edges).bind (find? (us.take length)) = some number ∧
            ∀ n, length < n → n ≤ us.length → (follow u edges).bind (find? (us.take n)) = none) ∨
        (follow u edges).bind (longest us) = none ∧
          ∀ n, n ≤ us.length → (follow u edges).bind (find? (us.take n)) = none := by
      cases follow u edges with
      | none => exact .inr ⟨rfl, fun _ _ => rfl⟩
      | some s =>
        rcases ih s with ⟨number, length, hlongest, h⟩ | ⟨hlongest, h⟩
        · exact .inl ⟨number, length, hlongest, h.length_le, h.find, h.longest⟩
        · exact .inr ⟨hlongest, h⟩
    rw [longest]
    rcases hstep with ⟨number, length, hlongest, hle, hnumber, hlonger⟩ | ⟨hlongest, hnone⟩
    · rw [hlongest]
      refine .inl ⟨number, length + 1, rfl, Nat.succ_le_succ hle, hnumber, fun n hn hn' => ?_⟩
      obtain ⟨m, rfl⟩ := Nat.exists_eq_add_one.2 (Nat.lt_of_le_of_lt (Nat.zero_le _) hn)
      rw [hfind]
      exact hlonger m (Nat.lt_of_succ_lt_succ hn) (Nat.le_of_succ_le_succ hn')
    · rw [hlongest]
      cases key? with
      | none =>
        refine .inr ⟨rfl, fun n hn => ?_⟩
        cases n with
        | zero => rfl
        | succ n => exact hnone n (Nat.le_of_succ_le_succ hn)
      | some number =>
        refine .inl ⟨number, 0, rfl, Nat.zero_le _, rfl, fun n hn hn' => ?_⟩
        obtain ⟨m, rfl⟩ := Nat.exists_eq_add_one.2 hn
        rw [hfind]
        exact hnone m (Nat.le_of_succ_le_succ hn')

theorem longest_eq_some_iff :
    t.longest us = some (number, length) ↔ t.IsLongest us number length := by
  rcases longest_cases us t with ⟨n, l, hlongest, h⟩ | ⟨hlongest, hnone⟩
  · rw [hlongest, Option.some.injEq, Prod.mk.injEq]
    constructor
    · rintro ⟨rfl, rfl⟩
      exact h
    · exact h.unique
  · rw [hlongest]
    refine ⟨(nomatch ·), fun h => ?_⟩
    cases h.find.symm.trans (hnone length h.length_le)

theorem longest_eq_none_iff :
    t.longest us = none ↔ ∀ n, n ≤ us.length → t.find? (us.take n) = none := by
  rcases longest_cases us t with ⟨number, length, hlongest, h⟩ | ⟨hlongest, hnone⟩
  · rw [hlongest]
    refine ⟨(nomatch ·), fun hnone => ?_⟩
    cases h.find.symm.trans (hnone length h.length_le)
  · exact ⟨fun _ => hnone, fun _ => hlongest⟩

end Trie

end Phrase
