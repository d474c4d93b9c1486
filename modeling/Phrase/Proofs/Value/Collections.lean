import Mathlib.Data.List.Nodup
import Mathlib.Data.List.Sort
import Phrase.Proofs.Value.Order
import Phrase.Value.Container

/-!
# Sets and maps

What sets and maps hold is a matter of membership and of the last entry for each key, whether they
are kept sorted or in order of arrival (`Container.SetOf.addAll`, `Container.MapOf.addAll`).  A
finished set or map is sorted, and sorted lists with the same contents are the same.
-/

namespace Phrase

namespace Value

variable {k l v w : Value} {vs ws : List Value} {es fs : List (Value × Value)}

/-! ## Values, each once -/

theorem mem_insertSorted : w ∈ insertSorted v ws ↔ w = v ∨ w ∈ ws := by
  induction ws with
  | nil => simp [insertSorted]
  | cons x ws ih =>
    rw [insertSorted]
    cases hx : v.compare x with
    | lt => simp
    | eq =>
      obtain rfl := (compare_eq_iff v x).1 hx
      simp
    | gt =>
      simp only [List.mem_cons, ih]
      exact or_left_comm

theorem pairwise_insertSorted (h : ws.Pairwise Before) : (insertSorted v ws).Pairwise Before := by
  induction ws with
  | nil => simp [insertSorted]
  | cons x ws ih =>
    obtain ⟨hx, hws⟩ := List.pairwise_cons.1 h
    rw [insertSorted]
    cases hcompare : v.compare x with
    | lt =>
      refine List.pairwise_cons.2 ⟨fun y hy => ?_, h⟩
      rcases List.mem_cons.1 hy with rfl | hy
      · exact hcompare
      · exact Before.trans hcompare (hx y hy)
    | eq => exact h
    | gt =>
      refine List.pairwise_cons.2 ⟨fun y hy => ?_, ih hws⟩
      rcases mem_insertSorted.1 hy with rfl | hy
      · exact before_of_compare_gt hcompare
      · exact hx y hy

theorem mem_insertNew : w ∈ insertNew v ws ↔ w = v ∨ w ∈ ws := by
  induction ws with
  | nil => simp [insertNew]
  | cons x ws ih =>
    rw [insertNew]
    split
    · next hx =>
      obtain rfl := (compare_eq_iff v x).1 hx
      simp
    · simp only [List.mem_cons, ih]
      exact or_left_comm

theorem nodup_insertNew (h : ws.Nodup) : (insertNew v ws).Nodup := by
  induction ws with
  | nil => simp [insertNew]
  | cons x ws ih =>
    obtain ⟨hx, hws⟩ := List.nodup_cons.1 h
    rw [insertNew]
    split
    · exact h
    · next hne =>
      refine List.nodup_cons.2 ⟨fun hmem => ?_, ih hws⟩
      rcases mem_insertNew.1 hmem with rfl | hmem
      · exact hne ((compare_eq_iff x x).2 rfl)
      · exact hx hmem

theorem mem_foldl_insertSorted :
    w ∈ vs.foldl (fun s v => insertSorted v s) ws ↔ w ∈ vs ∨ w ∈ ws := by
  induction vs generalizing ws with
  | nil => simp
  | cons v vs ih =>
    rw [List.foldl_cons, ih, mem_insertSorted, List.mem_cons]
    exact or_left_comm.trans or_assoc.symm

theorem mem_sortSet : w ∈ sortSet vs ↔ w ∈ vs := by
  rw [sortSet, mem_foldl_insertSorted]
  simp

theorem pairwise_foldl_insertSorted (h : ws.Pairwise Before) :
    (vs.foldl (fun s v => insertSorted v s) ws).Pairwise Before := by
  induction vs generalizing ws with
  | nil => exact h
  | cons v vs ih => exact ih (pairwise_insertSorted h)

theorem pairwise_sortSet (vs : List Value) : (sortSet vs).Pairwise Before :=
  pairwise_foldl_insertSorted .nil

theorem nodup_of_pairwise (h : vs.Pairwise Before) : vs.Nodup := h.imp fun h => h.ne

/-- Sorted lists of the same values are the same. -/
theorem eq_of_mem_iff (hvs : vs.Pairwise Before) (hws : ws.Pairwise Before)
    (h : ∀ v, v ∈ vs ↔ v ∈ ws) : vs = ws := by
  have hperm : vs.Perm ws :=
    (List.perm_ext_iff_of_nodup (nodup_of_pairwise hvs) (nodup_of_pairwise hws)).2 h
  exact hperm.eq_of_pairwise (fun _ _ _ _ h h' => absurd h' h.asymm) hvs hws

/-! ## Entries, one for each key -/

/-- The value of the first entry of a key. -/
def valueOf (k : Value) (es : List (Value × Value)) : Option Value :=
  (es.find? (·.1 = k)).map (·.2)

/-- The value of the last entry of a key. -/
def lastValueOf (k : Value) (es : List (Value × Value)) : Option Value := valueOf k es.reverse

theorem valueOf_nil : valueOf k [] = none := rfl

theorem valueOf_cons : valueOf k ((l, v) :: es) = if l = k then some v else valueOf k es := by
  rw [valueOf, List.find?_cons]
  by_cases h : l = k
  · simp [h]
  · simp [h, valueOf]

theorem valueOf_append : valueOf k (es ++ fs) = (valueOf k es).or (valueOf k fs) := by
  rw [valueOf, List.find?_append, Option.map_or]
  rfl

/-- The first of some entries counts only if no other one has its key. -/
theorem lastValueOf_cons_or (o : Option Value) : (lastValueOf k ((l, v) :: es)).or o =
    (lastValueOf k es).or (if l = k then some v else o) := by
  rw [lastValueOf, List.reverse_cons, valueOf_append, valueOf_cons, valueOf_nil, Option.or_assoc]
  congr 1
  split
  · rfl
  · rfl

/-- The last entry of a key is one among the entries of that key. -/
theorem lastValueOf_congr (h : es.filter (·.1 = k) = fs.filter (·.1 = k)) :
    lastValueOf k es = lastValueOf k fs := by
  simp only [lastValueOf, valueOf, ← List.head?_filter, List.filter_reverse, h]

theorem keys_insertEntrySorted :
    (insertEntrySorted k v es).map (·.1) = insertSorted k (es.map (·.1)) := by
  induction es with
  | nil => rfl
  | cons e es ih =>
    obtain ⟨l, w⟩ := e
    rw [insertEntrySorted, List.map_cons, insertSorted]
    cases k.compare l with
    | lt | eq => rfl
    | gt => rw [List.map_cons, ih]

theorem keys_insertEntryNew :
    (insertEntryNew k v es).map (·.1) = insertNew k (es.map (·.1)) := by
  induction es with
  | nil => rfl
  | cons e es ih =>
    obtain ⟨l, w⟩ := e
    rw [insertEntryNew, List.map_cons, insertNew]
    split
    · rfl
    · rw [List.map_cons, ih]

theorem pairwise_keys_insertEntrySorted (h : (es.map (·.1)).Pairwise Before) :
    ((insertEntrySorted k v es).map (·.1)).Pairwise Before := by
  rw [keys_insertEntrySorted]
  exact pairwise_insertSorted h

theorem nodup_keys_insertEntryNew (h : (es.map (·.1)).Nodup) :
    ((insertEntryNew k v es).map (·.1)).Nodup := by
  rw [keys_insertEntryNew]
  exact nodup_insertNew h

/-- Another value in place of that of the first entry is a new value for its key. -/
theorem valueOf_replaced :
    valueOf l ((k, v) :: es) = if k = l then some v else valueOf l ((k, w) :: es) := by
  rw [valueOf_cons, valueOf_cons]
  split
  · rfl
  · rfl

/-- A new value for a key behind an entry of another one. -/
theorem valueOf_behind {m : Value} (hm : k ≠ m)
    (h : valueOf l fs = if k = l then some v else valueOf l es) :
    valueOf l ((m, w) :: fs) = if k = l then some v else valueOf l ((m, w) :: es) := by
  rw [valueOf_cons, valueOf_cons, h]
  by_cases hl : m = l
  · subst hl
    rw [if_pos rfl, if_pos rfl, if_neg hm]
  · rw [if_neg hl, if_neg hl]

theorem valueOf_insertEntrySorted :
    valueOf l (insertEntrySorted k v es) = if k = l then some v else valueOf l es := by
  induction es with
  | nil => exact valueOf_cons
  | cons e es ih =>
    obtain ⟨m, w⟩ := e
    rw [insertEntrySorted]
    cases hm : k.compare m with
    | lt => exact valueOf_cons
    | eq =>
      obtain rfl := (compare_eq_iff k m).1 hm
      exact valueOf_replaced
    | gt => exact valueOf_behind (before_of_compare_gt hm).ne.symm ih

theorem valueOf_insertEntryNew :
    valueOf l (insertEntryNew k v es) = if k = l then some v else valueOf l es := by
  induction es with
  | nil => exact valueOf_cons
  | cons e es ih =>
    obtain ⟨m, w⟩ := e
    rw [insertEntryNew]
    split
    · next hm =>
      obtain rfl := (compare_eq_iff k m).1 hm
      exact valueOf_replaced
    · next hm => exact valueOf_behind (fun h => hm ((compare_eq_iff k m).2 h)) ih

theorem valueOf_foldl : valueOf k (es.foldl (fun m e => insertEntrySorted e.1 e.2 m) fs) =
    (lastValueOf k es).or (valueOf k fs) := by
  induction es generalizing fs with
  | nil => rfl
  | cons e es ih => rw [List.foldl_cons, ih, valueOf_insertEntrySorted, ← lastValueOf_cons_or]

theorem pairwise_keys_foldl (h : (fs.map (·.1)).Pairwise Before) :
    ((es.foldl (fun m e => insertEntrySorted e.1 e.2 m) fs).map (·.1)).Pairwise Before := by
  induction es generalizing fs with
  | nil => exact h
  | cons e es ih => exact ih (pairwise_keys_insertEntrySorted h)

theorem pairwise_keys_sortMap (es : List (Value × Value)) :
    ((sortMap es).map (·.1)).Pairwise Before := pairwise_keys_foldl .nil

/-- Where no key occurs twice, every entry is the first one of its key. -/
theorem mem_iff_valueOf (h : (es.map (·.1)).Nodup) : (k, v) ∈ es ↔ valueOf k es = some v := by
  induction es with
  | nil => simp [valueOf_nil]
  | cons e es ih =>
    obtain ⟨l, w⟩ := e
    obtain ⟨hl, hes⟩ := List.nodup_cons.1 h
    rw [valueOf_cons, List.mem_cons, ih hes]
    by_cases hk : l = k
    · subst hk
      have hnone : valueOf l es ≠ some v := fun hv =>
        hl (List.mem_map.2 ⟨(l, v), (ih hes).2 hv, rfl⟩)
      simp [hnone, eq_comm]
    · simp [hk, Ne.symm hk]

theorem valueOf_sortMap (h : (es.map (·.1)).Nodup) : valueOf k (sortMap es) = valueOf k es := by
  have hreverse : (es.reverse.map (·.1)).Nodup := by
    rw [List.map_reverse]
    exact List.nodup_reverse.2 h
  rw [sortMap, valueOf_foldl, valueOf_nil, Option.or_none]
  ext v
  rw [lastValueOf, ← mem_iff_valueOf hreverse, List.mem_reverse, mem_iff_valueOf h]

/-- Sorted lists of entries with the same value for each key are the same. -/
theorem eq_of_valueOf_eq (hes : (es.map (·.1)).Pairwise Before)
    (hfs : (fs.map (·.1)).Pairwise Before) (h : ∀ k, valueOf k es = valueOf k fs) : es = fs := by
  have hperm : es.Perm fs := by
    refine (List.perm_ext_iff_of_nodup (nodup_of_pairwise hes).of_map
      (nodup_of_pairwise hfs).of_map).2 fun e => ?_
    rw [mem_iff_valueOf (nodup_of_pairwise hes), mem_iff_valueOf (nodup_of_pairwise hfs), h]
  exact hperm.eq_of_pairwise (fun _ _ _ _ h h' => absurd h' h.asymm) (List.pairwise_map.1 hes)
    (List.pairwise_map.1 hfs)

end Value

/-! ## Containers -/

namespace Container

open Value

/-- A set that holds these values, each once: sorted, or in order of arrival. -/
inductive SetOf : Container → List Value → Prop where
  | sorted {vs : List Value} : vs.Pairwise Before → SetOf (.sortedSet vs) vs
  | hashed {vs : List Value} : vs.Nodup → SetOf (.hashedSet vs) vs

/-- A map that holds these entries, one for each key: sorted, or in order of arrival. -/
inductive MapOf : Container → List (Value × Value) → Prop where
  | sorted {es : List (Value × Value)} : (es.map (·.1)).Pairwise Before →
      MapOf (.sortedMap es) es
  | hashed {es : List (Value × Value)} : (es.map (·.1)).Nodup → MapOf (.hashedMap es) es

variable {c : Container} {vs ws : List Value} {es : List (Value × Value)}

theorem SetOf.nodup (h : c.SetOf vs) : vs.Nodup := by
  cases h with
  | sorted h => exact nodup_of_pairwise h
  | hashed h => exact h

theorem MapOf.nodup_keys (h : c.MapOf es) : (es.map (·.1)).Nodup := by
  cases h with
  | sorted h => exact nodup_of_pairwise h
  | hashed h => exact h

/-- A set takes up an item. -/
theorem SetOf.add (h : c.SetOf vs) (v : Value) :
    ∃ ws, (c.add v).SetOf ws ∧ ∀ w, w ∈ ws ↔ w ∈ vs ∨ w = v := by
  cases h with
  | sorted h => exact ⟨_, .sorted (pairwise_insertSorted h), fun w => mem_insertSorted.trans or_comm⟩
  | hashed h => exact ⟨_, .hashed (nodup_insertNew h), fun w => mem_insertNew.trans or_comm⟩

/-- A set that takes up items holds what it held and these items. -/
theorem SetOf.addAll (h : c.SetOf vs) (items : List Value) :
    ∃ ws, (c.addAll items).SetOf ws ∧ ∀ w, w ∈ ws ↔ w ∈ vs ∨ w ∈ items := by
  induction items generalizing c vs with
  | nil => exact ⟨vs, h, by simp⟩
  | cons v items ih =>
    obtain ⟨ws, hws, hmem⟩ := h.add v
    obtain ⟨xs, hxs, hall⟩ := ih hws
    refine ⟨xs, hxs, fun w => ?_⟩
    rw [hall, hmem, List.mem_cons, or_assoc]

/-- A finished set is the sorted list of what it holds. -/
theorem SetOf.finish (h : c.SetOf vs) :
    ∃ sorted, c.finish = .set sorted ∧ sorted.Pairwise Before ∧ ∀ v, v ∈ sorted ↔ v ∈ vs := by
  cases h with
  | sorted h => exact ⟨vs, rfl, h, fun _ => Iff.rfl⟩
  | hashed h => exact ⟨sortSet vs, rfl, pairwise_sortSet vs, fun _ => mem_sortSet⟩

/-- A map takes up an item. -/
theorem MapOf.add (h : c.MapOf es) (v : Value) : ∃ fs, (c.add v).MapOf fs ∧
    ∀ k, valueOf k fs = if (entryOf v).1 = k then some (entryOf v).2 else valueOf k es := by
  cases h with
  | sorted h =>
    exact ⟨_, .sorted (pairwise_keys_insertEntrySorted h), fun k => valueOf_insertEntrySorted⟩
  | hashed h => exact ⟨_, .hashed (nodup_keys_insertEntryNew h), fun k => valueOf_insertEntryNew⟩

/-- A map that takes up items holds the last one for each key, or what it held for it. -/
theorem MapOf.addAll (h : c.MapOf es) (items : List Value) :
    ∃ fs, (c.addAll items).MapOf fs ∧
      ∀ k, valueOf k fs = (lastValueOf k (items.map entryOf)).or (valueOf k es) := by
  induction items generalizing c es with
  | nil => exact ⟨es, h, fun _ => rfl⟩
  | cons v items ih =>
    obtain ⟨fs, hfs, hadd⟩ := h.add v
    obtain ⟨gs, hgs, hall⟩ := ih hfs
    refine ⟨gs, hgs, fun k => ?_⟩
    rw [hall, hadd, List.map_cons, lastValueOf_cons_or]

/-- A finished map is the sorted list of what it holds. -/
theorem MapOf.finish (h : c.MapOf es) : ∃ sorted, c.finish = .map sorted ∧
    (sorted.map (·.1)).Pairwise Before ∧ ∀ k, valueOf k sorted = valueOf k es := by
  cases h with
  | sorted h => exact ⟨es, rfl, h, fun _ => rfl⟩
  | hashed h => exact ⟨sortMap es, rfl, pairwise_keys_sortMap es, fun _ => valueOf_sortMap h⟩

end Container

end Phrase
