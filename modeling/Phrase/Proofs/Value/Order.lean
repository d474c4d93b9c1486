import Phrase.Value.Basic

/-!
# The order of values

`Value.compare` is a linear order, for values nested to any depth: it answers that two values are
equal for a value and itself only, it answers the opposite the other way around, and it is
transitive.  Values of different forms are told apart by their ranks, so each law has to be proved
for values of one form; lists are compared by their first difference, and their laws come from
those of the items in them.
-/

namespace Phrase.Value

/-! ## Forms -/

variable {u v w : Value}

theorem compare_of_rank_ne (h : v.rank ≠ w.rank) : v.compare w = Ord.compare v.rank w.rank := by
  cases v <;> cases w <;> first | rfl | exact absurd rfl h

theorem rank_le_of_compare (h : v.compare w = .lt) : v.rank ≤ w.rank := by
  by_cases hrank : v.rank = w.rank
  · exact Nat.le_of_eq hrank
  · rw [compare_of_rank_ne hrank, Nat.compare_eq_lt] at h
    exact Nat.le_of_lt h

/-- On the way up through three values the form changes, or all three are of one form. -/
theorem compare_lt_or_rank_eq (huv : u.compare v = .lt) (hvw : v.compare w = .lt) :
    u.compare w = .lt ∨ v.rank = u.rank ∧ w.rank = u.rank := by
  have huv := rank_le_of_compare huv
  have hvw := rank_le_of_compare hvw
  by_cases hrank : u.rank = w.rank
  · exact .inr ⟨by omega, hrank.symm⟩
  · rw [compare_of_rank_ne hrank, Nat.compare_eq_lt]
    exact .inl (by omega)

/-! ## Equality -/

mutual

/-- A value is equal to itself only. -/
theorem compare_eq_iff : ∀ v w : Value, v.compare w = .eq ↔ v = w
  | .tuple as, w | .list as, w | .set as, w => by
    cases w <;> simp [compare, rank, compareItems_eq_iff as]
  | .map as, w => by
    cases w <;> simp [compare, rank, compareEntries_eq_iff as]
  | .lexeme ⟨_, _⟩, w => by
    rcases w with _ | _ | _ | _ | _ | _ | _ | ⟨_, _⟩ | _ | _ | _ | _ <;>
      simp [compare, rank, Ordering.then_eq_eq]
  | .default, w | .unit, w | .int _, w | .pos _, w | .count _, w | .sym _, w | .str _, w => by
    cases w <;> simp [compare, rank]

theorem compareItems_eq_iff : ∀ vs ws : List Value, compareItems vs ws = .eq ↔ vs = ws
  | [], [] => ⟨fun _ => rfl, fun _ => rfl⟩
  | [], _ :: _ => ⟨(nomatch ·), (nomatch ·)⟩
  | _ :: _, [] => ⟨(nomatch ·), (nomatch ·)⟩
  | v :: vs, w :: ws => by
    rw [compareItems, Ordering.then_eq_eq, compare_eq_iff v w, compareItems_eq_iff vs ws,
      List.cons.injEq]

theorem compareEntries_eq_iff : ∀ es fs : List (Value × Value),
    compareEntries es fs = .eq ↔ es = fs
  | [], [] => ⟨fun _ => rfl, fun _ => rfl⟩
  | [], _ :: _ => ⟨(nomatch ·), (nomatch ·)⟩
  | _ :: _, [] => ⟨(nomatch ·), (nomatch ·)⟩
  | (k, v) :: es, (l, w) :: fs => by
    rw [compareEntries, Ordering.then_eq_eq, Ordering.then_eq_eq, compare_eq_iff k l,
      compare_eq_iff v w, compareEntries_eq_iff es fs, List.cons.injEq, Prod.mk.injEq]

end

/-! ## The other way around -/

mutual

/-- Compared the other way around, values are in the opposite order. -/
theorem compare_swap : ∀ v w : Value, v.compare w = (w.compare v).swap
  | .tuple as, w | .list as, w | .set as, w => by
    cases w <;> first | exact compareItems_swap as _ | rfl
  | .map as, w => by
    cases w <;> first | exact compareEntries_swap as _ | rfl
  | .lexeme a, w => by
    cases w with
    | lexeme b =>
      rw [compare, compare, Ordering.swap_then, Std.OrientedOrd.eq_swap (a := a.start),
        Std.OrientedOrd.eq_swap (a := a.stop)]
    | _ => rfl
  | .default, w | .unit, w | .int _, w | .pos _, w | .count _, w | .sym _, w | .str _, w => by
    cases w <;> exact Std.OrientedOrd.eq_swap

theorem compareItems_swap : ∀ vs ws : List Value,
    compareItems vs ws = (compareItems ws vs).swap
  | [], [] | [], _ :: _ | _ :: _, [] => rfl
  | v :: vs, w :: ws => by
    rw [compareItems, compareItems, Ordering.swap_then, ← compare_swap v w,
      ← compareItems_swap vs ws]

theorem compareEntries_swap : ∀ es fs : List (Value × Value),
    compareEntries es fs = (compareEntries fs es).swap
  | [], [] | [], _ :: _ | _ :: _, [] => rfl
  | (k, v) :: es, (l, w) :: fs => by
    rw [compareEntries, compareEntries, Ordering.swap_then, Ordering.swap_then,
      ← compare_swap k l, ← compare_swap v w, ← compareEntries_swap es fs]

end

/-! ## Transitivity -/

/-- A comparison that is refined by another one is transitive where both are. -/
theorem then_lt_trans {α : Type} {cmp : α → α → Ordering} {a b c : α} {o p q : Ordering}
    (heq : cmp a b = .eq → a = b) (heq' : cmp b c = .eq → b = c)
    (hcmp : cmp a b = .lt → cmp b c = .lt → cmp a c = .lt) (h : o = .lt → p = .lt → q = .lt)
    (hab : (cmp a b).then o = .lt) (hbc : (cmp b c).then p = .lt) : (cmp a c).then q = .lt := by
  rw [Ordering.then_eq_lt] at hab hbc ⊢
  rcases hab with hab | ⟨hab, ho⟩
  · rcases hbc with hbc | ⟨hbc, -⟩
    · exact .inl (hcmp hab hbc)
    · exact .inl (heq' hbc ▸ hab)
  · obtain rfl := heq hab
    rcases hbc with hbc | ⟨hbc, hp⟩
    · exact .inl hbc
    · exact .inr ⟨hbc, h ho hp⟩

mutual

/-- The order of values is transitive. -/
theorem compare_lt_trans : ∀ u v w : Value,
    u.compare v = .lt → v.compare w = .lt → u.compare w = .lt
  | .tuple as, v, w, huv, hvw | .list as, v, w, huv, hvw | .set as, v, w, huv, hvw => by
    rcases compare_lt_or_rank_eq huv hvw with hlt | ⟨hv, hw⟩
    · exact hlt
    · cases v <;> cases hv
      cases w <;> cases hw
      exact compareItems_lt_trans as _ _ huv hvw
  | .map as, v, w, huv, hvw => by
    rcases compare_lt_or_rank_eq huv hvw with hlt | ⟨hv, hw⟩
    · exact hlt
    · cases v <;> cases hv
      cases w <;> cases hw
      exact compareEntries_lt_trans as _ _ huv hvw
  | .lexeme a, v, w, huv, hvw => by
    rcases compare_lt_or_rank_eq huv hvw with hlt | ⟨hv, hw⟩
    · exact hlt
    · cases v <;> cases hv
      cases w <;> cases hw
      exact then_lt_trans Std.compare_eq_iff_eq.1 Std.compare_eq_iff_eq.1 Std.TransCmp.lt_trans
        Std.TransCmp.lt_trans huv hvw
  | .int _, v, w, huv, hvw | .pos _, v, w, huv, hvw | .count _, v, w, huv, hvw
  | .sym _, v, w, huv, hvw | .str _, v, w, huv, hvw => by
    rcases compare_lt_or_rank_eq huv hvw with hlt | ⟨hv, hw⟩
    · exact hlt
    · cases v <;> cases hv
      cases w <;> cases hw
      exact @Std.TransCmp.lt_trans _ Ord.compare _ _ _ _ huv hvw
  | .default, v, w, huv, hvw | .unit, v, w, huv, hvw => by
    rcases compare_lt_or_rank_eq huv hvw with hlt | ⟨hv, hw⟩
    · exact hlt
    · cases v <;> cases hv
      cases huv

theorem compareItems_lt_trans : ∀ us vs ws : List Value, compareItems us vs = .lt →
    compareItems vs ws = .lt → compareItems us ws = .lt
  | [], _ :: _, _ :: _, _, _ => rfl
  | u :: us, v :: vs, w :: ws, huv, hvw =>
    then_lt_trans (compare_eq_iff u v).1 (compare_eq_iff v w).1 (compare_lt_trans u v w)
      (compareItems_lt_trans us vs ws) huv hvw

theorem compareEntries_lt_trans : ∀ ds es fs : List (Value × Value),
    compareEntries ds es = .lt → compareEntries es fs = .lt → compareEntries ds fs = .lt
  | [], _ :: _, _ :: _, _, _ => rfl
  | (j, u) :: ds, (k, v) :: es, (l, w) :: fs, hde, hef => by
    rw [compareEntries, Ordering.then_assoc] at hde hef ⊢
    exact then_lt_trans (compare_eq_iff j k).1 (compare_eq_iff k l).1 (compare_lt_trans j k l)
      (then_lt_trans (compare_eq_iff u v).1 (compare_eq_iff v w).1 (compare_lt_trans u v w)
        (compareEntries_lt_trans ds es fs)) hde hef

end

/-! ## The order -/

instance : Std.LawfulEqCmp Value.compare where
  compare_self := (compare_eq_iff _ _).2 rfl
  eq_of_compare := (compare_eq_iff _ _).1

instance : Std.OrientedCmp Value.compare where
  eq_swap := compare_swap _ _

instance : Std.TransCmp Value.compare where
  isLE_trans {u v w} huv hvw := by
    cases hu : u.compare v with
    | gt => rw [hu] at huv; cases huv
    | eq => rwa [(compare_eq_iff u v).1 hu]
    | lt =>
      cases hv : v.compare w with
      | gt => rw [hv] at hvw; cases hvw
      | eq => rw [← (compare_eq_iff v w).1 hv, hu]; rfl
      | lt => rw [compare_lt_trans u v w hu hv]; rfl

instance : DecidableEq Value := fun v w => decidable_of_iff _ (compare_eq_iff v w)

/-- Strictly in front of the other value in the order. -/
def Before (v w : Value) : Prop := v.compare w = .lt

instance : DecidableRel Before := fun v w => inferInstanceAs (Decidable (v.compare w = .lt))

theorem Before.irrefl (v : Value) : ¬ v.Before v := by
  rw [Before, (compare_eq_iff v v).2 rfl]
  exact fun h => nomatch h

theorem Before.trans (huv : u.Before v) (hvw : v.Before w) : u.Before w :=
  compare_lt_trans u v w huv hvw

theorem Before.ne (h : v.Before w) : v ≠ w := by
  rintro rfl
  exact Before.irrefl v h

theorem Before.asymm (h : v.Before w) : ¬ w.Before v := fun h' => Before.irrefl v (h.trans h')

theorem before_of_compare_gt (h : v.compare w = .gt) : w.Before v := Std.OrientedCmp.lt_of_gt h

end Phrase.Value
