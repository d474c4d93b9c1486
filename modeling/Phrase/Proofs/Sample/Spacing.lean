import Phrase.Proofs.Sample.IntegerList
import Mathlib.Data.List.DropRight

/-!
# Spaces around separators

A space next to a separator or at the end belongs to a slot, before its digits or behind them, and
changes nothing but where errors are.  There is one place where it does not: no whitespace is read
behind digits whose number is too large, so the list ends there, and the run is fatal
(`run_spaced`).
-/

namespace Phrase

/-! ## Statements -/

/-- The source with a space put in front of the unit at `k`. -/
def Source.spaced (source : Source) (k : Nat) : Source where
  encoding := source.encoding
  units := (source.units.toList.take k ++ 0x20 :: source.units.toList.drop k).toArray
  units_fit u hu := by
    rw [List.mem_toArray, List.mem_append, List.mem_cons] at hu
    rcases hu with hu | rfl | hu
    · exact source.units_fit u (Array.mem_toList_iff.1 (List.mem_of_mem_take hu))
    · cases source.encoding <;> decide
    · exact source.units_fit u (Array.mem_toList_iff.1 (List.mem_of_mem_drop hu))

/-- Findings that are the same but for where errors and nodes are. -/
structure Finding.SameButPlaces (f f' : Finding) : Prop where
  status : f'.report.status = f.report.status
  kinds : f'.report.errors.map ParseError.kind = f.report.errors.map ParseError.kind
  value : f'.value = f.value

namespace Sample.IntegerList

/-- A place in front of a separator, behind one, or at the end. -/
def BesideSeparator (source : Source) (k : Nat) : Prop :=
  source.units[k]? = some 0x2C ∨ (∃ j, k = j + 1 ∧ source.units[j]? = some 0x2C) ∨ k = source.size

/-- The number that the digits right in front of a place write. -/
def numberBefore (source : Source) (k : Nat) : Nat :=
  Radix.decimal.numeral ((source.units.toList.take k).rtakeWhile isDigit)

/-! ## Any units are read as slots -/

theorem head?_dropWhile {test : Nat → Bool} {us : List Nat} {u : Nat}
    (h : (us.dropWhile test).head? = some u) : test u = false := by
  have hnot := List.head?_dropWhile_not test us
  rw [h] at hnot
  exact hnot

theorem Slot.exists_stops (us : List Nat) :
    ∃ (i : Slot) (left : List Nat), us = i.units ++ left ∧ i.Stops left := by
  let rest := us.dropWhile isBlank
  let digits := rest.takeWhile isDigit
  have hrest : ∀ u, rest.head? = some u → isBlank u = false := fun u => head?_dropWhile
  have hblanks : ∀ u ∈ us.takeWhile isBlank, isBlank u = true := fun u => List.mem_takeWhile_imp
  have hdigits : ∀ u ∈ digits, isDigit u = true := fun u => List.mem_takeWhile_imp
  have hus : us = us.takeWhile isBlank ++ (digits ++ rest.dropWhile isDigit) := by
    rw [List.takeWhile_append_dropWhile, List.takeWhile_append_dropWhile]
  cases hnumber : number? digits with
  | none =>
    refine ⟨⟨_, digits, [], hblanks, hdigits, (fun _ h => nomatch h), fun _ => rfl⟩,
      rest.dropWhile isDigit, ?_, fun _ u => head?_dropWhile, fun h => ?_⟩
    · rw [units, List.append_nil, List.append_assoc]
      exact hus
    · rw [hnumber] at h
      cases h
  | some n =>
    let behind := (rest.dropWhile isDigit).takeWhile isBlank
    have hbehind : rest.dropWhile isDigit = behind ++ (rest.dropWhile isDigit).dropWhile isBlank :=
      List.takeWhile_append_dropWhile.symm
    have hnil : digits = [] ∨ behind = [] → behind = [] := by
      rintro (h | h)
      · have hleft : rest.dropWhile isDigit = rest := by
          have happend : digits ++ rest.dropWhile isDigit = rest := List.takeWhile_append_dropWhile
          rw [h] at happend
          exact happend
        show (rest.dropWhile isDigit).takeWhile isBlank = []
        rw [hleft]
        exact takeWhile_eq_nil_of_stops hrest
      · exact h
    refine ⟨⟨_, digits, behind, hblanks, hdigits, (fun u => List.mem_takeWhile_imp), fun h => ?_⟩,
      (rest.dropWhile isDigit).dropWhile isBlank, ?_, fun h u hu => ?_, fun _ u => head?_dropWhile⟩
    · rw [hnumber] at h
      cases h
    · rw [units, List.append_assoc, List.append_assoc, ← hbehind]
      exact hus
    · rw [hnil h, List.nil_append] at hbehind
      rw [← hbehind] at hu
      exact head?_dropWhile hu

/-- Whatever the units are, they are read as slots with something left, or nothing. -/
theorem exists_separated (us : List Nat) :
    ∃ slots left, Separated (0x2C :: us) slots left := by
  induction hn : us.length using Nat.strongRecOn generalizing us with
  | ind n ih =>
    obtain ⟨i, left, rfl, hi⟩ := Slot.exists_stops us
    by_cases hleft : left.head? = some 0x2C
    · obtain ⟨rest, rfl⟩ := List.head?_eq_some_iff.1 hleft
      obtain ⟨slots, left, h⟩ := ih rest.length (by
        rw [List.length_append, List.length_cons] at hn
        omega) rest rfl
      exact ⟨i :: slots, left, .cons hi h⟩
    · exact ⟨[i], left, .cons hi (.nil hleft)⟩

/-! ## What more units change -/

/-- What is read of units whose slots end early is read of them whatever follows; else what follows
is read behind the units of the last slot. -/
theorem Separated.append {us left : List Nat} {slots : List Slot}
    (h : Separated (0x2C :: us) slots left) :
    (∃ slots left, left ≠ [] ∧ ∀ more, Separated (0x2C :: (us ++ more)) slots (left ++ more)) ∨
    ∃ (is : List Slot) (i : Slot), 0x2C :: i.units <:+ 0x2C :: us ∧ ∀ more slots left,
      Separated (0x2C :: (i.units ++ more)) slots left →
      Separated (0x2C :: (us ++ more)) (is ++ slots) left := by
  generalize hseparator : 0x2C :: us = vs at h
  induction h generalizing us with
  | nil h =>
    rw [← hseparator] at h
    exact absurd rfl h
  | @cons i rest left slots hi h ih =>
    obtain rfl := (List.cons.inj hseparator).2
    have hcons : ∀ more slots left, Separated (rest ++ more) slots left →
        (rest ++ more).head? = rest.head? →
        Separated (0x2C :: (i.units ++ rest ++ more)) (i :: slots) left := by
      intro more slots left hmore hhead
      rw [List.append_assoc]
      exact .cons (hi.of_head?_eq hhead) hmore
    cases h with
    | nil hhead =>
      cases rest with
      | nil =>
        refine .inr ⟨[], i, ?_, fun more slots left h => ?_⟩
        · simp only [List.append_nil, List.suffix_refl]
        · rw [List.append_nil]
          exact h
      | cons v rest =>
        exact .inl ⟨[i], v :: rest, List.cons_ne_nil _ _, fun more => hcons _ _ _ (.nil hhead) rfl⟩
    | @cons j us left slots hj h =>
      rcases ih rfl with ⟨slots, left, hleft, hmore⟩ | ⟨is, j, hsuffix, hmore⟩
      · exact .inl ⟨i :: slots, left, hleft, fun more => hcons _ _ _ (hmore more) rfl⟩
      · refine .inr ⟨i :: is, j, hsuffix.trans ?_, fun more slots left h =>
          hcons _ _ _ (hmore more slots left h) rfl⟩
        exact (List.suffix_append _ _).trans (List.suffix_cons _ _)

/-! ## Slots with one more space -/

theorem rtakeWhile_append_cons {test : Nat → Bool} {u : Nat} (hu : test u = false)
    (us vs : List Nat) : (us ++ u :: vs).rtakeWhile test = vs.rtakeWhile test := by
  induction vs using List.reverseRecOn with
  | nil => exact List.rtakeWhile_concat_neg _ _ _ (Bool.eq_false_iff.1 hu)
  | append_singleton vs v ih =>
    rw [← List.cons_append, ← List.append_assoc, List.rtakeWhile_concat, List.rtakeWhile_concat, ih]

namespace Slot

variable (i : Slot)

theorem ne_separator_of_mem {u : Nat} (hu : u ∈ i.units) : u ≠ 0x2C := by
  rintro rfl
  rcases List.mem_append.1 hu with hu | hu
  · exact absurd (i.isBlank_blanks _ hu) (by decide)
  rcases List.mem_append.1 hu with hu | hu
  · exact absurd (i.isDigit_digits _ hu) (by decide)
  · exact absurd (i.isBlank_behind _ hu) (by decide)

/-- Digits at the end of a slot are all of its digits. -/
theorem number?_rtakeWhile :
    number? (i.units.rtakeWhile isDigit) = none ↔ number? i.digits = none := by
  rcases List.eq_nil_or_concat i.behind with hbehind | ⟨behind, u, hbehind⟩
  · have hdigits : i.units.rtakeWhile isDigit = i.digits := by
      rw [units, hbehind, List.append_nil]
      rcases List.eq_nil_or_concat i.blanks with hblanks | ⟨blanks, u, hblanks⟩
      · rw [hblanks, List.nil_append, List.rtakeWhile_eq_self_iff]
        exact i.isDigit_digits
      · have hu : isBlank u = true := i.isBlank_blanks u (by simp [hblanks])
        rw [hblanks, List.concat_eq_append, List.append_assoc, List.singleton_append,
          rtakeWhile_append_cons (isDigit_of_isBlank hu), List.rtakeWhile_eq_self_iff]
        exact i.isDigit_digits
    rw [hdigits]
  · -- behind whitespace there are no digits, and the slot's number is not too large
    have hu : isBlank u = true := i.isBlank_behind u (by simp [hbehind])
    have hnil : i.units.rtakeWhile isDigit = [] := by
      rw [units, hbehind, List.concat_eq_append, ← List.append_assoc, ← List.append_assoc]
      exact List.rtakeWhile_concat_neg _ _ _ (Bool.eq_false_iff.1 (isDigit_of_isBlank hu))
    rw [hnil]
    refine iff_of_false (Option.some_ne_none _) fun h => ?_
    rw [i.behind_eq_nil h] at hbehind
    simp at hbehind

/-- The slot with a space in front of it. -/
def indented : Slot where
  blanks := 0x20 :: i.blanks
  digits := i.digits
  behind := i.behind
  isBlank_blanks := List.forall_mem_cons.2 ⟨rfl, i.isBlank_blanks⟩
  isDigit_digits := i.isDigit_digits
  isBlank_behind := i.isBlank_behind
  behind_eq_nil := i.behind_eq_nil

/-- The slot with a space behind it, if its number is not too large. -/
def extended (h : (number? i.digits).isSome) : Slot where
  blanks := i.blanks
  digits := i.digits
  behind := i.behind ++ [0x20]
  isBlank_blanks := i.isBlank_blanks
  isDigit_digits := i.isDigit_digits
  isBlank_behind := List.forall_mem_append.2 ⟨i.isBlank_behind, List.forall_mem_singleton.2 rfl⟩
  behind_eq_nil hnone := by
    rw [hnone] at h
    cases h

theorem units_extended (h : (number? i.digits).isSome) : (i.extended h).units = i.units ++ [0x20] := by
  rw [units, units, List.append_assoc, List.append_assoc]
  rfl

end Slot

theorem Separated.indented {us left : List Nat} {slots : List Slot}
    (h : Separated (0x2C :: us) slots left) :
    ∃ slots', Separated (0x2C :: 0x20 :: us) slots' left ∧
      slots'.map Slot.digits = slots.map Slot.digits := by
  cases h with
  | nil h => exact absurd rfl h
  | @cons i us left is hi h =>
    exact ⟨i.indented :: is, .cons (i := i.indented) ⟨hi.digit, hi.blank⟩ h, rfl⟩

/-- A space behind a slot in front of a separator or the end, or in front of any units if the slot
is empty. -/
theorem Slot.exists_separated_spaced (i : Slot) {back : List Nat}
    (hplace : i.units = [] ∨ ∀ u, back.head? = some u → u = 0x2C)
    (hfits : (number? i.digits).isSome) :
    ∃ slots slots' left, Separated (0x2C :: (i.units ++ back)) slots left ∧
      Separated (0x2C :: (i.units ++ 0x20 :: back)) slots' left ∧
      slots'.map Slot.digits = slots.map Slot.digits := by
  rcases hplace with hnil | hback
  · obtain ⟨slots, left, h⟩ := exists_separated back
    obtain ⟨slots', h', hdigits⟩ := h.indented
    rw [hnil]
    exact ⟨slots, slots', left, h, h', hdigits⟩
  · obtain ⟨slots, left, h⟩ : ∃ slots left, Separated back slots left := by
      cases back with
      | nil => exact ⟨[], [], .nil fun h => nomatch h⟩
      | cons u back =>
        rw [hback u rfl]
        exact exists_separated back
    have hextended := Separated.cons ((i.extended hfits).stops hback) h
    rw [units_extended, List.append_assoc] at hextended
    exact ⟨i :: slots, i.extended hfits :: slots, left, .cons (i.stops hback) h, hextended, rfl⟩

/-- A space next to a separator or at the end keeps the digits of all slots and whether something
is left, or it is behind digits whose number is too large and is left there. -/
theorem exists_separated_spaced {front back : List Nat}
    (hplace : (0x2C :: front).getLast? = some 0x2C ∨ ∀ u, back.head? = some u → u = 0x2C) :
    ∃ slots left slots' left', Separated (0x2C :: (front ++ back)) slots left ∧
      Separated (0x2C :: (front ++ 0x20 :: back)) slots' left' ∧
      if (number? (front.rtakeWhile isDigit)).isSome then
        slots'.map Slot.digits = slots.map Slot.digits ∧ (left' = [] ↔ left = [])
      else left' ≠ [] := by
  obtain ⟨slots, left, hfront⟩ := exists_separated front
  rcases hfront.append with ⟨slots, left, hleft, hmore⟩ | ⟨is, i, ⟨before, hbefore⟩, hmore⟩
  · have hne : ∀ more, left ++ more ≠ [] := fun more => List.append_ne_nil_of_left_ne_nil hleft more
    refine ⟨slots, _, slots, _, hmore back, hmore (0x20 :: back), ?_⟩
    split
    · exact ⟨rfl, iff_of_false (hne _) (hne _)⟩
    · exact hne _
  · have hdigits : front.rtakeWhile isDigit = i.units.rtakeWhile isDigit := by
      have hseparator := congrArg (List.rtakeWhile isDigit) hbefore
      rw [rtakeWhile_append_cons rfl] at hseparator
      exact (rtakeWhile_append_cons (u := 0x2C) rfl [] front).symm.trans hseparator.symm
    cases hnumber : number? i.digits with
    | none =>
      have hspace : ∀ u, (0x20 :: back).head? = some u → u = 0x20 := fun u hu =>
        (Option.some.inj hu).symm
      obtain ⟨slots, left, hslots⟩ := exists_separated (front ++ back)
      refine ⟨slots, left, _, _, hslots, hmore (0x20 :: back) [i] (0x20 :: back)
        (.cons ⟨fun _ u hu => ?_, fun h => ?_⟩ (.nil fun h => absurd (Option.some.inj h) (by decide))), ?_⟩
      · rw [hspace u hu]
        rfl
      · rw [hnumber] at h
        cases h
      · rw [hdigits, i.number?_rtakeWhile.2 hnumber]
        exact List.cons_ne_nil _ _
    | some n =>
      have hfits : (number? (front.rtakeWhile isDigit)).isSome := by
        rw [hdigits, ← Option.ne_none_iff_isSome, ne_eq, i.number?_rtakeWhile, hnumber]
        exact fun h => nomatch h
      have hslot : i.units = [] ∨ ∀ u, back.head? = some u → u = 0x2C := by
        refine hplace.imp_left fun hlast => ?_
        rw [← hbefore, List.getLast?_append, List.getLast?_cons, Option.some_or] at hlast
        cases hu : i.units.getLast? with
        | none => exact List.getLast?_eq_none_iff.1 hu
        | some u =>
          rw [hu] at hlast
          exact absurd (Option.some.inj hlast) (i.ne_separator_of_mem (List.mem_of_getLast? hu))
      obtain ⟨slots, slots', left, h, h', hsame⟩ :=
        i.exists_separated_spaced hslot (by rw [hnumber]; rfl)
      refine ⟨_, left, _, left, hmore back slots left h, hmore _ slots' left h', ?_⟩
      rw [if_pos hfits, List.map_append, List.map_append, hsame]
      exact ⟨rfl, Iff.rfl⟩

/-! ## Runs -/

/-- Runs over units with the same digits in their slots find the same but for places, if they
both leave something or both do not. -/
theorem Separated.sameButPlaces {source source' : Source} {slots slots' : List Slot}
    {left left' : List Nat} (h : Separated (0x2C :: source.units.toList) slots left)
    (h' : Separated (0x2C :: source'.units.toList) slots' left')
    (hdigits : slots'.map Slot.digits = slots.map Slot.digits) (hleft : left' = [] ↔ left = [])
    (mode : Mode) (options : Options) :
    ∃ f f', Sample.integerList.run mode source options = .ok f ∧
      Sample.integerList.run mode source' options = .ok f' ∧ f.SameButPlaces f' := by
  obtain ⟨f, hf, herrors, hstatus, hvalue⟩ := h.run mode options
  obtain ⟨f', hf', herrors', hstatus', hvalue'⟩ := h'.run mode options
  have hkinds : f'.report.errors.map ParseError.kind = f.report.errors.map ParseError.kind := by
    have htrailing : ∀ q q', (trailing q' left').map ParseError.kind =
        (trailing q left).map ParseError.kind := by
      intro q q'
      rw [trailing, trailing, if_congr hleft rfl rfl]
      split
      · rfl
      · rfl
    have hslots : (slots'.filterMap fun i => complaint? i.digits) =
        slots.filterMap fun i => complaint? i.digits := by
      have hmap := congrArg (List.filterMap complaint?) hdigits
      rw [List.filterMap_map, List.filterMap_map] at hmap
      exact hmap
    rw [herrors, herrors', List.map_append, List.map_append, map_kind_errors, map_kind_errors,
      hslots, htrailing]
  have hempty : f'.report.errors.isEmpty = f.report.errors.isEmpty := by
    rw [← List.isEmpty_map (f := ParseError.kind), hkinds, List.isEmpty_map]
  refine ⟨f, f', hf, hf', ?_, hkinds, ?_⟩
  · rw [hstatus, hstatus', Status.of, Status.of, hempty, decide_eq_decide.2 hleft]
  · have hmap := congrArg (List.map fun digits => (number? digits).getD 0) hdigits
    rw [List.map_map, List.map_map] at hmap
    rw [hvalue, hvalue', if_congr (and_congr_right fun _ => hleft) rfl rfl]
    exact congrArg (fun ns => if mode = .parse ∧ left = [] then some (toJson ns) else none) hmap

theorem number?_isSome_iff (source : Source) (k : Nat) :
    (number? ((source.units.toList.take k).rtakeWhile isDigit)).isSome ↔
      numberBefore source k < 2 ^ 64 := by
  have hdigits : ∀ u ∈ (source.units.toList.take k).rtakeWhile isDigit, isDigit u = true :=
    fun _ hu => List.mem_rtakeWhile_imp hu
  have hfits : numberBefore source k < 2 ^ 64 ↔ numberBefore source k ≤ u64.max :=
    Nat.lt_iff_le_pred (by decide)
  rw [number?, IntegerType.ofDigits?_eq (by decide) .decimal hdigits, IntegerType.fit?,
    ← numberBefore, hfits]
  split
  · next h => exact iff_of_true rfl h
  · next h => exact iff_of_false Bool.false_ne_true h

/-- A space put next to a separator or at the end changes neither the status of a run nor the value
nor the kinds of its errors, unless it comes right behind digits whose number is too large: then
the run is fatal. -/
theorem run_spaced (source : Source) (k : Nat) (hk : BesideSeparator source k) (mode : Mode)
    (options : Options) :
    ∃ f f', Sample.integerList.run mode source options = .ok f ∧
      Sample.integerList.run mode (source.spaced k) options = .ok f' ∧
      if numberBefore source k < 2 ^ 64 then f.SameButPlaces f'
      else f'.report.status = .fatalError := by
  have hplace : (0x2C :: source.units.toList.take k).getLast? = some 0x2C ∨
      ∀ u, (source.units.toList.drop k).head? = some u → u = 0x2C := by
    rw [List.head?_drop, Array.getElem?_toList]
    rcases hk with hk | ⟨j, rfl, hj⟩ | rfl
    · exact .inr fun u hu => Option.some.inj (hu.symm.trans hk)
    · rw [← Array.getElem?_toList] at hj
      rw [List.take_add_one, hj, Option.toList_some, ← List.cons_append, List.getLast?_concat]
      exact .inl rfl
    · rw [Source.size, Array.getElem?_size]
      exact .inr fun u hu => nomatch hu
  obtain ⟨slots, left, slots', left', h, h', hsame⟩ := exists_separated_spaced hplace
  rw [List.take_append_drop] at h
  replace h' : Separated (0x2C :: (source.spaced k).units.toList) slots' left' := h'
  split
  · next hlt =>
    rw [if_pos ((number?_isSome_iff source k).2 hlt)] at hsame
    exact h.sameButPlaces h' hsame.1 hsame.2 mode options
  · next hge =>
    rw [if_neg (mt (number?_isSome_iff source k).1 hge)] at hsame
    obtain ⟨f, hf, -⟩ := h.run mode options
    obtain ⟨f', hf', -, hstatus, -⟩ := h'.run mode options
    refine ⟨f, f', hf, hf', ?_⟩
    rw [hstatus, decide_eq_false hsame]
    rfl

/-- The status of a run that is evaluated. -/
theorem status_of_run {source : Source} {f : Finding} {status : Status}
    (hf : Sample.integerList.run .parse source .standard = .ok f)
    (h : (Sample.integerList.run .parse source .standard).toOption.map (·.report.status) =
      some status) : f.report.status = status := by
  rw [hf] at h
  exact Option.some.inj h

/-- A space behind the first of two items changes nothing, one behind the second item, which is too
large, makes the run fatal. -/
theorem run_spaced_items :
    let source : Source := .ofText .utf8 "7,18446744073709551616"
    BesideSeparator source 1 ∧ BesideSeparator source 22 ∧
      (∃ f f', Sample.integerList.run .parse source .standard = .ok f ∧
        Sample.integerList.run .parse (source.spaced 1) .standard = .ok f' ∧
        f.SameButPlaces f' ∧ f'.report.status = .recoveredError) ∧
      ∃ f', Sample.integerList.run .parse (source.spaced 22) .standard = .ok f' ∧
        f'.report.status = .fatalError := by
  intro source
  have hfirst : BesideSeparator source 1 := .inl (by decide +kernel)
  have hsecond : BesideSeparator source 22 := .inr (.inr (by decide +kernel))
  obtain ⟨f, f', hf, hf', hsame⟩ := run_spaced source 1 hfirst .parse .standard
  obtain ⟨_, g', _, hg', hfatal⟩ := run_spaced source 22 hsecond .parse .standard
  rw [if_pos (by decide +kernel)] at hsame
  rw [if_neg (by decide +kernel)] at hfatal
  exact ⟨hfirst, hsecond, ⟨f, f', hf, hf', hsame, status_of_run hf' (by decide +kernel)⟩,
    g', hg', hfatal⟩

/-- A number that is too large is recovered from in front of a separator, and is fatal with a space
between them. -/
theorem run_fatal_behind_overflow :
    let source : Source := .ofText .utf8 "18446744073709551616,1"
    BesideSeparator source 20 ∧
      ∃ f f', Sample.integerList.run .parse source .standard = .ok f ∧
        Sample.integerList.run .parse (source.spaced 20) .standard = .ok f' ∧
        f.report.status = .recoveredError ∧ f'.report.status = .fatalError := by
  intro source
  obtain ⟨slots, left, h⟩ := exists_separated source.units.toList
  obtain ⟨slots', left', h'⟩ := exists_separated (source.spaced 20).units.toList
  obtain ⟨f, hf, -⟩ := h.run .parse .standard
  obtain ⟨f', hf', -⟩ := h'.run .parse .standard
  exact ⟨.inl (by decide +kernel), f, f', hf, hf', status_of_run hf (by decide +kernel),
    status_of_run hf' (by decide +kernel)⟩

end Sample.IntegerList

end Phrase
