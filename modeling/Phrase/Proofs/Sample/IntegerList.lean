import Phrase.Proofs.Parse.ComparisonRule
import Phrase.Proofs.Parse.Gives
import Phrase.Proofs.Run.Faultless
import Phrase.Proofs.Sample.Encodings

/-!
# What a list of integers is read as

A list of integers is read slot by slot: whitespace, digits, and behind a number whitespace again.
A slot without digits and one whose number is too large are reported and stand for zero.  Behind
every slot there is a separator with another slot, or the list has ended; if anything is left then,
the run has failed.

`Separated` says so of units, and a run gives what it says (`Separated.run`).
-/

namespace Phrase.Sample.IntegerList

open Parse Environment

/-! ## Slots -/

/-- Whether a unit is whitespace. -/
abbrev isBlank (u : Nat) : Bool := AsciiClass.space.contains u

/-- Whether a unit is a digit. -/
abbrev isDigit (u : Nat) : Bool := (Radix.decimal.digit? u).isSome

theorem isDigit_of_isBlank {u : Nat} (h : isBlank u = true) : isDigit u = false := by
  have hblank : u = 0x20 ∨ (0x09 ≤ u ∧ u ≤ 0x0D) := of_decide_eq_true h
  have hdigit : ¬ AsciiClass.IsDigit u := by omega
  rw [isDigit, Radix.digit?.eq_def, if_neg hdigit]
  rfl

/-- The number that digits are read as; none if it is too large. -/
def number? (digits : List Nat) : Option Nat := u64.ofDigits? .decimal digits

/-- What is wrong with the digits of an item. -/
def complaint? (digits : List Nat) : Option ErrorKind :=
  if digits = [] then some (.expectedCharClass "digit.decimal")
  else if (number? digits).isNone then some .integerOverflow
  else none

/-- What the digits of an item are taken up as. -/
def valueOf (digits : List Nat) : Value :=
  if digits = [] then .default else ((number? digits).map fun n => .int n).getD .default

/-- The number that an item stands for is the one that its digits write, or else zero. -/
theorem number_valueOf (digits : List Nat) : number (valueOf digits) = (number? digits).getD 0 := by
  rw [valueOf]
  split
  · next h =>
    rw [h]
    rfl
  · cases number? digits with
    | none => rfl
    | some n => rfl

/-- What stands in front of a separator or the end, as far as it is read as an item.  Behind digits
whose number is too large no whitespace is read. -/
structure Slot where
  blanks : List Nat
  digits : List Nat
  behind : List Nat
  isBlank_blanks : ∀ u ∈ blanks, isBlank u = true
  isDigit_digits : ∀ u ∈ digits, isDigit u = true
  isBlank_behind : ∀ u ∈ behind, isBlank u = true
  behind_eq_nil : number? digits = none → behind = []

namespace Slot

variable (i : Slot)

/-- All units of a slot. -/
def units : List Nat := i.blanks ++ (i.digits ++ i.behind)

/-- How far the item of a slot is indented.  Without digits it is at the end of the slot. -/
def indent : Nat := if i.digits = [] then i.units.length else i.blanks.length

/-- What is reported of a slot that starts at `p`. -/
def error? (p : Nat) : Option ParseError :=
  (complaint? i.digits).map fun kind =>
    ⟨kind, ⟨p + i.indent, p + i.indent + i.digits.length⟩, "int-list"⟩

/-- A slot ends in front of what would not be read as a part of it. -/
structure Stops (left : List Nat) : Prop where
  digit : i.digits = [] ∨ i.behind = [] → ∀ u, left.head? = some u → isDigit u = false
  blank : (number? i.digits).isSome → ∀ u, left.head? = some u → isBlank u = false

end Slot

theorem Slot.Stops.of_head?_eq {i : Slot} {left left' : List Nat} (h : i.Stops left)
    (hhead : left'.head? = left.head?) : i.Stops left' :=
  ⟨fun hi => hhead ▸ h.digit hi, fun hi => hhead ▸ h.blank hi⟩

/-- A separator is no part of a slot, and neither is anything behind the end. -/
theorem Slot.stops (i : Slot) {left : List Nat} (h : ∀ u, left.head? = some u → u = 0x2C) :
    i.Stops left := by
  refine ⟨fun _ u hu => ?_, fun _ u hu => ?_⟩
  · rw [h u hu]
    rfl
  · rw [h u hu]
    rfl

/-- Separators with slots behind them, in front of units where no separator is. -/
inductive Separated : List Nat → List Slot → List Nat → Prop
  | nil {left : List Nat} (h : left.head? ≠ some 0x2C) : Separated left [] left
  | cons {i : Slot} {us left : List Nat} {is : List Slot} (hi : i.Stops us)
      (h : Separated us is left) : Separated (0x2C :: (i.units ++ us)) (i :: is) left

/-- What is reported of slots, the first of which starts at `p`. -/
def errors : Nat → List Slot → List ParseError
  | _, [] => []
  | p, i :: is => (i.error? p).toList ++ errors (p + i.units.length + 1) is

theorem map_kind_errors (p : Nat) (is : List Slot) :
    (errors p is).map ParseError.kind = is.filterMap fun i => complaint? i.digits := by
  induction is generalizing p with
  | nil => rfl
  | cons i is ih =>
    rw [errors, List.map_append, ih, List.filterMap_cons, Slot.error?]
    cases complaint? i.digits with
    | none => rfl
    | some kind => rfl

/-! ## Reading a slot -/

namespace Slot

variable {i : Slot} {left : List Nat}

/-- The whitespace in front of a slot's item. -/
theorem length_takeWhile_isBlank (h : i.Stops left) :
    ((i.units ++ left).takeWhile isBlank).length = i.indent := by
  rw [indent, units]
  split
  · next hdigits =>
    rw [hdigits, List.nil_append]
    refine congrArg _ (takeWhile_append_of_stops (fun u hu => ?_) (h.blank (by rw [hdigits]; rfl)))
    rcases List.mem_append.1 hu with hu | hu
    · exact i.isBlank_blanks u hu
    · exact i.isBlank_behind u hu
  · next hdigits =>
    rw [List.append_assoc]
    refine congrArg _ (takeWhile_append_of_stops i.isBlank_blanks fun u hu => ?_)
    obtain ⟨d, ds, hds⟩ := List.exists_cons_of_ne_nil hdigits
    rw [hds] at hu
    obtain rfl : d = u := Option.some.inj hu
    refine Bool.eq_false_iff.2 fun hblank => ?_
    have hdigit := i.isDigit_digits d (hds ▸ List.mem_cons_self)
    rw [isDigit_of_isBlank hblank] at hdigit
    cases hdigit

/-- The digits of a slot. -/
theorem takeWhile_isDigit (h : i.Stops left) :
    (i.digits ++ (i.behind ++ left)).takeWhile isDigit = i.digits := by
  refine takeWhile_append_of_stops i.isDigit_digits fun u hu => ?_
  cases hbehind : i.behind with
  | nil =>
    rw [hbehind] at hu
    exact h.digit (.inr hbehind) u hu
  | cons b bs =>
    rw [hbehind] at hu
    obtain rfl : b = u := Option.some.inj hu
    exact isDigit_of_isBlank (i.isBlank_behind b (hbehind ▸ List.mem_cons_self))

end Slot

section
variable {env : Environment} {scope : Scope} {n p q : Nat} {i : Slot} {us left : List Nat}
  {is : List Slot}

/-- What is left stands at the end. -/
theorem Separated.faces (h : Separated us is left) (hp : env.Faces p us) :
    env.Faces (env.stop - left.length) left := by
  induction h generalizing p with
  | nil h =>
    rw [hp.stop_eq, Nat.add_sub_cancel]
    exact hp
  | cons hi h ih => exact ih hp.tail.behind

/-- A step that passes a separator and takes up the item behind it, repeated, takes up the items of
all slots. -/
theorem Separated.gives_iterate {step : Container → Parse (ForInStep Container)}
    (hdone : ∀ p us, env.Faces p us → us.head? ≠ some 0x2C → ∀ c,
      (step c).Gives p (some (.done c)) p [])
    (hyield : ∀ p (i : Slot) us, env.Faces p (0x2C :: (i.units ++ us)) → i.Stops us → ∀ vs,
      (step (.items vs)).Gives p (some (.yield (.items (valueOf i.digits :: vs))))
        (p + 1 + i.units.length) (i.error? (p + 1)).toList)
    (h : Separated us is left) (hp : env.Faces p us) (vs : List Value) (fuel : Nat) :
    (iterate step fuel (.items vs)).Gives p
      (some (.items ((is.map fun i => valueOf i.digits).reverse ++ vs)))
      (env.stop - left.length) (errors (p + 1) is) := by
  induction h generalizing p vs fuel with
  | nil h =>
    rw [hp.stop_eq, Nat.add_sub_cancel]
    exact (hdone p _ hp h _).iterate_done fuel
  | @cons i us left is hi h ih =>
    rw [List.map_cons, List.reverse_cons, List.append_assoc]
    exact (hyield p i us hp hi vs).iterate_yield (fun fuel => ih hp.tail.behind _ fuel) fuel

theorem matchToken_comma (hp : env.Faces p us) (calls : Calls) :
    env.matchToken calls (.literal ",") p = .ok (if us.head? = some 0x2C then .ok (p + 1)
      else .error (.at p (.expectedLiteral "," 0))) :=
  congrArg Except.ok (matchLiteral_units (x := ',') hp (by decide))

variable (hwhitespace : scope.whitespace = some (.token (.charClass .space)))
  (hauto : scope.auto = true) (hname : scope.production = "int-list")
include hwhitespace hauto hname

/-- An item is read as its slot says. -/
theorem Slot.gives_item (hp : env.Faces p (i.units ++ left)) (hi : i.Stops left) (n : Nat) :
    (env.parse n item scope).Gives (p + i.indent) (some [valueOf i.digits])
      (p + i.units.length) (i.error? p).toList := by
  refine gives_parse (fun n => ?_) n
  rw [error?, complaint?, valueOf, ← hname]
  by_cases hdigits : i.digits = []
  · have hend : env.Faces (p + i.units.length) ([] ++ left) := hp.behind
    have hmissing : (env.parse n (.integer u64 .decimal) scope).Gives _ _ _ _ :=
      gives_integer_missing hend (takeWhile_eq_nil_of_stops (hi.digit (.inl hdigits))) rfl n
    rw [if_pos hdigits, if_pos hdigits, indent, if_pos hdigits, hdigits]
    exact hmissing.orDefault [.default]
  · have hstart : env.Faces (p + i.blanks.length) (i.digits ++ (i.behind ++ left)) := by
      rw [units, List.append_assoc, List.append_assoc] at hp
      exact hp.behind
    rw [if_neg hdigits, if_neg hdigits, indent, if_neg hdigits]
    cases hnumber : number? i.digits with
    | none =>
      have hoverflow : (env.parse n (.integer u64 .decimal) scope).Gives _ _ _ _ :=
        gives_integer_overflow hstart (takeWhile_isDigit hi) hdigits hnumber n
      have hend : p + i.units.length = p + i.blanks.length + i.digits.length := by
        rw [units, i.behind_eq_nil hnumber, List.append_nil, List.length_append, Nat.add_assoc]
      rw [hend]
      exact hoverflow.orDefault [.default]
    | some number =>
      have hfits : (env.parse n (.integer u64 .decimal) scope).Gives _ _ _ _ :=
        gives_integer_fits hstart (takeWhile_isDigit hi) hdigits .space hwhitespace hauto hnumber n
      have hblank : (i.behind ++ left).takeWhile isBlank = i.behind :=
        takeWhile_append_of_stops i.isBlank_behind (hi.blank (by rw [hnumber]; rfl))
      have hend : p + i.units.length =
          p + i.blanks.length + i.digits.length + i.behind.length := by
        rw [units, List.length_append, List.length_append, Nat.add_assoc, Nat.add_assoc]
      rw [hend, ← hblank]
      exact hfits.orDefault [.default]

/-- The items behind separators are read as their slots say. -/
theorem Separated.gives_items (h : Separated us is left) (hp : env.Faces p us)
    (hvalue : scope.value = .list false) (n : Nat) (vs : List Value) :
    (separatedItems (env.calls n) item (.token (.literal ",")) scope (.items vs)).Gives p
      (some (.items ((is.map fun i => valueOf i.digits).reverse ++ vs)))
      (env.stop - left.length) (errors (p + 1) is) := by
  refine h.gives_iterate (fun p us hp hhead c => ?_) (fun p i us hp hi vs => ?_) hp vs _
  · refine gives_attempt_token (matchToken_comma hp) fun n => ?_
    rw [if_neg hhead]
    exact gives_pure _ p
  · refine gives_attempt_token (matchToken_comma hp) fun m => ?_
    have hskip := gives_commitToken (t := .literal ",") (p := p) .space hwhitespace hauto hp.tail m
    have hitem := i.gives_item hwhitespace hauto hname hp.tail hi n
    have hpush : scope.value.push (.items vs) [valueOf i.digits] =
        .items (valueOf i.digits :: vs) := by
      rw [hvalue]
      rfl
    rw [i.length_takeWhile_isBlank hi] at hskip
    refine hskip.andThen ?_
    rw [← List.append_nil (i.error? (p + 1)).toList, ← hpush]
    exact hitem.bind (gives_pure _ _)

/-- A first item, and then the items behind separators. -/
theorem gives_listSep (hp : env.Faces p (i.units ++ us)) (hi : i.Stops us)
    (h : Separated us is left) (hvalue : scope.value = .list false) (n : Nat) :
    (env.parse n (.listSep item (.token (.literal ","))) scope).Gives (p + i.indent)
      (some [.list ((i :: is).map fun i => valueOf i.digits)]) (env.stop - left.length)
      (errors p (i :: is)) := by
  refine gives_parse (fun n => ?_) n
  have hitems := h.gives_items hwhitespace hauto hname hp.behind hvalue n [valueOf i.digits]
  have hstart : scope.value.push (scope.value.container scope.state) [valueOf i.digits] =
      .items [valueOf i.digits] := by
    rw [hvalue]
    rfl
  have hfinish : (Container.items ((is.map fun i => valueOf i.digits).reverse ++
      [valueOf i.digits])).finish = .list ((i :: is).map fun i => valueOf i.digits) := by
    rw [Container.finish, ← List.reverse_cons, List.reverse_reverse, List.map_cons]
  rw [parseRule, errors, ← hfinish]
  refine (i.gives_item hwhitespace hauto hname hp hi n).bind ?_
  rw [hstart, ← List.append_nil (errors _ is)]
  exact hitems.bind (gives_pure _ _)

end

/-! ## Runs -/

/-- The scope inside of the root. -/
abbrev inside (options : Options) : Scope :=
  (Scope.outer options.state options.maxDepth .discard).inside list

/-- What is left behind the last item fails the list. -/
def trailing (q : Nat) (left : List Nat) : List ParseError :=
  if left = [] then [] else [⟨.expectedCharClass "EOF", ⟨q, q⟩, "int-list"⟩]

section
variable {env : Environment} {n q : Nat} {left : List Nat}

theorem gives_eof (hq : env.Faces q left) (options : Options) (n : Nat) :
    (env.parse n (.token .eof) (inside options)).Gives q (if left = [] then some [] else none) q
      (trailing q left) := by
  refine gives_parse (fun n => ?_) n
  have hmatch : env.matchToken (env.calls n) .eof q =
      .ok (if left = [] then .ok q else .error (.at q (.expectedCharClass "EOF"))) :=
    congrArg Except.ok (matchEof_units hq)
  rw [trailing]
  by_cases hleft : left = []
  · subst hleft
    exact (gives_expectToken hmatch).andThen (gives_commitToken .space rfl rfl hq n)
  · rw [if_neg hleft] at hmatch
    rw [if_neg hleft, if_neg hleft]
    exact (gives_expectToken_none hmatch (Nat.le_refl q)
      (hq.stop_eq ▸ Nat.le_add_right _ _)).bind_none

/-- The rule of the list, up to the end. -/
theorem gives_rule {p : Nat} {i : Slot} {us : List Nat} {is : List Slot} (hi : i.Stops us)
    (h : Separated us is left) (hp : env.Faces p (i.units ++ us)) (options : Options) (n : Nat) :
    (env.parse n list.rule (inside options)).Gives p
      (if left = [] then some [.list ((i :: is).map fun i => valueOf i.digits)] else none)
      (env.stop - left.length) (errors p (i :: is) ++ trailing (env.stop - left.length) left) := by
  have hblanks : ∀ n, (env.parse n .scopeWhitespace (inside options)).Gives p (some [])
      (p + i.indent) [] := by
    refine gives_parse fun n => ?_
    rw [← i.length_takeWhile_isBlank hi]
    exact (gives_skipScopeWhitespace .space rfl hp n).andThen (gives_pure [] _)
  have hitems : ∀ n, (env.parse n _ (inside options)).Gives _ _ _ _ :=
    gives_listSep rfl rfl rfl hp hi h rfl
  have heof := gives_eof (h.faces hp.behind) options
  have hgives := gives_seq hblanks (gives_seq hitems heof) n
  rw [apply_ite (Option.map _), apply_ite (Option.map _)] at hgives
  exact hgives

/-- The root is read as if there were a separator in front of the first item. -/
theorem Separated.gives_root {us : List Nat} {slots : List Slot}
    (h : Separated (0x2C :: us) slots left) (hp : env.Faces 0 us)
    (hroot : env.grammar.production 0 = list) (options : Options) (n : Nat) :
    (env.parse n (.production 0) (.outer options.state options.maxDepth .discard)).Gives 0
      (if left = [] then some [.list (slots.map fun i => valueOf i.digits)] else none)
      (env.stop - left.length) (errors 0 slots ++ trailing (env.stop - left.length) left) := by
  cases h with
  | nil h => exact absurd rfl h
  | @cons i us left is hi h =>
    refine gives_parse (fun n => ?_) n
    have hrefuses : ¬ (Scope.outer options.state options.maxDepth .discard).Refuses := by
      show ¬ (options.maxDepth ≠ 0 ∧ options.maxDepth < 0 + 1)
      omega
    rw [parseRule, parseProduction, hroot, inProduction_of_not_refuses hrefuses]
    have hbody := (gives_rule hi h hp options n).between list.name
    by_cases hleft : left = []
    · rw [if_pos hleft] at hbody ⊢
      rw [← List.append_nil (errors 0 (i :: is) ++ _)]
      exact hbody.bind (gives_pure _ _)
    · rw [if_neg hleft] at hbody ⊢
      exact hbody.bind_none

end

/-- Running a list gives the numbers of its slots and reports what is wrong with them; it is fatal
exactly if something is left behind the last one. -/
theorem Separated.run {source : Source} {slots : List Slot} {left : List Nat}
    (h : Separated (0x2C :: source.units.toList) slots left) (mode : Mode) (options : Options) :
    ∃ f, Sample.integerList.run mode source options = .ok f ∧
      f.report.errors = errors 0 slots ++ trailing (source.size - left.length) left ∧
      f.report.status = .of (decide (left = [])) f.report.errors ∧
      f.value = if mode = .parse ∧ left = [] then
        some (toJson (slots.map fun i => (number? i.digits).getD 0)) else none := by
  obtain ⟨o, ho⟩ : ∃ o, grammar.run 0 source options = .ok o :=
    Sample.integerList.ranked.exists_run (show Sample.integerList.ranks 0 ≤ _ by decide) source
      options
  have hruns := Grammar.runs_of_run ho
  have hfaces : (grammar.environment source).Faces 0 source.units.toList := by
    refine Source.slice_eq_ok_iff.2 ⟨Nat.zero_le _, Nat.le_refl _, ?_⟩
    exact congrArg Array.toList Array.extract_size.symm
  obtain ⟨fuel, hparse⟩ := id hruns
  obtain ⟨hresult, -, herrors⟩ := h.gives_root hfaces rfl options fuel o hparse
  have hmatched : o.result.isSome = decide (left = []) := by
    rw [hresult]
    split
    · next hleft => exact (decide_eq_true hleft).symm
    · next hleft => exact (decide_eq_false hleft).symm
  have hstatus : o.report.status = .of (decide (left = [])) o.report.errors :=
    congrArg (Status.of · o.report.errors) hmatched
  cases mode with
  | validate =>
    refine ⟨⟨o.report, none, none⟩, ?_, herrors, hstatus, rfl⟩
    simp only [Sample.run, Sample.grammar, ho]
    rfl
  | parse =>
    have hvalue : (o.value.mapM (Sample.integerList.present source)).mapError Halt.fault =
        .ok (if left = [] then some (toJson (slots.map fun i => (number? i.digits).getD 0))
          else none) := by
      rw [Outcome.value, hresult]
      split
      · show Except.ok (some (toJson (numbers _))) = _
        rw [numbers, List.map_map]
        exact congrArg (fun g => Except.ok (some (toJson (slots.map g))))
          (funext fun i => number_valueOf i.digits)
      · rfl
    refine ⟨⟨o.report, _, none⟩, ?_, herrors, hstatus, (if_congr (and_iff_right rfl) rfl rfl).symm⟩
    simp only [Sample.run, Sample.grammar, ho, bind, Except.bind, hvalue]
    rfl
  | tree =>
    obtain ⟨_, hrooted⟩ := hruns.rooted
    obtain ⟨s?, hs⟩ := hrooted.exists_snapshot hruns.position_le
    refine ⟨⟨o.report, none, s?⟩, ?_, herrors, hstatus, rfl⟩
    simp only [Sample.run, Sample.grammar, ho, bind, Except.bind, hs]
    rfl

end Phrase.Sample.IntegerList
