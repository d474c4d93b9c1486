import Phrase.Proofs.Encoding.Inverse
import Phrase.Proofs.Rule.Stepwise
import Mathlib.Data.List.Induction
import Mathlib.Data.Nat.Digits.Defs

/-!
# Tokens of single units

Some tokens look at one unit after the other, whatever the encoding: a character of an ASCII
class, a literal of one ASCII character, digits, the end.  What they match is told by the units
that are left, well formed or not.  The number that digits write is the one that Mathlib's
`Nat.ofDigits` gives.  A type reads it digit by digit, and no step on the way overflows unless the
number itself does not fit (`IntegerType.ofDigits?_eq`).
-/

namespace Phrase

/-! ## Passing over units -/

section
variable {α : Type} {test : α → Bool} {xs left : List α}

theorem takeWhile_append_of_stops (hxs : ∀ x ∈ xs, test x = true)
    (hleft : ∀ x, left.head? = some x → test x = false) : (xs ++ left).takeWhile test = xs := by
  rw [List.takeWhile_append_of_pos hxs]
  cases left with
  | nil => exact List.append_nil xs
  | cons x left =>
    rw [List.takeWhile_cons, if_neg (Bool.eq_false_iff.1 (hleft x rfl)), List.append_nil]

theorem takeWhile_eq_nil_of_stops (hleft : ∀ x, left.head? = some x → test x = false) :
    left.takeWhile test = [] :=
  show ([] ++ left).takeWhile test = [] from
    takeWhile_append_of_stops (List.forall_mem_nil _) hleft

end

namespace Cursor

/-- Where to go on is told by a test of the next unit: behind that unit, if it passes. -/
def Tests (next : Cursor → Option Nat) (test : Nat → Bool) : Prop :=
  ∀ c : Cursor, next c = match c.peek with
    | some u => if test u then some (c.position + 1) else none
    | none => none

variable {c : Cursor} {next : Cursor → Option Nat} {test : Nat → Bool} {us : List Nat}

theorem Tests.eq (h : Tests next test) (hrest : c.remaining = .ok us) :
    next c = if us.head?.any test then some (c.position + 1) else none := by
  rw [h c, peek, peekAt_eq_getElem? hrest]
  cases us with
  | nil => rfl
  | cons u us => rfl

theorem Tests.passWhile (h : Tests next test) (hrest : c.remaining = .ok us) {fuel : Nat}
    (hfuel : us.length ≤ fuel) :
    c.passWhile next fuel = .ok (c.behind (us.takeWhile test).length) := by
  induction us generalizing c fuel with
  | nil =>
    cases fuel with
    | zero => rfl
    | succ fuel =>
      rw [Cursor.passWhile, h.eq hrest]
      rfl
  | cons u us ih =>
    obtain ⟨fuel, rfl⟩ := Nat.exists_eq_add_one.2 (Nat.lt_of_lt_of_le (Nat.succ_pos _) hfuel)
    rw [Cursor.passWhile, h.eq hrest, List.takeWhile_cons, List.head?_cons, Option.any_some]
    by_cases hu : test u = true
    · have hlength := length_of_remaining hrest
      rw [List.length_cons] at hlength
      rw [if_pos hu, if_pos hu]
      simp only
      rw [moveTo, if_pos (by omega)]
      refine (ih (remaining_tail hrest) (Nat.le_of_succ_le_succ hfuel)).trans ?_
      rw [behind_behind, List.length_cons, Nat.add_comm]
    · rw [if_neg hu, if_neg hu]
      rfl

/-- Moving on ends behind the units that pass the test. -/
theorem Tests.passAll (h : Tests next test) (hrest : c.remaining = .ok us) :
    c.passAll next = .ok (c.behind (us.takeWhile test).length) :=
  h.passWhile hrest (Nat.le_of_eq (length_of_remaining hrest))

end Cursor

theorem AsciiClass.tests (k : AsciiClass) : Cursor.Tests k.matchOne k.contains := fun _ => rfl

theorem Radix.tests (r : Radix) : Cursor.Tests r.matchOne fun u => (r.digit? u).isSome :=
  fun _ => rfl

/-! ## Tokens -/

section
variable {c : Cursor} {us : List Nat} (hrest : c.remaining = .ok us)
include hrest

theorem matchClass_units (k : AsciiClass) :
    matchClass k c = if us.head?.any k.contains then .ok (c.position + 1)
      else .error (.at c.position (.expectedCharClass k.name)) := by
  rw [matchClass, k.tests.eq hrest]
  cases us.head?.any k.contains with
  | true => rfl
  | false => rfl

theorem matchDigits_units (r : Radix) :
    matchDigits r c = .ok (if us.takeWhile (fun u => (r.digit? u).isSome) = [] then
        .error (.at c.position (.expectedCharClass r.className))
      else .ok (c.position + (us.takeWhile fun u => (r.digit? u).isSome).length)) := by
  rw [matchDigits, r.tests.passAll hrest, ok_bind]
  simp only [Cursor.behind, Nat.add_eq_left, List.length_eq_zero_iff]
  split
  · rfl
  · rfl

theorem matchEof_units :
    matchEof c = if us = [] then .ok c.position
      else .error (.at c.position (.expectedCharClass "EOF")) := by
  have hlength := Cursor.length_of_remaining hrest
  obtain ⟨hle, -, -⟩ := Source.slice_eq_ok_iff.1 hrest
  simp only at hle
  have hend : c.isAtEnd = decide (us = []) := by
    rw [Cursor.isAtEnd, decide_eq_decide, ← List.length_eq_zero_iff]
    omega
  rw [matchEof, hend]
  simp only [decide_eq_true_eq]

/-- A character of ASCII is one unit in every encoding. -/
theorem matchLiteral_units {x : Char} (hx : CodePoint.IsAscii x.toNat) :
    matchLiteral (String.ofList [x]) c = if us.head? = some x.toNat then .ok (c.position + 1)
      else .error (.at c.position (.expectedLiteral (String.ofList [x]) 0)) := by
  have hunits : c.source.encoding.units? x.toNat = some [x.toNat] := by
    have hcan : c.source.encoding.CanEncode x.toNat := by
      cases c.source.encoding with
      | ascii => exact hx
      | utf8 | utf16 | utf32 => exact CodePoint.isScalar_toNat x
    rw [Encoding.units?_of_canEncode hcan, Encoding.charUnits_of_ascii _ hx]
  rw [matchLiteral, Cursor.ahead_eq_take hrest]
  simp only [String.toList_ofList]
  rw [compareChars_take (Nat.le_refl _), compareChars, hunits]
  cases us with
  | nil => rfl
  | cons u us =>
    simp only [commonLength, List.head?_cons, Option.some.injEq, List.length_singleton]
    by_cases hu : x.toNat = u
    · simp only [hu, if_true, Nat.zero_add, compareChars, Nat.add_zero]
    · have hne : ¬ u = x.toNat := fun h => hu h.symm
      simp only [if_neg hu, if_neg hne, Nat.zero_ne_one, if_false, Nat.add_zero]
      rfl

end

/-! ## Digits -/

namespace Radix

/-- A unit writes a digit: it is the character of that digit, in either case. -/
def Writes (r : Radix) (d u : Nat) : Prop :=
  d < r.base ∧ (u = (Nat.digitChar d).toNat ∨ u = (Nat.digitChar d).toUpper.toNat)

instance (r : Radix) (d u : Nat) : Decidable (r.Writes d u) :=
  inferInstanceAs (Decidable (_ ∧ _))

variable (r : Radix) {d u : Nat}

theorem base_le_sixteen : r.base ≤ 16 := by
  cases r <;> decide

/-- The characters of the digits are those of a decimal digit or a letter. -/
theorem toNat_digitChar (hd : d < 16) :
    (Nat.digitChar d).toNat = (if d < 10 then 0x30 + d else 0x57 + d) ∧
      (Nat.digitChar d).toUpper.toNat = if d < 10 then 0x30 + d else 0x37 + d := by
  revert d
  decide

/-- The digits are read as what they write, and nothing else is read as a digit. -/
theorem digit?_eq_some_iff : r.digit? u = some d ↔ r.Writes d u := by
  rw [Writes, digit?.eq_def]
  by_cases hd : d < 16
  · obtain ⟨hlower, hupper⟩ := toNat_digitChar hd
    rw [hlower, hupper]
    cases r with
    | decimal => grind [base]
    | hex => grind [base]
  · -- there is no such digit
    cases r with
    | decimal => grind [base]
    | hex => grind [base]

end Radix

/-! ## Numbers -/

/-- The number that digits write. -/
def Radix.numeral (r : Radix) (us : List Nat) : Nat :=
  Nat.ofDigits r.base (us.reverse.map fun u => (r.digit? u).getD 0)

theorem Radix.numeral_append_singleton (r : Radix) (us : List Nat) (u : Nat) :
    r.numeral (us ++ [u]) = r.numeral us * r.base + (r.digit? u).getD 0 := by
  rw [numeral, List.reverse_append, List.reverse_singleton, List.singleton_append, List.map_cons,
    Nat.ofDigits_cons, numeral, Nat.add_comm, Nat.mul_comm]

theorem Radix.numeral_of_writes {r : Radix} {ds us : List Nat} (h : List.Forall₂ r.Writes ds us) :
    r.numeral us = Nat.ofDigits r.base ds.reverse := by
  have hmap : us.map (fun u => (r.digit? u).getD 0) = ds := by
    induction h with
    | nil => rfl
    | cons hd _ ih => rw [List.map_cons, ih, (r.digit?_eq_some_iff).2 hd, Option.getD_some]
  rw [numeral, List.map_reverse, hmap]

namespace IntegerType

variable {t : IntegerType} {r : Radix} {n d : Nat}

theorem fit?_of_le (h : n ≤ t.max) : t.fit? n = some n := if_pos h

theorem fit?_of_lt (h : t.max < n) : t.fit? n = none := if_neg (Nat.not_le_of_lt h)

/-- The types of at least eight bits have every digit, and the base. -/
theorem base_le_max (ht : 8 ≤ t.bits) (r : Radix) : r.base ≤ t.max := by
  have hpow : Nat.pow 2 7 ≤ Nat.pow 2 (t.bits - 1) := Nat.pow_le_pow_right (by decide) (by omega)
  have hpow' : Nat.pow 2 8 ≤ Nat.pow 2 t.bits := Nat.pow_le_pow_right (by decide) ht
  have hseven : Nat.pow 2 7 = 128 := rfl
  have hbyte : Nat.pow 2 8 = 256 := rfl
  have hbase := r.base_le_sixteen
  rw [max]
  split
  · omega
  · omega

example : ∀ named ∈ IntegerType.named, 8 ≤ named.2.bits := by decide

/-- A step of the computation overflows only if its result does not fit: if the product does not
fit, neither does the sum. -/
theorem pushDigit?_eq (hbase : r.base ≤ t.max) (hd : d < r.base) :
    t.pushDigit? r n d = t.fit? (n * r.base + d) := by
  have hdigit : d ≤ t.max := by omega
  rw [pushDigit?, fit?_of_le hbase, fit?_of_le hdigit]
  show (t.fit? (n * r.base)).bind (fun product => t.fit? (product + d)) = _
  by_cases hproduct : n * r.base ≤ t.max
  · rw [fit?_of_le hproduct, Option.bind_some]
  · rw [fit?_of_lt (by omega), fit?_of_lt (by omega)]
    rfl

/-- Digits are read as the number that they write, if that fits. -/
theorem ofDigits?_eq (ht : 8 ≤ t.bits) (r : Radix) {us : List Nat}
    (hus : ∀ u ∈ us, (r.digit? u).isSome) : t.ofDigits? r us = t.fit? (r.numeral us) := by
  induction us using List.reverseRecOn with
  | nil => exact (fit?_of_le (Nat.zero_le _)).symm
  | append_singleton us u ih =>
    replace ih := ih fun v hv => hus v (List.mem_append_left _ hv)
    obtain ⟨d, hd⟩ := Option.isSome_iff_exists.1 (hus u (List.mem_append_right _ List.mem_cons_self))
    have hpush := pushDigit?_eq (n := r.numeral us) (base_le_max ht r)
      ((r.digit?_eq_some_iff).1 hd).1
    rw [ofDigits?] at ih ⊢
    rw [List.foldlM_append, ih, r.numeral_append_singleton, hd, Option.getD_some]
    by_cases hfits : r.numeral us ≤ t.max
    · rw [fit?_of_le hfits]
      show ((r.digit? u).bind (t.pushDigit? r (r.numeral us))).bind some = _
      rw [hd, Option.bind_some, hpush, Option.bind_fun_some]
    · -- a number that has become too large stays so
      have hbase : 1 ≤ r.base := by cases r <;> decide
      have hle := Nat.le_mul_of_pos_right (r.numeral us) hbase
      rw [fit?_of_lt (by omega), fit?_of_lt (by omega)]
      rfl

end IntegerType

end Phrase
