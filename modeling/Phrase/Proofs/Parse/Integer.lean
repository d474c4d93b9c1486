import Mathlib.Data.List.Forall2
import Phrase.Proofs.Parse.Attempt
import Phrase.Proofs.Parse.Gives

/-!
# Integers are exact

An integer takes all of the digits in front of it, however many there are, and nothing else
(`Radix.Leads`).  The arithmetic of its type goes from digit to digit, and each step of it may
overflow; still what comes out is the number that all of the digits write, or an error if the type
does not have that number (`Environment.integer_exact`).
-/

namespace Phrase

/-! ## Digits in front -/

namespace Radix

/-- The units begin with exactly these digits, and go on with a unit that is none. -/
structure Leads (r : Radix) (ds us vs : List Nat) : Prop where
  writes : List.Forall₂ r.Writes ds us
  stops : ∀ u, vs.head? = some u → ∀ d, ¬ r.Writes d u

variable {r : Radix} {d u : Nat} {ds us vs : List Nat}

theorem Writes.isAscii (h : r.Writes d u) : CodePoint.IsAscii u := by
  obtain ⟨hd, hu⟩ := h
  have hsixteen := Nat.lt_of_lt_of_le hd r.base_le_sixteen
  obtain ⟨hlower, hupper⟩ := toNat_digitChar hsixteen
  rw [hlower, hupper] at hu
  by_cases hten : d < 10
  · rw [if_pos hten, if_pos hten] at hu
    omega
  · rw [if_neg hten, if_neg hten] at hu
    omega

theorem isSome_digit?_iff : (r.digit? u).isSome ↔ ∃ d, r.Writes d u := by
  simp only [Option.isSome_iff_exists, digit?_eq_some_iff]

theorem exists_leads (r : Radix) (units : List Nat) :
    ∃ ds us vs, units = us ++ vs ∧ r.Leads ds us vs := by
  induction units with
  | nil => exact ⟨[], [], [], rfl, .nil, fun u hu => by cases hu⟩
  | cons u units ih =>
    by_cases hu : ∃ d, r.Writes d u
    · obtain ⟨d, hd⟩ := hu
      obtain ⟨ds, us, vs, rfl, hwrites, hstops⟩ := ih
      exact ⟨d :: ds, u :: us, vs, rfl, .cons hd hwrites, hstops⟩
    · refine ⟨[], [], u :: units, rfl, .nil, fun v hv d hd => hu ⟨d, ?_⟩⟩
      obtain rfl : u = v := Option.some.inj hv
      exact hd

namespace Leads

variable (h : r.Leads ds us vs)
include h

theorem isSome_digit? : ∀ u ∈ us, (r.digit? u).isSome := by
  intro u hu
  obtain ⟨i, hi, rfl⟩ := List.mem_iff_getElem.1 hu
  exact isSome_digit?_iff.2 ⟨_, h.writes.get (h.writes.length_eq ▸ hi) hi⟩

/-- The digits are those that a token of digits takes. -/
theorem takeWhile_eq : (us ++ vs).takeWhile (fun u => (r.digit? u).isSome) = us := by
  refine takeWhile_append_of_stops h.isSome_digit? fun u hu => ?_
  rw [Bool.eq_false_iff, ne_eq, isSome_digit?_iff]
  rintro ⟨d, hd⟩
  exact h.stops u hu d hd

end Leads

end Radix

/-! ## The rule -/

namespace Environment

variable {env : Environment} {radix : Radix} {type : IntegerType} {p : Nat} {ds us vs : List Nat}

theorem exists_faces_leads (hp : (env.cursor p).Valid) (radix : Radix) :
    ∃ ds us vs, env.Faces p (us ++ vs) ∧ radix.Leads ds us vs := by
  obtain ⟨ds, us, vs, hunits, hleads⟩ := radix.exists_leads _
  exact ⟨ds, us, vs, (Cursor.remaining_eq hp).trans (congrArg Except.ok hunits), hleads⟩

section
variable (h : env.Faces p (us ++ vs)) (hleads : radix.Leads ds us vs)
include h hleads

/-- Where there are no digits, the rule does not apply, and parsing it reads nothing. -/
theorem integer_missing (hnil : us = []) (n : Nat) :
    env.attempt (n + 1) (.integer type radix) p = .ok none ∧
      ∀ scope, env.parse (n + 1) (.integer type radix) scope p = .ok ⟨none, p,
        [.error ⟨.expectedCharClass radix.className, ⟨p, p⟩, scope.production⟩]⟩ := by
  have hmatch := matchToken_digits h hleads.takeWhile_eq (env.calls n)
  rw [if_pos hnil] at hmatch
  have hp : p ≤ env.stop := h.stop_eq ▸ Nat.le_add_right _ _
  constructor
  · rw [attempt_succ, attemptRule, hmatch, ok_bind]
    rfl
  · intro scope
    let failure : TokenFailure := .at p (.expectedCharClass radix.className)
    have hreport := reportFailure_eq scope (show p ≤ failure.stop from Nat.le_refl p) hp
    rw [if_neg (show ¬ p < failure.stop from Nat.lt_irrefl p)] at hreport
    rw [parse_succ, parseRule]
    refine Parse.bind_of_none ?_
    rw [expectToken, Parse.bind_of_quiet (Parse.look_eq hmatch)]
    exact Parse.bind_of_some hreport

/-- Where there are digits, the rule applies, and goes on behind all of them. -/
theorem integer_commits (hne : us ≠ []) (n : Nat) :
    env.attempt (n + 1) (.integer type radix) p =
        .ok (some (env.commitInteger (env.calls n) type radix (p + us.length))) ∧
      ∀ scope, env.parse (n + 1) (.integer type radix) scope p =
        env.commitInteger (env.calls n) type radix (p + us.length) scope p := by
  have hmatch := matchToken_digits h hleads.takeWhile_eq (env.calls n)
  rw [if_neg hne] at hmatch
  constructor
  · rw [attempt_succ, attemptRule, hmatch, ok_bind]
    rfl
  · intro scope
    rw [parse_succ, parseRule]
    exact expectToken_bind _ hmatch

/-- Going on makes one token of the digits.  A number that the type has is output behind skipped
whitespace; a larger one is reported, and the parse fails behind the digits. -/
theorem commitInteger_eq (htype : 8 ≤ type.bits) (calls : Calls) (scope : Scope) :
    env.commitInteger calls type radix (p + us.length) scope p =
      if radix.numeral us ≤ type.max then
        (skipWhitespace calls scope (p + us.length)).map fun o =>
          ⟨o.result.map fun _ => [.int (radix.numeral us)], o.position,
            .token .digits ⟨p, p + us.length⟩ :: o.events⟩
      else .ok ⟨none, p + us.length, [.token .digits ⟨p, p + us.length⟩,
        .error ⟨.integerOverflow, ⟨p, p + us.length⟩, scope.production⟩]⟩ := by
  have hstop : p + us.length ≤ env.stop := by
    rw [h.stop_eq, List.length_append]
    omega
  rw [commitInteger, Parse.bind_of_quiet (m := Parse.position) rfl, h.slice,
    Parse.bind_of_quiet (Parse.lift_ok us p)]
  simp only [IntegerType.ofDigits?_eq htype radix hleads.isSome_digit?, IntegerType.fit?]
  split
  · exact finishToken_pure_eq scope .digits [.int (radix.numeral us)] hstop
  · exact refuse_eq scope .digits .integerOverflow hstop

end

/-- An integer is read exactly, whatever the encoding, wherever a cursor stands and whatever units
it reads.  There always are digits in front, all of them, if only none; and a digit is a character
of ASCII.  Without digits the rule does not apply, and parsing it reads nothing and reports what is
missing.  With digits it applies, and goes on as if it were parsed: there is one token, of all the
digits.  A number that the type has is output, unless the whitespace behind it fails; a larger one
is reported over the digits, and the parse fails behind them.  However many digits there are, and
however many of them are leading zeros, only their number counts. -/
theorem integer_exact (env : Environment) (radix : Radix) (p : Nat) (hp : (env.cursor p).Valid) :
    (∀ d u, radix.Writes d u → CodePoint.IsAscii u) ∧
    (∃ ds us vs, env.Faces p (us ++ vs) ∧ radix.Leads ds us vs) ∧
    ∀ ds us vs, env.Faces p (us ++ vs) → radix.Leads ds us vs →
      ∀ type : IntegerType, 8 ≤ type.bits → ∀ n : Nat,
        let rule : Rule := .integer type radix
        let stop := p + us.length
        let number := Nat.ofDigits radix.base ds.reverse
        (us = [] → env.attempt (n + 1) rule p = .ok none ∧
          ∀ scope, env.parse (n + 1) rule scope p = .ok ⟨none, p,
            [.error ⟨.expectedCharClass radix.className, ⟨p, p⟩, scope.production⟩]⟩) ∧
        (us ≠ [] → ∃ commit, env.attempt (n + 1) rule p = .ok (some commit) ∧
          ∀ scope, commit scope p = env.parse (n + 1) rule scope p ∧
            env.parse (n + 1) rule scope p =
              if number ≤ type.max then
                (skipWhitespace (env.calls n) scope stop).map fun o =>
                  ⟨o.result.map fun _ => [.int number], o.position,
                    .token .digits ⟨p, stop⟩ :: o.events⟩
              else .ok ⟨none, stop, [.token .digits ⟨p, stop⟩,
                .error ⟨.integerOverflow, ⟨p, stop⟩, scope.production⟩]⟩) := by
  refine ⟨fun d u hd => hd.isAscii, exists_faces_leads hp radix, ?_⟩
  intro ds us vs h hleads type htype n
  refine ⟨fun hnil => integer_missing h hleads hnil n, fun hne => ?_⟩
  obtain ⟨hattempt, hparse⟩ := integer_commits h hleads hne n
  refine ⟨_, hattempt, fun scope => ⟨(hparse scope).symm, ?_⟩⟩
  rw [hparse scope, commitInteger_eq h hleads htype, Radix.numeral_of_writes hleads.writes]

/-- The largest number that a signed byte has, behind a zero, and one more than that.  A space
stands behind the first one, and behind the other one a digit that is not one of ASCII. -/
theorem integer_exact_signed_byte :
    let env : Environment := ⟨⟨#[], #[]⟩,
      ⟨.utf16, #[0x30, 0x31, 0x32, 0x37, 0x20, 0x31, 0x32, 0x38, 0xFF11], by decide⟩, 9⟩
    let type : IntegerType := ⟨true, 8⟩
    let rule : Rule := .integer type .decimal
    8 ≤ type.bits ∧
    ((env.cursor 0).Valid ∧ env.Faces 0 [0x30, 0x31, 0x32, 0x37, 0x20, 0x31, 0x32, 0x38, 0xFF11] ∧
      Radix.decimal.Leads [0, 1, 2, 7] [0x30, 0x31, 0x32, 0x37] [0x20, 0x31, 0x32, 0x38, 0xFF11] ∧
      env.parse 4 rule .silent 0 = .ok ⟨some [.int 127], 4, [.token .digits ⟨0, 4⟩]⟩) ∧
    ((env.cursor 5).Valid ∧ env.Faces 5 [0x31, 0x32, 0x38, 0xFF11] ∧
      Radix.decimal.Leads [1, 2, 8] [0x31, 0x32, 0x38] [0xFF11] ∧
      env.parse 4 rule .silent 5 = .ok ⟨none, 8,
        [.token .digits ⟨5, 8⟩, .error ⟨.integerOverflow, ⟨5, 8⟩, ""⟩]⟩) ∧
    (env.cursor 8).Valid ∧ env.Faces 8 [0xFF11] ∧ Radix.decimal.Leads [] [] [0xFF11] ∧
      env.parse 4 rule .silent 8 =
        .ok ⟨none, 8, [.error ⟨.expectedCharClass "digit.decimal", ⟨8, 8⟩, ""⟩]⟩ := by
  intro env type rule
  have htype : 8 ≤ type.bits := Nat.le_refl 8
  have hstops : ∀ {u vs}, Radix.decimal.digit? u = none →
      ∀ v, (u :: vs).head? = some v → ∀ d, ¬ Radix.decimal.Writes d v := by
    intro u vs hnone v hv d hd
    obtain rfl : u = v := Option.some.inj hv
    rw [Radix.decimal.digit?_eq_some_iff.2 hd] at hnone
    cases hnone
  have hfirst : (env.cursor 0).Valid := ⟨by decide, by decide⟩
  have hfirst_faces : env.Faces 0
      ([0x30, 0x31, 0x32, 0x37] ++ [0x20, 0x31, 0x32, 0x38, 0xFF11]) := rfl
  have hfirst_leads : Radix.decimal.Leads [0, 1, 2, 7] [0x30, 0x31, 0x32, 0x37]
      [0x20, 0x31, 0x32, 0x38, 0xFF11] := ⟨by decide, hstops rfl⟩
  have hsecond : (env.cursor 5).Valid := ⟨by decide, by decide⟩
  have hsecond_faces : env.Faces 5 ([0x31, 0x32, 0x38] ++ [0xFF11]) := rfl
  have hsecond_leads : Radix.decimal.Leads [1, 2, 8] [0x31, 0x32, 0x38] [0xFF11] :=
    ⟨by decide, hstops rfl⟩
  have hthird : (env.cursor 8).Valid := ⟨by decide, by decide⟩
  have hthird_faces : env.Faces 8 ([] ++ [0xFF11]) := rfl
  have hthird_leads : Radix.decimal.Leads [] [] [0xFF11] := ⟨.nil, hstops rfl⟩
  obtain ⟨-, -, hexact⟩ := integer_exact env .decimal 0 hfirst
  obtain ⟨_, -, hfits⟩ :=
    (hexact _ _ _ hfirst_faces hfirst_leads type htype 3).2 (List.cons_ne_nil _ _)
  obtain ⟨-, -, hexact⟩ := integer_exact env .decimal 5 hsecond
  obtain ⟨_, -, hoverflows⟩ :=
    (hexact _ _ _ hsecond_faces hsecond_leads type htype 3).2 (List.cons_ne_nil _ _)
  obtain ⟨-, -, hexact⟩ := integer_exact env .decimal 8 hthird
  obtain ⟨-, hmissing⟩ := (hexact _ _ _ hthird_faces hthird_leads type htype 3).1 rfl
  refine ⟨htype, ⟨hfirst, hfirst_faces, hfirst_leads, ?_⟩,
    ⟨hsecond, hsecond_faces, hsecond_leads, ?_⟩, hthird, hthird_faces, hthird_leads,
    hmissing .silent⟩
  · have hnumber : Nat.ofDigits Radix.decimal.base [0, 1, 2, 7].reverse = 127 := by decide
    rw [(hfits .silent).2, hnumber, if_pos (by decide)]
    rfl
  · have hnumber : Nat.ofDigits Radix.decimal.base [1, 2, 8].reverse = 128 := by decide
    rw [(hoverflows .silent).2, hnumber, if_neg (by decide)]
    rfl

end Environment

end Phrase
