import Phrase.Proofs.Encoding.Text
import Phrase.Rule.Number

/-!
# Reading characters

A cursor that stands in front of encoded characters reads them one by one, whatever the
encoding: what looks at a single unit sees an ASCII character or a unit that is none, and what
decodes finds the next character.  What is decided by single characters so ends behind as many
characters in every encoding (`Cursor.Sees.passAll`).
-/

namespace Phrase

open Encoding

/-! ## The units in front of a cursor -/

namespace Cursor

variable {c : Cursor} {d : Char} {us rest : List Nat} {cs : List Char}

/-- The units of a character are read as that character, whatever follows them. -/
theorem decode_front (hd : c.source.encoding.CanEncode d.toNat)
    (hrest : c.remaining = .ok (c.source.encoding.charUnits d ++ rest)) :
    c.decode = ⟨.success, d.toNat, (c.source.encoding.charUnits d).length⟩ := by
  have hunits := units?_of_canEncode hd
  rw [decode, ahead_eq_take hrest, List.take_append,
    List.take_of_length_le (length_units?_le hunits), decode_append _ hunits]

/-- What is read successfully is written with the units that it was read from. -/
theorem units?_of_decode (hrest : c.remaining = .ok us) (h : c.decode.status = .success) :
    c.source.encoding.units? c.decode.value = some (us.take c.decode.length) := by
  have hunits := units_of_decode (lt_unitLimit_of_ahead _) h
  have hlength := (c.source.encoding.decode_reads (c.ahead c.source.encoding.maxUnits)).length_le
  rw [ahead_eq_take hrest, List.length_take] at hlength
  have htake : (c.ahead c.source.encoding.maxUnits).take c.decode.length =
      us.take c.decode.length := by
    rw [ahead_eq_take hrest, List.take_take, decode, ahead_eq_take hrest, Nat.min_eq_left (by omega)]
  rw [← htake]
  exact hunits

end Cursor

/-! ## What a cursor sees -/

/-- The units that are left to a cursor are those of these characters. -/
structure Cursor.Sees (c : Cursor) (cs : List Char) : Prop where
  canEncode : c.source.encoding.CanEncodeAll cs
  remaining : c.remaining = .ok (c.source.encoding.charsUnits cs)

namespace Cursor.Sees

variable {c : Cursor} {d : Char} {cs ds : List Char} {q : Nat}

theorem ahead (h : c.Sees cs) (n : Nat) :
    c.ahead n = (c.source.encoding.charsUnits cs).take n := ahead_eq_take h.remaining n

theorem valid (h : c.Sees cs) : c.Valid := by
  obtain ⟨hle, hstop, -⟩ := Source.slice_eq_ok_iff.1 h.remaining
  exact ⟨hle, hstop⟩

theorem stop_eq (h : c.Sees cs) :
    c.stop = c.position + (c.source.encoding.charsUnits cs).length := by
  have hle := h.valid.position_le
  rw [length_of_remaining h.remaining]
  omega

theorem peekAt (h : c.Sees cs) (n : Nat) :
    c.peekAt n = (c.source.encoding.charsUnits cs)[n]? := peekAt_eq_getElem? h.remaining n

theorem isAtEnd (h : c.Sees cs) : c.isAtEnd = cs.isEmpty := by
  have hstop := h.stop_eq
  rw [Cursor.isAtEnd]
  cases cs with
  | nil =>
    rw [charsUnits_nil, List.length_nil] at hstop
    rw [List.isEmpty_nil, decide_eq_true (by omega)]
  | cons d cs =>
    have hne := ne_nil_of_units? (units?_of_canEncode (canEncodeAll_cons.1 h.canEncode).1)
    have hlength := List.length_pos_iff.2 hne
    rw [charsUnits_cons, List.length_append] at hstop
    rw [List.isEmpty_cons, decide_eq_false (by omega)]

/-- Behind some of the characters the others are seen. -/
theorem moved (cs : List Char) (h : c.Sees (cs ++ ds)) :
    ({ c with position := c.position + (c.source.encoding.charsUnits cs).length } : Cursor).Sees
      ds := by
  have hstop := h.stop_eq
  have hremaining := Except.ok.inj ((remaining_eq h.valid).symm.trans h.remaining)
  rw [charsUnits_append, List.length_append] at hstop
  have hvalid : ({ c with
      position := c.position + (c.source.encoding.charsUnits cs).length } : Cursor).Valid :=
    ⟨by simp only; omega, h.valid.stop_le⟩
  refine ⟨fun x hx => h.canEncode x (List.mem_append_right _ hx), ?_⟩
  refine (remaining_eq hvalid).trans ?_
  simp only
  rw [← List.drop_drop, ← Nat.sub_sub, ← List.drop_take, hremaining, charsUnits_append,
    List.drop_left]

/-- A cursor that ends behind some of the characters sees those. -/
theorem cut (h : c.Sees (cs ++ ds)) (hq : q = c.position + (c.source.encoding.charsUnits cs).length) :
    ({ c with stop := q } : Cursor).Sees cs := by
  have hstop := h.stop_eq
  have hstop_le := h.valid.stop_le
  rw [charsUnits_append, List.length_append] at hstop
  refine ⟨fun x hx => h.canEncode x (List.mem_append_left _ hx), ?_⟩
  refine (slice_eq_ok_iff_take h.remaining (q := q) (by omega)).2 ⟨by omega, ?_⟩
  rw [hq, Nat.add_sub_cancel_left, charsUnits_append, List.take_left]

/-- The units between two places are those of the characters between them. -/
theorem slice (h : c.Sees (cs ++ ds)) :
    c.source.slice ⟨c.position, c.position + (c.source.encoding.charsUnits cs).length⟩ =
      .ok (c.source.encoding.charsUnits cs) :=
  (h.cut rfl).remaining

theorem decode_nil (h : c.Sees []) : c.decode = .atEnd := by
  rw [decode, h.ahead, charsUnits_nil, List.take_nil, Encoding.decode_nil]

theorem decode_cons (h : c.Sees (d :: ds)) :
    c.decode = ⟨.success, d.toNat, (c.source.encoding.charUnits d).length⟩ :=
  decode_front (canEncodeAll_cons.1 h.canEncode).1 h.remaining

/-- A cursor at the start of encoded characters sees them. -/
theorem ofSource {s : Source} (hcs : s.encoding.CanEncodeAll cs)
    (hunits : s.units.toList = s.encoding.charsUnits cs) : (Cursor.ofSource s).Sees cs := by
  refine ⟨hcs, Source.slice_eq_ok_iff.2 ⟨Nat.zero_le _, Nat.le_refl _, hunits.symm.trans ?_⟩⟩
  exact congrArg Array.toList Array.extract_size.symm

/-- A test of single units that only ASCII can pass is a test of the next character. -/
theorem peek_test (h : c.Sees (d :: ds)) {test : Nat → Bool}
    (htest : ∀ u, 0x80 ≤ u → test u = false) :
    ∃ u, c.peek = some u ∧ test u = test d.toNat ∧
      (test u = true → (c.source.encoding.charUnits d).length = 1) := by
  rw [peek, h.peekAt, charsUnits_cons]
  by_cases hd : CodePoint.IsAscii d.toNat
  · rw [charUnits_of_ascii _ hd]
    exact ⟨d.toNat, rfl, rfl, fun _ => rfl⟩
  · obtain ⟨u, us, hunits, hu⟩ :=
      charUnits_of_not_ascii (canEncodeAll_cons.1 h.canEncode).1 hd
    rw [hunits]
    refine ⟨u, rfl, ?_, fun htrue => ?_⟩
    · rw [htest u hu, htest d.toNat (by omega)]
    · rw [htest u hu] at htrue
      cases htrue

end Cursor.Sees

/-! ## Recognizing characters -/

/-- Where the next character ends is told exactly if it passes a test. -/
def Cursor.Recognizes (next : Cursor → Option Nat) (test : Char → Bool) : Prop :=
  ∀ c : Cursor, (c.Sees [] → next c = none) ∧ ∀ d ds, c.Sees (d :: ds) →
    next c = if test d then some (c.position + (c.source.encoding.charUnits d).length) else none

theorem AsciiClass.contains_of_le (k : AsciiClass) (u : Nat) (h : 0x80 ≤ u) :
    k.contains u = false := by
  cases k with
  | space | blank | alpha | upper | lower | digit | alnum | alphaUnderscore | alnumUnderscore
  | punct | print => simp only [contains, decide_eq_false_iff_not]; omega

theorem AsciiClass.isAscii_of_contains (k : AsciiClass) {u : Nat} (h : k.contains u = true) :
    CodePoint.IsAscii u := by
  by_contra hu
  rw [k.contains_of_le u (by omega)] at h
  cases h

namespace AsciiClass

variable {c : Char}

theorem isDigit_iff : c.isDigit ↔ IsDigit c.toNat := by
  show (decide (48 ≤ c.val) && decide (c.val ≤ 57)) = true ↔ _
  rw [Bool.and_eq_true, decide_eq_true_eq, decide_eq_true_eq]
  exact Iff.rfl

theorem isUpper_iff : c.isUpper ↔ IsUpper c.toNat := by
  show decide (65 ≤ c.val ∧ c.val ≤ 90) = true ↔ _
  rw [decide_eq_true_eq]
  exact Iff.rfl

theorem isLower_iff : c.isLower ↔ IsLower c.toNat := by
  show (decide (97 ≤ c.val) && decide (c.val ≤ 122)) = true ↔ _
  rw [Bool.and_eq_true, decide_eq_true_eq, decide_eq_true_eq]
  exact Iff.rfl

theorem isAlpha_iff : c.isAlpha ↔ IsAlpha c.toNat := by
  show (c.isUpper || c.isLower) = true ↔ _
  rw [Bool.or_eq_true, isUpper_iff, isLower_iff]
  exact or_comm

theorem isAlphanum_iff : c.isAlphanum ↔ IsAlpha c.toNat ∨ IsDigit c.toNat := by
  show (c.isAlpha || c.isDigit) = true ↔ _
  rw [Bool.or_eq_true, isAlpha_iff, isDigit_iff]

end AsciiClass

theorem Radix.digit?_of_le (r : Radix) (u : Nat) (h : 0x80 ≤ u) : r.digit? u = none := by
  rw [digit?.eq_def, if_neg (by omega)]
  cases r with
  | decimal => rfl
  | hex => simp only; rw [if_neg (by omega), if_neg (by omega)]

namespace Cursor

theorem recognizes_of_peek (test : Nat → Bool) {next : Cursor → Option Nat}
    (htest : ∀ u, 0x80 ≤ u → test u = false)
    (hnone : ∀ c : Cursor, c.peek = none → next c = none)
    (hsome : ∀ (c : Cursor) u, c.peek = some u →
      next c = if test u then some (c.position + 1) else none) :
    Recognizes next fun d => test d.toNat := by
  refine fun c => ⟨fun h => hnone c ?_, fun d ds h => ?_⟩
  · rw [peek, h.peekAt]
    rfl
  · obtain ⟨u, hpeek, heq, hlength⟩ := h.peek_test htest
    rw [hsome c u hpeek]
    by_cases htrue : test u = true
    · rw [if_pos htrue, if_pos (heq.symm.trans htrue), hlength htrue]
    · rw [if_neg htrue, if_neg fun h => htrue (heq.trans h)]

end Cursor

theorem AsciiClass.recognizes (k : AsciiClass) :
    Cursor.Recognizes k.matchOne fun d => k.contains d.toNat := by
  refine Cursor.recognizes_of_peek k.contains k.contains_of_le (fun c h => ?_) fun c u h => ?_
  · rw [matchOne, h]
  · rw [matchOne, h]

theorem Radix.recognizes (r : Radix) :
    Cursor.Recognizes r.matchOne fun d => (r.digit? d.toNat).isSome := by
  refine Cursor.recognizes_of_peek (fun u => (r.digit? u).isSome)
    (fun u hu => by rw [r.digit?_of_le u hu]; rfl) (fun c h => ?_) fun c u h => ?_
  · rw [matchOne, h]
  · rw [matchOne, h]

theorem CodePointFilter.recognizes (f : CodePointFilter) :
    Cursor.Recognizes f.matchOne fun d => f.accepts d.toNat := by
  refine fun c => ⟨fun h => ?_, fun d ds h => ?_⟩
  · rw [matchOne, h.decode_nil]
    rfl
  · rw [matchOne, h.decode_cons]
    simp only [true_and]

/-- Whether a character is in a class. -/
def CharClass.accepts : CharClass → Char → Bool
  | .ascii k, d => k.contains d.toNat
  | .codePoint f, d => f.accepts d.toNat

theorem CharClass.recognizes (k : CharClass) : Cursor.Recognizes k.matchOne k.accepts := by
  cases k with
  | ascii k => exact k.recognizes
  | codePoint f => exact f.recognizes

namespace Cursor.Sees

variable {c : Cursor} {cs : List Char} {next : Cursor → Option Nat} {test : Char → Bool}

theorem passWhile (hnext : Recognizes next test) (h : c.Sees cs) {fuel : Nat}
    (hfuel : (c.source.encoding.charsUnits cs).length ≤ fuel) :
    c.passWhile next fuel = .ok { c with
      position := c.position + (c.source.encoding.charsUnits (cs.takeWhile test)).length } := by
  induction cs generalizing c fuel with
  | nil =>
    cases fuel with
    | zero => rfl
    | succ fuel =>
      rw [Cursor.passWhile, (hnext c).1 h]
      rfl
  | cons d ds ih =>
    have hne := ne_nil_of_units? (units?_of_canEncode (canEncodeAll_cons.1 h.canEncode).1)
    have hlength := List.length_pos_iff.2 hne
    rw [charsUnits_cons, List.length_append] at hfuel
    obtain ⟨fuel, rfl⟩ := Nat.exists_eq_add_one.2 (show 0 < fuel by omega)
    rw [Cursor.passWhile, (hnext c).2 d ds h, List.takeWhile_cons]
    by_cases htest : test d = true
    · have hmoved := h.moved [d]
      rw [charsUnits_cons, charsUnits_nil, List.append_nil] at hmoved
      have hle : c.position + (c.source.encoding.charUnits d).length ≤ c.stop :=
        hmoved.valid.position_le
      rw [if_pos htest, if_pos htest]
      simp only
      rw [moveTo_eq hle]
      refine (ih hmoved (by simp only; omega)).trans ?_
      rw [charsUnits_cons, List.length_append, Nat.add_assoc]
    · rw [if_neg htest, if_neg htest]
      rfl

/-- Moving on by single characters ends behind all that pass the test. -/
theorem passAll (hnext : Recognizes next test) (h : c.Sees cs) :
    c.passAll next = .ok { c with
      position := c.position + (c.source.encoding.charsUnits (cs.takeWhile test)).length } := by
  have hstop := h.stop_eq
  exact h.passWhile hnext (by omega)

end Cursor.Sees

end Phrase
