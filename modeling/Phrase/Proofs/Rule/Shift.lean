import Phrase.Proofs.Encoding.Inverse
import Phrase.Proofs.Rule.Extent
import Phrase.Proofs.Value.Shift
import Phrase.Symbol.Table

/-!
# Tokens at another place

Two cursors in sources of one encoding that have the same units left, one of them `d` units
further on, look the same from there (`Cursor.Moved`): they see and decode the same, and a token
that matches at one of them matches `d` units further on at the other, whatever stands in front of
the cursors and behind their ends (`Token.matchUnits?_moved`).
-/

namespace Phrase

namespace Cursor

/-- The second cursor has the same units left, `d` places further on. -/
structure Moved (d : Nat) (c c' : Cursor) : Prop where
  encoding : c'.source.encoding = c.source.encoding
  position : c'.position = c.position + d
  remaining : ∃ us, c.remaining = .ok us ∧ c'.remaining = .ok us

namespace Moved

variable {d q r : Nat} {c c' : Cursor} (h : Moved d c c')
include h

theorem le_stop : c.position ≤ c.stop := by
  obtain ⟨us, hus, -⟩ := h.remaining
  exact (Source.slice_eq_ok_iff.1 hus).1

theorem stop : c'.stop = c.stop + d := by
  obtain ⟨us, hus, hus'⟩ := h.remaining
  have hle := (Source.slice_eq_ok_iff.1 hus').1
  have hlength := length_of_remaining hus
  have hlength' := length_of_remaining hus'
  have := h.position
  have := h.le_stop
  simp only at hle
  omega

/-- Between two places the units are the same. -/
theorem slice (hq : c.position ≤ q) (hqr : q ≤ r) (hr : r ≤ c.stop) :
    ∃ us, c.source.slice ⟨q, r⟩ = .ok us ∧ c'.source.slice ⟨q + d, r + d⟩ = .ok us := by
  obtain ⟨us, hus, hus'⟩ := h.remaining
  have hstop := h.stop
  have hposition := h.position
  obtain ⟨-, hsize, rfl⟩ := Source.slice_eq_ok_iff.1 hus
  obtain ⟨-, hsize', heq⟩ := Source.slice_eq_ok_iff.1 hus'
  simp only at hsize hsize'
  have hpart : ∀ c : Cursor, ∀ s t, c.position ≤ s → t ≤ c.stop →
      (c.source.units.extract s t).toList =
        (((c.source.units.extract c.position c.stop).toList.drop (s - c.position)).take (t - s)) := by
    intro c s t hs ht
    rw [extract_eq, extract_eq, List.drop_take, List.take_take, List.drop_drop]
    congr 1
    · omega
    · congr 1
      omega
  refine ⟨_, Source.slice_eq_ok_iff.2 ⟨hqr, by simp only; omega, rfl⟩,
    Source.slice_eq_ok_iff.2 ⟨by simp only; omega, by simp only; omega, ?_⟩⟩
  simp only at heq ⊢
  rw [hpart c q r hq hr, hpart c' (q + d) (r + d) (by omega) (by omega), heq, hposition,
    Nat.add_sub_add_right, Nat.add_sub_add_right]

/-- The cursors further on, with less to read. -/
theorem part (hq : c.position ≤ q) (hqr : q ≤ r) (hr : r ≤ c.stop) :
    Moved d ⟨c.source, q, r⟩ ⟨c'.source, q + d, r + d⟩ :=
  ⟨h.encoding, rfl, h.slice hq hqr hr⟩

theorem ahead (n : Nat) : c'.ahead n = c.ahead n := by
  obtain ⟨us, hus, hus'⟩ := h.remaining
  rw [ahead_eq_take hus, ahead_eq_take hus']

theorem peekAt (n : Nat) : c'.peekAt n = c.peekAt n := by
  obtain ⟨us, hus, hus'⟩ := h.remaining
  rw [peekAt_eq_getElem? hus, peekAt_eq_getElem? hus']

theorem peek : c'.peek = c.peek := h.peekAt 0

theorem decode : c'.decode = c.decode := by
  rw [Cursor.decode, Cursor.decode, h.encoding, h.ahead]

theorem isAtEnd : c'.isAtEnd = c.isAtEnd := by
  have hstop := h.stop
  have hposition := h.position
  exact decide_eq_decide.2 (by omega)

end Moved

/-- What finds a place behind a cursor and finds it moved with the cursor. -/
def Follows (next : Cursor → Option Nat) : Prop :=
  ∀ d c c', Moved d c c' → next c' = (next c).map (· + d)

theorem Moved.passAll {d : Nat} {c c' : Cursor} {next : Cursor → Option Nat}
    (h : Moved d c c') (hnext : Advances next) (hfollows : Follows next) :
    ∃ q, c.passAll next = .ok { c with position := q } ∧
      c'.passAll next = .ok { c' with position := q + d } ∧ c.position ≤ q ∧ q ≤ c.stop := by
  suffices hwhile : ∀ fuel, ∃ q, c.passWhile next fuel = .ok { c with position := q } ∧
      c'.passWhile next fuel = .ok { c' with position := q + d } ∧ c.position ≤ q ∧ q ≤ c.stop by
    have hfuel : c'.stop - c'.position = c.stop - c.position := by
      rw [h.stop, h.position, Nat.add_sub_add_right]
    rw [Cursor.passAll, Cursor.passAll, hfuel]
    exact hwhile _
  intro fuel
  induction fuel generalizing c c' with
  | zero =>
    refine ⟨c.position, rfl, ?_, Nat.le_refl _, h.le_stop⟩
    rw [← h.position]
    rfl
  | succ fuel ih =>
    rw [passWhile, passWhile, hfollows d c c' h]
    cases hq : next c with
    | none =>
      refine ⟨c.position, rfl, ?_, Nat.le_refl _, h.le_stop⟩
      rw [← h.position]
      rfl
    | some q =>
      obtain ⟨hlt, hle⟩ := hnext c q hq
      have hpart := h.part (Nat.le_of_lt hlt) hle (Nat.le_refl _)
      rw [← h.stop] at hpart
      obtain ⟨r, hr, hr', hqr, hrs⟩ := ih hpart
      refine ⟨r, ?_, ?_, Nat.le_trans (Nat.le_of_lt hlt) hqr, hrs⟩
      · show (c.moveTo q).bind _ = _
        rw [moveTo_eq hle]
        exact hr
      · show (c'.moveTo (q + d)).bind _ = _
        rw [moveTo_eq (Nat.le_trans (Nat.add_le_add_right hle d)
          (Nat.le_of_eq h.stop.symm))]
        exact hr'

end Cursor

open Cursor

/-! ## Characters -/

theorem AsciiClass.follows (k : AsciiClass) : Follows k.matchOne := by
  intro d c c' h
  rw [matchOne, matchOne, h.peek, h.position]
  split
  · next u _ =>
    split
    · exact congrArg some (Nat.add_right_comm _ _ _)
    · rfl
  · rfl

theorem Radix.follows (r : Radix) : Follows r.matchOne := by
  intro d c c' h
  rw [matchOne, matchOne, h.peek, h.position]
  split
  · next u _ =>
    split
    · exact congrArg some (Nat.add_right_comm _ _ _)
    · rfl
  · rfl

theorem CodePointFilter.follows (f : CodePointFilter) : Follows f.matchOne := by
  intro d c c' h
  rw [matchOne, matchOne, h.decode, h.position]
  split
  · exact congrArg some (Nat.add_right_comm _ _ _)
  · rfl

theorem CharClass.follows (k : CharClass) : Follows k.matchOne := by
  cases k with
  | ascii k => exact k.follows
  | codePoint f => exact f.follows

/-! ## Tokens -/

/-- The failure that far behind. -/
def TokenFailure.shift (d : Nat) (f : TokenFailure) : TokenFailure :=
  ⟨f.stop + d, f.kind, f.range.shift d⟩

/-- The match that far behind. -/
def TokenMatch.shift (d : Nat) : TokenMatch → TokenMatch
  | .ok q => .ok (q + d)
  | .error f => .error (f.shift d)

section
variable {d : Nat} {c c' : Cursor} (h : Moved d c c')
include h

theorem matchLiteral_moved (text : String) :
    matchLiteral text c' = (matchLiteral text c).shift d := by
  unfold matchLiteral
  simp only [h.encoding, h.ahead, h.position]
  split
  · exact congrArg Except.ok (Nat.add_right_comm _ _ _)
  · rw [Nat.add_right_comm]
    rfl

theorem matchClass_moved (k : AsciiClass) : matchClass k c' = (matchClass k c).shift d := by
  unfold matchClass
  rw [k.follows d c c' h, h.position]
  cases k.matchOne c with
  | none => rfl
  | some stop => rfl

theorem matchEof_moved : matchEof c' = (matchEof c).shift d := by
  unfold matchEof
  rw [h.isAtEnd, h.position]
  split
  · rfl
  · rfl

theorem matchNewline_moved : matchNewline c' = (matchNewline c).shift d := by
  unfold matchNewline
  rw [h.peekAt, h.peekAt, h.position]
  split
  · exact congrArg Except.ok (Nat.add_right_comm _ _ _)
  · exact congrArg Except.ok (Nat.add_right_comm _ _ _)
  · rfl

theorem recover_moved (hstatus : c.decode.status ≠ .success) :
    ∃ q, c.recover c.decode = .ok { c with position := q } ∧
      c'.recover c'.decode = .ok { c' with position := q + d } := by
  have hstop := h.stop
  have hposition := h.position
  have hle := h.le_stop
  have hlength := c.decode_length_le
  rw [h.decode]
  unfold Cursor.recover
  split
  · next hs => exact absurd hs hstatus
  · exact ⟨c.position, rfl, by rw [← hposition]⟩
  · next hs =>
    have hlt : c.position < c.stop := lt_stop_of_decode (by rw [hs]; decide)
    refine ⟨c.position + 1, by rw [bump, if_pos hlt], ?_⟩
    rw [bump, if_pos (by omega), hposition, Nat.add_right_comm]
  · refine ⟨c.position + c.decode.length, moveTo_eq (by omega), ?_⟩
    rw [moveTo_eq (by omega), hposition, Nat.add_right_comm]

theorem matchCodePoint_moved (f : CodePointFilter) :
    matchCodePoint f c' = (matchCodePoint f c).map (·.shift d) := by
  unfold matchCodePoint
  rw [h.decode, h.position, h.encoding]
  simp only
  split
  · rw [Nat.add_right_comm]
    split
    · rfl
    · rfl
  · rfl
  · next hs _ =>
    obtain ⟨q, hq, hq'⟩ := recover_moved h hs
    rw [h.decode] at hq'
    rw [hq, hq']
    rfl

theorem matchIdentifier_moved (leading trailing : CharClass) :
    matchIdentifier leading trailing c' = (matchIdentifier leading trailing c).map (·.shift d) := by
  unfold matchIdentifier
  rw [leading.follows d c c' h, h.position]
  cases hq : leading.matchOne c with
  | none => rfl
  | some q =>
    obtain ⟨hlt, hle⟩ := leading.advances c q hq
    have hpart := h.part (Nat.le_of_lt hlt) hle (Nat.le_refl _)
    rw [← h.stop] at hpart
    obtain ⟨r, hr, hr', -, -⟩ := hpart.passAll trailing.advances trailing.follows
    have hle' : q + d ≤ c'.stop := by
      have := h.stop
      omega
    show (c'.moveTo (q + d)).bind _ = ((c.moveTo q).bind _).map _
    rw [moveTo_eq hle, moveTo_eq hle']
    show (Cursor.passAll trailing.matchOne { c' with position := q + d }).bind _ =
      ((Cursor.passAll trailing.matchOne { c with position := q }).bind _).map _
    rw [hr, hr']
    rfl

theorem matchDigits_moved (radix : Radix) :
    matchDigits radix c' = (matchDigits radix c).map (·.shift d) := by
  obtain ⟨q, hq, hq', -, -⟩ := h.passAll radix.advances radix.follows
  unfold matchDigits
  rw [hq, hq', h.position]
  show Except.ok (if q + d = c.position + d then _ else _) =
    Except.ok (TokenMatch.shift d (if q = c.position then _ else _))
  simp only [Nat.add_right_cancel_iff]
  split
  · rfl
  · rfl

/-- What is not made of a rule matches at the other cursor as it does at the first. -/
theorem Token.matchUnits?_moved (t : Token) :
    t.matchUnits? c' = (t.matchUnits? c).map (Option.map (TokenMatch.shift d)) := by
  cases t with
  | literal text => exact congrArg (fun m => Except.ok (some m)) (matchLiteral_moved h text)
  | charClass k => exact congrArg (fun m => Except.ok (some m)) (matchClass_moved h k)
  | codePoint f =>
    rw [matchUnits?, matchUnits?, matchCodePoint_moved h f]
    cases matchCodePoint f c <;> rfl
  | identifier leading trailing =>
    rw [matchUnits?, matchUnits?, matchIdentifier_moved h leading trailing]
    cases matchIdentifier leading trailing c <;> rfl
  | digits radix =>
    rw [matchUnits?, matchUnits?, matchDigits_moved h radix]
    cases matchDigits radix c <;> rfl
  | eof => exact congrArg (fun m => Except.ok (some m)) (matchEof_moved h)
  | newline => exact congrArg (fun m => Except.ok (some m)) (matchNewline_moved h)
  | rule r kind => rfl

/-! ## Symbols -/

theorem SymbolTable.longestKey_moved {α : Type} (t : SymbolTable α) :
    t.longestKey c' = t.longestKey c := by
  rw [longestKey, longestKey, h.encoding]
  simp only [h.ahead]

/-- A table finds the same key, and is the same table afterwards. -/
theorem SymbolTable.lookup_moved {α : Type} (t : SymbolTable α) : t.lookup c' = t.lookup c := by
  rw [lookup, lookup, h.encoding, longestKey_moved h]

end

end Phrase
