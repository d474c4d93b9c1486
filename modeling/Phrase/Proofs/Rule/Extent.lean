import Phrase.Proofs.Encoding.Extent
import Phrase.Rule.Matching

/-!
# How far tokens read

A cursor that does not stand behind its end stays in front of it, whatever is matched from
there: a token that matches ends between the position and the end, and one that does not
match has read up to a place between them, and its error lies in what it has read
(`Token.matchUnits?_within`).  No condition of a cursor is broken on the way.
-/

namespace Phrase

/-! ## Cursors -/

namespace Cursor

variable {c : Cursor}

theorem length_ahead_le (c : Cursor) (n : Nat) : (c.ahead n).length ≤ c.stop - c.position := by
  simp only [ahead, Array.length_toList, Array.size_extract]
  omega

theorem decode_length_le (c : Cursor) : c.decode.length ≤ c.stop - c.position :=
  Nat.le_trans (c.source.encoding.decode_reads _).length_le (c.length_ahead_le _)

theorem lt_stop_of_decode (h : c.decode.status ≠ .eof) : c.position < c.stop := by
  apply Nat.lt_of_not_le
  intro hle
  have hnil : c.ahead c.source.encoding.maxUnits = [] := by
    apply List.eq_nil_of_length_eq_zero
    have := c.length_ahead_le c.source.encoding.maxUnits
    omega
  apply h
  rw [decode, hnil, Encoding.decode_nil]
  rfl

theorem moveTo_eq (h : q ≤ c.stop) : c.moveTo q = .ok { c with position := q } := by
  rw [moveTo, if_pos h]

/-- Recovery stays in front of the end. -/
theorem recover_eq (hc : c.position ≤ c.stop) (h : c.decode.status ≠ .success) :
    ∃ q, c.recover c.decode = .ok { c with position := q } ∧ c.position ≤ q ∧ q ≤ c.stop := by
  have hlen := c.decode_length_le
  unfold recover
  split
  · next hs => exact absurd hs h
  · exact ⟨c.position, rfl, Nat.le_refl _, hc⟩
  · next hs =>
    have hlt : c.position < c.stop := lt_stop_of_decode (by rw [hs]; decide)
    exact ⟨c.position + 1, by rw [bump, if_pos hlt], by omega, by omega⟩
  · exact ⟨c.position + c.decode.length, moveTo_eq (by omega), by omega, by omega⟩

theorem peekAt_lt (h : c.peekAt n = some u) : c.position + n < c.stop := by
  unfold peekAt at h
  split at h
  · assumption
  · cases h

/-- A function that says where to go on, and never behind the end. -/
def Advances (next : Cursor → Option Nat) : Prop :=
  ∀ c q, next c = some q → c.position < q ∧ q ≤ c.stop

theorem passWhile_eq {next : Cursor → Option Nat} (hnext : Advances next) (fuel : Nat)
    (hc : c.position ≤ c.stop) :
    ∃ q, c.passWhile next fuel = .ok { c with position := q } ∧ c.position ≤ q ∧ q ≤ c.stop := by
  induction fuel generalizing c with
  | zero => exact ⟨c.position, rfl, Nat.le_refl _, hc⟩
  | succ fuel ih =>
    rw [passWhile]
    split
    · next q hq =>
      obtain ⟨hlt, hle⟩ := hnext c q hq
      rw [moveTo_eq hle]
      obtain ⟨r, hr, hqr, hrs⟩ := ih (c := { c with position := q }) hle
      exact ⟨r, hr, by simp only at hqr; omega, hrs⟩
    · exact ⟨c.position, rfl, Nat.le_refl _, hc⟩

theorem passAll_eq {next : Cursor → Option Nat} (hnext : Advances next)
    (hc : c.position ≤ c.stop) :
    ∃ q, c.passAll next = .ok { c with position := q } ∧ c.position ≤ q ∧ q ≤ c.stop :=
  passWhile_eq hnext _ hc

end Cursor

/-! ## Characters -/

theorem AsciiClass.advances (k : AsciiClass) : Cursor.Advances k.matchOne := by
  intro c q h
  unfold matchOne at h
  split at h
  · next u hu =>
    have := Cursor.peekAt_lt hu
    split at h
    · cases h; omega
    · cases h
  · cases h

theorem Radix.advances (r : Radix) : Cursor.Advances r.matchOne := by
  intro c q h
  unfold matchOne at h
  split at h
  · next u hu =>
    have := Cursor.peekAt_lt hu
    split at h
    · cases h; omega
    · cases h
  · cases h

theorem CodePointFilter.advances (f : CodePointFilter) : Cursor.Advances f.matchOne := by
  intro c q h
  unfold matchOne at h
  simp only at h
  split at h
  · next hd =>
    cases h
    have hlen := c.decode_length_le
    have hlt : c.position < c.stop := Cursor.lt_stop_of_decode (by rw [hd.1]; decide)
    have hpos : c.decode.length ≠ 0 := by
      intro hz
      rcases (c.source.encoding.decode_reads _).status_of_length hz with hs | hs
      · exact absurd (hd.1.symm.trans hs) (by decide)
      · exact absurd (hd.1.symm.trans hs) (by decide)
    omega
  · cases h

theorem CharClass.advances (k : CharClass) : Cursor.Advances k.matchOne := by
  cases k with
  | ascii c => exact c.advances
  | codePoint f => exact f.advances

/-! ## Tokens -/

/-- A match that ends between the positions, or a failure that has read up to there and
whose error lies in what it has read. -/
def TokenMatch.Within (p stop : Nat) : TokenMatch → Prop
  | .ok q => p ≤ q ∧ q ≤ stop
  | .error f => p ≤ f.range.start ∧ f.range.start ≤ f.range.stop ∧ f.range.stop ≤ f.stop ∧
      f.stop ≤ stop

namespace TokenMatch

theorem within_at {p stop : Nat} (h : p ≤ stop) (kind : ErrorKind) :
    Within p stop (.error (.at p kind)) :=
  ⟨Nat.le_refl p, Nat.le_refl p, Nat.le_refl p, h⟩

end TokenMatch

theorem commonLength_le (us vs : List Nat) : commonLength us vs ≤ vs.length := by
  fun_induction commonLength us vs with
  | case1 u us vs ih => rw [List.length_cons]; omega
  | case2 => exact Nat.zero_le _
  | case3 => exact Nat.zero_le _

theorem compareChars_le (e : Encoding) (cs : List Char) (units : List Nat) :
    (compareChars e cs units).2 ≤ units.length := by
  induction cs generalizing units with
  | nil => exact Nat.zero_le _
  | cons c cs ih =>
    rw [compareChars]
    split
    · exact Nat.zero_le _
    · next us _ =>
      have hn := commonLength_le us units
      have hm := ih (units.drop (commonLength us units))
      rw [List.length_drop] at hm
      simp only
      split
      · simp only; omega
      · exact hn

section
variable {c : Cursor} (hc : c.position ≤ c.stop)
include hc

theorem matchLiteral_within (text : String) :
    (matchLiteral text c).Within c.position c.stop := by
  have hn := compareChars_le c.source.encoding text.toList
    (c.ahead (text.toList.length * c.source.encoding.maxUnits))
  have hlen := c.length_ahead_le (text.toList.length * c.source.encoding.maxUnits)
  unfold matchLiteral
  simp only
  split
  · simp only [TokenMatch.Within]; omega
  · simp only [TokenMatch.Within]; omega

theorem matchClass_within (k : AsciiClass) : (matchClass k c).Within c.position c.stop := by
  unfold matchClass
  split
  · next q hq =>
    have := k.advances c q hq
    simp only [TokenMatch.Within]; omega
  · exact TokenMatch.within_at hc _

theorem matchEof_within : (matchEof c).Within c.position c.stop := by
  unfold matchEof
  split
  · exact ⟨Nat.le_refl _, hc⟩
  · exact TokenMatch.within_at hc _

theorem matchNewline_within : (matchNewline c).Within c.position c.stop := by
  unfold matchNewline
  split
  · next h =>
    have := Cursor.peekAt_lt h
    simp only [TokenMatch.Within]; omega
  · next h =>
    have := Cursor.peekAt_lt h
    simp only [TokenMatch.Within]; omega
  · exact TokenMatch.within_at hc _

theorem matchCodePoint_within (f : CodePointFilter) :
    ∃ m, matchCodePoint f c = .ok m ∧ m.Within c.position c.stop := by
  have hlen := c.decode_length_le
  unfold matchCodePoint
  simp only
  split
  · refine ⟨_, rfl, ?_⟩
    split
    · simp only [TokenMatch.Within]; omega
    · simp only [TokenMatch.Within]; omega
  · exact ⟨_, rfl, TokenMatch.within_at hc _⟩
  · next hs _ =>
    obtain ⟨q, hq, hpq, hqs⟩ := Cursor.recover_eq hc hs
    rw [hq]
    exact ⟨_, rfl, Nat.le_refl _, hpq, Nat.le_refl _, hqs⟩

theorem matchIdentifier_within (leading trailing : CharClass) :
    ∃ m, matchIdentifier leading trailing c = .ok m ∧ m.Within c.position c.stop := by
  unfold matchIdentifier
  split
  · exact ⟨_, rfl, TokenMatch.within_at hc _⟩
  · next q hq =>
    obtain ⟨hlt, hle⟩ := leading.advances c q hq
    obtain ⟨r, hr, hqr, hrs⟩ :=
      Cursor.passAll_eq (c := { c with position := q }) trailing.advances hle
    rw [Cursor.moveTo_eq hle]
    refine ⟨.ok r, ?_, ?_⟩
    · show ((Cursor.passAll trailing.matchOne { c with position := q }).bind fun last =>
        Except.ok (Except.ok last.position)) = _
      rw [hr]
      rfl
    · simp only [TokenMatch.Within] at hqr hrs ⊢; omega

theorem matchDigits_within (radix : Radix) :
    ∃ m, matchDigits radix c = .ok m ∧ m.Within c.position c.stop := by
  obtain ⟨q, hq, hpq, hqs⟩ := Cursor.passAll_eq radix.advances hc
  have heq : matchDigits radix c = .ok (if q = c.position then
      .error (.at c.position (.expectedCharClass radix.className)) else .ok q) := by
    unfold matchDigits
    rw [hq]
    rfl
  refine ⟨_, heq, ?_⟩
  split
  · exact TokenMatch.within_at hc _
  · exact ⟨hpq, hqs⟩

/-- What is not made of a rule always matches or fails, between the position and the end. -/
theorem Token.matchUnits?_within (t : Token) (ht : ∀ r kind, t ≠ .rule r kind) :
    ∃ m, t.matchUnits? c = .ok (some m) ∧ m.Within c.position c.stop := by
  cases t with
  | literal text => exact ⟨_, rfl, matchLiteral_within hc text⟩
  | charClass k => exact ⟨_, rfl, matchClass_within hc k⟩
  | codePoint f =>
    obtain ⟨m, hm, hw⟩ := matchCodePoint_within hc f
    exact ⟨m, by rw [matchUnits?, hm]; rfl, hw⟩
  | identifier leading trailing =>
    obtain ⟨m, hm, hw⟩ := matchIdentifier_within hc leading trailing
    exact ⟨m, by rw [matchUnits?, hm]; rfl, hw⟩
  | digits radix =>
    obtain ⟨m, hm, hw⟩ := matchDigits_within hc radix
    exact ⟨m, by rw [matchUnits?, hm]; rfl, hw⟩
  | eof => exact ⟨_, rfl, matchEof_within hc⟩
  | newline => exact ⟨_, rfl, matchNewline_within hc⟩
  | rule r kind => exact absurd rfl (ht r kind)

end

end Phrase
