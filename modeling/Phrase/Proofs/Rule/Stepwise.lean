import Phrase.Proofs.Encoding.Text

/-!
# Reading unit by unit

Decoding and comparing with a text are said of the units that lie ahead of a cursor.  Whoever
has no such list looks at one unit, passes over it and looks at the next one, and each of these
steps has a condition: the unit that is looked at has to be in the source, the cursor that passes
over a unit must not stand at its end, and a character is written to a buffer that has to have
room for it.  At a valid cursor no condition is broken, and what is found is the same
(`Cursor.decodeStepwise_eq`, `Cursor.matchLiteralStepwise_eq`).
-/

namespace Phrase

theorem ok_bind {ε α β : Type} (a : α) (f : α → Except ε β) : (Except.ok a >>= f) = f a := rfl

namespace Cursor

/-! ## Units -/

/-- The unit `offset` places after the position.  One in front of the end has to be in the
source. -/
def readAt (c : Cursor) (offset : Nat) : Except Fault (Option Nat) :=
  if c.position + offset < c.stop then
    match c.source.units[c.position + offset]? with
    | some u => .ok (some u)
    | none => .error .outOfBounds
  else .ok none

/-- The cursor behind so many units. -/
def behind (c : Cursor) (n : Nat) : Cursor := { c with position := c.position + n }

section
variable {c : Cursor} {u : Nat} {rest : List Nat}

/-- No unit in front of the end of a source is missing. -/
theorem readAt_eq (hstop : c.stop ≤ c.source.size) (n : Nat) : c.readAt n = .ok (c.peekAt n) := by
  unfold readAt peekAt
  split
  · next hlt =>
    have hsize : c.position + n < c.source.units.size := Nat.lt_of_lt_of_le hlt hstop
    rw [Array.getElem?_eq_getElem hsize]
  · rfl

theorem readAt_of_remaining (hrest : c.remaining = .ok rest) (n : Nat) :
    c.readAt n = .ok rest[n]? := by
  obtain ⟨-, hstop, -⟩ := Source.slice_eq_ok_iff.1 hrest
  rw [readAt_eq hstop, peekAt_eq_getElem? hrest]

theorem bump_of_remaining (hrest : c.remaining = .ok (u :: rest)) : c.bump = .ok (c.behind 1) := by
  have hlength := length_of_remaining hrest
  rw [List.length_cons] at hlength
  rw [bump, if_pos (by omega)]
  rfl

theorem remaining_behind (hrest : c.remaining = .ok rest) {n : Nat} (hn : n ≤ rest.length) :
    (c.behind n).remaining = .ok (rest.drop n) := by
  have hlength := length_of_remaining hrest
  obtain ⟨hle, hstop, rfl⟩ := Source.slice_eq_ok_iff.1 hrest
  simp only at hle hstop
  refine Source.slice_eq_ok_iff.2 ⟨?_, hstop, ?_⟩
  · simp only [behind]
    omega
  · rw [extract_eq, extract_eq, List.drop_take, List.drop_drop]
    simp only [behind]
    congr 1
    omega

theorem remaining_tail (hrest : c.remaining = .ok (u :: rest)) :
    (c.behind 1).remaining = .ok rest := by
  have hnext := remaining_behind hrest (n := 1) (by simp)
  rw [List.drop_one, List.tail_cons] at hnext
  exact hnext

theorem behind_behind (c : Cursor) (m n : Nat) : (c.behind m).behind n = c.behind (m + n) := by
  simp only [behind, Nat.add_assoc]

end

/-! ## Decoding -/

/-- What a decoding has found that has read up to `last`. -/
def found (c last : Cursor) (status : DecodeStatus) (value : Nat) : Decoding :=
  ⟨status, value, last.position - c.position⟩

/-- Passes over continuation bytes and puts their bits behind a value.  There is no value if one
of them is missing. -/
def passContinuations : Nat → Nat → Cursor → Except Fault (Option Nat × Cursor)
  | 0, value, c => .ok (some value, c)
  | count + 1, value, c => do
    match ← c.readAt 0 with
    | some u =>
      if Encoding.IsContinuation u then
        passContinuations count (value * 0x40 + (u - 0x80)) (← c.bump)
      else return (none, c)
    | none => return (none, c)

/-- Decodes a sequence of `1 + count` bytes. -/
def decodeSequenceStepwise (lead bits count : Nat) (c : Cursor) : Except Fault Decoding := do
  let next ← c.bump
  let second ← next.readAt 0
  match ← next.passContinuations count bits with
  | (some value, last) =>
    return c.found last (Encoding.classifyUtf8 lead (second.getD 0) value) value
  | (none, last) => return c.found last .missingContinuation 0

/-- Decodes UTF-8. -/
def decodeUtf8Stepwise (c : Cursor) : Except Fault Decoding := do
  match ← c.readAt 0 with
  | none => return .atEnd
  | some b =>
    if b < 0x80 then return c.found (← c.bump) .success b
    else if b < 0xC0 then return c.found c .leadsWithContinuation 0
    else if b < 0xE0 then c.decodeSequenceStepwise b (b - 0xC0) 1
    else if b < 0xF0 then c.decodeSequenceStepwise b (b - 0xE0) 2
    else if b < 0xF8 then c.decodeSequenceStepwise b (b - 0xF0) 3
    else return .atEnd

/-- Decodes UTF-16. -/
def decodeUtf16Stepwise (c : Cursor) : Except Fault Decoding := do
  match ← c.readAt 0 with
  | none => return .atEnd
  | some u =>
    if Encoding.IsHighSurrogate u then
      let next ← c.bump
      match ← next.readAt 0 with
      | some w =>
        if Encoding.IsLowSurrogate w then
          return c.found (← next.bump) .success (0x10000 + (u - 0xD800) * 0x400 + (w - 0xDC00))
        else return c.found next .missingContinuation 0
      | none => return c.found next .missingContinuation 0
    else if Encoding.IsLowSurrogate u then return c.found c .leadsWithContinuation 0
    else return c.found (← c.bump) .success u

/-- Decodes UTF-32. -/
def decodeUtf32Stepwise (c : Cursor) : Except Fault Decoding := do
  match ← c.readAt 0 with
  | none => return .atEnd
  | some u =>
    let last ← c.bump
    if 0x10FFFF < u then return c.found last .outOfRange u
    else if CodePoint.IsSurrogate u then return c.found last .surrogate u
    else return c.found last .success u

/-- Decodes ASCII. -/
def decodeAsciiStepwise (c : Cursor) : Except Fault Decoding := do
  match ← c.readAt 0 with
  | none => return .atEnd
  | some u =>
    let last ← c.bump
    return c.found last (if CodePoint.IsAscii u then .success else .outOfRange) u

/-- Decodes at the position. -/
def decodeStepwise (c : Cursor) : Except Fault Decoding :=
  match c.source.encoding with
  | .ascii => c.decodeAsciiStepwise
  | .utf8 => c.decodeUtf8Stepwise
  | .utf16 => c.decodeUtf16Stepwise
  | .utf32 => c.decodeUtf32Stepwise

section
variable {c : Cursor} {u : Nat} {rest : List Nat}

theorem found_behind (c : Cursor) (n : Nat) (status : DecodeStatus) (value : Nat) :
    c.found (c.behind n) status value = ⟨status, value, n⟩ := by
  simp only [found, behind, Nat.add_sub_cancel_left]

theorem found_self (c : Cursor) (status : DecodeStatus) (value : Nat) :
    c.found c status value = ⟨status, value, 0⟩ := by
  rw [found, Nat.sub_self]

theorem passContinuations_eq (hrest : c.remaining = .ok rest) (count value : Nat) {tail : List Nat}
    (htail : (rest.take count).takeWhile (fun u => Encoding.IsContinuation u) = tail) :
    c.passContinuations count value = .ok
      (if tail.length < count then none
        else some (tail.foldl (fun v u => v * 0x40 + (u - 0x80)) value), c.behind tail.length) := by
  induction count generalizing c rest value tail with
  | zero =>
    subst htail
    rfl
  | succ count ih =>
    rw [passContinuations, readAt_of_remaining hrest, ok_bind]
    cases rest with
    | nil =>
      subst htail
      rfl
    | cons u rest =>
      rw [List.take_succ_cons] at htail
      simp only [List.getElem?_cons_zero]
      by_cases hu : Encoding.IsContinuation u
      · have hnext := remaining_tail hrest
        rw [List.takeWhile_cons_of_pos (by simpa using hu)] at htail
        subst htail
        rw [if_pos hu, bump_of_remaining hrest, ok_bind, ih hnext _ rfl, behind_behind,
          Nat.add_comm 1]
        rw [List.foldl_cons, List.length_cons, if_congr Nat.succ_lt_succ_iff rfl rfl]
      · rw [List.takeWhile_cons_of_neg (by simpa using hu)] at htail
        subst htail
        rw [if_neg hu]
        rfl

theorem decodeSequenceStepwise_eq (hrest : c.remaining = .ok (u :: rest)) (lead bits : Nat)
    {count : Nat} (hcount : 0 < count) :
    c.decodeSequenceStepwise lead bits count =
      .ok (Encoding.decodeSequence lead bits count rest) := by
  have hnext := remaining_tail hrest
  rw [decodeSequenceStepwise, bump_of_remaining hrest, ok_bind, readAt_of_remaining hnext, ok_bind,
    passContinuations_eq hnext _ _ rfl, ok_bind, Encoding.decodeSequence]
  generalize htail : (rest.take count).takeWhile
    (fun u => decide (Encoding.IsContinuation u)) = tail
  by_cases hlt : tail.length < count
  · simp only [if_pos hlt, behind_behind]
    exact congrArg _ (c.found_behind _ _ _)
  · simp only [if_neg hlt, behind_behind]
    -- All bytes are there, so the one that was looked at first is the first one of them.
    have htake : tail = rest.take count := by
      have hprefix : tail <+: rest.take count := htail ▸ List.takeWhile_prefix _
      have hle := List.length_take_le count rest
      exact hprefix.eq_of_length_le (by omega)
    have hsecond : rest[0]?.getD 0 = tail.headD 0 := by
      rw [htake, List.headD_eq_head?_getD, List.head?_take, if_neg (by omega),
        List.head?_eq_getElem?]
    have hlength : tail.length = count := by
      have hle := List.length_take_le count rest
      rw [← htake] at hle
      omega
    rw [hsecond, hlength]
    exact congrArg _ (c.found_behind _ _ _)

/-- A decoder sees the same in the first units as in all of them, as long as these are as many as
a sequence has. -/
theorem decodeSequence_take (lead bits : Nat) {count n : Nat} (h : count ≤ n) (rest : List Nat) :
    Encoding.decodeSequence lead bits count (rest.take n) =
      Encoding.decodeSequence lead bits count rest := by
  rw [Encoding.decodeSequence, List.take_take, Nat.min_eq_left h]
  rfl

theorem decodeUtf8Stepwise_eq (hrest : c.remaining = .ok rest) :
    c.decodeUtf8Stepwise = .ok (Encoding.decodeUtf8 (rest.take 4)) := by
  rw [decodeUtf8Stepwise, readAt_of_remaining hrest, ok_bind]
  cases rest with
  | nil => rfl
  | cons b rest =>
    simp only [List.getElem?_cons_zero, List.take_succ_cons, Encoding.decodeUtf8]
    split
    · rw [bump_of_remaining hrest, ok_bind, found_behind]
      rfl
    · split
      · rw [found_self]
        rfl
      · split
        · rw [decodeSequenceStepwise_eq hrest _ _ (by decide), decodeSequence_take _ _ (by decide)]
        · split
          · rw [decodeSequenceStepwise_eq hrest _ _ (by decide),
              decodeSequence_take _ _ (by decide)]
          · split
            · rw [decodeSequenceStepwise_eq hrest _ _ (by decide),
                decodeSequence_take _ _ (by decide)]
            · rfl

theorem decodeUtf16Stepwise_eq (hrest : c.remaining = .ok rest) :
    c.decodeUtf16Stepwise = .ok (Encoding.decodeUtf16 (rest.take 2)) := by
  rw [decodeUtf16Stepwise, readAt_of_remaining hrest, ok_bind]
  cases rest with
  | nil => rfl
  | cons u rest =>
    have hnext := remaining_tail hrest
    simp only [List.getElem?_cons_zero, List.take_succ_cons, Encoding.decodeUtf16,
      bump_of_remaining hrest, ok_bind, readAt_of_remaining hnext]
    split
    · cases rest with
      | nil => exact congrArg _ (c.found_behind _ _ _)
      | cons w rest =>
        simp only [List.getElem?_cons_zero, List.take_succ_cons, bump_of_remaining hnext, ok_bind,
          behind_behind, found_behind]
        split
        · rfl
        · rfl
    · split
      · rw [found_self]
        rfl
      · rw [found_behind]
        rfl

theorem decodeUtf32Stepwise_eq (hrest : c.remaining = .ok rest) :
    c.decodeUtf32Stepwise = .ok (Encoding.decodeUtf32 (rest.take 1)) := by
  rw [decodeUtf32Stepwise, readAt_of_remaining hrest, ok_bind]
  cases rest with
  | nil => rfl
  | cons u rest =>
    simp only [List.getElem?_cons_zero, List.take_succ_cons, Encoding.decodeUtf32,
      bump_of_remaining hrest, ok_bind, found_behind]
    split
    · rfl
    · split
      · rfl
      · rfl

theorem decodeAsciiStepwise_eq (hrest : c.remaining = .ok rest) :
    c.decodeAsciiStepwise = .ok (Encoding.decodeAscii (rest.take 1)) := by
  rw [decodeAsciiStepwise, readAt_of_remaining hrest, ok_bind]
  cases rest with
  | nil => rfl
  | cons u rest =>
    simp only [List.getElem?_cons_zero, List.take_succ_cons, Encoding.decodeAscii,
      bump_of_remaining hrest, ok_bind, found_behind]
    split
    · rfl
    · rfl

/-- Decoding unit by unit breaks no condition and finds the same. -/
theorem decodeStepwise_eq (hc : c.Valid) : c.decodeStepwise = .ok c.decode := by
  have hrest := c.remaining_eq hc
  rw [decodeStepwise, decode, ahead_eq_take hrest]
  cases c.source.encoding with
  | ascii => exact decodeAsciiStepwise_eq hrest
  | utf8 => exact decodeUtf8Stepwise_eq hrest
  | utf16 => exact decodeUtf16Stepwise_eq hrest
  | utf32 => exact decodeUtf32Stepwise_eq hrest

end

end Cursor

/-! ## Comparing with a text -/

namespace Encoding

/-- Writes a code point to a buffer of four units and reads the units that were written; there
are none if the encoding cannot represent it. -/
def writeUnits (e : Encoding) (v : Nat) : Except Fault (List Nat) :=
  if e.CanEncode v then do
    let (count, buffer) ← e.encodeInto v (List.replicate 4 0)
    if count ≤ buffer.length then .ok (buffer.take count) else .error .outOfBounds
  else .ok []

theorem maxUnits_le (e : Encoding) : e.maxUnits ≤ 4 := by
  cases e <;> decide

theorem writeUnits_of_units? {e : Encoding} {v : Nat} {us : List Nat} (h : e.units? v = some us) :
    e.writeUnits v = .ok us := by
  have hwrites := writes_iff.2 h (List.replicate 4 0)
    (Nat.le_trans e.maxUnits_le (Nat.le_of_eq List.length_replicate.symm))
  rw [writeUnits, if_pos (units?_eq_some_iff.1 ⟨us, h⟩), hwrites, ok_bind]
  simp only
  rw [if_pos (by rw [List.length_append]; omega), List.take_left' rfl]

theorem writeUnits_of_units?_eq_none {e : Encoding} {v : Nat} (h : e.units? v = none) :
    e.writeUnits v = .ok [] := by
  have hv : ¬ e.CanEncode v := by
    rw [← units?_eq_some_iff, h]
    rintro ⟨us, hus⟩
    cases hus
  rw [writeUnits, if_neg hv]

end Encoding

namespace Cursor

/-- Passes over units as long as they are these: whether they all are. -/
def passUnits : List Nat → Cursor → Except Fault (Bool × Cursor)
  | [], c => .ok (true, c)
  | u :: us, c => do
    if (← c.readAt 0) = some u then passUnits us (← c.bump) else return (false, c)

/-- Passes over characters as long as they are these. -/
def passText : List Char → Cursor → Except Fault (Bool × Cursor)
  | [], c => .ok (true, c)
  | d :: ds, c => do
    let us ← c.source.encoding.writeUnits d.toNat
    let (all, last) ← c.passUnits us
    if all ∧ us ≠ [] then passText ds last else return (false, last)

/-- Matches a text. -/
def matchLiteralStepwise (text : String) (c : Cursor) : Except Fault TokenMatch := do
  let (all, last) ← c.passText text.toList
  return if all then .ok last.position
    else .error ⟨last.position, .expectedLiteral text (last.position - c.position),
      ⟨c.position, last.position⟩⟩

section
variable {c : Cursor} {rest : List Nat}

theorem passUnits_eq (hrest : c.remaining = .ok rest) (us : List Nat) :
    c.passUnits us =
      .ok (decide (commonLength us rest = us.length), c.behind (commonLength us rest)) := by
  induction us generalizing c rest with
  | nil => rfl
  | cons u us ih =>
    rw [passUnits, readAt_of_remaining hrest, ok_bind]
    cases rest with
    | nil => rfl
    | cons v rest =>
      have hnext := remaining_tail hrest
      simp only [List.getElem?_cons_zero, Option.some.injEq]
      by_cases huv : v = u
      · rw [if_pos huv, bump_of_remaining hrest, ok_bind, ih hnext, behind_behind, commonLength,
          if_pos huv.symm, List.length_cons, Nat.add_comm 1]
        simp only [Nat.add_right_cancel_iff]
      · rw [if_neg huv, commonLength, if_neg (Ne.symm huv)]
        rfl

theorem passText_eq (hrest : c.remaining = .ok rest) (cs : List Char) :
    c.passText cs = .ok ((compareChars c.source.encoding cs rest).1,
      c.behind (compareChars c.source.encoding cs rest).2) := by
  induction cs generalizing c rest with
  | nil => rfl
  | cons d ds ih =>
    rw [passText, compareChars]
    cases hus : c.source.encoding.units? d.toNat with
    | none =>
      rw [Encoding.writeUnits_of_units?_eq_none hus, ok_bind, passUnits, ok_bind]
      rfl
    | some us =>
      have hne : us ≠ [] := Encoding.ne_nil_of_units? hus
      have hnext := remaining_behind hrest (commonLength_le us rest)
      rw [Encoding.writeUnits_of_units? hus, ok_bind, passUnits_eq hrest, ok_bind]
      by_cases hcommon : commonLength us rest = us.length
      · simp only [hcommon, decide_true, true_and, hne, ne_eq, not_false_eq_true, if_true]
        rw [hcommon] at hnext
        rw [ih hnext, behind_behind]
        rfl
      · simp only [hcommon, decide_false, Bool.false_eq_true, false_and, if_false]
        rfl

end

end Cursor

theorem commonLength_take {us units : List Nat} {k : Nat} (h : us.length ≤ k) :
    commonLength us (units.take k) = commonLength us units := by
  induction us generalizing units k with
  | nil => rfl
  | cons u us ih =>
    obtain ⟨k, rfl⟩ := Nat.exists_eq_add_one.2 (Nat.lt_of_lt_of_le (Nat.succ_pos _) h)
    cases units with
    | nil => rfl
    | cons v units =>
      rw [List.take_succ_cons, commonLength, commonLength, ih (Nat.le_of_succ_le_succ h)]

/-- No character has more units than the encoding allows for, so so many units say it all. -/
theorem compareChars_take {e : Encoding} {cs : List Char} {units : List Nat} {k : Nat}
    (h : cs.length * e.maxUnits ≤ k) :
    compareChars e cs (units.take k) = compareChars e cs units := by
  induction cs generalizing units k with
  | nil => rfl
  | cons d ds ih =>
    rw [compareChars, compareChars]
    cases hus : e.units? d.toNat with
    | none => rfl
    | some us =>
      have hlength := Encoding.length_units?_le hus
      rw [List.length_cons, Nat.succ_mul] at h
      simp only
      rw [commonLength_take (by omega), List.drop_take]
      split
      · next hcommon => rw [ih (by omega)]
      · rfl

/-- Comparing unit by unit breaks no condition and finds the same. -/
theorem Cursor.matchLiteralStepwise_eq {c : Cursor} (hc : c.Valid) (text : String) :
    c.matchLiteralStepwise text = .ok (matchLiteral text c) := by
  have hrest := c.remaining_eq hc
  rw [matchLiteralStepwise, passText_eq hrest, ok_bind, matchLiteral, ahead_eq_take hrest]
  simp only
  rw [compareChars_take (Nat.le_refl _)]
  simp only [behind, Nat.add_sub_cancel_left]
  rfl

end Phrase
