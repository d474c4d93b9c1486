import Mathlib.Data.List.TakeWhile
import Phrase.Proofs.Rule.Extent

/-!
# Decoding inverts encoding

What is written for a code point is read back as that code point, whatever follows, and nothing
else is read as a success: the units a decoding has taken are those that are written for its
value (`Cursor.decode_inverts`).
-/

namespace Phrase

namespace Encoding

variable {e : Encoding} {v : Nat} {us rest : List Nat}

/-! ## What is written -/

/-- Encoding a code point puts these units in front of every buffer that has room for any. -/
def Writes (e : Encoding) (v : Nat) (us : List Nat) : Prop :=
  ∀ buffer : List Nat, e.maxUnits ≤ buffer.length →
    e.encodeInto v buffer = .ok (us.length, us ++ buffer.drop us.length)

theorem units?_eq_some_iff : (∃ us, e.units? v = some us) ↔ e.CanEncode v := by
  unfold units?
  split
  · next h => simp [h]
  · next h => simp [h]

theorem isScalar_of_units? (h : e.units? v = some us) : CodePoint.IsScalar v := by
  have hv := units?_eq_some_iff.1 ⟨us, h⟩
  cases e with
  | ascii =>
    simp only [CanEncode] at hv
    omega
  | utf8 => exact hv
  | utf16 => exact hv
  | utf32 => exact hv

theorem length_utf8Units_le (v : Nat) : (utf8Units v).length ≤ 4 := by
  unfold utf8Units
  split
  · simp
  · split
    · simp
    · split
      · simp
      · simp

theorem length_utf16Units_le (v : Nat) : (utf16Units v).length ≤ 2 := by
  unfold utf16Units
  split
  · simp
  · simp

theorem length_units?_le (h : e.units? v = some us) : us.length ≤ e.maxUnits := by
  unfold units? at h
  split at h
  · cases h
    cases e with
    | ascii => exact Nat.le_refl 1
    | utf8 => exact length_utf8Units_le v
    | utf16 => exact length_utf16Units_le v
    | utf32 => exact Nat.le_refl 1
  · cases h

theorem writes_iff : e.Writes v us ↔ e.units? v = some us := by
  constructor
  · intro h
    have hw := h (List.replicate e.maxUnits 0) (Nat.le_of_eq List.length_replicate.symm)
    unfold encodeInto at hw
    cases hv : e.units? v with
    | none =>
      rw [hv] at hw
      cases hw
    | some ws =>
      rw [hv] at hw
      simp only at hw
      split at hw
      · obtain ⟨hlength, happend⟩ := Prod.mk.inj (Except.ok.inj hw)
        rw [(List.append_inj happend hlength).1]
      · cases hw
  · intro h buffer hbuffer
    have hle : us.length ≤ buffer.length := Nat.le_trans (length_units?_le h) hbuffer
    unfold encodeInto
    rw [h]
    simp only
    rw [if_pos hle]

/-! ## UTF-8 sequences -/

/-- A sequence with all its continuation bytes is read as a whole. -/
theorem decodeSequence_append (lead bits : Nat) {tail : List Nat}
    (h : ∀ u ∈ tail, IsContinuation u) :
    decodeSequence lead bits tail.length (tail ++ rest) =
      let value := tail.foldl (fun v u => v * 0x40 + (u - 0x80)) bits
      ⟨classifyUtf8 lead (tail.headD 0) value, value, 1 + tail.length⟩ := by
  have htake : ((tail ++ rest).take tail.length).takeWhile
      (fun u => decide (IsContinuation u)) = tail := by
    rw [List.take_left' rfl, List.takeWhile_eq_self_iff]
    exact fun u hu => decide_eq_true (h u hu)
  unfold decodeSequence
  rw [htake]
  simp only [Nat.lt_irrefl, if_false]

/-- A sequence that is read successfully has all its continuation bytes. -/
theorem exists_tail_of_decodeSequence {lead bits count : Nat}
    (h : (decodeSequence lead bits count rest).status = .success) :
    ∃ tail more, rest = tail ++ more ∧ tail.length = count ∧ ∀ u ∈ tail, IsContinuation u := by
  unfold decodeSequence at h
  simp only at h
  generalize htail : (rest.take count).takeWhile (fun u => decide (IsContinuation u)) = tail at h
  have hsub : tail <+: rest.take count := htail ▸ List.takeWhile_prefix _
  split at h
  · cases h
  · next hlength =>
    have hle : tail.length ≤ (rest.take count).length := hsub.length_le
    have htake : tail = rest.take count :=
      hsub.eq_of_length (by rw [List.length_take] at hle ⊢; omega)
    have hcount : (rest.take count).length = count := by
      rw [← htake]
      rw [List.length_take] at hle
      omega
    refine ⟨rest.take count, rest.drop count, (List.take_append_drop count rest).symm, hcount, ?_⟩
    intro u hu
    rw [← htake, ← htail] at hu
    exact of_decide_eq_true (List.all_eq_true.1 List.all_takeWhile u hu)

/-- The payload of continuation bytes behind the bits of a lead byte. -/
abbrev assembled (bits : Nat) (tail : List Nat) : Nat :=
  tail.foldl (fun v u => v * 0x40 + (u - 0x80)) bits

theorem decodeSequence_eq_success (lead bits v : Nat) (tail rest : List Nat)
    (h : ∀ u ∈ tail, IsContinuation u) (hvalue : assembled bits tail = v)
    (hclass : classifyUtf8 lead (tail.headD 0) v = .success) :
    decodeSequence lead bits tail.length (tail ++ rest) = ⟨.success, v, tail.length + 1⟩ := by
  rw [decodeSequence_append lead bits h]
  simp only [hvalue, hclass, Nat.add_comm 1]

/-- What a sequence that is read successfully consists of. -/
theorem decodeSequence_success_cases {lead bits count : Nat}
    (h : (decodeSequence lead bits count rest).status = .success) :
    ∃ tail more, rest = tail ++ more ∧ tail.length = count ∧ (∀ u ∈ tail, IsContinuation u) ∧
      classifyUtf8 lead (tail.headD 0) (assembled bits tail) = .success ∧
      decodeSequence lead bits count rest = ⟨.success, assembled bits tail, count + 1⟩ := by
  obtain ⟨tail, more, rfl, rfl, hcont⟩ := exists_tail_of_decodeSequence h
  rw [decodeSequence_append lead bits hcont] at h ⊢
  refine ⟨tail, more, rfl, rfl, hcont, h, ?_⟩
  simp only at h
  simp only [h, Nat.add_comm 1]

/-! ## Reading what is written -/

theorem decodeUtf8_append (hv : CodePoint.IsScalar v) :
    decodeUtf8 (utf8Units v ++ rest) = ⟨.success, v, (utf8Units v).length⟩ := by
  unfold utf8Units
  split
  · next h =>
    rw [List.singleton_append, decodeUtf8, if_pos (by omega)]
    rfl
  · split
    · next h =>
      -- Two bytes: the second one holds the low six bits.
      have hseq := decodeSequence_eq_success (0xC0 + v / 0x40) (0xC0 + v / 0x40 - 0xC0) v
        [0x80 + v % 0x40] rest
        (by simp only [List.mem_singleton, forall_eq]; omega)
        (by simp only [assembled, List.foldl]; omega)
        (by
          unfold classifyUtf8
          rw [if_pos (by omega), if_neg (by omega)])
      rw [List.cons_append, decodeUtf8, if_neg (by omega), if_neg (by omega), if_pos (by omega)]
      exact hseq
    · split
      · next h =>
        have hseq := decodeSequence_eq_success (0xE0 + v / 0x1000) (0xE0 + v / 0x1000 - 0xE0) v
          [0x80 + v / 0x40 % 0x40, 0x80 + v % 0x40] rest
          (by simp only [List.mem_cons, List.not_mem_nil, or_false, forall_eq_or_imp, forall_eq]
              omega)
          (by simp only [assembled, List.foldl]; omega)
          (by
            unfold classifyUtf8
            rw [if_neg (by omega), if_pos (by omega), if_neg hv.2,
              if_neg (by simp only [List.headD]; omega)])
        rw [List.cons_append, decodeUtf8, if_neg (by omega), if_neg (by omega),
          if_neg (by omega), if_pos (by omega)]
        exact hseq
      · next h =>
        have hmax := hv.1
        have hseq := decodeSequence_eq_success (0xF0 + v / 0x40000) (0xF0 + v / 0x40000 - 0xF0) v
          [0x80 + v / 0x1000 % 0x40, 0x80 + v / 0x40 % 0x40, 0x80 + v % 0x40] rest
          (by simp only [List.mem_cons, List.not_mem_nil, or_false, forall_eq_or_imp, forall_eq]
              omega)
          (by simp only [assembled, List.foldl]; omega)
          (by
            unfold classifyUtf8
            rw [if_neg (by omega), if_neg (by omega), if_neg (by omega),
              if_neg (by simp only [List.headD]; omega)])
        rw [List.cons_append, decodeUtf8, if_neg (by omega), if_neg (by omega),
          if_neg (by omega), if_neg (by omega), if_pos (by omega)]
        exact hseq

theorem decodeUtf16_append (hv : CodePoint.IsScalar v) :
    decodeUtf16 (utf16Units v ++ rest) = ⟨.success, v, (utf16Units v).length⟩ := by
  unfold utf16Units
  split
  · next h =>
    rw [List.singleton_append, decodeUtf16.eq_def]
    simp only
    rw [if_neg (by omega), if_neg (by omega)]
    rfl
  · next h =>
    have hmax := hv.1
    rw [List.cons_append, List.singleton_append, decodeUtf16.eq_def]
    simp only
    rw [if_pos (by omega), if_pos (by omega)]
    simp only [List.length_cons, List.length_nil, Decoding.mk.injEq, true_and, and_true]
    omega

theorem decodeUtf32_append (rest : List Nat) (hv : CodePoint.IsScalar v) :
    decodeUtf32 ([v] ++ rest) = ⟨.success, v, 1⟩ := by
  rw [List.singleton_append, decodeUtf32, if_neg (by omega), if_neg hv.2]

theorem decodeAscii_append (rest : List Nat) (hv : CodePoint.IsAscii v) :
    decodeAscii ([v] ++ rest) = ⟨.success, v, 1⟩ := by
  rw [List.singleton_append, decodeAscii, if_pos hv]

/-- The units of a code point are read back, whatever follows them. -/
theorem decode_append (rest : List Nat) (h : e.units? v = some us) :
    e.decode (us ++ rest) = ⟨.success, v, us.length⟩ := by
  unfold units? at h
  split at h
  · next hv =>
    cases h
    cases e with
    | ascii => exact decodeAscii_append rest hv
    | utf8 => exact decodeUtf8_append hv
    | utf16 => exact decodeUtf16_append hv
    | utf32 => exact decodeUtf32_append rest hv
  · cases h

/-! ## Writing what is read -/

theorem units_two {b c v : Nat} (hb : 0xC0 ≤ b) (hb' : b < 0xE0) (hc : IsContinuation c)
    (hv : (b - 0xC0) * 0x40 + (c - 0x80) = v) (hclass : classifyUtf8 b c v = .success) :
    utf8.units? v = some [b, c] := by
  have hlead : ¬ b < 0xC2 := by
    intro h
    rw [classifyUtf8, if_pos hb', if_pos h] at hclass
    cases hclass
  have hscalar : utf8.CanEncode v := by
    show CodePoint.IsScalar v
    omega
  rw [units?, if_pos hscalar, utf8Units, if_neg (by omega), if_pos (by omega)]
  simp only [Option.some.injEq, List.cons.injEq, and_true]
  omega

theorem units_three {b c d v : Nat} (hb : 0xE0 ≤ b) (hb' : b < 0xF0) (hc : IsContinuation c)
    (hd : IsContinuation d) (hv : ((b - 0xE0) * 0x40 + (c - 0x80)) * 0x40 + (d - 0x80) = v)
    (hclass : classifyUtf8 b c v = .success) : utf8.units? v = some [b, c, d] := by
  rw [classifyUtf8, if_neg (by omega), if_pos hb'] at hclass
  split at hclass
  · cases hclass
  · next hsurrogate =>
    split at hclass
    · cases hclass
    · next hshort =>
      have hscalar : utf8.CanEncode v := ⟨by omega, hsurrogate⟩
      rw [units?, if_pos hscalar, utf8Units, if_neg (by omega), if_neg (by omega),
        if_pos (by omega)]
      simp only [Option.some.injEq, List.cons.injEq, and_true]
      omega

theorem units_four {b c d f v : Nat} (hb : 0xF0 ≤ b) (hb' : b < 0xF8) (hc : IsContinuation c)
    (hd : IsContinuation d) (hf : IsContinuation f)
    (hv : (((b - 0xF0) * 0x40 + (c - 0x80)) * 0x40 + (d - 0x80)) * 0x40 + (f - 0x80) = v)
    (hclass : classifyUtf8 b c v = .success) : utf8.units? v = some [b, c, d, f] := by
  rw [classifyUtf8, if_neg (by omega), if_neg (by omega)] at hclass
  split at hclass
  · cases hclass
  · next hmax =>
    split at hclass
    · cases hclass
    · next hshort =>
      have hscalar : utf8.CanEncode v := ⟨by omega, by simp only [CodePoint.IsSurrogate]; omega⟩
      rw [units?, if_pos hscalar, utf8Units, if_neg (by omega), if_neg (by omega),
        if_neg (by omega)]
      simp only [Option.some.injEq, List.cons.injEq, and_true]
      omega

/-- A sequence that is read successfully is written again, if that is so of every sequence of
its length that passes the checks. -/
theorem units_of_decodeSequence {lead bits count : Nat}
    (h : (decodeSequence lead bits count rest).status = .success)
    (hunits : ∀ tail : List Nat, tail.length = count → (∀ u ∈ tail, IsContinuation u) →
      classifyUtf8 lead (tail.headD 0) (assembled bits tail) = .success →
      utf8.units? (assembled bits tail) = some (lead :: tail)) :
    utf8.units? (decodeSequence lead bits count rest).value =
      some ((lead :: rest).take (decodeSequence lead bits count rest).length) := by
  obtain ⟨tail, more, rfl, rfl, hcont, hclass, heq⟩ := decodeSequence_success_cases h
  rw [heq, hunits tail rfl hcont hclass]
  simp only [List.take_succ_cons, List.take_left' rfl]

theorem units_of_decodeUtf8 (h : (decodeUtf8 us).status = .success) :
    utf8.units? (decodeUtf8 us).value = some (us.take (decodeUtf8 us).length) := by
  cases us with
  | nil => cases h
  | cons b rest =>
    rw [decodeUtf8] at h ⊢
    split
    · next hb =>
      have hscalar : utf8.CanEncode b := by
        show CodePoint.IsScalar b
        omega
      show utf8.units? b = some [b]
      rw [units?, if_pos hscalar, utf8Units, if_pos (by omega)]
    · next hb =>
      rw [if_neg hb] at h
      split
      · next hb' =>
        rw [if_pos hb'] at h
        cases h
      · next hb' =>
        rw [if_neg hb'] at h
        split
        · next h2 =>
          rw [if_pos h2] at h
          refine units_of_decodeSequence h fun tail hlength hcont hclass => ?_
          obtain ⟨c, rfl⟩ := List.length_eq_one_iff.1 hlength
          exact units_two (by omega) h2 (hcont c (by simp)) rfl hclass
        · next h2 =>
          rw [if_neg h2] at h
          split
          · next h3 =>
            rw [if_pos h3] at h
            refine units_of_decodeSequence h fun tail hlength hcont hclass => ?_
            obtain ⟨c, tail, rfl⟩ := List.exists_cons_of_length_eq_add_one hlength
            obtain ⟨d, rfl⟩ := List.length_eq_one_iff.1 (Nat.succ.inj hlength)
            exact units_three (by omega) h3 (hcont c (by simp)) (hcont d (by simp)) rfl hclass
          · next h3 =>
            rw [if_neg h3] at h
            split
            · next h4 =>
              rw [if_pos h4] at h
              refine units_of_decodeSequence h fun tail hlength hcont hclass => ?_
              obtain ⟨c, tail, rfl⟩ := List.exists_cons_of_length_eq_add_one hlength
              obtain ⟨d, tail, rfl⟩ :=
                List.exists_cons_of_length_eq_add_one (Nat.succ.inj hlength)
              obtain ⟨f, rfl⟩ := List.length_eq_one_iff.1 (Nat.succ.inj (Nat.succ.inj hlength))
              exact units_four (by omega) h4 (hcont c (by simp)) (hcont d (by simp))
                (hcont f (by simp)) rfl hclass
            · next h4 =>
              rw [if_neg h4] at h
              cases h

theorem units_of_decodeUtf16 (hlt : ∀ u ∈ us, u < utf16.unitLimit)
    (h : (decodeUtf16 us).status = .success) :
    utf16.units? (decodeUtf16 us).value = some (us.take (decodeUtf16 us).length) := by
  cases us with
  | nil => cases h
  | cons u rest =>
    have hu : u < 0x10000 := hlt u List.mem_cons_self
    rw [decodeUtf16.eq_def] at h ⊢
    simp only at h ⊢
    split
    · next hhigh =>
      rw [if_pos hhigh] at h
      cases rest with
      | nil => cases h
      | cons w rest =>
        simp only at h ⊢
        split
        · next hlow =>
          have hscalar : utf16.CanEncode (0x10000 + (u - 0xD800) * 0x400 + (w - 0xDC00)) := by
            show CodePoint.IsScalar _
            omega
          show utf16.units? (0x10000 + (u - 0xD800) * 0x400 + (w - 0xDC00)) = some [u, w]
          rw [units?, if_pos hscalar, utf16Units, if_neg (by omega)]
          simp only [Option.some.injEq, List.cons.injEq, and_true]
          omega
        · next hlow =>
          rw [if_neg hlow] at h
          cases h
    · next hhigh =>
      rw [if_neg hhigh] at h
      split
      · next hlow =>
        rw [if_pos hlow] at h
        cases h
      · next hlow =>
        have hscalar : utf16.CanEncode u := by
          show CodePoint.IsScalar u
          omega
        show utf16.units? u = some [u]
        rw [units?, if_pos hscalar, utf16Units, if_pos (by omega)]

theorem units_of_decodeUtf32 (h : (decodeUtf32 us).status = .success) :
    utf32.units? (decodeUtf32 us).value = some (us.take (decodeUtf32 us).length) := by
  cases us with
  | nil => cases h
  | cons u rest =>
    rw [decodeUtf32] at h ⊢
    split
    · next hmax =>
      rw [if_pos hmax] at h
      cases h
    · next hmax =>
      rw [if_neg hmax] at h
      split
      · next hsurrogate =>
        rw [if_pos hsurrogate] at h
        cases h
      · next hsurrogate =>
        have hscalar : utf32.CanEncode u := ⟨by omega, hsurrogate⟩
        rw [units?, if_pos hscalar]
        rfl

theorem units_of_decodeAscii (h : (decodeAscii us).status = .success) :
    ascii.units? (decodeAscii us).value = some (us.take (decodeAscii us).length) := by
  cases us with
  | nil => cases h
  | cons u rest =>
    rw [decodeAscii] at h ⊢
    split
    · next hascii =>
      rw [units?, if_pos (show ascii.CanEncode u from hascii)]
      rfl
    · next hascii =>
      rw [if_neg hascii] at h
      cases h

/-- Units that are read successfully are those that are written for the value. -/
theorem units_of_decode (hlt : ∀ u ∈ us, u < e.unitLimit)
    (h : (e.decode us).status = .success) :
    e.units? (e.decode us).value = some (us.take (e.decode us).length) := by
  cases e with
  | ascii => exact units_of_decodeAscii h
  | utf8 => exact units_of_decodeUtf8 h
  | utf16 => exact units_of_decodeUtf16 hlt h
  | utf32 => exact units_of_decodeUtf32 h

end Encoding

/-! ## At a cursor -/

namespace Cursor

variable {c : Cursor} {us rest : List Nat}

/-- A cursor that stands in its source and in front of where reading ends. -/
structure Valid (c : Cursor) : Prop where
  position_le : c.position ≤ c.stop
  stop_le : c.stop ≤ c.source.size

theorem extract_eq (c : Cursor) (p q : Nat) :
    (c.source.units.extract p q).toList = (c.source.units.toList.drop p).take (q - p) := by
  rw [Array.toList_extract, List.extract_eq_take_drop]

theorem remaining_eq (hc : c.Valid) :
    c.remaining = .ok ((c.source.units.toList.drop c.position).take (c.stop - c.position)) := by
  rw [remaining, Source.slice_eq_ok_iff]
  exact ⟨hc.position_le, hc.stop_le, (c.extract_eq _ _).symm⟩

theorem ahead_eq_take (hrest : c.remaining = .ok rest) (n : Nat) : c.ahead n = rest.take n := by
  obtain ⟨hle, -, rfl⟩ := Source.slice_eq_ok_iff.1 hrest
  simp only at hle
  rw [ahead, extract_eq, extract_eq, List.take_take]
  congr 1
  simp only
  omega

/-- The units in front of a place are the first ones of those that are left. -/
theorem slice_eq_ok_iff_take (hrest : c.remaining = .ok rest) {q : Nat} (hq : q ≤ c.stop) :
    c.source.slice ⟨c.position, q⟩ = .ok us ↔
      c.position ≤ q ∧ us = rest.take (q - c.position) := by
  obtain ⟨hle, hstop, rfl⟩ := Source.slice_eq_ok_iff.1 hrest
  simp only at hle hstop
  rw [Source.slice_eq_ok_iff, extract_eq, extract_eq, List.take_take]
  simp only
  rw [Nat.min_eq_left (by omega)]
  exact ⟨fun h => ⟨h.1, h.2.2⟩, fun h => ⟨h.1, by omega, h.2⟩⟩

theorem length_of_remaining (hrest : c.remaining = .ok rest) :
    rest.length = c.stop - c.position := by
  obtain ⟨hle, hstop, rfl⟩ := Source.slice_eq_ok_iff.1 hrest
  simp only at hle hstop
  have hsize : c.source.units.size = c.source.size := rfl
  rw [Array.length_toList, Array.size_extract]
  simp only
  omega

theorem peekAt_eq_getElem? (hrest : c.remaining = .ok rest) (n : Nat) : c.peekAt n = rest[n]? := by
  obtain ⟨hle, hstop, rfl⟩ := Source.slice_eq_ok_iff.1 hrest
  simp only at hle hstop
  rw [peekAt, extract_eq, List.getElem?_take, List.getElem?_drop, Array.getElem?_toList]
  simp only
  split
  · next hlt => rw [if_pos (by omega)]
  · next hlt => rw [if_neg (by omega)]

theorem lt_unitLimit_of_ahead (n : Nat) : ∀ u ∈ c.ahead n, u < c.source.encoding.unitLimit := by
  intro u hu
  rw [ahead, extract_eq] at hu
  have hmem := List.mem_of_mem_drop (List.mem_of_mem_take hu)
  exact c.source.units_fit u (Array.mem_toList_iff.1 hmem)

/-- Decoding at a cursor succeeds with a code point and an end exactly where the units between
them are those that are written for the code point.  So what is written is read back, whatever
follows it, and no other form of it, no surrogate and no number out of range is ever read. -/
theorem decode_inverts (hc : c.Valid) :
    (∀ v q, (c.decode.status = .success ∧ c.decode.value = v ∧
        c.position + c.decode.length = q) ↔
      c.source.encoding.CanEncode v ∧ q ≤ c.stop ∧ ∃ us, c.source.encoding.Writes v us ∧
        c.source.slice ⟨c.position, q⟩ = .ok us) ∧
    (∀ v us more, c.source.encoding.Writes v us → c.remaining = .ok (us ++ more) →
      c.decode = ⟨.success, v, us.length⟩) ∧
    (c.decode.status = .success → CodePoint.IsScalar c.decode.value ∧
      ∀ us, c.source.encoding.Writes c.decode.value us → c.decode.length = us.length) := by
  have hrest := c.remaining_eq hc
  generalize (c.source.units.toList.drop c.position).take (c.stop - c.position) = rest at hrest
  have hread : ∀ {v us more}, c.source.encoding.units? v = some us → rest = us ++ more →
      c.decode = ⟨.success, v, us.length⟩ := by
    intro v us more hunits hmore
    -- The decoder sees as many units as any code point takes.
    have hahead : c.ahead c.source.encoding.maxUnits =
        us ++ more.take (c.source.encoding.maxUnits - us.length) := by
      rw [ahead_eq_take hrest, hmore, List.take_append,
        List.take_of_length_le (Encoding.length_units?_le hunits)]
    rw [decode, hahead, Encoding.decode_append _ hunits]
  have hwritten : c.decode.status = .success →
      c.source.encoding.units? c.decode.value = some (rest.take c.decode.length) := by
    intro h
    have hunits := Encoding.units_of_decode (lt_unitLimit_of_ahead _) h
    have hlength := (c.source.encoding.decode_reads (c.ahead c.source.encoding.maxUnits)).length_le
    rw [ahead_eq_take hrest] at hlength
    rw [List.length_take] at hlength
    have htake : (c.ahead c.source.encoding.maxUnits).take c.decode.length =
        rest.take c.decode.length := by
      rw [ahead_eq_take hrest, List.take_take, Nat.min_eq_left]
      rw [decode, ahead_eq_take hrest]
      omega
    rw [← htake]
    exact hunits
  refine ⟨fun v q => ⟨?_, ?_⟩, fun v us more hw hmore => ?_, fun h => ?_⟩
  · rintro ⟨hstatus, rfl, rfl⟩
    have hunits := hwritten hstatus
    have hq : c.position + c.decode.length ≤ c.stop := by
      have := c.decode_length_le
      have := hc.position_le
      omega
    refine ⟨Encoding.units?_eq_some_iff.1 ⟨_, hunits⟩, hq, _, Encoding.writes_iff.2 hunits, ?_⟩
    rw [slice_eq_ok_iff_take hrest hq, Nat.add_sub_cancel_left]
    exact ⟨Nat.le_add_right _ _, rfl⟩
  · rintro ⟨-, hq, us, hw, hslice⟩
    obtain ⟨hle, hus⟩ := (slice_eq_ok_iff_take hrest hq).1 hslice
    have hlength : us.length = q - c.position := by
      rw [hus, List.length_take, length_of_remaining hrest]
      omega
    have hmore : rest = us ++ rest.drop (q - c.position) := by
      rw [hus, List.take_append_drop]
    rw [hread (Encoding.writes_iff.1 hw) hmore]
    exact ⟨rfl, rfl, by simp only; omega⟩
  · obtain rfl : rest = us ++ more := Except.ok.inj (hrest.symm.trans hmore)
    exact hread (Encoding.writes_iff.1 hw) rfl
  · have hunits := hwritten h
    constructor
    · exact Encoding.isScalar_of_units? hunits
    · intro us hw
      have hlength := c.decode_length_le
      rw [Encoding.writes_iff, hunits] at hw
      obtain rfl := Option.some.inj hw
      rw [List.length_take, length_of_remaining hrest]
      omega

/-- A character of two bytes, read where only one more byte is left behind it. -/
theorem decode_inverts_two_bytes :
    let c : Cursor := ⟨⟨.utf8, #[0x78, 0xC3, 0xA4, 0xE2, 0x82, 0xAC], by decide⟩, 1, 4⟩
    c.Valid ∧ c.decode = ⟨.success, 0xE4, 2⟩ ∧ CodePoint.IsScalar 0xE4 ∧ 3 ≤ c.stop ∧
      ∃ us, Encoding.utf8.Writes 0xE4 us ∧ c.source.slice ⟨1, 3⟩ = .ok us := by
  intro c
  have hc : c.Valid := ⟨by decide, by decide⟩
  have hdecode : c.decode = ⟨.success, 0xE4, 2⟩ := by decide
  have hwritten := ((decode_inverts hc).1 0xE4 3).1
    ⟨by rw [hdecode], by rw [hdecode], by rw [hdecode]; rfl⟩
  exact ⟨hc, hdecode, hwritten⟩

end Cursor

end Phrase
