import Mathlib.Data.List.Basic
import Phrase.Proofs.Rule.Stepwise

/-!
# Malformed units

What a decoding of UTF-8 finds is a law of numbers: the first byte announces a length, the
continuation bytes behind it are counted, and if none is missing, the number that the sequence
assembles to decides.  Whoever recovers from malformed units moves on, and passes over nothing
behind the first unit that a code point could start with (`Cursor.decode_classifies`).
-/

namespace Phrase

namespace Encoding

/-! ## The law of UTF-8 -/

/-- How many bytes a first byte announces. -/
def announced (b : Nat) : Nat :=
  if b < 0x80 then 1 else if b < 0xE0 then 2 else if b < 0xF0 then 3 else 4

/-- The bits of a first byte behind those that announce the length. -/
def payload (b : Nat) : Nat :=
  if b < 0x80 then b else if b < 0xE0 then b % 0x20 else if b < 0xF0 then b % 0x10 else b % 0x08

/-- The number of a sequence: the payload, then six bits of each continuation byte. -/
def sequenceValue (b : Nat) (tail : List Nat) : Nat :=
  tail.foldl (fun v u => v * 0x40 + u % 0x40) (payload b)

/-- The smallest number that needs so many bytes. -/
def smallest : Nat → Nat
  | 2 => 0x80
  | 3 => 0x800
  | 4 => 0x10000
  | _ => 0

/-- What is found of a sequence of so many bytes, all of them there, with this number. -/
structure Complete (length value : Nat) (d : Decoding) : Prop where
  length_eq : d.length = length
  value_eq : d.value = value
  overlong : d.status = .overlong ↔ value < smallest length
  surrogate : d.status = .surrogate ↔ length = 3 ∧ CodePoint.IsSurrogate value
  outOfRange : d.status = .outOfRange ↔ 0x10FFFF < value
  success : d.status = .success ↔
    smallest length ≤ value ∧ ¬ (length = 3 ∧ CodePoint.IsSurrogate value) ∧ value ≤ 0x10FFFF

/-- What is found of a sequence that starts with `b`, where `tail` are the continuation bytes
right behind it, at most as many as are announced. -/
structure Classifies (b : Nat) (tail : List Nat) (d : Decoding) : Prop where
  missing : d.status = .missingContinuation ↔ tail.length < announced b - 1
  length_of_missing : tail.length < announced b - 1 → d.length = 1 + tail.length
  complete : tail.length = announced b - 1 → Complete (announced b) (sequenceValue b tail) d

/-! ## Sequences -/

/-- The continuation bytes at the front, at most so many. -/
abbrev continuations (count : Nat) (rest : List Nat) : List Nat :=
  (rest.take count).takeWhile fun u => IsContinuation u

section
variable {b c d f lead bits count : Nat} {rest tail : List Nat}

theorem length_continuations_le (count : Nat) (rest : List Nat) :
    (continuations count rest).length ≤ count :=
  Nat.le_trans (List.takeWhile_prefix _).length_le (List.length_take_le _ _)

theorem isContinuation_of_mem {u : Nat} (h : u ∈ continuations count rest) : IsContinuation u :=
  of_decide_eq_true (List.all_eq_true.1 List.all_takeWhile u h)

theorem continuations_prefix_rest (count : Nat) (rest : List Nat) :
    continuations count rest <+: rest :=
  (List.takeWhile_prefix _).trans (List.take_prefix _ _)

theorem decodeSequence_of_lt (h : (continuations count rest).length < count) :
    decodeSequence lead bits count rest =
      ⟨.missingContinuation, 0, 1 + (continuations count rest).length⟩ :=
  if_pos h

theorem decodeSequence_of_eq (h : (continuations count rest).length = count) :
    decodeSequence lead bits count rest =
      ⟨classifyUtf8 lead ((continuations count rest).headD 0)
        (assembled bits (continuations count rest)),
        assembled bits (continuations count rest), 1 + count⟩ :=
  if_neg (Nat.not_lt.2 (Nat.le_of_eq h.symm))

theorem length_decodeSequence (lead bits count : Nat) (rest : List Nat) :
    (decodeSequence lead bits count rest).length = 1 + (continuations count rest).length := by
  rcases Nat.lt_or_eq_of_le (length_continuations_le count rest) with h | h
  · rw [decodeSequence_of_lt h]
  · rw [decodeSequence_of_eq h, h]

theorem classifyUtf8_complete (lead second value : Nat) :
    classifyUtf8 lead second value ≠ .eof ∧
      classifyUtf8 lead second value ≠ .missingContinuation := by
  unfold classifyUtf8
  repeat' split
  all_goals exact ⟨DecodeStatus.noConfusion, DecodeStatus.noConfusion⟩

theorem complete_success {length value : Nat} (hsmallest : smallest length ≤ value)
    (hsurrogate : ¬ (length = 3 ∧ CodePoint.IsSurrogate value)) (hrange : value ≤ 0x10FFFF) :
    Complete length value ⟨.success, value, length⟩ where
  length_eq := rfl
  value_eq := rfl
  overlong := iff_of_false DecodeStatus.noConfusion (Nat.not_lt.2 hsmallest)
  surrogate := iff_of_false DecodeStatus.noConfusion hsurrogate
  outOfRange := iff_of_false DecodeStatus.noConfusion (Nat.not_lt.2 hrange)
  success := iff_of_true rfl ⟨hsmallest, hsurrogate, hrange⟩

theorem smallest_le (length : Nat) : smallest length ≤ 0x10000 := by
  unfold smallest
  split
  all_goals decide

/-- A number that would need fewer bytes is no surrogate of three, and in range. -/
theorem complete_overlong {length value : Nat} (h : value < smallest length) :
    Complete length value ⟨.overlong, value, length⟩ where
  length_eq := rfl
  value_eq := rfl
  overlong := iff_of_true rfl h
  surrogate := by
    refine iff_of_false DecodeStatus.noConfusion ?_
    rintro ⟨rfl, hs⟩
    have hsmall : value < 0x800 := h
    omega
  outOfRange := by
    have hle := smallest_le length
    exact iff_of_false DecodeStatus.noConfusion (by omega)
  success := iff_of_false DecodeStatus.noConfusion fun hs => Nat.not_lt.2 hs.1 h

theorem complete_surrogate {value : Nat} (h : CodePoint.IsSurrogate value) :
    Complete 3 value ⟨.surrogate, value, 3⟩ where
  length_eq := rfl
  value_eq := rfl
  overlong := iff_of_false DecodeStatus.noConfusion (Nat.not_lt.2 (Nat.le_trans (by decide) h.1))
  surrogate := iff_of_true rfl ⟨rfl, h⟩
  outOfRange := iff_of_false DecodeStatus.noConfusion (by omega)
  success := iff_of_false DecodeStatus.noConfusion fun hs => hs.2.1 ⟨rfl, h⟩

theorem complete_outOfRange {value : Nat} (h : 0x10FFFF < value) :
    Complete 4 value ⟨.outOfRange, value, 4⟩ where
  length_eq := rfl
  value_eq := rfl
  overlong := iff_of_false DecodeStatus.noConfusion
    (Nat.not_lt.2 (Nat.le_trans (by decide) (Nat.le_of_lt h)))
  surrogate := iff_of_false DecodeStatus.noConfusion fun hs => absurd hs.1 (by decide)
  outOfRange := iff_of_true rfl h
  success := iff_of_false DecodeStatus.noConfusion fun hs => Nat.not_lt.2 hs.2.2 h

theorem complete_one (hb : b < 0x80) : Complete 1 b ⟨.success, b, 1⟩ :=
  complete_success (Nat.zero_le b) (fun hs => absurd hs.1 (by decide)) (by omega)

theorem complete_two (hb : 0xC0 ≤ b) (hb' : b < 0xE0) (hc : IsContinuation c) :
    Complete 2 ((b - 0xC0) * 0x40 + (c - 0x80))
      ⟨classifyUtf8 b c ((b - 0xC0) * 0x40 + (c - 0x80)), (b - 0xC0) * 0x40 + (c - 0x80), 2⟩ := by
  generalize hv : (b - 0xC0) * 0x40 + (c - 0x80) = v
  rw [classifyUtf8, if_pos hb']
  split
  · have hsmall : v < 0x80 := by omega
    exact complete_overlong hsmall
  · have hlarge : 0x80 ≤ v := by omega
    exact complete_success hlarge (fun hs => absurd hs.1 (by decide)) (by omega)

theorem complete_three (hb : 0xE0 ≤ b) (hb' : b < 0xF0) (hc : IsContinuation c)
    (hd : IsContinuation d) :
    Complete 3 (((b - 0xE0) * 0x40 + (c - 0x80)) * 0x40 + (d - 0x80))
      ⟨classifyUtf8 b c (((b - 0xE0) * 0x40 + (c - 0x80)) * 0x40 + (d - 0x80)),
        ((b - 0xE0) * 0x40 + (c - 0x80)) * 0x40 + (d - 0x80), 3⟩ := by
  generalize hv : ((b - 0xE0) * 0x40 + (c - 0x80)) * 0x40 + (d - 0x80) = v
  rw [classifyUtf8, if_neg (Nat.not_lt.2 hb), if_pos hb']
  split
  · next hsurrogate => exact complete_surrogate hsurrogate
  · next hsurrogate =>
    split
    · have hsmall : v < 0x800 := by omega
      exact complete_overlong hsmall
    · have hlarge : 0x800 ≤ v := by omega
      exact complete_success hlarge (fun hs => hsurrogate hs.2) (by omega)

theorem complete_four (hb : 0xF0 ≤ b) (hb' : b < 0xF8) (hc : IsContinuation c)
    (hd : IsContinuation d) (hf : IsContinuation f) :
    Complete 4 ((((b - 0xF0) * 0x40 + (c - 0x80)) * 0x40 + (d - 0x80)) * 0x40 + (f - 0x80))
      ⟨classifyUtf8 b c
          ((((b - 0xF0) * 0x40 + (c - 0x80)) * 0x40 + (d - 0x80)) * 0x40 + (f - 0x80)),
        (((b - 0xF0) * 0x40 + (c - 0x80)) * 0x40 + (d - 0x80)) * 0x40 + (f - 0x80), 4⟩ := by
  generalize hv : (((b - 0xF0) * 0x40 + (c - 0x80)) * 0x40 + (d - 0x80)) * 0x40 + (f - 0x80) = v
  rw [classifyUtf8, if_neg (by omega), if_neg (Nat.not_lt.2 hb)]
  split
  · next hrange => exact complete_outOfRange hrange
  · next hrange =>
    split
    · have hsmall : v < 0x10000 := by omega
      exact complete_overlong hsmall
    · have hlarge : 0x10000 ≤ v := by omega
      exact complete_success hlarge (fun hs => absurd hs.1 (by decide)) (Nat.not_lt.1 hrange)

/-- The bits of continuation bytes, taken out by difference or by remainder. -/
theorem assembled_payload (h : ∀ u ∈ tail, IsContinuation u) :
    assembled (payload b) tail = sequenceValue b tail := by
  refine List.foldl_ext _ _ _ fun v u hu => ?_
  have := h u hu
  omega

/-- A sequence is classified by the numbers, if that is so of those that are complete. -/
theorem decodeSequence_classifies (hcount : announced b = count + 1) (hbits : bits = payload b)
    (hcomplete : ∀ tail : List Nat, tail.length = count → (∀ u ∈ tail, IsContinuation u) →
      Complete (count + 1) (assembled bits tail)
        ⟨classifyUtf8 b (tail.headD 0) (assembled bits tail), assembled bits tail, count + 1⟩) :
    Classifies b (continuations (announced b - 1) rest) (decodeSequence b bits count rest) := by
  have hcont : ∀ u ∈ continuations count rest, IsContinuation u :=
    fun _ hu => isContinuation_of_mem hu
  have hannounced : announced b - 1 = count := by omega
  rw [hannounced]
  rcases Nat.lt_or_eq_of_le (length_continuations_le count rest) with h | h
  · rw [decodeSequence_of_lt h]
    refine ⟨?_, fun _ => rfl, fun hall => ?_⟩
    · simp only [true_iff]
      omega
    · omega
  · rw [decodeSequence_of_eq h]
    refine ⟨?_, fun hlt => ?_, fun _ => ?_⟩
    · simp only [(classifyUtf8_complete _ _ _).2, false_iff]
      omega
    · omega
    · subst hbits
      rw [hcount, ← assembled_payload hcont, Nat.add_comm 1]
      exact hcomplete _ h hcont

theorem classifies_one (hb : b < 0x80) :
    Classifies b (continuations (announced b - 1) rest) ⟨.success, b, 1⟩ := by
  have hone : announced b = 1 := if_pos hb
  have hvalue : sequenceValue b [] = b := if_pos hb
  rw [hone]
  refine ⟨?_, fun hlt => ?_, fun _ => ?_⟩
  · simp [hone]
  · rw [hone] at hlt
    exact absurd hlt (Nat.not_lt_zero _)
  · rw [hone, show continuations (1 - 1) rest = [] from rfl, hvalue]
    exact complete_one hb

theorem classifies_two (hb : 0xC0 ≤ b) (hb' : b < 0xE0) :
    Classifies b (continuations (announced b - 1) rest) (decodeSequence b (b - 0xC0) 1 rest) := by
  have htwo : announced b = 2 := by rw [announced, if_neg (by omega), if_pos hb']
  have hpayload : payload b = b % 0x20 := by rw [payload, if_neg (by omega), if_pos hb']
  refine decodeSequence_classifies htwo (by omega) fun tail hlength hcont => ?_
  obtain ⟨c, rfl⟩ := List.length_eq_one_iff.1 hlength
  exact complete_two hb hb' (hcont c (by simp))

theorem classifies_three (hb : 0xE0 ≤ b) (hb' : b < 0xF0) :
    Classifies b (continuations (announced b - 1) rest) (decodeSequence b (b - 0xE0) 2 rest) := by
  have hthree : announced b = 3 := by
    rw [announced, if_neg (by omega), if_neg (by omega), if_pos hb']
  have hpayload : payload b = b % 0x10 := by
    rw [payload, if_neg (by omega), if_neg (by omega), if_pos hb']
  refine decodeSequence_classifies hthree (by omega) fun tail hlength hcont => ?_
  obtain ⟨c, d, rfl⟩ := List.length_eq_two.1 hlength
  exact complete_three hb hb' (hcont c (by simp)) (hcont d (by simp))

theorem classifies_four (hb : 0xF0 ≤ b) (hb' : b < 0xF8) :
    Classifies b (continuations (announced b - 1) rest) (decodeSequence b (b - 0xF0) 3 rest) := by
  have hfour : announced b = 4 := by
    rw [announced, if_neg (by omega), if_neg (by omega), if_neg (by omega)]
  have hpayload : payload b = b % 0x08 := by
    rw [payload, if_neg (by omega), if_neg (by omega), if_neg (by omega)]
  refine decodeSequence_classifies hfour (by omega) fun tail hlength hcont => ?_
  obtain ⟨c, d, f, rfl⟩ := List.length_eq_three.1 hlength
  exact complete_four hb hb' (hcont c (by simp)) (hcont d (by simp)) (hcont f (by simp))

theorem decodeUtf8_classifies (hb : ¬ IsContinuation b) (hb' : b < 0xF8) :
    Classifies b (continuations (announced b - 1) rest) (decodeUtf8 (b :: rest)) := by
  rw [decodeUtf8]
  split
  · next h => exact classifies_one h
  · next h1 =>
    rw [if_neg (by omega)]
    split
    · next h2 => exact classifies_two (by omega) h2
    · next h2 =>
      split
      · next h3 => exact classifies_three (by omega) h3
      · exact classifies_four (by omega) hb'

/-- What is found of UTF-8, whatever the units are. -/
structure ClassifiesUtf8 (us : List Nat) (d : Decoding) : Prop where
  eof : d.status = .eof ↔ us = [] ∨ ∃ b rest, us = b :: rest ∧ 0xF8 ≤ b
  leads : d.status = .leadsWithContinuation ↔ ∃ b rest, us = b :: rest ∧ IsContinuation b
  sequence : ∀ b rest, us = b :: rest → ¬ IsContinuation b → b < 0xF8 →
    Classifies b (continuations (announced b - 1) rest) d

theorem decodeSequence_status_ne_eof (lead bits count : Nat) (rest : List Nat) :
    (decodeSequence lead bits count rest).status ≠ .eof := by
  rcases Nat.lt_or_eq_of_le (length_continuations_le count rest) with h | h
  · rw [decodeSequence_of_lt h]
    exact DecodeStatus.noConfusion
  · rw [decodeSequence_of_eq h]
    exact (classifyUtf8_complete _ _ _).1

theorem decodeUtf8_eof_iff : (decodeUtf8 (b :: rest)).status = .eof ↔ 0xF8 ≤ b := by
  rw [decodeUtf8]
  repeat' split
  · simp only [reduceCtorEq, false_iff]
    omega
  · simp only [reduceCtorEq, false_iff]
    omega
  · exact iff_of_false (decodeSequence_status_ne_eof _ _ _ _) (by omega)
  · exact iff_of_false (decodeSequence_status_ne_eof _ _ _ _) (by omega)
  · exact iff_of_false (decodeSequence_status_ne_eof _ _ _ _) (by omega)
  · exact iff_of_true rfl (by omega)

theorem decodeUtf8_leads_iff :
    (decodeUtf8 (b :: rest)).status = .leadsWithContinuation ↔ IsContinuation b := by
  rw [decodeUtf8]
  repeat' split
  · simp only [reduceCtorEq, false_iff]
    omega
  · exact iff_of_true rfl (by omega)
  · exact iff_of_false (decodeSequence_status_ne _ _ _ _) (by omega)
  · exact iff_of_false (decodeSequence_status_ne _ _ _ _) (by omega)
  · exact iff_of_false (decodeSequence_status_ne _ _ _ _) (by omega)
  · exact iff_of_false DecodeStatus.noConfusion (by omega)

theorem maxUnits_pos (e : Encoding) : 0 < e.maxUnits := by
  cases e <;> decide

theorem announced_le (b : Nat) : announced b ≤ 4 := by
  unfold announced
  repeat' split
  all_goals decide

/-- A decoder of four bytes sees all that there is to see. -/
theorem decodeUtf8_take_classifies (us : List Nat) :
    ClassifiesUtf8 us (decodeUtf8 (us.take 4)) := by
  cases us with
  | nil =>
    exact ⟨by simp [decodeUtf8, Decoding.atEnd], by simp [decodeUtf8, Decoding.atEnd], by simp⟩
  | cons b rest =>
    rw [List.take_succ_cons]
    refine ⟨?_, ?_, ?_⟩
    · rw [decodeUtf8_eof_iff]
      simp
    · rw [decodeUtf8_leads_iff]
      simp
    · rintro _ _ ⟨⟩ hb hb'
      have hle := announced_le b
      have hsees : continuations (announced b - 1) (rest.take 3) =
          continuations (announced b - 1) rest := by
        rw [continuations, List.take_take, Nat.min_eq_left (by omega)]
      rw [← hsees]
      exact decodeUtf8_classifies hb hb'

/-! ## Units that continue -/

/-- Units that stand behind the first one of a sequence only. -/
def Continues : Encoding → Nat → Prop
  | .utf8, u => IsContinuation u
  | .utf16, u => IsLowSurrogate u
  | _, _ => False

/-- No code point starts at such a unit. -/
theorem decode_of_continues {e : Encoding} {u : Nat} (h : e.Continues u) (rest : List Nat) :
    (e.decode (u :: rest)).status = .leadsWithContinuation := by
  cases e with
  | utf8 => exact decodeUtf8_leads_iff.2 h
  | utf16 =>
    have hlow : IsLowSurrogate u := h
    show (decodeUtf16 (u :: rest)).status = _
    rw [decodeUtf16.eq_def]
    simp only
    rw [if_neg (by omega), if_pos hlow]
  | ascii => exact h.elim
  | utf32 => exact h.elim

theorem decodeSequence_continues {i : Nat}
    (hi : i + 1 < (decodeSequence lead bits count rest).length) :
    ∃ u, rest[i]? = some u ∧ IsContinuation u := by
  rw [length_decodeSequence, Nat.add_comm i, Nat.add_lt_add_iff_left] at hi
  refine ⟨_, ?_, isContinuation_of_mem (List.getElem_mem hi)⟩
  rw [(continuations_prefix_rest count rest).getElem hi, List.getElem?_eq_getElem]

theorem decodeUtf8_continues {i : Nat} (hi : i + 1 < (decodeUtf8 (b :: rest)).length) :
    ∃ u, rest[i]? = some u ∧ IsContinuation u := by
  rw [decodeUtf8] at hi
  repeat' split at hi
  · exact absurd hi (Nat.not_lt.2 (Nat.le_add_left 1 i))
  · exact absurd hi (Nat.not_lt_zero _)
  · exact decodeSequence_continues hi
  · exact decodeSequence_continues hi
  · exact decodeSequence_continues hi
  · exact absurd hi (Nat.not_lt_zero _)

theorem decodeUtf16_length_le (h : (decodeUtf16 (b :: rest)).status ≠ .success) :
    (decodeUtf16 (b :: rest)).length ≤ 1 := by
  rw [decodeUtf16.eq_def] at h ⊢
  simp only at h ⊢
  split
  · next hhigh =>
    rw [if_pos hhigh] at h
    cases rest with
    | nil => exact Nat.le_refl 1
    | cons w rest =>
      simp only at h ⊢
      split
      · next hlow =>
        rw [if_pos hlow] at h
        exact absurd rfl h
      · exact Nat.le_refl 1
  · split
    · exact Nat.zero_le 1
    · exact Nat.le_refl 1

theorem decodeUtf32_length_le (us : List Nat) : (decodeUtf32 us).length ≤ 1 := by
  cases us with
  | nil => exact Nat.zero_le 1
  | cons u rest =>
    rw [decodeUtf32]
    repeat' split
    all_goals exact Nat.le_refl 1

theorem decodeAscii_length_le (us : List Nat) : (decodeAscii us).length ≤ 1 := by
  cases us with
  | nil => exact Nat.zero_le 1
  | cons u rest =>
    rw [decodeAscii]
    split
    all_goals exact Nat.le_refl 1

/-- Behind the first unit of what could not be decoded, only such units were taken. -/
theorem decode_continues {e : Encoding} {us : List Nat} {i : Nat}
    (h : (e.decode us).status ≠ .success) (hi : i + 1 < (e.decode us).length) :
    ∃ u, us[i + 1]? = some u ∧ e.Continues u := by
  have hone : ¬ (e.decode us).length ≤ 1 := by omega
  cases us with
  | nil =>
    rw [decode_nil] at hone
    exact absurd (Nat.zero_le 1) hone
  | cons b rest =>
    cases e with
    | utf8 =>
      show ∃ u, rest[i]? = some u ∧ IsContinuation u
      exact decodeUtf8_continues hi
    | utf16 => exact absurd (decodeUtf16_length_le h) hone
    | utf32 => exact absurd (decodeUtf32_length_le _) hone
    | ascii => exact absurd (decodeAscii_length_le _) hone

end

end Encoding

/-! ## At a cursor -/

namespace Decoding

variable {d : Decoding}

theorem extent_of_eof (h : d.status = .eof) : d.extent = 0 := by
  rw [extent, h]

theorem extent_pos {n : Nat} (hd : d.Reads n) (h : d.status ≠ .eof) : 0 < d.extent := by
  unfold extent
  split
  · next hs => exact absurd hs h
  · exact Nat.one_pos
  · next hs =>
    apply Nat.pos_of_ne_zero
    intro hzero
    exact (hd.status_of_length hzero).elim h hs

theorem extent_sub_one_le (d : Decoding) : d.extent - 1 ≤ d.length - 1 := by
  unfold extent
  split
  · exact Nat.zero_le _
  · exact Nat.zero_le _
  · exact Nat.le_refl _

end Decoding

namespace Cursor

variable {c : Cursor} {us : List Nat}

/-- Going on at `q` is a recovery from what was decoded: at least one unit is passed over,
unless the end was found, and no code point starts at any of them but the first one. -/
structure Recovers (c : Cursor) (q : Nat) : Prop where
  stays : c.decode.status = .eof → q = c.position
  moves : c.decode.status ≠ .eof → c.position < q
  le_stop : q ≤ c.stop
  continues : ∀ i, c.position < i → i < q →
    ∃ u, c.source.units[i]? = some u ∧ c.source.encoding.Continues u ∧
      ({ c with position := i } : Cursor).decode.status = .leadsWithContinuation

theorem recover_extent (h : c.decode.status ≠ .success) :
    c.recover c.decode = .ok { c with position := c.position + c.decode.extent } := by
  have hlength := c.decode_length_le
  unfold recover Decoding.extent
  cases hs : c.decode.status with
  | success => exact absurd hs h
  | eof => rfl
  | leadsWithContinuation =>
    have hlt : c.position < c.stop := lt_stop_of_decode (by rw [hs]; exact DecodeStatus.noConfusion)
    exact if_pos hlt
  | _ =>
    have hlt : c.position < c.stop := lt_stop_of_decode (by rw [hs]; exact DecodeStatus.noConfusion)
    exact moveTo_eq (by omega)

theorem decode_behind_of_continues (hrest : c.remaining = .ok us) {i u : Nat}
    (hu : us[i]? = some u) (h : c.source.encoding.Continues u) :
    (c.behind i).decode.status = .leadsWithContinuation := by
  obtain ⟨hi, rfl⟩ := List.getElem?_eq_some_iff.1 hu
  have hnext := remaining_behind hrest (Nat.le_of_lt hi)
  rw [List.drop_eq_getElem_cons hi] at hnext
  obtain ⟨n, hn⟩ := Nat.exists_eq_add_one.2 c.source.encoding.maxUnits_pos
  rw [decode, ahead_eq_take hnext]
  show (c.source.encoding.decode (List.take c.source.encoding.maxUnits _)).status = _
  rw [hn, List.take_succ_cons]
  exact Encoding.decode_of_continues h _

/-- Recovery passes over at least one unit, and over more of them only as long as they
continue. -/
theorem recovers (hc : c.Valid) (h : c.decode.status ≠ .success) :
    c.Recovers (c.position + c.decode.extent) := by
  have hrest := c.remaining_eq hc
  generalize (c.source.units.toList.drop c.position).take (c.stop - c.position) = us at hrest
  obtain ⟨q, hq, -, hstop⟩ := recover_eq hc.position_le h
  rw [recover_extent h] at hq
  obtain rfl : c.position + c.decode.extent = q := congrArg position (Except.ok.inj hq)
  refine ⟨fun hs => ?_, fun hs => ?_, hstop, fun i hi hiq => ?_⟩
  · rw [Decoding.extent_of_eof hs, Nat.add_zero]
  · exact Nat.lt_add_of_pos_right (Decoding.extent_pos (c.source.encoding.decode_reads _) hs)
  · obtain ⟨k, rfl⟩ := Nat.exists_eq_add_of_lt hi
    have hextent := c.decode.extent_sub_one_le
    have hk : k + 1 < c.decode.length := by omega
    rw [decode, ahead_eq_take hrest] at h hk
    obtain ⟨u, hu, hcontinues⟩ := Encoding.decode_continues h hk
    have hus : us[k + 1]? = some u := by
      rw [List.getElem?_take] at hu
      split at hu
      · exact hu
      · cases hu
    have hleads := decode_behind_of_continues hrest hus hcontinues
    refine ⟨u, ?_, hcontinues, hleads⟩
    rw [← peekAt_eq_getElem? hrest, peekAt] at hus
    split at hus
    · exact hus
    · cases hus

/-- What is decoded of UTF-8 is told by numbers: how many bytes are announced, how many of them
are there, and which number they make.  In every encoding, recovery from malformed units goes on
in front of the next unit that a code point could start with, if not earlier. -/
theorem decode_classifies (hc : c.Valid) :
    ∃ us, c.remaining = .ok us ∧
      (c.source.encoding = .utf8 → Encoding.ClassifiesUtf8 us c.decode) ∧
      (c.decode.status ≠ .success → ∃ q,
        c.recover c.decode = .ok { c with position := q } ∧ c.Recovers q) := by
  have hrest := c.remaining_eq hc
  refine ⟨_, hrest, fun he => ?_, fun h => ⟨_, recover_extent h, recovers hc h⟩⟩
  rw [decode, ahead_eq_take hrest, he]
  exact Encoding.decodeUtf8_take_classifies _

/-- Four bytes are announced and the last one is missing: a letter stands in its place, and
recovery stops in front of it. -/
theorem decode_classifies_cut_short :
    let c : Cursor := ⟨⟨.utf8, #[0xF0, 0x9F, 0x98, 0x41], by decide⟩, 0, 4⟩
    c.Valid ∧ c.decode = ⟨.missingContinuation, 0, 3⟩ ∧
      Encoding.Classifies 0xF0 [0x9F, 0x98] c.decode ∧
      c.recover c.decode = .ok { c with position := 3 } ∧ c.Recovers 3 := by
  intro c
  have hc : c.Valid := ⟨by decide, by decide⟩
  have hdecode : c.decode = ⟨.missingContinuation, 0, 3⟩ := by decide
  have hrecover : c.recover c.decode = .ok { c with position := 3 } := by
    rw [hdecode]
    rfl
  obtain ⟨us, hus, hutf8, hrecovers⟩ := decode_classifies hc
  obtain rfl : [0xF0, 0x9F, 0x98, 0x41] = us := Except.ok.inj hus
  obtain ⟨q, hq, hrecovers⟩ := hrecovers (by rw [hdecode]; decide)
  obtain rfl : 3 = q := congrArg position (Except.ok.inj (hrecover.symm.trans hq))
  exact ⟨hc, hdecode, (hutf8 rfl).sequence _ _ rfl (by decide) (by decide), hrecover, hrecovers⟩

end Cursor

end Phrase
