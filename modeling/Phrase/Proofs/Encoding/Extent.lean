import Phrase.Encoding.Decoding

/-!
# How far decoding reads

Decoding takes no more units than there are, and it takes some unless it finds the end or a
continuation unit in front (`Encoding.decode_reads`).
-/

namespace Phrase

/-- The attempt took at most `n` units, and none only where there is nothing to take. -/
structure Decoding.Reads (d : Decoding) (n : Nat) : Prop where
  length_le : d.length ≤ n
  status_of_length : d.length = 0 → d.status = .eof ∨ d.status = .leadsWithContinuation

namespace Encoding

theorem reads_atEnd (n : Nat) : Decoding.atEnd.Reads n := ⟨Nat.zero_le n, fun _ => Or.inl rfl⟩

theorem reads_one (status : DecodeStatus) (value : Nat) (rest : List Nat) :
    Decoding.Reads ⟨status, value, 1⟩ (rest.length + 1) :=
  ⟨Nat.le_add_left 1 _, fun h => by cases h⟩

theorem reads_continuation (value n : Nat) :
    Decoding.Reads ⟨.leadsWithContinuation, value, 0⟩ n :=
  ⟨Nat.zero_le n, fun _ => Or.inr rfl⟩

theorem decodeSequence_reads (lead bits count : Nat) (rest : List Nat) :
    (decodeSequence lead bits count rest).Reads (rest.length + 1) := by
  unfold decodeSequence
  generalize htail : (rest.take count).takeWhile (fun u => decide (IsContinuation u)) = tail
  have hle : tail.length ≤ rest.length := by
    rw [← htail]
    exact Nat.le_trans (List.takeWhile_sublist _).length_le (List.length_take_le' _ _)
  simp only
  split
  · exact ⟨by simp only; omega, fun h => by simp only at h; omega⟩
  · exact ⟨by simp only; omega, fun h => by simp only at h; omega⟩

theorem decodeUtf8_reads (u : Nat) (rest : List Nat) :
    (decodeUtf8 (u :: rest)).Reads (rest.length + 1) := by
  rw [decodeUtf8]
  split
  · exact reads_one _ _ _
  · split
    · exact reads_continuation _ _
    · repeat' split
      · exact decodeSequence_reads _ _ _ _
      · exact decodeSequence_reads _ _ _ _
      · exact decodeSequence_reads _ _ _ _
      · exact reads_atEnd _

theorem decodeUtf16_reads (u : Nat) (rest : List Nat) :
    (decodeUtf16 (u :: rest)).Reads (rest.length + 1) := by
  rw [decodeUtf16.eq_def]
  simp only
  split
  · cases rest with
    | nil => exact reads_one _ _ []
    | cons w rest =>
      simp only
      split
      · exact ⟨by simp, fun h => by cases h⟩
      · exact reads_one _ _ (w :: rest)
  · split
    · exact reads_continuation _ _
    · exact reads_one _ _ _

theorem decode_reads (e : Encoding) (us : List Nat) : (e.decode us).Reads us.length := by
  cases us with
  | nil => cases e <;> exact reads_atEnd _
  | cons u rest =>
    cases e with
    | ascii =>
      show (decodeAscii (u :: rest)).Reads (rest.length + 1)
      rw [decodeAscii]
      split
      · exact reads_one _ _ _
      · exact reads_one _ _ _
    | utf8 => exact decodeUtf8_reads u rest
    | utf16 => exact decodeUtf16_reads u rest
    | utf32 =>
      show (decodeUtf32 (u :: rest)).Reads (rest.length + 1)
      rw [decodeUtf32]
      split
      · exact reads_one _ _ _
      · split
        · exact reads_one _ _ _
        · exact reads_one _ _ _

theorem decode_nil (e : Encoding) : e.decode [] = .atEnd := by
  cases e <;> rfl

/-! ## Continuation units in front -/

theorem classifyUtf8_ne (lead second value : Nat) :
    classifyUtf8 lead second value ≠ .leadsWithContinuation := by
  unfold classifyUtf8
  repeat' split
  all_goals exact DecodeStatus.noConfusion

theorem decodeSequence_status_ne (lead bits count : Nat) (rest : List Nat) :
    (decodeSequence lead bits count rest).status ≠ .leadsWithContinuation := by
  unfold decodeSequence
  simp only
  split
  · exact DecodeStatus.noConfusion
  · exact classifyUtf8_ne _ _ _

theorem decodeUtf8_length_eq_zero (u : Nat) (rest : List Nat)
    (h : (decodeUtf8 (u :: rest)).status = .leadsWithContinuation) :
    (decodeUtf8 (u :: rest)).length = 0 := by
  rw [decodeUtf8] at h ⊢
  split at h
  · cases h
  · next hascii =>
    rw [if_neg hascii]
    split at h
    · next hcontinuation => rw [if_pos hcontinuation]
    · repeat' split at h
      · exact absurd h (decodeSequence_status_ne _ _ _ _)
      · exact absurd h (decodeSequence_status_ne _ _ _ _)
      · exact absurd h (decodeSequence_status_ne _ _ _ _)
      · cases h

theorem decodeUtf16_length_eq_zero (u : Nat) (rest : List Nat)
    (h : (decodeUtf16 (u :: rest)).status = .leadsWithContinuation) :
    (decodeUtf16 (u :: rest)).length = 0 := by
  rw [decodeUtf16.eq_def] at h ⊢
  simp only at h ⊢
  split at h
  · cases rest with
    | nil => cases h
    | cons w rest =>
      simp only at h
      split at h
      · cases h
      · cases h
  · next hhigh =>
    rw [if_neg hhigh]
    split at h
    · next hlow => rw [if_pos hlow]
    · cases h

/-- A continuation unit in front is not part of what is decoded. -/
theorem decode_length_eq_zero {e : Encoding} {us : List Nat}
    (h : (e.decode us).status = .leadsWithContinuation) : (e.decode us).length = 0 := by
  cases us with
  | nil =>
    rw [decode_nil]
    rfl
  | cons u rest =>
    cases e with
    | ascii =>
      change (decodeAscii (u :: rest)).status = _ at h
      rw [decodeAscii] at h
      split at h
      · cases h
      · cases h
    | utf8 => exact decodeUtf8_length_eq_zero u rest h
    | utf16 => exact decodeUtf16_length_eq_zero u rest h
    | utf32 =>
      change (decodeUtf32 (u :: rest)).status = _ at h
      rw [decodeUtf32] at h
      split at h
      · cases h
      · split at h
        · cases h
        · cases h

end Encoding

end Phrase
