import Phrase.Encoding.Lossy
import Phrase.Proofs.Encoding.Text

/-!
# Showing what was encoded

Units that encode a text show as that text: each character's units show as the character,
whatever follows them.
-/

namespace Phrase

theorem CodePoint.toChar?_toNat (c : Char) : toChar? c.toNat = some c := by
  have hvalid : c.toNat.isValidChar := c.valid
  have hc := Char.ofNat_toNat c
  rw [Char.ofNat, dif_pos hvalid] at hc
  rw [toChar?, dif_pos hvalid, hc]

namespace Encoding

variable {e : Encoding} {cs : List Char} {rest : List Nat}

/-! ## UTF-8 -/

theorem showUtf8_eq {lead low high count second : Nat} {tail : List Nat} (hlead : 0x80 ≤ lead)
    (hsecond : secondByte? lead = some (low, high, count)) (hlow : low ≤ second)
    (hhigh : second ≤ high) (hcount : tail.length + 1 = count)
    (htail : ∀ u ∈ tail, 0x80 ≤ u ∧ u ≤ 0xBF) (rest : List Nat) :
    showUtf8 lead (second :: (tail ++ rest)) =
      (Char.ofNat ((second :: tail).foldl (fun v u => v * 0x40 + u % 0x40)
        (lead % (if count = 1 then 0x20 else if count = 2 then 0x10 else 0x08))), count) := by
  have htake : (tail ++ rest).take (count - 1) = tail := List.take_left' (by omega)
  have hall : tail.takeWhile (fun u => decide (0x80 ≤ u ∧ u ≤ 0xBF)) = tail := by
    rw [← List.append_nil tail, List.takeWhile_append_of_pos fun u hu => decide_eq_true (htail u hu)]
    rfl
  rw [showUtf8.eq_def, if_neg (by omega), hsecond]
  simp only
  rw [if_pos ⟨hlow, hhigh⟩, htake, hall, if_neg (by rw [List.length_cons]; omega)]

theorem secondByte?_two {lead : Nat} (h : 0xC2 ≤ lead) (h' : lead < 0xE0) :
    secondByte? lead = some (0x80, 0xBF, 1) := by
  rw [secondByte?, if_neg (by omega), if_pos h']

theorem secondByte?_three (lead : Nat) (h : 0xE0 ≤ lead) (h' : lead < 0xF0) :
    ∃ low high, secondByte? lead = some (low, high, 2) ∧
      low = (if lead = 0xE0 then 0xA0 else 0x80) ∧ high = if lead = 0xED then 0x9F else 0xBF := by
  rw [secondByte?, if_neg (by omega), if_neg (by omega)]
  split
  · next hlead => exact ⟨_, _, rfl, rfl, by rw [if_neg (by omega)]⟩
  · split
    · exact ⟨_, _, rfl, rfl, rfl⟩
    · exact ⟨_, _, rfl, rfl, rfl⟩

theorem secondByte?_four (lead : Nat) (h : 0xF0 ≤ lead) (h' : lead ≤ 0xF4) :
    ∃ low high, secondByte? lead = some (low, high, 3) ∧
      low = (if lead = 0xF0 then 0x90 else 0x80) ∧ high = if lead = 0xF4 then 0x8F else 0xBF := by
  rw [secondByte?, if_neg (by omega), if_neg (by omega), if_neg (by omega), if_neg (by omega),
    if_neg (by omega)]
  split
  · next hlead => exact ⟨_, _, rfl, rfl, by rw [if_neg (by omega)]⟩
  · next hlead =>
    split
    · exact ⟨_, _, rfl, rfl, by rw [if_neg (by omega)]⟩
    · rw [if_pos (by omega)]
      exact ⟨_, _, rfl, rfl, by rw [if_pos (by omega)]⟩

/-! ## Characters -/

theorem showFront_utf8 (c : Char) (rest : List Nat) : ∃ u us, utf8Units c.toNat = u :: us ∧
    showUtf8 u (us ++ rest) = (c, us.length) := by
  obtain ⟨hmax, hsurrogate⟩ := CodePoint.isScalar_toNat c
  have hshow : ∀ v, v = c.toNat → Char.ofNat v = c := by
    rintro v rfl
    exact Char.ofNat_toNat c
  generalize c.toNat = v at *
  rw [utf8Units]
  split
  · next h1 =>
    refine ⟨_, _, rfl, ?_⟩
    rw [showUtf8.eq_def, if_pos (by omega), hshow v rfl]
    rfl
  · split
    · refine ⟨_, _, rfl, ?_⟩
      rw [List.cons_append, showUtf8_eq (by omega) (secondByte?_two (by omega) (by omega))
        (by omega) (by omega) rfl (fun _ hu => absurd hu List.not_mem_nil), hshow]
      · rfl
      · simp only [List.foldl_cons, List.foldl_nil, if_true]
        omega
    · split
      · refine ⟨_, _, rfl, ?_⟩
        obtain ⟨low, high, hsecond, hlow, hhigh⟩ :=
          secondByte?_three (0xE0 + v / 0x1000) (by omega) (by omega)
        have htail : ∀ u ∈ [0x80 + v % 0x40], 0x80 ≤ u ∧ u ≤ 0xBF := by
          intro u hu
          rw [List.mem_singleton.1 hu]
          omega
        rw [List.cons_append, showUtf8_eq (by omega) hsecond (by rw [hlow]; split <;> omega)
          (by rw [hhigh]; split <;> omega) rfl htail, hshow]
        · rfl
        · simp only [List.foldl_cons, List.foldl_nil, if_true, Nat.reduceEqDiff, if_false]
          omega
      · refine ⟨_, _, rfl, ?_⟩
        obtain ⟨low, high, hsecond, hlow, hhigh⟩ :=
          secondByte?_four (0xF0 + v / 0x40000) (by omega) (by omega)
        have htail : ∀ u ∈ [0x80 + v / 0x40 % 0x40, 0x80 + v % 0x40], 0x80 ≤ u ∧ u ≤ 0xBF := by
          intro u hu
          simp only [List.mem_cons, List.not_mem_nil, or_false] at hu
          omega
        rw [List.cons_append, showUtf8_eq (by omega) hsecond (by rw [hlow]; split <;> omega)
          (by rw [hhigh]; split <;> omega) rfl htail, hshow]
        · rfl
        · simp only [List.foldl_cons, List.foldl_nil, Nat.reduceEqDiff, if_false]
          omega

theorem showFront_utf16 (c : Char) (rest : List Nat) : ∃ u us, utf16Units c.toNat = u :: us ∧
    showUtf16 u (us ++ rest) = (c, us.length) := by
  obtain ⟨hmax, hsurrogate⟩ := CodePoint.isScalar_toNat c
  rw [utf16Units]
  split
  · refine ⟨_, _, rfl, ?_⟩
    rw [showUtf16.eq_def, if_neg (by omega), CodePoint.toChar?_toNat]
    rfl
  · refine ⟨_, _, rfl, ?_⟩
    have hvalue : 0x10000 + ((0xD800 + (c.toNat - 0x10000) / 0x400) % 0x400) * 0x400 +
        (0xDC00 + (c.toNat - 0x10000) % 0x400) % 0x400 = c.toNat := by omega
    rw [List.cons_append, showUtf16, if_pos (by omega), if_pos (by omega), hvalue,
      Char.ofNat_toNat]
    rfl

/-- The units of a character show as it, whatever follows them. -/
theorem showFront_charUnits (c : Char) (hc : e.CanEncode c.toNat) (rest : List Nat) :
    ∃ u us, e.charUnits c = u :: us ∧ e.showFront u (us ++ rest) = (c, us.length) := by
  have hunits := units?_of_canEncode hc
  rw [units?.eq_def, if_pos hc, Option.some.injEq] at hunits
  rw [← hunits]
  cases e with
  | ascii =>
    refine ⟨_, _, rfl, ?_⟩
    simp only [showFront]
    rw [if_pos (show c.toNat ≤ 0x7F from hc), Char.ofNat_toNat]
    rfl
  | utf8 => exact showFront_utf8 c rest
  | utf16 => exact showFront_utf16 c rest
  | utf32 =>
    refine ⟨_, _, rfl, ?_⟩
    simp only [showFront]
    rw [CodePoint.toChar?_toNat]
    rfl

/-! ## Texts -/

theorem showFrom_append (us rest : List Nat) :
    e.showFrom us.length (us ++ rest) = e.showFrom 0 rest := by
  induction us with
  | nil => rfl
  | cons u us ih => exact ih

theorem showFrom_charsUnits (hcs : e.CanEncodeAll cs) : e.showFrom 0 (e.charsUnits cs) = cs := by
  induction cs with
  | nil => rfl
  | cons c cs ih =>
    obtain ⟨hc, hcs⟩ := canEncodeAll_cons.1 hcs
    obtain ⟨u, us, hunits, hshow⟩ := showFront_charUnits c hc (e.charsUnits cs)
    rw [charsUnits_cons, hunits, List.cons_append, showFrom, hshow]
    simp only
    rw [showFrom_append, ih hcs]

/-- Encoded characters show as the text that they make up. -/
theorem display_charsUnits (hcs : e.CanEncodeAll cs) :
    e.display (e.charsUnits cs) = String.ofList cs := by
  rw [display, showFrom_charsUnits hcs]

end Encoding

end Phrase
