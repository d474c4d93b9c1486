import Phrase.Proofs.Encoding.Inverse

/-!
# Encoded texts

The units of a text are those of its characters, one behind the other.  The units of one
character never start those of another, so encoded texts split into characters in one way only.
-/

namespace Phrase

namespace Encoding

variable {e : Encoding} {v w : Nat} {us ws rest more : List Nat} {cs ds : List Char}

/-! ## Characters -/

theorem ne_nil_of_units? (h : e.units? v = some us) : us ≠ [] := by
  rintro rfl
  have hread := decode_append [] h
  cases e with
  | ascii => cases hread
  | utf8 => cases hread
  | utf16 => cases hread
  | utf32 => cases hread

/-- The units of one code point never start those of another. -/
theorem units?_append_inj (hv : e.units? v = some us) (hw : e.units? w = some ws)
    (h : us ++ rest = ws ++ more) : v = w ∧ us = ws ∧ rest = more := by
  have hread := decode_append rest hv
  rw [h, decode_append _ hw, Decoding.mk.injEq] at hread
  obtain ⟨-, rfl, -⟩ := hread
  obtain rfl := Option.some.inj (hv.symm.trans hw)
  exact ⟨rfl, rfl, List.append_cancel_left h⟩

/-- The units of a character, none if the encoding cannot represent it. -/
def charUnits (e : Encoding) (c : Char) : List Nat := (e.units? c.toNat).getD []

/-- The encoding can represent all of these characters. -/
def CanEncodeAll (e : Encoding) (cs : List Char) : Prop := ∀ c ∈ cs, e.CanEncode c.toNat

theorem canEncodeAll_nil : e.CanEncodeAll [] := fun _ hc => nomatch hc

theorem canEncodeAll_cons {c : Char} :
    e.CanEncodeAll (c :: cs) ↔ e.CanEncode c.toNat ∧ e.CanEncodeAll cs := List.forall_mem_cons

theorem units?_of_canEncode {c : Char} (h : e.CanEncode c.toNat) :
    e.units? c.toNat = some (e.charUnits c) := by
  obtain ⟨us, hus⟩ := units?_eq_some_iff.2 h
  rw [charUnits, hus]
  rfl

theorem canEncode_of_ne_ascii (he : e ≠ .ascii) (c : Char) : e.CanEncode c.toNat := by
  cases e with
  | ascii => exact absurd rfl he
  | utf8 => exact CodePoint.isScalar_toNat c
  | utf16 => exact CodePoint.isScalar_toNat c
  | utf32 => exact CodePoint.isScalar_toNat c

/-- Every encoding represents a text, ASCII as long as the text is of ASCII. -/
theorem canEncodeAll_of_ascii (h : e = .ascii → ∀ c ∈ cs, CodePoint.IsAscii c.toNat) :
    e.CanEncodeAll cs := by
  by_cases he : e = .ascii
  · subst he
    exact h rfl
  · exact fun c _ => canEncode_of_ne_ascii he c

/-- An ASCII character is the same single unit in every encoding. -/
theorem charUnits_of_ascii (e : Encoding) {c : Char} (h : CodePoint.IsAscii c.toNat) :
    e.charUnits c = [c.toNat] := by
  have hscalar := CodePoint.isScalar_toNat c
  cases e with
  | ascii => rw [charUnits, units?, if_pos (show ascii.CanEncode _ from h)]; rfl
  | utf8 =>
    rw [charUnits, units?, if_pos (show utf8.CanEncode _ from hscalar), utf8Units, if_pos h]
    rfl
  | utf16 =>
    rw [charUnits, units?, if_pos (show utf16.CanEncode _ from hscalar), utf16Units,
      if_pos (by omega)]
    rfl
  | utf32 => rw [charUnits, units?, if_pos (show utf32.CanEncode _ from hscalar)]; rfl

/-- The units of any other character are none of ASCII. -/
theorem le_of_mem_charUnits {c : Char} {u : Nat} (hc : e.CanEncode c.toNat)
    (h : ¬ CodePoint.IsAscii c.toNat) (hu : u ∈ e.charUnits c) : 0x80 ≤ u := by
  have hunits := units?_of_canEncode hc
  rw [units?.eq_def, if_pos hc, Option.some.injEq] at hunits
  rw [← hunits] at hu
  cases e with
  | ascii => exact absurd hc h
  | utf8 =>
    simp only [utf8Units] at hu
    split at hu
    · next hle => exact absurd hle h
    · split at hu
      · simp only [List.mem_cons, List.not_mem_nil, or_false] at hu; omega
      · split at hu
        · simp only [List.mem_cons, List.not_mem_nil, or_false] at hu; omega
        · simp only [List.mem_cons, List.not_mem_nil, or_false] at hu; omega
  | utf16 =>
    simp only [utf16Units] at hu
    split at hu
    · simp only [List.mem_singleton] at hu; omega
    · simp only [List.mem_cons, List.not_mem_nil, or_false] at hu; omega
  | utf32 => simp only [List.mem_singleton] at hu; omega

/-- The first of them. -/
theorem charUnits_of_not_ascii {c : Char} (hc : e.CanEncode c.toNat)
    (h : ¬ CodePoint.IsAscii c.toNat) : ∃ u us, e.charUnits c = u :: us ∧ 0x80 ≤ u := by
  cases hunits : e.charUnits c with
  | nil => exact absurd hunits (ne_nil_of_units? (units?_of_canEncode hc))
  | cons u us => exact ⟨u, us, rfl, le_of_mem_charUnits hc h (hunits ▸ List.mem_cons_self)⟩

/-! ## Texts -/

/-- The units of some characters. -/
def charsUnits (e : Encoding) (cs : List Char) : List Nat := cs.flatMap e.charUnits

theorem charsUnits_nil : e.charsUnits [] = [] := rfl

theorem charsUnits_cons (c : Char) (cs : List Char) :
    e.charsUnits (c :: cs) = e.charUnits c ++ e.charsUnits cs := rfl

theorem charsUnits_append (cs ds : List Char) :
    e.charsUnits (cs ++ ds) = e.charsUnits cs ++ e.charsUnits ds := List.flatMap_append

/-- A text of ASCII is written character by character, in every encoding. -/
theorem charsUnits_of_ascii (h : ∀ c ∈ cs, CodePoint.IsAscii c.toNat) :
    e.charsUnits cs = cs.map Char.toNat := by
  induction cs with
  | nil => rfl
  | cons c cs ih =>
    obtain ⟨hc, hcs⟩ := List.forall_mem_cons.1 h
    rw [charsUnits_cons, charUnits_of_ascii e hc, ih hcs, List.map_cons, List.singleton_append]

theorem encodeText_eq (text : String) : e.encodeText text = e.charsUnits text.toList := rfl

theorem mapM_units?_eq_some_iff (cs : List Char) (us : List Nat) :
    (cs.mapM fun c => e.units? c.toNat).map List.flatten = some us ↔
      e.CanEncodeAll cs ∧ us = e.charsUnits cs := by
  induction cs generalizing us with
  | nil => simp [canEncodeAll_nil, charsUnits_nil, eq_comm]
  | cons c cs ih =>
    simp only [Option.map_eq_some_iff] at ih
    simp only [List.mapM_cons, Option.map_eq_some_iff, Option.bind_eq_bind,
      Option.bind_eq_some_iff, canEncodeAll_cons, charsUnits_cons]
    constructor
    · rintro ⟨_, ⟨vs, hvs, vss, hvss, hcons⟩, rfl⟩
      obtain rfl := Option.some.inj hcons
      obtain ⟨hcs, htail⟩ := (ih _).1 ⟨vss, hvss, rfl⟩
      have hc : e.CanEncode c.toNat := units?_eq_some_iff.1 ⟨vs, hvs⟩
      refine ⟨⟨hc, hcs⟩, ?_⟩
      rw [units?_of_canEncode hc] at hvs
      rw [List.flatten_cons, htail, Option.some.inj hvs]
    · rintro ⟨⟨hc, hcs⟩, rfl⟩
      obtain ⟨vss, hvss, htail⟩ := (ih _).2 ⟨hcs, rfl⟩
      exact ⟨e.charUnits c :: vss, ⟨_, units?_of_canEncode hc, vss, hvss, rfl⟩,
        by rw [List.flatten_cons, htail]⟩

/-- A text is encoded exactly if all of its characters can be represented. -/
theorem encodeText?_eq_some_iff {text : String} :
    e.encodeText? text = some us ↔ e.CanEncodeAll text.toList ∧ us = e.encodeText text :=
  mapM_units?_eq_some_iff text.toList us

/-- Encoded characters start with others exactly if the characters do. -/
theorem charsUnits_prefix_iff (hcs : e.CanEncodeAll cs) (hds : e.CanEncodeAll ds) :
    e.charsUnits ds <+: e.charsUnits cs ↔ ds <+: cs := by
  constructor
  · intro h
    induction ds generalizing cs with
    | nil => exact List.nil_prefix
    | cons d ds ih =>
      obtain ⟨hd, hds⟩ := canEncodeAll_cons.1 hds
      obtain ⟨more, hmore⟩ := h
      cases cs with
      | nil =>
        have hne := ne_nil_of_units? (units?_of_canEncode hd)
        rw [charsUnits_nil, charsUnits_cons, List.append_assoc] at hmore
        exact absurd (List.append_eq_nil_iff.1 hmore).1 hne
      | cons c cs =>
        obtain ⟨hc, hcs⟩ := canEncodeAll_cons.1 hcs
        rw [charsUnits_cons, charsUnits_cons, List.append_assoc] at hmore
        obtain ⟨hdc, -, htail⟩ :=
          units?_append_inj (units?_of_canEncode hd) (units?_of_canEncode hc) hmore
        rw [Char.toNat_inj.1 hdc]
        exact List.cons_prefix_cons.2 ⟨rfl, ih hcs hds ⟨more, htail⟩⟩
  · rintro ⟨more, rfl⟩
    exact ⟨e.charsUnits more, (charsUnits_append ds more).symm⟩

/-- Characters that are encoded alike are the same. -/
theorem charsUnits_inj (hcs : e.CanEncodeAll cs) (hds : e.CanEncodeAll ds)
    (h : e.charsUnits cs = e.charsUnits ds) : cs = ds := by
  have hds_le := (charsUnits_prefix_iff hcs hds).1 (h ▸ List.prefix_rfl)
  have hcs_le := (charsUnits_prefix_iff hds hcs).1 (h ▸ List.prefix_rfl)
  exact hcs_le.eq_of_length_le hds_le.length_le

/-- Among the starts of a text, one that has no more units has no more characters. -/
theorem length_charsUnits_le_iff {ks ls : List Char} (hcs : e.CanEncodeAll cs) (hks : ks <+: cs)
    (hls : ls <+: cs) :
    (e.charsUnits ks).length ≤ (e.charsUnits ls).length ↔ ks.length ≤ ls.length := by
  have hk : e.CanEncodeAll ks := fun x hx => hcs x (hks.subset hx)
  have hl : e.CanEncodeAll ls := fun x hx => hcs x (hls.subset hx)
  constructor
  · intro hle
    have hunits := List.prefix_of_prefix_length_le ((charsUnits_prefix_iff hcs hk).2 hks)
      ((charsUnits_prefix_iff hcs hl).2 hls) hle
    exact ((charsUnits_prefix_iff hl hk).1 hunits).length_le
  · intro hle
    have hchars := List.prefix_of_prefix_length_le hks hls hle
    exact ((charsUnits_prefix_iff hl hk).2 hchars).length_le

/-- Texts that are encoded alike are the same. -/
theorem encodeText?_inj {a b : String} (ha : e.encodeText? a = some us)
    (hb : e.encodeText? b = some us) : a = b := by
  obtain ⟨hcanA, rfl⟩ := encodeText?_eq_some_iff.1 ha
  obtain ⟨hcanB, h⟩ := encodeText?_eq_some_iff.1 hb
  exact String.toList_inj.1 (charsUnits_inj hcanA hcanB h)

end Encoding

end Phrase
