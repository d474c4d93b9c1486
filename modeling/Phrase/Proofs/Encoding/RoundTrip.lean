import Phrase.Proofs.Encoding.Characters
import Phrase.Proofs.Encoding.Display
import Phrase.Proofs.Rule.Stepwise

/-!
# Reading a source from its start to its end

Units are read as code points, one behind the other, or they are shown as text at once.  Both
accept the same units: those that encode a text can be read up to the end, and then what is read
are the characters that are shown; and where the units are not those of the text that they show
as, reading gets stuck (`Source.decodes_iff`).
-/

namespace Phrase

open Encoding

/-- Reading from the position on and moving behind every code point, without a failure, gives
these code points and ends where the cursor does. -/
inductive Cursor.Decodes : Cursor → List Nat → Prop
  | done {c : Cursor} (h : c.position = c.stop) : Decodes c []
  | step {c next : Cursor} {vs : List Nat} (h : c.decode.status = .success)
      (hnext : c.moveTo (c.position + c.decode.length) = .ok next) (hvs : Decodes next vs) :
      Decodes c (c.decode.value :: vs)

namespace Cursor

variable {c : Cursor} {vs : List Nat} {cs : List Char}

/-- What has been read are characters, and the cursor has stood in front of their units. -/
theorem Decodes.exists_sees (h : c.Decodes vs) (hc : c.Valid) :
    ∃ cs, c.Sees cs ∧ vs = cs.map Char.toNat := by
  induction h with
  | @done c h =>
    refine ⟨[], ⟨canEncodeAll_nil, (remaining_eq hc).trans ?_⟩, rfl⟩
    rw [h, Nat.sub_self, List.take_zero]
    rfl
  | @step c next vs h hnext _ ih =>
    have hrest := remaining_eq hc
    generalize (c.source.units.toList.drop c.position).take (c.stop - c.position) = rest at hrest
    have hunits := units?_of_decode hrest h
    have hlength := c.decode_length_le
    have hle := hc.position_le
    rw [moveTo_eq (by omega)] at hnext
    obtain rfl := Except.ok.inj hnext
    obtain ⟨cs, hsees, rfl⟩ := ih ⟨by simp only; omega, hc.stop_le⟩
    -- the character that the code point is
    have hvalid := (CodePoint.isScalar_iff_isValidChar _).1 (isScalar_of_units? hunits)
    have hd : (Char.ofNat c.decode.value).toNat = c.decode.value := by
      rw [Char.ofNat, dif_pos hvalid]
      rfl
    have hcan : c.source.encoding.CanEncode (Char.ofNat c.decode.value).toNat := by
      rw [hd]
      exact units?_eq_some_iff.1 ⟨_, hunits⟩
    refine ⟨Char.ofNat c.decode.value :: cs, ⟨canEncodeAll_cons.2 ⟨hcan, hsees.canEncode⟩, ?_⟩, ?_⟩
    · have hbehind := remaining_behind hrest (n := c.decode.length)
        (by rw [length_of_remaining hrest]; exact hlength)
      have hdrop := Except.ok.inj (hbehind.symm.trans hsees.remaining)
      rw [charsUnits_cons, charUnits, hd, hunits, Option.getD_some, ← hdrop, List.take_append_drop]
      exact hrest
    · rw [List.map_cons, hd]

/-- Characters in front of a cursor are read up to the end. -/
theorem Sees.decodes (h : c.Sees cs) : c.Decodes (cs.map Char.toNat) := by
  induction cs generalizing c with
  | nil => exact .done h.stop_eq.symm
  | cons d ds ih =>
    have hmoved := h.moved [d]
    rw [charsUnits_cons, charsUnits_nil, List.append_nil] at hmoved
    have hdecode := h.decode_cons
    have hnext : c.moveTo (c.position + c.decode.length) =
        .ok { c with position := c.position + (c.source.encoding.charUnits d).length } := by
      rw [hdecode]
      exact moveTo_eq hmoved.valid.position_le
    have hstep := Decodes.step (by rw [hdecode]) hnext (ih hmoved)
    rw [hdecode] at hstep
    exact hstep

end Cursor

namespace Encoding

variable {e : Encoding}

/-- Encoding a text drops the characters that the encoding cannot represent. -/
theorem encodeText_eq_filter (e : Encoding) (text : String) :
    e.encodeText text = e.charsUnits (text.toList.filter fun c => e.CanEncode c.toNat) := by
  rw [encodeText_eq]
  induction text.toList with
  | nil => rfl
  | cons c cs ih =>
    rw [charsUnits_cons, ih]
    by_cases hc : e.CanEncode c.toNat
    · rw [List.filter_cons_of_pos (by simpa using hc), charsUnits_cons]
    · have hnone : e.units? c.toNat = none := if_neg hc
      rw [List.filter_cons_of_neg (by simpa using hc), charUnits, hnone]
      rfl

theorem canEncodeAll_filter (e : Encoding) (cs : List Char) :
    e.CanEncodeAll (cs.filter fun c => e.CanEncode c.toNat) :=
  fun _ hc => of_decide_eq_true (List.mem_filter.1 hc).2

end Encoding

/-! ## Sources -/

namespace Source

variable {s : Source} {vs : List Nat} {cs : List Char}

theorem valid_ofSource (s : Source) : (Cursor.ofSource s).Valid :=
  ⟨Nat.zero_le _, Nat.le_refl _⟩

/-- A source of the units of some characters shows as them. -/
theorem display_of_units (hcs : s.encoding.CanEncodeAll cs)
    (hunits : s.units.toList = s.encoding.charsUnits cs) : s.display = String.ofList cs :=
  (congrArg s.encoding.display hunits).trans (display_charsUnits hcs)

/-- It is read as them, and as nothing else. -/
theorem decodes_iff_of_units (hcs : s.encoding.CanEncodeAll cs)
    (hunits : s.units.toList = s.encoding.charsUnits cs) (vs : List Nat) :
    (Cursor.ofSource s).Decodes vs ↔ vs = cs.map Char.toNat := by
  have hsees := Cursor.Sees.ofSource hcs hunits
  constructor
  · intro h
    obtain ⟨ds, hds, rfl⟩ := h.exists_sees s.valid_ofSource
    rw [charsUnits_inj hds.canEncode hcs
      (Except.ok.inj (hds.remaining.symm.trans hsees.remaining))]
  · rintro rfl
    exact hsees.decodes

/-- The units of what a source is read as are those of the source. -/
theorem units_of_sees (h : (Cursor.ofSource s).Sees cs) :
    s.units.toList = s.encoding.charsUnits cs := by
  refine Eq.trans ?_ (slice_eq_ok_iff.1 h.remaining).2.2.symm
  exact congrArg Array.toList Array.extract_size.symm

/-- A source can be read to its end exactly if encoding the text that it shows as gives its units
again, and then the characters of that text are what is read.  So a text that the encoding can
represent comes back, shown or read; and ASCII takes of a text what is in ASCII. -/
theorem decodes_iff :
    (∀ (s : Source) (vs : List Nat), (Cursor.ofSource s).Decodes vs ↔
      s.units.toList = s.encoding.encodeText s.display ∧ vs = s.display.toList.map Char.toNat) ∧
    (∀ (e : Encoding) (text : String), e.CanEncodeAll text.toList →
      e.display (e.encodeText text) = text ∧
      ∀ vs, (Cursor.ofSource (.ofText e text)).Decodes vs ↔ vs = text.toList.map Char.toNat) ∧
    ∀ text : String, ascii.encodeText text = ascii.encodeText
      (String.ofList (text.toList.filter fun c => CodePoint.IsAscii c.toNat)) := by
  refine ⟨fun s vs => ⟨fun h => ?_, fun ⟨hunits, hvs⟩ => ?_⟩, fun e text htext => ?_,
    fun text => ?_⟩
  · obtain ⟨cs, hsees, rfl⟩ := h.exists_sees s.valid_ofSource
    have hunits := units_of_sees hsees
    have hdisplay : s.display = String.ofList cs := display_of_units hsees.canEncode hunits
    rw [hdisplay, encodeText_eq, String.toList_ofList]
    exact ⟨hunits, rfl⟩
  · -- the characters that are written are those that the encoding has, and they are all of them
    rw [encodeText_eq_filter] at hunits
    have hcs := canEncodeAll_filter s.encoding s.display.toList
    have hchars := congrArg String.toList (display_of_units hcs hunits)
    rw [String.toList_ofList] at hchars
    rw [decodes_iff_of_units hcs hunits, ← hchars]
    exact hvs
  · have hunits : (ofText e text).units.toList = e.charsUnits text.toList := rfl
    exact ⟨(display_of_units htext hunits).trans String.ofList_toList,
      decodes_iff_of_units htext hunits⟩
  · rw [encodeText_eq_filter, encodeText_eq_filter, String.toList_ofList, List.filter_filter]
    simp only [CanEncode, Bool.and_self]

/-- An umlaut and a character behind the basic plane, in UTF-16; and in UTF-8 a byte that starts
nothing, at which reading gets stuck. -/
theorem decodes_iff_utf16 :
    (Cursor.ofSource (ofText .utf16 "ä😀")).Decodes [0xE4, 0x1F600] ∧
      ∀ vs, ¬ (Cursor.ofSource ⟨.utf8, #[0x61, 0xFF], by decide⟩).Decodes vs := by
  have hcan : utf16.CanEncodeAll "ä😀".toList := fun c _ => CodePoint.isScalar_toNat c
  refine ⟨((decodes_iff.2.1 .utf16 "ä😀" hcan).2 _).2 (by decide), fun vs h => ?_⟩
  have hunits := ((decodes_iff.1 _ vs).1 h).1
  revert hunits
  decide

end Source

end Phrase
