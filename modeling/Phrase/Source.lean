import Phrase.Encoding.Bytes
import Phrase.Encoding.Lossy

/-!
# Sources

A source is a sequence of units of one encoding.  It is never changed; positions are
indices into it.
-/

namespace Phrase

/-- The units from `start` up to, and without, `stop`. -/
structure Span where
  start : Nat
  stop : Nat
  deriving DecidableEq, Repr, Inhabited

namespace Span

/-- The span as it is written everywhere: `3..5`. -/
def text (r : Span) : String := s!"{r.start}..{r.stop}"

/-- The number of units. -/
def length (r : Span) : Nat := r.stop - r.start

end Span

/-- The units of an input. -/
structure Source where
  encoding : Encoding
  units : Array Nat
  units_fit : ∀ u ∈ units, u < encoding.unitLimit

namespace Source

/-- The source with these units, if they are units of the encoding. -/
def ofUnits? (e : Encoding) (units : Array Nat) : Option Source :=
  if h : ∀ u ∈ units, u < e.unitLimit then some ⟨e, units, h⟩ else none

/-- A text in an encoding; characters the encoding cannot represent are dropped. -/
def ofText (e : Encoding) (text : String) : Source where
  encoding := e
  units := (e.encodeText text).toArray
  units_fit := fun u hu => e.encodeText_lt text u (by simpa using hu)

/-- The source in some bytes, if they make whole units. -/
def ofBytes? (e : Encoding) (bytes : List UInt8) : Option Source :=
  if bytes.length % e.unitBytes = 0 then
    some ⟨e, (e.unitsOfBytes bytes).toArray,
      fun u hu => e.unitsOfBytes_lt bytes u (by simpa using hu)⟩
  else none

/-- The number of units. -/
def size (s : Source) : Nat := s.units.size

/-- The units as text. -/
def display (s : Source) : String := s.encoding.display s.units.toList

/-- The units of a span, which has to lie inside of the source. -/
def slice (s : Source) (r : Span) : Except Fault (List Nat) :=
  if r.start ≤ r.stop ∧ r.stop ≤ s.size then .ok (s.units.extract r.start r.stop).toList
  else .error .outOfBounds

/-- The text of a span, which has to lie inside of the source. -/
def sliceText (s : Source) (r : Span) : Except Fault String :=
  (s.slice r).map s.encoding.display

/-! ## Lemmas -/

theorem slice_eq_ok_iff {s : Source} {r : Span} {us : List Nat} :
    s.slice r = .ok us ↔
      r.start ≤ r.stop ∧ r.stop ≤ s.size ∧ us = (s.units.extract r.start r.stop).toList := by
  unfold slice
  split
  · next h => simp [h, eq_comm]
  · next h => simp only [reduceCtorEq, false_iff]; exact fun h' => h ⟨h'.1, h'.2.1⟩

end Source

/-- The part of a text between two byte offsets, which have to lie between characters. -/
def sliceBytes (text : String) (r : Span) : Except Fault String :=
  if r.start ≤ r.stop ∧ r.stop ≤ text.utf8ByteSize ∧
      String.Pos.Raw.isValid text ⟨r.start⟩ ∧ String.Pos.Raw.isValid text ⟨r.stop⟩ then
    .ok (String.Pos.Raw.extract text ⟨r.start⟩ ⟨r.stop⟩)
  else .error .outOfBounds

end Phrase
