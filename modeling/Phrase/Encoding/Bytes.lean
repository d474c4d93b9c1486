import Phrase.Encoding.Basic

/-!
# Units in bytes

Files hold bytes.  A unit takes one, two or four of them, the lowest first.
`Encoding.unitsOfBytes_lt` says that bytes always make units of the encoding.
-/

namespace Phrase.Encoding

/-! ## Algorithm -/

/-- The number of bytes of a unit. -/
def unitBytes : Encoding → Nat
  | .ascii | .utf8 => 1
  | .utf16 => 2
  | .utf32 => 4

/-- The units in pairs of bytes; a byte that is left over makes none. -/
def pairUnits : List UInt8 → List Nat
  | a :: b :: rest => (a.toNat + 0x100 * b.toNat) :: pairUnits rest
  | _ => []

/-- The units in groups of four bytes; bytes that are left over make none. -/
def quadUnits : List UInt8 → List Nat
  | a :: b :: c :: d :: rest =>
    (a.toNat + 0x100 * b.toNat + 0x10000 * c.toNat + 0x1000000 * d.toNat) :: quadUnits rest
  | _ => []

/-- The units in bytes. -/
def unitsOfBytes : Encoding → List UInt8 → List Nat
  | .ascii, bytes | .utf8, bytes => bytes.map UInt8.toNat
  | .utf16, bytes => pairUnits bytes
  | .utf32, bytes => quadUnits bytes

/-! ## Lemmas -/

theorem pairUnits_lt (bytes : List UInt8) : ∀ u ∈ pairUnits bytes, u < 0x10000 := by
  fun_induction pairUnits bytes with
  | case1 a b rest ih =>
    have := a.toNat_lt
    have := b.toNat_lt
    simpa using ⟨by omega, ih⟩
  | case2 => simp

theorem quadUnits_lt (bytes : List UInt8) : ∀ u ∈ quadUnits bytes, u < 0x100000000 := by
  fun_induction quadUnits bytes with
  | case1 a b c d rest ih =>
    have := a.toNat_lt
    have := b.toNat_lt
    have := c.toNat_lt
    have := d.toNat_lt
    simpa using ⟨by omega, ih⟩
  | case2 => simp

theorem unitsOfBytes_lt (e : Encoding) (bytes : List UInt8) :
    ∀ u ∈ e.unitsOfBytes bytes, u < e.unitLimit := by
  have bytes_lt : ∀ u ∈ bytes.map UInt8.toNat, u < 0x100 := by
    intro u hu
    obtain ⟨b, -, rfl⟩ := List.mem_map.1 hu
    exact b.toNat_lt
  cases e with
  | ascii => exact bytes_lt
  | utf8 => exact bytes_lt
  | utf16 => exact pairUnits_lt bytes
  | utf32 => exact quadUnits_lt bytes

end Phrase.Encoding
