import Phrase.Proofs.Rule.Characters
import Phrase.Proofs.Symbol.Table

/-!
# Symbols over characters

A key stands in front of encoded characters exactly if its characters do, and of two keys that
do so the one with more characters has more units.  So a lookup finds the same key in every
encoding.
-/

namespace Phrase

open Encoding

section
variable {e : Encoding} {cs : List Char} {key : String}

theorem hasKey_charsUnits_iff (hcs : e.CanEncodeAll cs) :
    e.HasKey (e.charsUnits cs) key ↔ key.toList <+: cs := by
  constructor
  · intro h
    exact (charsUnits_prefix_iff hcs h.canEncode).1 h.front
  · intro h
    have hkey : e.CanEncodeAll key.toList := fun x hx => hcs x (h.subset hx)
    exact ⟨hkey, (charsUnits_prefix_iff hcs hkey).2 h⟩

end

namespace SymbolTable

variable {α : Type} {t t' : SymbolTable α} {c c' : Cursor} {cs : List Char}

/-- The longest key at a cursor, said of characters alone. -/
theorem longestKey_eq_some_iff (ht : t.Sound) (h : c.Sees cs) {n length : Nat} :
    t.longestKey c = some (n, length) ↔
      ∃ key, t.keys[n]? = some key ∧ key.toList <+: cs ∧
        length = (c.source.encoding.charsUnits key.toList).length ∧
        ∀ other ∈ t.keys, other.toList <+: cs → other.toList.length ≤ key.toList.length := by
  rw [ht.longestKey_eq h.remaining, SymbolIndex.longest_eq_some_iff ht.nodup_keys]
  simp only [hasKey_charsUnits_iff h.canEncode]
  constructor
  · rintro ⟨key, hkey, hfront, rfl, hlongest⟩
    exact ⟨key, hkey, hfront, rfl, fun other hother hfront' =>
      (length_charsUnits_le_iff h.canEncode hfront' hfront).1 (hlongest other hother hfront')⟩
  · rintro ⟨key, hkey, hfront, rfl, hlongest⟩
    exact ⟨key, hkey, hfront, rfl, fun other hother hfront' =>
      (length_charsUnits_le_iff h.canEncode hfront' hfront).2 (hlongest other hother hfront')⟩

/-- Tables with the same entries find the same key wherever the same characters are seen. -/
theorem longestKey_alike (ht : t.Sound) (ht' : t'.Sound) (hentries : t.entries = t'.entries)
    (h : c.Sees cs) (h' : c'.Sees cs) :
    Option.Rel (fun a b => a.1 = b.1 ∧
      c.Level c' cs (c.position + a.2) (c'.position + b.2)) (t.longestKey c) (t'.longestKey c') := by
  have hkeys : t.keys = t'.keys := by rw [keys, keys, hentries]
  have hlevel : ∀ key : String, key.toList <+: cs → c.Level c' cs
      (c.position + (c.source.encoding.charsUnits key.toList).length)
      (c'.position + (c'.source.encoding.charsUnits key.toList).length) := by
    rintro key ⟨post, hpost⟩
    exact ⟨key.toList, post, hpost.symm, rfl, rfl⟩
  cases hfound : t.longestKey c with
  | some a =>
    obtain ⟨n, length⟩ := a
    obtain ⟨key, hkey, hfront, rfl, hlongest⟩ := (longestKey_eq_some_iff ht h).1 hfound
    rw [hkeys] at hkey hlongest
    rw [(longestKey_eq_some_iff ht' h').2 ⟨key, hkey, hfront, rfl, hlongest⟩]
    exact .some ⟨rfl, hlevel key hfront⟩
  | none =>
    cases hfound' : t'.longestKey c' with
    | none => exact .none
    | some b =>
      obtain ⟨n, length⟩ := b
      obtain ⟨key, hkey, hfront, -, hlongest⟩ := (longestKey_eq_some_iff ht' h').1 hfound'
      rw [← hkeys] at hkey hlongest
      cases hfound.symm.trans ((longestKey_eq_some_iff ht h).2 ⟨key, hkey, hfront, rfl, hlongest⟩)

end SymbolTable

end Phrase
