import Phrase.Proofs.Rule.Stepwise
import Phrase.Proofs.Symbol.Table

/-!
# Literals compare exactly

A literal is as many units as the encoding can write of its text: those in front of the first
character that it cannot represent.  They are compared with the units at a cursor, and the answer
tells how many of them are there (`matchLiteral_exact`).  A character that cannot be represented is
never there, and a key that holds one is in no index; so a literal matches exactly where a symbol
table finds it as its only key.
-/

namespace Phrase

/-! ## Common starts -/

/-- Two lists agree for `k` units: the first `k` of the one are a start of the other, and no longer
start of the one is. -/
structure AgreeFor (us units : List Nat) (k : Nat) : Prop where
  length_le : k ≤ us.length
  take_prefix : us.take k <+: units
  longest : ∀ start, start <+: us → start <+: units → start.length ≤ k

/-- Lists that have no first unit in common agree for none. -/
theorem AgreeFor.zero {us units : List Nat} (h : ∀ u, [u] <+: us → ¬ [u] <+: units) :
    AgreeFor us units 0 where
  length_le := Nat.zero_le _
  take_prefix := List.nil_prefix
  longest := by
    intro start hus hunits
    cases start with
    | nil => exact Nat.le_refl _
    | cons u start =>
      have hfirst : [u] <+: u :: start := List.prefix_append [u] start
      exact absurd (hfirst.trans hunits) (h u (hfirst.trans hus))

theorem agreeFor_commonLength (us units : List Nat) :
    AgreeFor us units (commonLength us units) := by
  fun_induction commonLength us units with
  | case1 v us vs ih =>
    refine ⟨Nat.succ_le_succ ih.length_le, ?_, fun start hus hunits => ?_⟩
    · rw [List.take_succ_cons]
      exact List.cons_prefix_cons.2 ⟨rfl, ih.take_prefix⟩
    · cases start with
      | nil => exact Nat.zero_le _
      | cons w start =>
        have hlong := ih.longest start (List.cons_prefix_cons.1 hus).2
          (List.cons_prefix_cons.1 hunits).2
        exact Nat.succ_le_succ hlong
  | case2 u us v vs hne =>
    refine .zero fun w hus hunits => hne ?_
    rw [← (List.cons_prefix_cons.1 hus).1, (List.cons_prefix_cons.1 hunits).1]
  | case3 us units hne =>
    refine .zero fun w hus hunits => ?_
    obtain ⟨us, rfl⟩ := hus
    obtain ⟨units, rfl⟩ := hunits
    exact hne w us w units rfl rfl

/-- What follows in the one list is compared only if all units in front of it are there. -/
theorem commonLength_append (us ws units : List Nat) :
    commonLength (us ++ ws) units = if commonLength us units = us.length
      then us.length + commonLength ws (units.drop us.length) else commonLength us units := by
  induction us generalizing units with
  | nil => simp [commonLength]
  | cons u us ih =>
    cases units with
    | nil => simp [commonLength]
    | cons v units =>
      by_cases huv : u = v
      · simp only [List.cons_append, commonLength, if_pos huv, ih, List.length_cons,
          List.drop_succ_cons, Nat.add_right_cancel_iff]
        split
        · omega
        · rfl
      · simp [commonLength, huv]

/-! ## Comparing characters -/

namespace Encoding

/-- The characters in front of the first one that the encoding cannot represent. -/
def encodableStart (e : Encoding) (cs : List Char) : List Char :=
  cs.takeWhile fun c => decide (e.CanEncode c.toNat)

variable {e : Encoding} {c : Char} {cs : List Char}

theorem encodableStart_cons (h : e.CanEncode c.toNat) :
    e.encodableStart (c :: cs) = c :: e.encodableStart cs :=
  List.takeWhile_cons_of_pos (decide_eq_true h)

theorem encodableStart_cons_of_not (h : ¬ e.CanEncode c.toNat) :
    e.encodableStart (c :: cs) = [] :=
  List.takeWhile_cons_of_neg (by simpa using h)

theorem encodableStart_eq_self (h : e.CanEncodeAll cs) : e.encodableStart cs = cs :=
  List.takeWhile_eq_self_iff.2 fun c hc => decide_eq_true (h c hc)

end Encoding

open Encoding

/-- Comparing stops at the first unit that differs, or at a character that cannot be written. -/
theorem compareChars_eq (e : Encoding) (cs : List Char) (units : List Nat) :
    (compareChars e cs units).2 = commonLength (e.charsUnits (e.encodableStart cs)) units ∧
      ((compareChars e cs units).1 = true ↔ e.CanEncodeAll cs ∧
        (compareChars e cs units).2 = (e.charsUnits (e.encodableStart cs)).length) := by
  induction cs generalizing units with
  | nil => exact ⟨rfl, fun _ => ⟨canEncodeAll_nil, rfl⟩, fun _ => rfl⟩
  | cons c cs ih =>
    by_cases hc : e.CanEncode c.toNat
    · have hunits := units?_of_canEncode hc
      obtain ⟨ihlength, ihall⟩ := ih (units.drop (e.charUnits c).length)
      rw [encodableStart_cons hc, charsUnits_cons, commonLength_append, List.length_append,
        canEncodeAll_cons, compareChars, hunits]
      by_cases hcommon : commonLength (e.charUnits c) units = (e.charUnits c).length
      · simp only [hcommon, if_true, ihlength, true_and, Nat.add_left_cancel_iff]
        rw [ihlength] at ihall
        exact ihall.trans (and_congr_left fun _ => (and_iff_right hc).symm)
      · have hle := (agreeFor_commonLength (e.charUnits c) units).length_le
        simp only [hcommon, if_false, true_and, Bool.false_eq_true, false_iff, not_and]
        omega
    · have hunits : e.units? c.toNat = none := by rw [units?.eq_def, if_neg hc]
      rw [encodableStart_cons_of_not hc, compareChars, hunits]
      exact ⟨rfl, fun h => absurd h Bool.false_ne_true, fun h => absurd (canEncodeAll_cons.1 h.1).1 hc⟩

/-- All units of a text are written and in front exactly if they agree to their end. -/
theorem AgreeFor.hasKey_iff {e : Encoding} {text : String} {rest : List Nat} {k : Nat}
    (h : AgreeFor (e.charsUnits (e.encodableStart text.toList)) rest k) :
    e.HasKey rest text ↔ e.CanEncodeAll text.toList ∧
      k = (e.charsUnits (e.encodableStart text.toList)).length := by
  constructor
  · rintro ⟨hcan, hfront⟩
    rw [encodableStart_eq_self hcan] at h ⊢
    exact ⟨hcan, Nat.le_antisymm h.length_le (h.longest _ List.prefix_rfl hfront)⟩
  · rintro ⟨hcan, rfl⟩
    refine ⟨hcan, ?_⟩
    have hfront := h.take_prefix
    rwa [List.take_length, encodableStart_eq_self hcan] at hfront

/-! ## At a cursor -/

/-- What a literal answers is told by how far it agrees with the units that are left. -/
theorem matchLiteral_eq {c : Cursor} {rest : List Nat} (hrest : c.remaining = .ok rest)
    (text : String) :
    let e := c.source.encoding
    let n := commonLength (e.charsUnits (e.encodableStart text.toList)) rest
    (e.HasKey rest text → matchLiteral text c = .ok (c.position + n)) ∧
      (¬ e.HasKey rest text → matchLiteral text c =
        .error ⟨c.position + n, .expectedLiteral text n, ⟨c.position, c.position + n⟩⟩) := by
  intro e n
  obtain ⟨hlength, hall⟩ := compareChars_eq e text.toList rest
  have hn : AgreeFor (e.charsUnits (e.encodableStart text.toList)) rest n :=
    agreeFor_commonLength _ _
  rw [hlength, ← hn.hasKey_iff] at hall
  rw [matchLiteral, Cursor.ahead_eq_take hrest]
  simp only
  rw [compareChars_take (Nat.le_refl _), hlength]
  exact ⟨fun h => if_pos (hall.2 h), fun h => if_neg fun hcompare => h (hall.1 hcompare)⟩

/-- A table with a single key finds it exactly where it is in front. -/
theorem SymbolTable.Sound.lookup_only_key {α : Type} {t : SymbolTable α} (ht : t.Sound)
    {key : String} (hkeys : t.keys = [key]) {c : Cursor} {rest : List Nat}
    (hrest : c.remaining = .ok rest) :
    let e := c.source.encoding
    (e.HasKey rest key → (t.lookup c).1 = some (0, (e.encodeText key).length)) ∧
      (¬ e.HasKey rest key → (t.lookup c).1 = none) := by
  intro e
  rw [lookup_eq ht hrest]
  have hnodup := ht.nodup_keys
  rw [hkeys] at hnodup ⊢
  refine ⟨fun h => (SymbolIndex.longest_eq_some_iff hnodup).2 ⟨key, rfl, h, rfl, ?_⟩, fun h => ?_⟩
  · intro other hother _
    rw [List.mem_singleton.1 hother]
  · refine (SymbolIndex.longest_eq_none_iff hnodup).2 fun other hother => ?_
    rwa [List.mem_singleton.1 hother]

/-- A literal is compared with the units that are left as far as it can be written.  It matches
behind all of its units exactly if all of it can be written and all of the units are there; else
it fails behind the units that are, tells their number, and reports an error over them.  A symbol
table with the text as its single key, however it came about, matches at the same cursors with the
same end. -/
theorem matchLiteral_exact (text : String) (c : Cursor) (rest : List Nat)
    (hrest : c.remaining = .ok rest) :
    let e := c.source.encoding
    let start := e.charsUnits (e.encodableStart text.toList)
    ∃ k, AgreeFor start rest k ∧
      (e.CanEncodeAll text.toList ∧ k = start.length →
        matchLiteral text c = .ok (c.position + start.length)) ∧
      (¬ (e.CanEncodeAll text.toList ∧ k = start.length) → matchLiteral text c =
        .error ⟨c.position + k, .expectedLiteral text k, ⟨c.position, c.position + k⟩⟩) ∧
      ∀ {α : Type} (uses : List (TableUse α)), (SymbolTable.ofUses uses).keys = [text] →
        ((SymbolTable.ofUses uses).lookup c).1.map (fun found => c.position + found.2) =
          (matchLiteral text c).toOption := by
  intro e start
  have hk : AgreeFor start rest (commonLength start rest) := agreeFor_commonLength _ _
  obtain ⟨hmatches, hfails⟩ := matchLiteral_eq hrest text
  refine ⟨commonLength start rest, hk, ?_, ?_, ?_⟩
  · rintro ⟨hcan, hlength⟩
    rw [← hlength]
    exact hmatches (hk.hasKey_iff.2 ⟨hcan, hlength⟩)
  · exact fun h => hfails fun hkey => h (hk.hasKey_iff.1 hkey)
  · intro α uses hkeys
    obtain ⟨hfound, hmissing⟩ := (SymbolTable.sound_ofUses uses).lookup_only_key hkeys hrest
    by_cases hkey : e.HasKey rest text
    · obtain ⟨hcan, hlength⟩ := hk.hasKey_iff.1 hkey
      rw [hfound hkey, hmatches hkey]
      show some (c.position + (e.charsUnits text.toList).length) =
        some (c.position + commonLength start rest)
      rw [hlength, encodableStart_eq_self hcan]
    · rw [hmissing hkey, hfails hkey]
      rfl

/-- A literal in front of which a character is cut short, and one with a character that ASCII
cannot write behind characters that are there. -/
theorem matchLiteral_exact_cut_short :
    let source : Source := .ofText .utf8 "größe"
    let c : Cursor := ⟨source, 0, 3⟩
    let ascii : Cursor := .ofSource (.ofText .ascii "gr?")
    let uses : List (TableUse Nat) := [.add "grö" 1, .lookup ascii, .add "grö" 2]
    c.remaining = .ok [0x67, 0x72, 0xC3] ∧ (SymbolTable.ofUses uses).keys = ["grö"] ∧
      matchLiteral "grö" c = .error ⟨3, .expectedLiteral "grö" 3, ⟨0, 3⟩⟩ ∧
      ((SymbolTable.ofUses uses).lookup c).1 = none ∧
      ascii.remaining = .ok [0x67, 0x72, 0x3F] ∧
      matchLiteral "grö" ascii = .error ⟨2, .expectedLiteral "grö" 2, ⟨0, 2⟩⟩ := by
  intro source c ascii uses
  have hc : c.remaining = .ok [0x67, 0x72, 0xC3] := by rfl
  have hascii : ascii.remaining = .ok [0x67, 0x72, 0x3F] := by rfl
  have hkeys : (SymbolTable.ofUses uses).keys = ["grö"] := by decide +kernel
  obtain ⟨k, hk, -, hcut, htable⟩ := matchLiteral_exact "grö" c _ hc
  obtain ⟨m, hm, -, hno, -⟩ := matchLiteral_exact "grö" ascii _ hascii
  have hk : AgreeFor [0x67, 0x72, 0xC3, 0xB6] [0x67, 0x72, 0xC3] k := hk
  have hm : AgreeFor [0x67, 0x72] [0x67, 0x72, 0x3F] m := hm
  -- of the last character, the first one of two units is there
  obtain rfl : k = 3 := by
    have hfront := hk.take_prefix.length_le
    have hlong := hk.longest [0x67, 0x72, 0xC3] (by decide) (by decide)
    simp only [List.length_take, List.length_cons, List.length_nil] at hfront hlong
    omega
  obtain rfl : m = 2 := by
    have hle := hm.length_le
    have hlong := hm.longest [0x67, 0x72] (by decide) (by decide)
    simp only [List.length_cons, List.length_nil] at hle hlong
    omega
  have hcut := hcut fun h => absurd h.2 (by decide +kernel)
  have hfound := htable uses hkeys
  rw [hcut] at hfound
  exact ⟨hc, hkeys, hcut, Option.map_eq_none_iff.1 hfound, hascii, hno fun h =>
    absurd (h.1 'ö' (by decide)) (by decide)⟩

end Phrase
