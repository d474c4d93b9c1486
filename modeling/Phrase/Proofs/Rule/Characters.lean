import Phrase.Proofs.Encoding.Characters
import Phrase.Rule.Matching

/-!
# Tokens over characters

Two cursors that see the same characters, perhaps in different encodings, match a token alike:
both matches end, or fail, behind the same characters.  Only two tokens are told apart by the
encoding.  A literal is compared unit by unit, so it can stop inside a character, unless it is
one of ASCII; and a code point names the encoding where it is missing.
-/

namespace Phrase

open Encoding

/-- Two positions behind the same of the characters that two cursors see. -/
def Cursor.Level (c c' : Cursor) (cs : List Char) (q q' : Nat) : Prop :=
  ∃ pre post, cs = pre ++ post ∧ q = c.position + (c.source.encoding.charsUnits pre).length ∧
    q' = c'.position + (c'.source.encoding.charsUnits pre).length

/-- Two matches that end at related places, or fail there for related reasons. -/
def TokenMatch.Alike (At : Nat → Nat → Prop) (Kind : ErrorKind → ErrorKind → Prop) :
    TokenMatch → TokenMatch → Prop
  | .ok q, .ok q' => At q q'
  | .error f, .error f' => At f.stop f'.stop ∧ At f.range.start f'.range.start ∧
      At f.range.stop f'.range.stop ∧ Kind f.kind f'.kind
  | _, _ => False

theorem TokenMatch.Alike.imp {At At' : Nat → Nat → Prop} {Kind : ErrorKind → ErrorKind → Prop}
    (hAt : ∀ q q', At q q' → At' q q') {m m' : TokenMatch} (h : m.Alike At Kind m') :
    m.Alike At' Kind m' := by
  cases m with
  | ok q =>
    cases m' with
    | ok q' => exact hAt q q' h
    | error f' => exact h.elim
  | error f =>
    cases m' with
    | ok q' => exact h.elim
    | error f' => exact ⟨hAt _ _ h.1, hAt _ _ h.2.1, hAt _ _ h.2.2.1, h.2.2.2⟩

namespace Cursor

variable {c c' : Cursor} {d : Char} {cs ds : List Char}

theorem level_refl : Level c c' cs c.position c'.position := ⟨[], cs, rfl, rfl, rfl⟩

theorem level_prefix (c c' : Cursor) (pre ds : List Char) :
    Level c c' (pre ++ ds) (c.position + (c.source.encoding.charsUnits pre).length)
      (c'.position + (c'.source.encoding.charsUnits pre).length) := ⟨pre, ds, rfl, rfl, rfl⟩

theorem level_cons (c c' : Cursor) (d : Char) (ds : List Char) :
    Level c c' (d :: ds) (c.position + (c.source.encoding.charUnits d).length)
      (c'.position + (c'.source.encoding.charUnits d).length) := by
  have h := level_prefix c c' [d] ds
  rw [charsUnits_cons, charsUnits_cons, charsUnits_nil, charsUnits_nil, List.append_nil,
    List.append_nil] at h
  exact h

/-- What looks at single characters finds both or none. -/
theorem Recognizes.alike {next : Cursor → Option Nat} {test : Char → Bool}
    (hnext : Recognizes next test) (h : c.Sees cs) (h' : c'.Sees cs) :
    Option.Rel (Level c c' cs) (next c) (next c') := by
  cases cs with
  | nil =>
    rw [(hnext c).1 h, (hnext c').1 h']
    exact .none
  | cons d ds =>
    rw [(hnext c).2 d ds h, (hnext c').2 d ds h']
    split
    · exact .some (level_cons c c' d ds)
    · exact .none

end Cursor

/-! ## Units of ASCII -/

section
variable {e : Encoding} {cs : List Char} {v : Nat}

/-- The first unit is a unit of ASCII exactly if the first character is. -/
theorem head?_charsUnits_eq_iff (hcs : e.CanEncodeAll cs) (hv : CodePoint.IsAscii v) :
    (e.charsUnits cs)[0]? = some v ↔ ∃ d ds, cs = d :: ds ∧ d.toNat = v := by
  cases cs with
  | nil =>
    rw [charsUnits_nil]
    exact ⟨(nomatch ·), fun ⟨_, _, h, _⟩ => nomatch h⟩
  | cons d ds =>
    rw [charsUnits_cons]
    by_cases hd : CodePoint.IsAscii d.toNat
    · rw [charUnits_of_ascii e hd, List.singleton_append, List.getElem?_cons_zero,
        Option.some.injEq]
      exact ⟨fun h => ⟨d, ds, rfl, h⟩, fun ⟨_, _, h, hv⟩ => (List.cons.inj h).1 ▸ hv⟩
    · obtain ⟨u, us, hunits, hu⟩ := charUnits_of_not_ascii (canEncodeAll_cons.1 hcs).1 hd
      rw [hunits, List.cons_append, List.getElem?_cons_zero, Option.some.injEq]
      constructor
      · intro h
        omega
      · rintro ⟨_, _, h, rfl⟩
        rw [(List.cons.inj h).1] at hd
        exact absurd hv hd

/-- A text of ASCII is compared with characters one by one: the comparison stops behind the same
of them in every encoding. -/
theorem compareChars_ascii {text : List Char} (htext : ∀ x ∈ text, CodePoint.IsAscii x.toNat)
    (cs : List Char) : ∃ (all : Bool) (pre post : List Char), cs = pre ++ post ∧
      ∀ (e : Encoding) (k : Nat), e.CanEncodeAll cs → text.length ≤ k →
        compareChars e text ((e.charsUnits cs).take k) = (all, pre.length) ∧
          (e.charsUnits pre).length = pre.length := by
  induction text generalizing cs with
  | nil => exact ⟨true, [], cs, rfl, fun e k _ _ => ⟨rfl, rfl⟩⟩
  | cons x text ih =>
    obtain ⟨hx, htext⟩ := List.forall_mem_cons.1 htext
    have hunits : ∀ {e : Encoding}, e.units? x.toNat = some [x.toNat] := by
      intro e
      have hcan : e.CanEncode x.toNat := by
        cases e with
        | ascii => exact hx
        | utf8 | utf16 | utf32 => exact CodePoint.isScalar_toNat x
      rw [units?_of_canEncode hcan, charUnits_of_ascii e hx]
    by_cases hhead : ∃ d ds, cs = d :: ds ∧ d.toNat = x.toNat
    · obtain ⟨d, ds, rfl, hd⟩ := hhead
      obtain ⟨all, pre, post, rfl, hpre⟩ := ih htext ds
      refine ⟨all, d :: pre, post, rfl, fun e k hcs hk => ?_⟩
      obtain ⟨k, rfl⟩ := Nat.exists_eq_add_one.2 (Nat.lt_of_lt_of_le (Nat.succ_pos _) hk)
      obtain ⟨hcompare, hlength⟩ :=
        hpre e k (canEncodeAll_cons.1 hcs).2 (Nat.le_of_succ_le_succ hk)
      have hdunits : e.charUnits d = [x.toNat] := by
        rw [charUnits_of_ascii e (hd ▸ hx), hd]
      rw [charsUnits_cons, charsUnits_cons, hdunits]
      refine ⟨?_, by rw [List.length_append, hlength, List.length_cons]; exact Nat.add_comm _ _⟩
      simp only [compareChars, hunits, List.singleton_append, List.take_succ_cons, commonLength,
        if_true, List.length_cons, List.length_nil, Nat.zero_add, List.drop_succ_cons,
        List.drop_zero, hcompare]
      rw [Nat.add_comm]
    · refine ⟨false, [], cs, rfl, fun e k hcs hk => ⟨?_, rfl⟩⟩
      have hne : (e.charsUnits cs)[0]? ≠ some x.toNat :=
        fun h => hhead ((head?_charsUnits_eq_iff hcs hx).1 h)
      have hzero : commonLength [x.toNat] ((e.charsUnits cs).take k) = 0 := by
        cases hus : (e.charsUnits cs).take k with
        | nil => rfl
        | cons u us =>
          have hu : (e.charsUnits cs)[0]? = some u := by
            rw [← List.getElem?_take_of_lt (j := k) (Nat.lt_of_lt_of_le (Nat.succ_pos _) hk), hus]
            rfl
          rw [commonLength, if_neg fun h => hne (by rw [hu, h])]
      simp only [compareChars, hunits, hzero, List.length_singleton, Nat.zero_ne_one, if_false,
        List.length_nil]

/-- Digits write the same number in every encoding, and what is no digit does so in none. -/
theorem ofDigits?_charsUnits (type : IntegerType) (radix : Radix) (hcs : e.CanEncodeAll cs) :
    type.ofDigits? radix (e.charsUnits cs) =
      cs.foldlM (fun n d => (radix.digit? d.toNat).bind (type.pushDigit? radix n)) 0 := by
  rw [IntegerType.ofDigits?]
  generalize 0 = n
  induction cs generalizing n with
  | nil => rfl
  | cons d ds ih =>
    obtain ⟨hd, hds⟩ := canEncodeAll_cons.1 hcs
    rw [charsUnits_cons, List.foldlM_append, List.foldlM_cons]
    by_cases hascii : CodePoint.IsAscii d.toNat
    · rw [charUnits_of_ascii e hascii, List.foldlM_cons]
      cases (radix.digit? d.toNat).bind (type.pushDigit? radix n) with
      | none => rfl
      | some m => exact ih hds m
    · obtain ⟨u, us, hunits, hu⟩ := charUnits_of_not_ascii hd hascii
      rw [hunits, List.foldlM_cons, radix.digit?_of_le u hu, radix.digit?_of_le _ (by omega)]
      rfl

end

/-! ## Literals -/

theorem append_of_commonLength_eq {us units : List Nat} (h : commonLength us units = us.length) :
    units = us ++ units.drop us.length := by
  fun_induction commonLength us units with
  | case1 u us vs ih =>
    rw [List.length_cons, List.drop_succ_cons, List.cons_append, ← ih (Nat.succ.inj h)]
  | case2 => cases h
  | case3 us vs hne =>
    cases us with
    | nil => rfl
    | cons u us => cases h

/-- Units that agree with all of a text start with its units. -/
theorem compareChars_eq_true {e : Encoding} {text : List Char} {units : List Nat} {n : Nat}
    (h : compareChars e text units = (true, n)) :
    e.CanEncodeAll text ∧ n = (e.charsUnits text).length ∧ e.charsUnits text <+: units := by
  induction text generalizing units n with
  | nil =>
    cases h
    exact ⟨canEncodeAll_nil, rfl, List.nil_prefix⟩
  | cons c text ih =>
    rw [compareChars] at h
    split at h
    · cases h
    · next us hus =>
      simp only at h
      split at h
      · next hcommon =>
        rw [hcommon] at h
        generalize hrest : compareChars e text (units.drop us.length) = compared at h
        obtain ⟨all, m⟩ := compared
        cases h
        obtain ⟨hcan, rfl, hfront⟩ := ih hrest
        have hc : e.CanEncode c.toNat := units?_eq_some_iff.1 ⟨us, hus⟩
        obtain rfl : e.charUnits c = us := Option.some.inj ((units?_of_canEncode hc).symm.trans hus)
        rw [charsUnits_cons, append_of_commonLength_eq hcommon]
        exact ⟨canEncodeAll_cons.2 ⟨hc, hcan⟩, List.length_append.symm,
          (List.prefix_append_right_inj _).2 hfront⟩
      · cases h

/-- A literal that matches is there with all of its units. -/
theorem matchLiteral_eq_ok {c : Cursor} {text : String} {q : Nat}
    (h : matchLiteral text c = .ok q) : c.source.encoding.CanEncodeAll text.toList ∧
      q = c.position + (c.source.encoding.charsUnits text.toList).length ∧
      ∃ n, c.source.encoding.charsUnits text.toList <+: c.ahead n := by
  rw [matchLiteral] at h
  generalize hcompare : compareChars _ _ _ = compared at h
  obtain ⟨all, n⟩ := compared
  cases all with
  | false => cases h
  | true =>
    obtain rfl := Except.ok.inj h
    obtain ⟨hcan, rfl, hfront⟩ := compareChars_eq_true hcompare
    exact ⟨hcan, rfl, _, hfront⟩

/-- A literal that is not empty takes units. -/
theorem lt_of_matchLiteral {c : Cursor} {text : String} {q : Nat} (htext : text ≠ "")
    (h : matchLiteral text c = .ok q) : c.position < q := by
  obtain ⟨hcan, rfl, -⟩ := matchLiteral_eq_ok h
  cases hcs : text.toList with
  | nil => exact absurd (String.toList_eq_nil_iff.1 hcs) htext
  | cons d ds =>
    rw [hcs] at hcan
    have hne := ne_nil_of_units? (units?_of_canEncode (canEncodeAll_cons.1 hcan).1)
    have hpos := List.length_pos_iff.2 hne
    rw [charsUnits_cons, List.length_append]
    omega

/-- A literal that is missing is missed where what agrees with it ends. -/
theorem range_of_matchLiteral {c : Cursor} {text : String} {f : TokenFailure}
    (h : matchLiteral text c = .error f) : f.range = ⟨c.position, f.stop⟩ := by
  rw [matchLiteral] at h
  generalize compareChars _ _ _ = compared at h
  obtain ⟨all, n⟩ := compared
  cases all with
  | true => cases h
  | false =>
    obtain rfl := Except.error.inj h
    rfl

/-- A literal that matches ends behind a character. -/
theorem Cursor.Sees.level_of_matchLiteral {c : Cursor} {text : String} {cs : List Char} {q : Nat}
    (h : c.Sees cs) (hmatch : matchLiteral text c = .ok q) : Cursor.Level c c cs q q := by
  obtain ⟨hcan, rfl, n, hfront⟩ := matchLiteral_eq_ok hmatch
  rw [h.ahead] at hfront
  obtain ⟨post, hpost⟩ := (charsUnits_prefix_iff h.canEncode hcan).1
    (hfront.trans (List.take_prefix _ _))
  exact ⟨text.toList, post, hpost.symm, rfl, rfl⟩

/-! ## Tokens -/

section
variable {c c' : Cursor} {cs : List Char} (h : c.Sees cs) (h' : c'.Sees cs)
  {Kind : ErrorKind → ErrorKind → Prop} (hkind : ∀ k, Kind k k)
include h h' hkind

theorem matchLiteral_alike {text : String}
    (htext : ∀ x ∈ text.toList, CodePoint.IsAscii x.toNat) :
    (matchLiteral text c).Alike (Cursor.Level c c' cs) Kind (matchLiteral text c') := by
  obtain ⟨all, pre, post, rfl, hpre⟩ := compareChars_ascii htext cs
  have hlong : ∀ e : Encoding, text.toList.length ≤ text.toList.length * e.maxUnits := by
    intro e
    refine Nat.le_mul_of_pos_right _ ?_
    cases e with
    | ascii | utf8 | utf16 | utf32 => decide
  obtain ⟨hcompare, hlength⟩ := hpre _ _ h.canEncode (hlong _)
  obtain ⟨hcompare', hlength'⟩ := hpre _ _ h'.canEncode (hlong _)
  have hlevel := Cursor.level_prefix c c' pre post
  rw [hlength, hlength'] at hlevel
  rw [matchLiteral, matchLiteral, h.ahead, h'.ahead, hcompare, hcompare']
  cases all with
  | true => exact hlevel
  | false => exact ⟨hlevel, Cursor.level_refl, hlevel, hkind _⟩

omit h h' in
theorem alike_at (kind : ErrorKind) : TokenMatch.Alike (Cursor.Level c c' cs) Kind
    (.error (.at c.position kind)) (.error (.at c'.position kind)) :=
  ⟨Cursor.level_refl, Cursor.level_refl, Cursor.level_refl, hkind kind⟩

theorem matchClass_alike (k : AsciiClass) :
    (matchClass k c).Alike (Cursor.Level c c' cs) Kind (matchClass k c') := by
  have hnext := k.recognizes.alike h h'
  rw [matchClass, matchClass]
  generalize k.matchOne c = q? at hnext ⊢
  generalize k.matchOne c' = q?' at hnext ⊢
  cases hnext with
  | none => exact alike_at hkind _
  | some hlevel => exact hlevel

theorem matchEof_alike :
    (matchEof c).Alike (Cursor.Level c c' cs) Kind (matchEof c') := by
  rw [matchEof, matchEof, h.isAtEnd, h'.isAtEnd]
  split
  · exact Cursor.level_refl
  · exact alike_at hkind _

theorem matchCodePoint_alike (f : CodePointFilter)
    (hmissing : Kind (.expectedCharClass c.source.encoding.codePointClass)
      (.expectedCharClass c'.source.encoding.codePointClass)) :
    ∃ m m', matchCodePoint f c = .ok m ∧ matchCodePoint f c' = .ok m' ∧
      m.Alike (Cursor.Level c c' cs) Kind m' := by
  cases cs with
  | nil =>
    rw [matchCodePoint, matchCodePoint, h.decode_nil, h'.decode_nil]
    exact ⟨_, _, rfl, rfl, Cursor.level_refl, Cursor.level_refl, Cursor.level_refl, hmissing⟩
  | cons d ds =>
    rw [matchCodePoint, matchCodePoint, h.decode_cons, h'.decode_cons]
    refine ⟨_, _, rfl, rfl, ?_⟩
    simp only
    split
    · exact Cursor.level_cons c c' d _
    · exact ⟨Cursor.level_cons c c' d _, Cursor.level_refl, Cursor.level_cons c c' d _, hkind _⟩

theorem matchDigits_alike (radix : Radix) :
    ∃ m m', matchDigits radix c = .ok m ∧ matchDigits radix c' = .ok m' ∧
      m.Alike (Cursor.Level c c' cs) Kind m' := by
  rw [matchDigits, matchDigits, h.passAll radix.recognizes, h'.passAll radix.recognizes]
  refine ⟨_, _, rfl, rfl, ?_⟩
  have hempty : ∀ (c : Cursor), c.Sees cs →
      (c.position + (c.source.encoding.charsUnits
        (cs.takeWhile fun d => (radix.digit? d.toNat).isSome)).length = c.position ↔
        cs.takeWhile (fun d => (radix.digit? d.toNat).isSome) = []) := by
    intro c h
    constructor
    · intro hlength
      refine charsUnits_inj
        (fun x hx => h.canEncode x ((List.takeWhile_prefix _).subset hx)) canEncodeAll_nil ?_
      exact List.eq_nil_of_length_eq_zero (by omega)
    · intro hnil
      rw [hnil, charsUnits_nil]
      rfl
  simp only [hempty c h, hempty c' h']
  split
  · exact alike_at hkind _
  · exact ⟨_, _, (List.takeWhile_append_dropWhile).symm, rfl, rfl⟩

theorem matchIdentifier_alike (leading trailing : CharClass) :
    ∃ m m', matchIdentifier leading trailing c = .ok m ∧
      matchIdentifier leading trailing c' = .ok m' ∧
      m.Alike (Cursor.Level c c' cs) Kind m' := by
  cases cs with
  | nil =>
    rw [matchIdentifier, matchIdentifier, (leading.recognizes c).1 h, (leading.recognizes c').1 h']
    exact ⟨_, _, rfl, rfl, alike_at hkind _⟩
  | cons d ds =>
    rw [matchIdentifier, matchIdentifier, (leading.recognizes c).2 d ds h,
      (leading.recognizes c').2 d ds h']
    by_cases hd : leading.accepts d = true
    · -- Behind the first character both read on while there are trailing ones.
      have hread : ∀ c : Cursor, c.Sees (d :: ds) → (c.moveTo
          (c.position + (c.source.encoding.charUnits d).length) >>= fun first =>
            first.passAll trailing.matchOne >>= fun last => pure (.ok last.position)) =
          (.ok (.ok (c.position + (c.source.encoding.charsUnits
            (d :: ds.takeWhile trailing.accepts)).length)) : Except Fault TokenMatch) := by
        intro c h
        have hmoved := h.moved [d]
        rw [charsUnits_cons, charsUnits_nil, List.append_nil] at hmoved
        have hle : c.position + (c.source.encoding.charUnits d).length ≤ c.stop :=
          hmoved.valid.position_le
        rw [Cursor.moveTo_eq hle]
        show (Cursor.passAll trailing.matchOne { c with
          position := c.position + (c.source.encoding.charUnits d).length }).bind _ = _
        rw [hmoved.passAll trailing.recognizes, charsUnits_cons, List.length_append,
          ← Nat.add_assoc]
        rfl
      rw [if_pos hd, if_pos hd]
      refine ⟨_, _, hread c h, hread c' h', d :: ds.takeWhile trailing.accepts,
        ds.dropWhile trailing.accepts, ?_, rfl, rfl⟩
      rw [List.cons_append, List.takeWhile_append_dropWhile]
    · rw [if_neg hd, if_neg hd]
      exact ⟨_, _, rfl, rfl, alike_at hkind _⟩

theorem matchNewline_alike :
    (matchNewline c).Alike (Cursor.Level c c' cs) Kind (matchNewline c') := by
  have hmatch : ∀ c : Cursor, matchNewline c =
      if c.peekAt 0 = some 10 then .ok (c.position + 1)
      else if c.peekAt 0 = some 13 ∧ c.peekAt 1 = some 10 then .ok (c.position + 2)
      else .error (.at c.position (.expectedCharClass "newline")) := by
    intro c
    unfold matchNewline
    split
    · next h0 => rw [if_pos h0]
    · next h0 h1 => rw [if_neg (by rw [h0]; decide), if_pos ⟨h0, h1⟩]
    · next h0 h1 => rw [if_neg h0, if_neg fun h => h1 h.1 h.2]
  have hone : ∀ {c : Cursor} {v : Nat}, c.Sees cs → CodePoint.IsAscii v →
      (c.peekAt 0 = some v ↔ ∃ d ds, cs = d :: ds ∧ d.toNat = v) := by
    intro c v h hv
    rw [h.peekAt]
    exact head?_charsUnits_eq_iff h.canEncode hv
  have htwo : ∀ {c : Cursor} {d : Char} {ds : List Char}, c.Sees (d :: ds) → d.toNat = 13 →
      (c.peekAt 1 = some 10 ↔ ∃ d' ds', ds = d' :: ds' ∧ d'.toNat = 10) := by
    intro c d ds h hd
    rw [h.peekAt, charsUnits_cons, charUnits_of_ascii _ (by omega : CodePoint.IsAscii d.toNat)]
    exact head?_charsUnits_eq_iff (canEncodeAll_cons.1 h.canEncode).2 (by decide)
  rw [hmatch, hmatch]
  by_cases hfeed : ∃ d ds, cs = d :: ds ∧ d.toNat = 10
  · rw [if_pos ((hone h (by decide)).2 hfeed), if_pos ((hone h' (by decide)).2 hfeed)]
    obtain ⟨d, ds, rfl, hd⟩ := hfeed
    have hlevel := Cursor.level_cons c c' d ds
    rw [charUnits_of_ascii _ (by omega : CodePoint.IsAscii d.toNat),
      charUnits_of_ascii _ (by omega : CodePoint.IsAscii d.toNat)] at hlevel
    exact hlevel
  · rw [if_neg fun h0 => hfeed ((hone h (by decide)).1 h0),
      if_neg fun h0 => hfeed ((hone h' (by decide)).1 h0)]
    by_cases hreturn : ∃ d d' ds, cs = d :: d' :: ds ∧ d.toNat = 13 ∧ d'.toNat = 10
    · obtain ⟨d, d', ds, rfl, hd, hd'⟩ := hreturn
      rw [if_pos ⟨(hone h (by decide)).2 ⟨d, _, rfl, hd⟩, (htwo h hd).2 ⟨d', ds, rfl, hd'⟩⟩,
        if_pos ⟨(hone h' (by decide)).2 ⟨d, _, rfl, hd⟩, (htwo h' hd).2 ⟨d', ds, rfl, hd'⟩⟩]
      have hlevel := Cursor.level_prefix c c' [d, d'] ds
      simp only [charsUnits_cons, charsUnits_nil,
        charUnits_of_ascii _ (by omega : CodePoint.IsAscii d.toNat),
        charUnits_of_ascii _ (by omega : CodePoint.IsAscii d'.toNat)] at hlevel
      exact hlevel
    · have hneither : ∀ {c : Cursor}, c.Sees cs →
          ¬(c.peekAt 0 = some 13 ∧ c.peekAt 1 = some 10) := by
        rintro c h ⟨h0, h1⟩
        obtain ⟨d, ds, rfl, hd⟩ := (hone h (by decide)).1 h0
        obtain ⟨d', ds', rfl, hd'⟩ := (htwo h hd).1 h1
        exact hreturn ⟨d, d', ds', rfl, hd, hd'⟩
      rw [if_neg (hneither h), if_neg (hneither h')]
      exact alike_at hkind _

/-- A token that is not made of a rule matches alike, if its literal does, and if the missing of
a code point is the same error. -/
theorem Token.matchUnits?_alike (t : Token) (ht : ∀ r kind, t ≠ .rule r kind)
    (hliteral : ∀ text, t = .literal text →
      (matchLiteral text c).Alike (Cursor.Level c c' cs) Kind (matchLiteral text c'))
    (hmissing : ∀ f, t = .codePoint f →
      Kind (.expectedCharClass c.source.encoding.codePointClass)
        (.expectedCharClass c'.source.encoding.codePointClass)) :
    ∃ m m', t.matchUnits? c = .ok (some m) ∧ t.matchUnits? c' = .ok (some m') ∧
      m.Alike (Cursor.Level c c' cs) Kind m' := by
  cases t with
  | literal text => exact ⟨_, _, rfl, rfl, hliteral text rfl⟩
  | charClass k => exact ⟨_, _, rfl, rfl, matchClass_alike h h' hkind k⟩
  | codePoint f =>
    obtain ⟨m, m', hm, hm', halike⟩ := matchCodePoint_alike h h' hkind f (hmissing f rfl)
    exact ⟨m, m', by rw [matchUnits?, hm]; rfl, by rw [matchUnits?, hm']; rfl, halike⟩
  | identifier leading trailing =>
    obtain ⟨m, m', hm, hm', halike⟩ := matchIdentifier_alike h h' hkind leading trailing
    exact ⟨m, m', by rw [matchUnits?, hm]; rfl, by rw [matchUnits?, hm']; rfl, halike⟩
  | digits radix =>
    obtain ⟨m, m', hm, hm', halike⟩ := matchDigits_alike h h' hkind radix
    exact ⟨m, m', by rw [matchUnits?, hm]; rfl, by rw [matchUnits?, hm']; rfl, halike⟩
  | eof => exact ⟨_, _, rfl, rfl, matchEof_alike h h' hkind⟩
  | newline => exact ⟨_, _, rfl, rfl, matchNewline_alike h h' hkind⟩
  | rule r kind => exact absurd rfl (ht r kind)

end

end Phrase
