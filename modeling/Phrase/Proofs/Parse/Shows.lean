import Phrase.Proofs.Encoding.Display
import Phrase.Proofs.Parse.Takes
import Phrase.Proofs.Symbol.Characters
import Phrase.Proofs.Symbol.Keyword

/-!
# Branches over a text

Where a parse stands in front of encoded characters (`Environment.Shows`), it is told by these
characters, in every encoding alike, which tokens are accepted, how far whitespace reaches and
which key of a table is found.  Positions are counted in the units of the encoding; what some
characters take is their `Environment.width`.
-/

namespace Phrase

open Encoding Parse

/-- A scope in which the characters of a class are skipped behind every token. -/
structure Scope.Skipping (s : Scope) (k : AsciiClass) : Prop where
  whitespace : s.whitespace = some (.token (.charClass k))
  auto : s.auto = true

namespace Environment

/-- These characters are left in front of a position. -/
def Shows (env : Environment) (p : Nat) (cs : List Char) : Prop := (env.cursor p).Sees cs

/-- How many units some characters take. -/
def width (env : Environment) (cs : List Char) : Nat := (env.source.encoding.charsUnits cs).length

variable {env : Environment} {p : Nat} {c : Char} {cs ds ws : List Char} {scope : Scope}

theorem width_append (cs ds : List Char) :
    env.width (cs ++ ds) = env.width cs + env.width ds := by
  rw [width, charsUnits_append, List.length_append]
  rfl

theorem width_cons (c : Char) (cs : List Char) :
    env.width (c :: cs) = env.width [c] + env.width cs := width_append [c] cs

theorem width_singleton (c : Char) : env.width [c] = (env.source.encoding.charUnits c).length := by
  rw [width, charsUnits_cons, charsUnits_nil, List.append_nil]

theorem width_of_ascii (hcs : ∀ c ∈ cs, CodePoint.IsAscii c.toNat) : env.width cs = cs.length := by
  rw [width, charsUnits_of_ascii hcs, List.length_map]

namespace Shows

theorem faces (h : env.Shows p cs) : env.Faces p (env.source.encoding.charsUnits cs) := h.remaining

theorem behind (h : env.Shows p (cs ++ ds)) : env.Shows (p + env.width cs) ds := h.moved cs

theorem behind_cons (h : env.Shows p (c :: cs)) : env.Shows (p + env.width [c]) cs :=
  behind (show env.Shows p ([c] ++ cs) from h)

theorem le_stop (h : env.Shows p (cs ++ ds)) : p + env.width cs ≤ env.stop :=
  h.behind.valid.position_le

/-- Characters take some units. -/
theorem width_pos (h : env.Shows p (cs ++ ds)) (hcs : cs ≠ []) : 0 < env.width cs := by
  obtain ⟨c, cs, rfl⟩ := List.exists_cons_of_ne_nil hcs
  have hc := (canEncodeAll_cons.1 h.canEncode).1
  rw [width_cons, width_singleton]
  exact Nat.add_pos_left (List.length_pos_iff.2 (ne_nil_of_units? (units?_of_canEncode hc))) _

/-- The text between two positions. -/
theorem sliceText (h : env.Shows p (cs ++ ds)) :
    env.source.sliceText ⟨p, p + env.width cs⟩ = .ok (String.ofList cs) := by
  have hslice : env.source.slice ⟨p, p + env.width cs⟩ = _ := Cursor.Sees.slice h
  rw [Source.sliceText, hslice]
  exact congrArg Except.ok (display_charsUnits fun x hx => h.canEncode x (List.mem_append_left _ hx))

end Shows

/-! ## Tokens -/

section
variable {t : Token} {x : Char} {br : List Char} {leading trailing : CharClass}
  {f : CodePointFilter}

theorem matchToken_of_units {m : TokenMatch}
    (h : t.matchUnits? (env.cursor p) = .ok (some m)) (calls : Calls) :
    env.matchToken calls t p = .ok m := by
  cases t with
  | rule r kind => cases h
  | literal | charClass | codePoint | identifier | digits | eof | newline =>
    rw [matchToken, h]
    · intro _ _ h
      cases h

namespace Shows

theorem accepts_literal (h : env.Shows p (x :: cs)) (hx : CodePoint.IsAscii x.toNat) :
    env.Accepts (.literal (String.ofList [x])) p (p + env.width [x]) := by
  have hmatch := matchLiteral_units h.faces hx
  rw [charsUnits_cons, charUnits_of_ascii _ hx, List.singleton_append, List.head?_cons,
    if_pos rfl] at hmatch
  rw [width_of_ascii (List.forall_mem_singleton.2 hx)]
  exact accepts_of_eq (matchToken_of_units (congrArg (Except.ok ∘ some) hmatch))

/-- The first unit is another one if the first character is. -/
theorem getElem?_charsUnits_ne (h : env.Shows p cs) (hx : CodePoint.IsAscii x.toNat)
    (hcs : cs.head? ≠ some x) : (env.source.encoding.charsUnits cs)[0]? ≠ some x.toNat := by
  intro hunit
  obtain ⟨d, ds, rfl, hd⟩ := (head?_charsUnits_eq_iff h.canEncode hx).1 hunit
  exact hcs (congrArg some (Char.toNat_inj.1 hd))

theorem rejects_literal (h : env.Shows p cs) (hx : CodePoint.IsAscii x.toNat)
    (hcs : cs.head? ≠ some x) : env.Rejects (.literal (String.ofList [x])) p := by
  have hmatch := matchLiteral_units h.faces hx
  have hhead := h.getElem?_charsUnits_ne hx hcs
  rw [List.head?_eq_getElem?, if_neg hhead] at hmatch
  exact rejects_of_eq (matchToken_of_units (congrArg (Except.ok ∘ some) hmatch))

theorem accepts_eof (h : env.Shows p []) : env.Accepts .eof p p :=
  accepts_of_eq (matchToken_of_units (congrArg (Except.ok ∘ some) (matchEof_units h.faces)))

/-- A line break is a line feed, with a carriage return in front of it or not. -/
theorem accepts_newline (hbr : br = ['\n'] ∨ br = ['\r', '\n']) (h : env.Shows p (br ++ cs)) :
    env.Accepts .newline p (p + env.width br) := by
  have hfeed : ∀ c ∈ ['\n'], CodePoint.IsAscii c.toNat := List.forall_mem_singleton.2 (by decide)
  refine accepts_of_eq (matchToken_of_units (congrArg (Except.ok ∘ some) ?_))
  rw [matchNewline, h.peekAt, h.peekAt, charsUnits_append]
  obtain rfl | rfl := hbr
  · rw [width_of_ascii hfeed, charsUnits_of_ascii hfeed]
    rfl
  · have hascii : ∀ c ∈ ['\r', '\n'], CodePoint.IsAscii c.toNat :=
      List.forall_mem_cons.2 ⟨by decide, hfeed⟩
    rw [width_of_ascii hascii, charsUnits_of_ascii hascii]
    rfl

theorem rejects_newline (h : env.Shows p cs) (hfeed : cs.head? ≠ some '\n')
    (hreturn : cs.head? ≠ some '\r') : env.Rejects .newline p := by
  have hhead : (env.cursor p).peekAt 0 = (env.source.encoding.charsUnits cs)[0]? := h.peekAt 0
  refine rejects_of_eq (f := .at p (.expectedCharClass "newline"))
    (matchToken_of_units (congrArg (Except.ok ∘ some) ?_))
  rw [matchNewline, hhead]
  split
  · next h0 => exact absurd h0 (h.getElem?_charsUnits_ne (x := '\n') (by decide) hfeed)
  · next h0 _ => exact absurd h0 (h.getElem?_charsUnits_ne (x := '\r') (by decide) hreturn)
  · rfl

theorem accepts_codePoint (h : env.Shows p (x :: cs)) (hx : f.accepts x.toNat = true) :
    env.Accepts (.codePoint f) p (p + env.width [x]) := by
  refine accepts_of_eq (matchToken_of_units (m := .ok (p + env.width [x])) ?_)
  rw [Token.matchUnits?, matchCodePoint, h.decode_cons, width_singleton]
  simp only [hx, if_true]
  rfl

theorem rejects_codePoint (h : env.Shows p (x :: cs)) (hx : f.accepts x.toNat = false) :
    env.Rejects (.codePoint f) p := by
  refine rejects_of_eq (f := ⟨p + env.width [x], .expectedCharClass f.name, ⟨p, p + env.width [x]⟩⟩)
    (matchToken_of_units ?_)
  rw [Token.matchUnits?, matchCodePoint, h.decode_cons, width_singleton]
  simp only [hx]
  rfl

/-- An identifier reaches to the first character that is no trailing one. -/
theorem accepts_identifier (h : env.Shows p (c :: cs ++ ds)) (hc : leading.accepts c = true)
    (hcs : ∀ d ∈ cs, trailing.accepts d = true)
    (hds : ∀ d, ds.head? = some d → trailing.accepts d = false) :
    env.Accepts (.identifier leading trailing) p (p + env.width (c :: cs)) := by
  refine accepts_of_eq (matchToken_of_units (m := .ok (p + env.width (c :: cs))) ?_)
  have hone : leading.matchOne (env.cursor p) = some (p + env.width [c]) := by
    rw [(leading.recognizes _).2 c (cs ++ ds) h, if_pos hc, width_singleton]
    rfl
  have hbehind : (env.cursor (p + env.width [c])).Sees (cs ++ ds) := h.behind_cons
  have hmove : (env.cursor p).moveTo (p + env.width [c]) = .ok (env.cursor (p + env.width [c])) :=
    Cursor.moveTo_eq hbehind.valid.position_le
  have hpass := hbehind.passAll trailing.recognizes
  rw [takeWhile_append_of_stops hcs hds] at hpass
  rw [Token.matchUnits?, matchIdentifier, hone]
  simp only
  rw [hmove, ok_bind, hpass, ok_bind, width_cons c cs, ← Nat.add_assoc]
  rfl

theorem rejects_identifier (h : env.Shows p cs) (hcs : ∀ d, cs.head? = some d → leading.accepts d = false) :
    env.Rejects (.identifier leading trailing) p := by
  have hnone : leading.matchOne (env.cursor p) = none := by
    cases cs with
    | nil => exact (leading.recognizes _).1 h
    | cons d ds =>
      rw [(leading.recognizes _).2 d ds h, hcs d rfl]
      rfl
  refine rejects_of_eq (f := .at p (.expectedCharClass leading.name)) (matchToken_of_units ?_)
  rw [Token.matchUnits?, matchIdentifier, hnone]
  rfl

end Shows

end

/-! ## Whitespace -/

/-- The characters of a class reach from `p` to `q`, and no further. -/
structure Reaches (env : Environment) (k : AsciiClass) (p q : Nat) : Prop where
  le : p ≤ q
  skips {scope : Scope} : scope.Skipping k → env.Skips scope p q
  stays {scope : Scope} : scope.Skipping k → env.Skips scope q q

namespace Shows

section
variable (k : AsciiClass) (h : env.Shows p (ws ++ ds))
  (hws : ∀ c ∈ ws, k.contains c.toNat = true)
  (hds : ∀ d, ds.head? = some d → k.contains d.toNat = false)
include h hws hds

/-- As many units as characters are in a class of ASCII. -/
theorem length_takeWhile_charsUnits :
    ((env.source.encoding.charsUnits (ws ++ ds)).takeWhile k.contains).length = env.width ws := by
  have hascii : env.source.encoding.charsUnits ws = ws.map Char.toNat :=
    charsUnits_of_ascii fun c hc => k.isAscii_of_contains (hws c hc)
  rw [width, charsUnits_append]
  refine congrArg _ (takeWhile_append_of_stops ?_ fun u hu => ?_)
  · rw [hascii]
    exact List.forall_mem_map.2 hws
  · cases ds with
    | nil => cases hu
    | cons d ds =>
      have hhigh : ∀ u, 0x80 ≤ u → k.contains u = false := k.contains_of_le
      obtain ⟨v, hpeek, htest, -⟩ := h.behind.peek_test hhigh
      rw [Cursor.peek, h.behind.peekAt] at hpeek
      obtain rfl : v = u := Option.some.inj (hpeek.symm.trans (List.head?_eq_getElem? ▸ hu))
      exact htest.trans (hds d rfl)

/-- Whitespace reaches to the first character that is none. -/
theorem gives_skipScopeWhitespace (hwhitespace : scope.whitespace = some (.token (.charClass k)))
    (n : Nat) : (skipScopeWhitespace (env.calls n) scope).Gives p (some ())
      (p + env.width ws) [] := by
  have hskip := Environment.gives_skipScopeWhitespace k hwhitespace h.faces n
  rw [h.length_takeWhile_charsUnits k hws hds] at hskip
  exact hskip

theorem parses_scopeWhitespace (hwhitespace : scope.whitespace = some (.token (.charClass k))) :
    env.Parses .scopeWhitespace scope p [] (p + env.width ws) :=
  gives_parse fun n => (h.gives_skipScopeWhitespace k hws hds hwhitespace n).andThen (gives_pure _ _)

theorem skips (hscope : scope.Skipping k) : env.Skips scope p (p + env.width ws) := by
  intro n
  rw [skipWhitespace, if_pos hscope.auto]
  exact h.gives_skipScopeWhitespace k hws hds hscope.whitespace n

end

/-- Nothing is skipped in front of a character that is no whitespace. -/
theorem stays (k : AsciiClass) (h : env.Shows p ds)
    (hds : ∀ d, ds.head? = some d → k.contains d.toNat = false) (hscope : scope.Skipping k) :
    env.Skips scope p p :=
  skips k (show env.Shows p ([] ++ ds) from h) (List.forall_mem_nil _) hds hscope

theorem reaches (k : AsciiClass) (h : env.Shows p (ws ++ ds))
    (hws : ∀ c ∈ ws, k.contains c.toNat = true)
    (hds : ∀ d, ds.head? = some d → k.contains d.toNat = false) :
    env.Reaches k p (p + env.width ws) where
  le := Nat.le_add_right _ _
  skips := h.skips k hws hds
  stays := h.behind.stays k hds

/-! ## Keywords -/

section
variable {table n : Nat} {trailing : CharClass} {key : String} {v : Value}
  (ht : (env.grammar.table table).Sound)
include ht

/-- A key is found behind which nothing trails, if all that keys are made of trails. -/
theorem findKeyword_eq (h : env.Shows p (key.toList ++ ds))
    (hentry : (env.grammar.table table).entries[n]? = some (key, v))
    (hkeys : ∀ other ∈ (env.grammar.table table).keys, ∀ x ∈ other.toList,
      trailing.accepts x = true)
    (hds : ∀ d, ds.head? = some d → trailing.accepts d = false) :
    env.findKeyword table trailing p = .ok (some (v, p + env.width key.toList)) := by
  have hlongest : (env.grammar.table table).Longest env.source.encoding
      (env.source.encoding.charsUnits (key.toList ++ ds)) n key v := by
    refine ⟨hentry, (hasKey_charsUnits_iff h.canEncode).2 (List.prefix_append _ _),
      fun other hother hhas => ?_⟩
    have hfront := (hasKey_charsUnits_iff h.canEncode).1 hhas
    rw [encodeText_eq, encodeText_eq]
    refine (length_charsUnits_le_iff h.canEncode hfront (List.prefix_append _ _)).2 ?_
    -- a longer key would have what follows this one
    by_contra hlonger
    obtain ⟨more, hmore⟩ := List.prefix_of_prefix_length_le (List.prefix_append key.toList ds)
      hfront (by omega)
    rw [← hmore, List.prefix_append_right_inj] at hfront
    cases more with
    | nil =>
      rw [← hmore, List.append_nil] at hlonger
      exact hlonger (Nat.le_refl _)
    | cons x more =>
      obtain ⟨rest, hrest⟩ := hfront
      have hx := hkeys other hother x (hmore ▸ List.mem_append_right _ List.mem_cons_self)
      rw [hds x (hrest ▸ rfl)] at hx
      cases hx
  have hbehind := h.behind
  have hnone : trailing.matchOne (env.cursor (p + env.width key.toList)) = none := by
    cases ds with
    | nil => exact (trailing.recognizes _).1 hbehind
    | cons d ds => rw [(trailing.recognizes _).2 d ds hbehind, if_neg (by rw [hds d rfl]; decide)]
  rw [findKeyword_of_longest ht h.remaining hlongest, encodeText_eq]
  exact congrArg Except.ok (if_neg (by rw [Option.not_isSome_iff_eq_none]; exact hnone))

theorem findKeyword_eq_none (h : env.Shows p cs)
    (hkeys : ∀ key ∈ (env.grammar.table table).keys, ¬ key.toList <+: cs) :
    env.findKeyword table trailing p = .ok none := by
  rcases findSymbol_cases ht h.remaining with ⟨hnone, -⟩ | ⟨n, key, v, hlongest⟩
  · rw [findKeyword, hnone]
    rfl
  · have hfront := (hasKey_charsUnits_iff h.canEncode).1 hlongest.front
    exact absurd hfront (hkeys key (List.mem_of_getElem? hlongest.getElem?_keys))

end

end Shows

end Environment

end Phrase
