import Phrase.Proofs.Parse.Attempt
import Phrase.Proofs.Rule.Stepwise
import Phrase.Proofs.Symbol.Characters

/-!
# Keywords are identifiers

There are two ways to read a keyword.  The longest key in front is found, and no trailing character
of an identifier may follow it; or all of an identifier is read, and its units have to be those of
a key.  If every key is an identifier, both ways find the same and fail alike, over malformed
units as well (`Environment.keyword_agrees`).

A key that is an identifier is passed over by the identifier in front of which it stands, so the
identifier is at least as long as the longest key; it ends there exactly if nothing trails.
-/

namespace Phrase

open Encoding

/-! ## Moving on -/

namespace Cursor

variable {c : Cursor} {next : Cursor → Option Nat} {q : Nat}

theorem next_eq_none (hnext : Advances next) (h : c.stop ≤ c.position) : next c = none := by
  cases hq : next c with
  | none => rfl
  | some q =>
    obtain ⟨hlt, hle⟩ := hnext c q hq
    omega

theorem passWhile_of_none (h : next c = none) (fuel : Nat) : c.passWhile next fuel = .ok c := by
  cases fuel with
  | zero => rfl
  | succ fuel => rw [passWhile, h]

/-- Every step passes over a unit, so fuel for the units that are left is enough. -/
theorem passWhile_eq_passWhile (hnext : Advances next) {n m : Nat} (hn : c.stop - c.position ≤ n)
    (hm : c.stop - c.position ≤ m) : c.passWhile next n = c.passWhile next m := by
  induction n generalizing c m with
  | zero =>
    have hnone : next c = none := next_eq_none hnext (by omega)
    rw [passWhile_of_none hnone, passWhile_of_none hnone]
  | succ n ih =>
    cases m with
    | zero =>
      have hnone : next c = none := next_eq_none hnext (by omega)
      rw [passWhile_of_none hnone, passWhile_of_none hnone]
    | succ m =>
      rw [passWhile, passWhile]
      cases hq : next c with
      | none => rfl
      | some q =>
        obtain ⟨hlt, hle⟩ := hnext c q hq
        simp only
        rw [moveTo_eq hle]
        exact ih (by simp only; omega) (by simp only; omega)

theorem passAll_of_none (h : next c = none) : c.passAll next = .ok c := passWhile_of_none h _

theorem passAll_of_some (hnext : Advances next) (h : next c = some q) :
    c.passAll next = ({ c with position := q } : Cursor).passAll next := by
  obtain ⟨hlt, hle⟩ := hnext c q h
  obtain ⟨n, hn⟩ := Nat.exists_eq_add_one.2 (show 0 < c.stop - c.position by omega)
  rw [passAll, hn, passWhile, h]
  simp only
  rw [moveTo_eq hle]
  exact passWhile_eq_passWhile hnext (by simp only; omega) (Nat.le_refl _)

end Cursor

/-! ## Identifiers in front -/

/-- These characters are an identifier: a leading one, and then trailing ones only. -/
def SpellsIdentifier (leading trailing : CharClass) : List Char → Prop
  | [] => False
  | d :: ds => leading.accepts d = true ∧ ∀ x ∈ ds, trailing.accepts x = true

section
variable {c : Cursor} {d : Char} {ds : List Char} {more : List Nat} {leading trailing : CharClass}

/-- A class tells from the units of a character whether the character is in it, whatever
follows. -/
theorem CharClass.matchOne_front (k : CharClass) (hd : c.source.encoding.CanEncode d.toNat)
    (hrest : c.remaining = .ok (c.source.encoding.charUnits d ++ more)) :
    k.matchOne c = if k.accepts d then
      some (c.position + (c.source.encoding.charUnits d).length) else none := by
  cases k with
  | ascii k =>
    show k.matchOne c = if k.contains d.toNat then _ else none
    rw [AsciiClass.matchOne, Cursor.peek, Cursor.peekAt_eq_getElem? hrest]
    by_cases hascii : CodePoint.IsAscii d.toNat
    · rw [charUnits_of_ascii _ hascii]
      rfl
    · obtain ⟨u, us, hunits, hu⟩ := charUnits_of_not_ascii hd hascii
      rw [hunits, List.cons_append, List.getElem?_cons_zero]
      simp only
      rw [k.contains_of_le u hu, k.contains_of_le _ (by omega)]
      rfl
  | codePoint f =>
    show f.matchOne c = if f.accepts d.toNat then _ else none
    rw [CodePointFilter.matchOne, Cursor.decode_front hd hrest]
    simp only [true_and]

/-- Characters of a class are passed over, whatever follows them. -/
theorem CharClass.passAll_front (k : CharClass) (hds : c.source.encoding.CanEncodeAll ds)
    (haccepts : ∀ x ∈ ds, k.accepts x = true)
    (hrest : c.remaining = .ok (c.source.encoding.charsUnits ds ++ more)) :
    c.passAll k.matchOne =
      (c.behind (c.source.encoding.charsUnits ds).length).passAll k.matchOne := by
  induction ds generalizing c with
  | nil => rfl
  | cons d ds ih =>
    obtain ⟨hd, hds⟩ := canEncodeAll_cons.1 hds
    obtain ⟨hdaccepts, haccepts⟩ := List.forall_mem_cons.1 haccepts
    rw [charsUnits_cons, List.append_assoc] at hrest
    have hone := k.matchOne_front hd hrest
    have hnext := Cursor.remaining_behind hrest (n := (c.source.encoding.charUnits d).length)
      (by rw [List.length_append]; omega)
    rw [List.drop_left] at hnext
    rw [if_pos hdaccepts] at hone
    rw [Cursor.passAll_of_some k.advances hone, charsUnits_cons, List.length_append,
      ← Cursor.behind_behind]
    exact ih hds haccepts hnext

/-- An identifier passes over an identifier that stands in front, and moves on from there. -/
theorem matchIdentifier_front {cs : List Char} (hcs : c.source.encoding.CanEncodeAll cs)
    (hspells : SpellsIdentifier leading trailing cs)
    (hrest : c.remaining = .ok (c.source.encoding.charsUnits cs ++ more)) :
    matchIdentifier leading trailing c = do
      let last ← (c.behind (c.source.encoding.charsUnits cs).length).passAll trailing.matchOne
      return .ok last.position := by
  cases cs with
  | nil => exact hspells.elim
  | cons d ds =>
    obtain ⟨hd, hds⟩ := canEncodeAll_cons.1 hcs
    obtain ⟨hleading, htrailing⟩ := hspells
    rw [charsUnits_cons, List.append_assoc] at hrest
    have hone := leading.matchOne_front hd hrest
    have hnext := Cursor.remaining_behind hrest (n := (c.source.encoding.charUnits d).length)
      (by rw [List.length_append]; omega)
    rw [List.drop_left] at hnext
    rw [if_pos hleading] at hone
    obtain ⟨-, hle⟩ := leading.advances c _ hone
    rw [matchIdentifier, hone, charsUnits_cons, List.length_append, ← Cursor.behind_behind]
    simp only
    rw [Cursor.moveTo_eq hle, ok_bind]
    have hpass := trailing.passAll_front (c := c.behind _) hds htrailing hnext
    exact congrArg (· >>= fun last : Cursor => pure (Except.ok last.position)) hpass

/-- A text of which all is matched as an identifier is one. -/
theorem spellsIdentifier_of_matchIdentifier {e : Encoding} {key : String}
    (hkey : e.CanEncodeAll key.toList)
    (h : matchIdentifier leading trailing (.ofSource (.ofText e key)) =
      .ok (.ok (Source.ofText e key).size)) :
    SpellsIdentifier leading trailing key.toList := by
  have hsize : (Source.ofText e key).size = (e.charsUnits key.toList).length := by
    show (e.encodeText key).toArray.size = _
    rw [List.size_toArray, encodeText_eq]
  have hsees : (Cursor.ofSource (.ofText e key)).Sees key.toList :=
    .ofSource hkey (encodeText_eq key)
  rw [hsize] at h
  generalize hc : Cursor.ofSource (.ofText e key) = c at h hsees
  have hposition : c.position = 0 := hc ▸ rfl
  have hencoding : c.source.encoding = e := hc ▸ rfl
  generalize key.toList = cs at h hsees
  cases cs with
  | nil =>
    rw [matchIdentifier, (leading.recognizes c).1 hsees] at h
    cases h
  | cons d ds =>
    have hone := (leading.recognizes c).2 d ds hsees
    rw [matchIdentifier, hone] at h
    split at h
    · cases h
    · next q hq =>
      split at hq
      · next hleading =>
        refine ⟨hleading, ?_⟩
        have hmoved := hsees.moved [d]
        rw [charsUnits_cons, charsUnits_nil, List.append_nil] at hmoved
        obtain rfl := Option.some.inj hq
        have hle : c.position + (c.source.encoding.charUnits d).length ≤ c.stop :=
          hmoved.valid.position_le
        rw [Cursor.moveTo_eq hle, ok_bind, hmoved.passAll trailing.recognizes, ok_bind] at h
        have hlength := Except.ok.inj (Except.ok.inj h)
        simp only [hposition, hencoding, charsUnits_cons, List.length_append] at hlength
        -- no unit is left behind the trailing characters, so there is no character
        have hsplit := congrArg (fun ds => (e.charsUnits ds).length)
          (List.takeWhile_append_dropWhile (p := trailing.accepts) (l := ds))
        simp only [charsUnits_append, List.length_append] at hsplit
        have hdrop : e.charsUnits (ds.dropWhile trailing.accepts) = e.charsUnits [] :=
          List.eq_nil_of_length_eq_zero (by omega)
        have hcan : e.CanEncodeAll (ds.dropWhile trailing.accepts) := by
          intro x hx
          rw [← hencoding]
          exact hsees.canEncode x (List.mem_cons_of_mem d ((List.dropWhile_sublist _).subset hx))
        exact List.dropWhile_eq_nil_iff.1 (charsUnits_inj hcan canEncodeAll_nil hdrop)
      · cases hq

end

/-! ## Keys in front -/

theorem Encoding.hasKey_take_iff {e : Encoding} {rest : List Nat} {key : String} {n : Nat} :
    e.HasKey (rest.take n) key ↔ e.HasKey rest key ∧ (e.encodeText key).length ≤ n := by
  constructor
  · intro h
    have hle := h.front.length_le
    rw [List.length_take] at hle
    exact ⟨⟨h.canEncode, h.front.trans (List.take_prefix _ _)⟩, by omega⟩
  · rintro ⟨h, hle⟩
    exact ⟨h.canEncode, List.prefix_take_iff.2 ⟨h.front, hle⟩⟩

/-- An entry with the longest key in front of some units. -/
structure SymbolTable.Longest {α : Type} (t : SymbolTable α) (e : Encoding) (rest : List Nat)
    (n : Nat) (key : String) (v : α) : Prop where
  entry : t.entries[n]? = some (key, v)
  front : e.HasKey rest key
  longest : ∀ other ∈ t.keys, e.HasKey rest other →
    (e.encodeText other).length ≤ (e.encodeText key).length

namespace SymbolTable.Longest

variable {α : Type} {t : SymbolTable α} {e : Encoding} {rest : List Nat} {n : Nat} {key : String}
  {v : α}

theorem getElem?_keys (h : t.Longest e rest n key v) : t.keys[n]? = some key := by
  rw [keys, List.getElem?_map, Array.getElem?_toList, h.entry]
  rfl

/-- It stays the longest one where nothing follows it. -/
theorem take (h : t.Longest e rest n key v) :
    t.Longest e (rest.take (e.encodeText key).length) n key v :=
  ⟨h.entry, hasKey_take_iff.2 ⟨h.front, Nat.le_refl _⟩,
    fun other hother hhas => h.longest other hother (hasKey_take_iff.1 hhas).1⟩

end SymbolTable.Longest

namespace Environment

variable {env : Environment} {table p stop n : Nat} {rest : List Nat} {key : String} {v : Value}
  {c : Cursor} {leading trailing : CharClass}

theorem findSymbol_eq_some (ht : (env.grammar.table table).Sound) (hrest : c.remaining = .ok rest)
    (h : (env.grammar.table table).Longest c.source.encoding rest n key v) :
    env.findSymbol table c =
      some (v, c.position + (c.source.encoding.encodeText key).length) := by
  have hfound : (env.grammar.table table).longestKey c =
      some (n, (c.source.encoding.encodeText key).length) := by
    rw [ht.longestKey_eq hrest]
    exact (SymbolIndex.longest_eq_some_iff ht.nodup_keys).2
      ⟨key, h.getElem?_keys, h.front, rfl, h.longest⟩
  rw [findSymbol, hfound]
  simp only [Option.bind_eq_bind, Option.bind_some, h.entry]
  rfl

/-- There is no key in front, or a longest one. -/
theorem findSymbol_cases (ht : (env.grammar.table table).Sound) (hrest : c.remaining = .ok rest) :
    (env.findSymbol table c = none ∧
      ∀ key ∈ (env.grammar.table table).keys, ¬ c.source.encoding.HasKey rest key) ∨
    ∃ n key v, (env.grammar.table table).Longest c.source.encoding rest n key v := by
  have hlongest := ht.longestKey_eq hrest
  cases hfound : (env.grammar.table table).longestKey c with
  | none =>
    refine .inl ⟨by rw [findSymbol, hfound]; rfl, ?_⟩
    exact (SymbolIndex.longest_eq_none_iff ht.nodup_keys).1 (hlongest.symm.trans hfound)
  | some found =>
    obtain ⟨n, length⟩ := found
    obtain ⟨key, hkey, hhas, rfl, hall⟩ :=
      (SymbolIndex.longest_eq_some_iff ht.nodup_keys).1 (hlongest.symm.trans hfound)
    rw [SymbolTable.keys, List.getElem?_map, Option.map_eq_some_iff] at hkey
    obtain ⟨⟨key, v⟩, hentry, rfl⟩ := hkey
    exact .inr ⟨n, key, v, Array.getElem?_toList ▸ hentry, hhas, hall⟩

/-- A key is looked up in what stands in front of a place and has to reach up to there. -/
theorem findSymbolTo_eq (hp : p ≤ stop) (hstop : stop ≤ env.stop) :
    env.findSymbolTo table stop p =
      .ok ((env.findSymbol table { env.cursor p with stop }).bind fun (v, last) =>
        if last = stop then some v else none) := by
  have hpartial : (env.cursor p).partialTo stop = .ok { env.cursor p with stop } :=
    if_pos ⟨hp, hstop⟩
  rw [findSymbolTo, hpartial, ok_bind]
  cases env.findSymbol table { env.cursor p with stop } with
  | none => rfl
  | some found => rfl

/-- A cursor that ends earlier finds no key that ends behind the longest one. -/
theorem findSymbolTo_eq_none (ht : (env.grammar.table table).Sound)
    (hrest : (env.cursor p).remaining = .ok rest) (hp : p ≤ stop) (hstop : stop ≤ env.stop)
    (h : ∀ key ∈ (env.grammar.table table).keys, env.source.encoding.HasKey rest key →
      p + (env.source.encoding.encodeText key).length ≠ stop) :
    env.findSymbolTo table stop p = .ok none := by
  have hcut : ({ env.cursor p with stop } : Cursor).remaining = .ok (rest.take (stop - p)) :=
    (Cursor.slice_eq_ok_iff_take hrest hstop).2 ⟨hp, rfl⟩
  rw [findSymbolTo_eq hp hstop]
  rcases findSymbol_cases ht hcut with ⟨hnone, -⟩ | ⟨n, key, v, hlongest⟩
  · rw [hnone]
    rfl
  · have hne := h key (List.mem_of_getElem? hlongest.getElem?_keys)
      (hasKey_take_iff.1 hlongest.front).1
    rw [findSymbol_eq_some ht hcut hlongest]
    exact congrArg Except.ok (if_neg hne)

/-- A cursor that ends behind the longest key finds that key. -/
theorem findSymbolTo_eq_some (ht : (env.grammar.table table).Sound)
    (hrest : (env.cursor p).remaining = .ok rest)
    (h : (env.grammar.table table).Longest env.source.encoding rest n key v) :
    p + (env.source.encoding.encodeText key).length ≤ env.stop ∧
      env.findSymbolTo table (p + (env.source.encoding.encodeText key).length) p =
        .ok (some v) := by
  have hlength := h.front.front.length_le
  have hle := (Source.slice_eq_ok_iff.1 hrest).1
  rw [Cursor.length_of_remaining hrest] at hlength
  simp only [cursor] at hle hlength
  have hstop : p + (env.source.encoding.encodeText key).length ≤ env.stop := by omega
  have hcut := (Cursor.slice_eq_ok_iff_take hrest hstop).2 ⟨Nat.le_add_right _ _, rfl⟩
  rw [show (env.cursor p).position = p from rfl, Nat.add_sub_cancel_left] at hcut
  refine ⟨hstop, ?_⟩
  rw [findSymbolTo_eq (Nat.le_add_right _ _) hstop,
    findSymbol_eq_some (c := { env.cursor p with stop := _ }) ht hcut h.take]
  exact congrArg Except.ok (if_pos rfl)

/-- The longest key in front is a keyword if no trailing character follows it. -/
theorem findKeyword_of_longest (ht : (env.grammar.table table).Sound)
    (hrest : (env.cursor p).remaining = .ok rest)
    (h : (env.grammar.table table).Longest env.source.encoding rest n key v)
    (trailing : CharClass) :
    env.findKeyword table trailing p =
      .ok (if (trailing.matchOne ((env.cursor p).behind
        (env.source.encoding.encodeText key).length)).isSome then none
        else some (v, p + (env.source.encoding.encodeText key).length)) := by
  have hle : p + (env.source.encoding.encodeText key).length ≤ env.stop :=
    (findSymbolTo_eq_some ht hrest h).1
  rw [findKeyword, findSymbol_eq_some ht hrest h]
  simp only
  rw [Cursor.moveTo_eq hle, ok_bind]
  rfl

/-- What an identifier is matched as, and the keyword that is found in its place: none if there is
no identifier or if it is no key, and else the key that all of the identifier is. -/
inductive LooksUp (env : Environment) (table p : Nat) : TokenMatch → Option (Value × Nat) → Prop
  | missing (f : TokenFailure) : LooksUp env table p (.error f) none
  | unknown {stop : Nat} : env.findSymbolTo table stop p = .ok none →
      LooksUp env table p (.ok stop) none
  | keyword {v : Value} {stop : Nat} : env.findSymbolTo table stop p = .ok (some v) →
      LooksUp env table p (.ok stop) (some (v, stop))

/-- If every key is an identifier, a keyword is found exactly where all of an identifier is a
key. -/
theorem exists_looksUp (ht : (env.grammar.table table).Sound)
    (hkeys : ∀ key ∈ (env.grammar.table table).keys,
      env.source.encoding.CanEncodeAll key.toList → SpellsIdentifier leading trailing key.toList)
    (hc : (env.cursor p).Valid) :
    ∃ m found, matchIdentifier leading trailing (env.cursor p) = .ok m ∧
      env.findKeyword table trailing p = .ok found ∧ env.LooksUp table p m found := by
  have hrest := Cursor.remaining_eq hc
  generalize ((env.cursor p).source.units.toList.drop (env.cursor p).position).take
    ((env.cursor p).stop - (env.cursor p).position) = rest at hrest
  rcases findSymbol_cases ht hrest with ⟨hnone, hkeyless⟩ | ⟨n, key, v, hlongest⟩
  · obtain ⟨m, hm, hwithin⟩ := matchIdentifier_within hc.position_le leading trailing
    refine ⟨m, none, hm, by rw [findKeyword, hnone]; rfl, ?_⟩
    cases m with
    | error f => exact .missing f
    | ok stop =>
      refine .unknown (findSymbolTo_eq_none ht hrest hwithin.1 hwithin.2 fun key hkey hhas => ?_)
      exact absurd hhas (hkeyless key hkey)
  · have hcan := hlongest.front.canEncode
    obtain ⟨more, hmore⟩ := hlongest.front.front
    have hspells := hkeys key (List.mem_of_getElem? hlongest.getElem?_keys) hcan
    have hidentifier := matchIdentifier_front hcan hspells (hrest.trans (congrArg _ hmore.symm))
    have hkeyword := findKeyword_of_longest ht hrest hlongest trailing
    cases hnext : trailing.matchOne ((env.cursor p).behind
        (env.source.encoding.encodeText key).length) with
    | none =>
      rw [hnext] at hkeyword
      refine ⟨_, _, hidentifier.trans ?_, hkeyword,
        .keyword (findSymbolTo_eq_some ht hrest hlongest).2⟩
      exact congrArg (· >>= fun last : Cursor => pure (Except.ok last.position))
        (Cursor.passAll_of_none hnext)
    | some q =>
      obtain ⟨hlt, hq⟩ := trailing.advances _ _ hnext
      obtain ⟨last, hpass, hqlast, hlast⟩ := Cursor.passAll_eq
        (c := { env.cursor p with position := q }) trailing.advances hq
      simp only [Cursor.behind, cursor] at hlt hqlast
      rw [hnext] at hkeyword
      refine ⟨.ok last, none, hidentifier.trans ?_, hkeyword, .unknown ?_⟩
      · exact congrArg (· >>= fun last : Cursor => pure (Except.ok last.position))
          ((Cursor.passAll_of_some trailing.advances hnext).trans hpass)
      · refine findSymbolTo_eq_none ht hrest (by omega) hlast fun other hother hhas => ?_
        have hshorter : (env.source.encoding.encodeText other).length ≤
            (env.source.encoding.encodeText key).length := hlongest.longest other hother hhas
        omega

/-! ## Both rules -/

section
variable (calls : Calls) {m : TokenMatch} {found : Option (Value × Nat)}
  (hm : matchIdentifier leading trailing (env.cursor p) = .ok m)
  (hfound : env.findKeyword table trailing p = .ok found) (h : env.LooksUp table p m found)
include hm

omit hfound h in
theorem matchToken_identifier :
    env.matchToken calls (.identifier leading trailing) p = .ok m := by
  simp only [matchToken, Token.matchUnits?, hm]
  rfl

include hfound h

theorem attemptRule_keyword :
    env.attemptRule calls (.symbolIdentifier table leading trailing) p =
      env.attemptRule calls (.symbolOf table (.identifier leading trailing)) p := by
  rw [attemptRule, attemptRule, hfound, matchToken_identifier calls hm, ok_bind]
  cases h with
  | missing f => rfl
  | unknown hnone =>
    simp only [hnone]
    rfl
  | keyword hsome =>
    simp only [hsome]
    rfl

theorem parseRule_keyword (hp : p ≤ env.stop) (scope : Scope) :
    env.parseRule (env.calls n) (.symbolIdentifier table leading trailing) scope p =
      env.parseRule (env.calls n) (.symbolOf table (.identifier leading trailing)) scope p := by
  have hmatch := matchToken_identifier (env.calls n) hm
  rw [parseRule, parseRule, Parse.bind_of_quiet (m := Parse.position) rfl, hfound,
    Parse.bind_of_quiet (Parse.lift_ok found p)]
  cases h with
  | missing f =>
    -- no identifier, which both report
    have hfails : (env.expectToken (env.calls n) (.identifier leading trailing) scope).Fails p :=
      expectToken_fails hp hmatch
    obtain ⟨q, es, hfails⟩ := hfails
    exact (Parse.bind_of_none hfails).trans (Parse.bind_of_none hfails).symm
  | unknown hnone =>
    rw [expectToken_bind _ hmatch, Parse.bind_of_quiet (m := Parse.position) rfl, hnone,
      Parse.bind_of_quiet (Parse.lift_ok none p)]
    exact expectToken_bind _ hmatch
  | @keyword v stop hsome =>
    rw [expectToken_bind _ hmatch, Parse.bind_of_quiet (m := Parse.position) rfl, hsome,
      Parse.bind_of_quiet (Parse.lift_ok (some v) p)]
    rfl

end

/-- A table all of whose keys are identifiers is read alike by a keyword that is not continued and
by an identifier that is a key: wherever a cursor stands, and whatever units it reads, both rules
can be tried, apply together and go on in the same way; and parsing them gives the same result, the
same events and the same position. -/
theorem keyword_agrees (env : Environment) (table : Nat) (leading trailing : CharClass)
    (uses : List (TableUse Value)) (htable : env.grammar.table table = .ofUses uses)
    (hkeys : ∀ key ∈ (SymbolTable.ofUses uses).keys,
      env.source.encoding.CanEncodeAll key.toList →
        matchIdentifier leading trailing (.ofSource (.ofText env.source.encoding key)) =
          .ok (.ok (Source.ofText env.source.encoding key).size))
    (p : Nat) (hp : p ≤ env.stop) (hstop : env.stop ≤ env.source.size) (n : Nat) :
    (∃ commit?, env.attempt (n + 1) (.symbolIdentifier table leading trailing) p = .ok commit? ∧
      env.attempt (n + 1) (.symbolOf table (.identifier leading trailing)) p = .ok commit?) ∧
    ∀ scope, env.parse n (.symbolIdentifier table leading trailing) scope p =
      env.parse n (.symbolOf table (.identifier leading trailing)) scope p := by
  have ht : (env.grammar.table table).Sound := htable ▸ SymbolTable.sound_ofUses uses
  obtain ⟨m, found, hm, hfound, h⟩ := exists_looksUp ht
    (fun key hkey hcan => spellsIdentifier_of_matchIdentifier hcan
      (hkeys key (htable ▸ hkey) hcan)) ⟨hp, hstop⟩
  have hattempt := attemptRule_keyword (env.calls n) hm hfound h
  refine ⟨⟨found.map fun (v, stop) => env.commitSymbol (env.calls n) .identifier v stop, ?_, ?_⟩,
    fun scope => ?_⟩
  · rw [attempt_succ, attemptRule, hfound]
    rfl
  · rw [attempt_succ, ← hattempt, attemptRule, hfound]
    rfl
  · cases n with
    | zero => rfl
    | succ n => exact parseRule_keyword hm hfound h hp scope

/-- The longer one of two keys, in front of a lead byte whose sequence is cut short. -/
theorem keyword_agrees_malformed :
    let uses : List (TableUse Value) := [.add "ä" (.sym "a"), .add "äb" (.sym "ab")]
    let env : Environment :=
      ⟨⟨#[], #[.ofUses uses]⟩, ⟨.utf8, #[0xC3, 0xA4, 0x62, 0xC3, 0x62], by decide⟩, 5⟩
    let letter : CharClass := .codePoint (.range 0x61 0xFF)
    env.grammar.table 0 = .ofUses uses ∧
    (∀ key ∈ (SymbolTable.ofUses uses).keys, Encoding.utf8.CanEncodeAll key.toList →
      matchIdentifier letter letter (.ofSource (.ofText .utf8 key)) =
        .ok (.ok (Source.ofText .utf8 key).size)) ∧ 0 ≤ env.stop ∧ env.stop ≤ env.source.size ∧
    (∃ commit?, env.attempt 1 (.symbolIdentifier 0 letter letter) 0 = .ok commit? ∧
      env.attempt 1 (.symbolOf 0 (.identifier letter letter)) 0 = .ok commit?) ∧
    env.parse 1 (.symbolIdentifier 0 letter letter) .silent 0 =
      .ok ⟨some [.sym "ab"], 3, [.token .identifier ⟨0, 3⟩]⟩ ∧
    env.parse 1 (.symbolOf 0 (.identifier letter letter)) .silent 0 =
      .ok ⟨some [.sym "ab"], 3, [.token .identifier ⟨0, 3⟩]⟩ := by
  intro uses env letter
  have hkeys : ∀ key ∈ (SymbolTable.ofUses uses).keys, Encoding.utf8.CanEncodeAll key.toList →
      matchIdentifier letter letter (.ofSource (.ofText .utf8 key)) =
        .ok (.ok (Source.ofText .utf8 key).size) := by
    intro key hkey _
    have hmem : key ∈ ["ä", "äb"] := hkey
    rcases List.mem_cons.1 hmem with rfl | hmem
    · rfl
    · obtain rfl := List.mem_singleton.1 hmem
      rfl
  have hread : env.parse 1 (.symbolIdentifier 0 letter letter) .silent 0 =
      .ok ⟨some [.sym "ab"], 3, [.token .identifier ⟨0, 3⟩]⟩ := by rfl
  have hagrees :=
    keyword_agrees env 0 letter letter uses rfl hkeys 0 (Nat.zero_le _) (Nat.le_refl _)
  exact ⟨rfl, hkeys, Nat.zero_le _, Nat.le_refl _, (hagrees 0).1, hread,
    ((hagrees 1).2 .silent).symm.trans hread⟩

end Environment

end Phrase
