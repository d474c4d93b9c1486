import Mathlib.Data.List.Nodup
import Phrase.Proofs.Symbol.Keyword

/-!
# Tokens that are keys

A token can be looked up in a table: all of its units have to be those of a key.  Neither a
shorter key in front of the token's units nor a longer one that goes on behind them counts
(`Environment.symbolOf_exact`).

The lookup asks for the longest key in front of a cursor that ends where the token does.  A key
that is all of the token is longer than any other one there, and no other key reaches the end.
-/

namespace Phrase

open Encoding

/-! ## Values of keys -/

namespace SymbolTable

variable {α : Type} {t : SymbolTable α} {key : String} {n : Nat} {v : α}

theorem exists_getElem?_of_mem_keys (hkey : key ∈ t.keys) :
    ∃ (n : Nat) (v : α), t.entries[n]? = some (key, v) := by
  obtain ⟨⟨key, v⟩, hmem, rfl⟩ := List.mem_map.1 hkey
  obtain ⟨n, hn⟩ := List.mem_iff_getElem?.1 hmem
  exact ⟨n, v, by rw [← Array.getElem?_toList, hn]⟩

/-- No key occurs twice, so the value of an entry is that of its key. -/
theorem Sound.get?_eq (ht : t.Sound) (h : t.entries[n]? = some (key, v)) :
    t.get? key = some v := by
  have hmem : (key, v) ∈ t.entries.toList := by
    rw [← Array.getElem?_toList] at h
    exact List.mem_of_getElem? h
  rw [get?, ← Array.find?_toList]
  cases hfound : t.entries.toList.find? (·.1 == key) with
  | none => exact absurd (List.find?_eq_none.1 hfound _ hmem) (by simp)
  | some entry =>
    have hkey : entry.1 = key := by simpa using List.find?_some hfound
    obtain rfl : entry = (key, v) :=
      List.inj_on_of_nodup_map ht.nodup_keys (List.mem_of_find?_eq_some hfound) hmem hkey
    rfl

end SymbolTable

namespace Environment

variable {env : Environment} {calls : Calls} {table p stop : Nat} {key : String} {us : List Nat}
  {v : Value} {kind : TokenKind} {scope : Scope}

/-! ## Keys that are all of a span -/

/-- The units of a span are those of a key. -/
structure SpellsKey (env : Environment) (table : Nat) (r : Span) (key : String) : Prop where
  mem : key ∈ (env.grammar.table table).keys
  units : ∃ us, env.source.slice r = .ok us ∧ env.source.encoding.encodeText? key = some us

/-- A key that is all of a span is found there, whatever other keys begin there. -/
theorem findSymbolTo_of_spellsKey (ht : (env.grammar.table table).Sound) (hstop : stop ≤ env.stop)
    (h : env.SpellsKey table ⟨p, stop⟩ key) :
    ∃ v, (env.grammar.table table).get? key = some v ∧
      env.findSymbolTo table stop p = .ok (some v) := by
  obtain ⟨hmem, us, hslice, hus⟩ := h
  obtain ⟨hcan, rfl⟩ := encodeText?_eq_some_iff.1 hus
  obtain ⟨n, v, hentry⟩ := SymbolTable.exists_getElem?_of_mem_keys hmem
  have hcut : ({ env.cursor p with stop } : Cursor).remaining =
      .ok (env.source.encoding.encodeText key) := hslice
  have hp : p ≤ stop := (Source.slice_eq_ok_iff.1 hslice).1
  have hlength : (env.source.encoding.encodeText key).length = stop - p :=
    Cursor.length_of_remaining hcut
  have hlongest : (env.grammar.table table).Longest env.source.encoding
      (env.source.encoding.encodeText key) n key v :=
    ⟨hentry, ⟨hcan, List.prefix_rfl⟩, fun _ _ hother => hother.front.length_le⟩
  refine ⟨v, ht.get?_eq hentry, ?_⟩
  rw [findSymbolTo_eq hp hstop,
    findSymbol_eq_some (c := { env.cursor p with stop }) ht hcut hlongest]
  refine congrArg Except.ok (if_pos ?_)
  show p + (env.source.encoding.encodeText key).length = stop
  omega

/-- Where no key is all of a span, none is found. -/
theorem findSymbolTo_of_not_spellsKey (ht : (env.grammar.table table).Sound) (hp : p ≤ stop)
    (hstop : stop ≤ env.stop) (hsource : env.stop ≤ env.source.size)
    (h : ∀ key, ¬ env.SpellsKey table ⟨p, stop⟩ key) :
    env.findSymbolTo table stop p = .ok none := by
  obtain ⟨us, hcut⟩ : ∃ us, ({ env.cursor p with stop } : Cursor).remaining = .ok us :=
    ⟨_, Cursor.remaining_eq ⟨hp, Nat.le_trans hstop hsource⟩⟩
  rw [findSymbolTo_eq hp hstop]
  rcases findSymbol_cases ht hcut with ⟨hnone, -⟩ | ⟨n, key, v, hlongest⟩
  · rw [hnone]
    rfl
  · rw [findSymbol_eq_some ht hcut hlongest]
    refine congrArg Except.ok (if_neg fun hlast => h key ?_)
    -- a key in front of the span that reaches its end is all of it
    have hlength : (env.source.encoding.encodeText key).length = us.length := by
      rw [Cursor.length_of_remaining hcut]
      simp only [cursor] at hlast ⊢
      omega
    obtain rfl : env.source.encoding.encodeText key = us :=
      hlongest.front.front.eq_of_length hlength
    exact ⟨List.mem_of_getElem? hlongest.getElem?_keys, _, hcut, hlongest.front.encodeText?_eq⟩

/-! ## The rule -/

/-- Going on from a symbol makes its token, skips whitespace, and outputs the value unless that
fails. -/
theorem commitSymbol_eq (hstop : stop ≤ env.stop) :
    env.commitSymbol calls kind v stop scope p =
      (skipWhitespace calls scope stop).map fun o =>
        ⟨o.result.map fun _ => [v], o.position, .token kind ⟨p, stop⟩ :: o.events⟩ :=
  finishToken_pure_eq scope kind [v] hstop

/-- A token that is no key is passed over and reported, and the parse fails behind it. -/
theorem refuseSymbol_eq (hstop : stop ≤ env.stop) :
    env.refuseSymbol kind stop scope p = .ok ⟨none, stop,
      [.token kind ⟨p, stop⟩, .error ⟨.unknownSymbol, ⟨p, stop⟩, scope.production⟩]⟩ := by
  rw [refuseSymbol, Parse.bind_of_quiet (m := Parse.position) rfl]
  exact refuse_eq scope kind .unknownSymbol hstop

/-- A token is looked up as a whole.  The rule applies exactly where the token matches and its
units are those of a key; then it makes the token, skips whitespace, and outputs the value of the
key unless that fails.  Where the token matches and is no key, the rule does not apply, and
parsing it passes over the token, reports an unknown symbol over it and fails behind it. -/
theorem symbolOf_exact (env : Environment) (table : Nat) (uses : List (TableUse Value))
    (htable : env.grammar.table table = .ofUses uses) (t : Token) (p : Nat) (hp : p ≤ env.stop)
    (hsource : env.stop ≤ env.source.size) (n : Nat) :
    ((∃ commit, env.attempt (n + 1) (.symbolOf table t) p = .ok (some commit)) ↔
      ∃ stop key, env.matchToken (env.calls n) t p = .ok (.ok stop) ∧
        env.SpellsKey table ⟨p, stop⟩ key) ∧
    ∀ stop, env.matchToken (env.calls n) t p = .ok (.ok stop) →
      (∀ key, env.SpellsKey table ⟨p, stop⟩ key →
        ∃ v commit, (SymbolTable.ofUses uses).get? key = some v ∧
          env.attempt (n + 1) (.symbolOf table t) p = .ok (some commit) ∧
          ∀ scope, commit scope p = env.parse (n + 1) (.symbolOf table t) scope p ∧
            env.parse (n + 1) (.symbolOf table t) scope p =
              (skipWhitespace (env.calls n) scope stop).map fun o =>
                ⟨o.result.map fun _ => [v], o.position, .token t.kind ⟨p, stop⟩ :: o.events⟩) ∧
      ((∀ key, ¬ env.SpellsKey table ⟨p, stop⟩ key) →
        env.attempt (n + 1) (.symbolOf table t) p = .ok none ∧
        ∀ scope, env.parse (n + 1) (.symbolOf table t) scope p = .ok ⟨none, stop,
          [.token t.kind ⟨p, stop⟩, .error ⟨.unknownSymbol, ⟨p, stop⟩, scope.production⟩]⟩) := by
  have ht : (env.grammar.table table).Sound := htable ▸ SymbolTable.sound_ofUses uses
  have hwithin : ∀ {stop}, env.matchToken (env.calls n) t p = .ok (.ok stop) →
      p ≤ stop ∧ stop ≤ env.stop := fun hm => EventLaw.within_of_matchToken hp hm
  have happlies : ∀ {stop v?}, env.matchToken (env.calls n) t p = .ok (.ok stop) →
      env.findSymbolTo table stop p = .ok v? →
      env.attempt (n + 1) (.symbolOf table t) p =
        .ok (v?.map fun v => env.commitSymbol (env.calls n) t.kind v stop) := by
    intro stop v? hm hv
    rw [attempt_succ, attemptRule, hm, ok_bind]
    simp only [hv]
    rfl
  have hparse : ∀ {stop v?} scope, env.matchToken (env.calls n) t p = .ok (.ok stop) →
      env.findSymbolTo table stop p = .ok v? →
      env.parse (n + 1) (.symbolOf table t) scope p =
        (v?.elim (env.refuseSymbol t.kind stop) fun v =>
          env.commitSymbol (env.calls n) t.kind v stop) scope p := by
    intro stop v? scope hm hv
    rw [parse_succ, parseRule, expectToken_bind _ hm, Parse.bind_of_quiet (m := Parse.position) rfl,
      hv]
    cases v? with
    | none => exact Parse.bind_of_quiet (Parse.lift_ok none p)
    | some v => exact Parse.bind_of_quiet (Parse.lift_ok (some v) p)
  refine ⟨⟨?_, ?_⟩, fun stop hm => ⟨fun key hkey => ?_, fun hnone => ?_⟩⟩
  · rintro ⟨commit, hcommit⟩
    rcases symbolOf_cases hcommit with ⟨f, -, hc⟩ | ⟨stop, v?, hm, hv, hc⟩
    · cases hc
    · obtain ⟨hle, hstop⟩ := hwithin hm
      by_contra hno
      have hnone := findSymbolTo_of_not_spellsKey ht hle hstop hsource
        fun key hkey => hno ⟨stop, key, hm, hkey⟩
      obtain rfl : none = v? := Except.ok.inj (hnone.symm.trans hv)
      cases hc
  · rintro ⟨stop, key, hm, hkey⟩
    obtain ⟨v, -, hv⟩ := findSymbolTo_of_spellsKey ht (hwithin hm).2 hkey
    exact ⟨_, happlies hm hv⟩
  · obtain ⟨v, hget, hv⟩ := findSymbolTo_of_spellsKey ht (hwithin hm).2 hkey
    refine ⟨v, _, htable ▸ hget, happlies hm hv, fun scope => ⟨(hparse scope hm hv).symm, ?_⟩⟩
    exact (hparse scope hm hv).trans (commitSymbol_eq (hwithin hm).2)
  · obtain ⟨hle, hstop⟩ := hwithin hm
    have hv := findSymbolTo_of_not_spellsKey ht hle hstop hsource hnone
    exact ⟨happlies hm hv, fun scope => (hparse scope hm hv).trans (refuseSymbol_eq hstop)⟩

/-- In front of a key that begins with another one: a token that is the shorter one, and one that
ends between the two. -/
theorem symbolOf_exact_overlapping :
    let uses : List (TableUse Value) := [.add "gr" (.sym "g"), .add "größe" (.sym "s")]
    let env : Environment := ⟨⟨#[], #[.ofUses uses]⟩, .ofText .utf8 "größe", 7⟩
    let short : Token := .literal "gr"
    let long : Token := .literal "grö"
    env.grammar.table 0 = .ofUses uses ∧ 0 ≤ env.stop ∧ env.stop ≤ env.source.size ∧
    (env.matchToken (env.calls 0) short 0 = .ok (.ok 2) ∧ env.SpellsKey 0 ⟨0, 2⟩ "gr" ∧
      (∃ commit, env.attempt 1 (.symbolOf 0 short) 0 = .ok (some commit)) ∧
      env.parse 1 (.symbolOf 0 short) .silent 0 =
        .ok ⟨some [.sym "g"], 2, [.token .literal ⟨0, 2⟩]⟩) ∧
    env.matchToken (env.calls 0) long 0 = .ok (.ok 4) ∧
      (∀ key, ¬ env.SpellsKey 0 ⟨0, 4⟩ key) ∧
      env.attempt 1 (.symbolOf 0 long) 0 = .ok none ∧
      env.parse 1 (.symbolOf 0 long) .silent 0 = .ok ⟨none, 4,
        [.token .literal ⟨0, 4⟩, .error ⟨.unknownSymbol, ⟨0, 4⟩, ""⟩]⟩ := by
  intro uses env short long
  have hstop : env.stop ≤ env.source.size := by decide +kernel
  have hshort : env.matchToken (env.calls 0) short 0 = .ok (.ok 2) := by rfl
  have hlong : env.matchToken (env.calls 0) long 0 = .ok (.ok 4) := by rfl
  have hkey : env.SpellsKey 0 ⟨0, 2⟩ "gr" := ⟨by decide +kernel, [0x67, 0x72], by rfl, by rfl⟩
  have hnone : ∀ key, ¬ env.SpellsKey 0 ⟨0, 4⟩ key := by
    rintro key ⟨hmem, us, hslice, hus⟩
    obtain rfl : [0x67, 0x72, 0xC3, 0xB6] = us := Except.ok.inj hslice
    have hmem : key ∈ ["gr", "größe"] := hmem
    rcases List.mem_cons.1 hmem with rfl | hmem
    · revert hus
      decide +kernel
    · obtain rfl := List.mem_singleton.1 hmem
      revert hus
      decide +kernel
  obtain ⟨happlies, hexact⟩ :=
    symbolOf_exact env 0 uses rfl short 0 (Nat.zero_le _) hstop 0
  obtain ⟨v, commit, hget, -, hparse⟩ := (hexact 2 hshort).1 "gr" hkey
  obtain rfl : Value.sym "g" = v := Option.some.inj hget
  obtain ⟨hrefuses, hfails⟩ :=
    ((symbolOf_exact env 0 uses rfl long 0 (Nat.zero_le _) hstop 0).2 4 hlong).2 hnone
  exact ⟨rfl, Nat.zero_le _, hstop,
    ⟨hshort, hkey, happlies.2 ⟨2, "gr", hshort, hkey⟩, (hparse .silent).2⟩,
    hlong, hnone, hrefuses, hfails .silent⟩

end Environment

end Phrase
