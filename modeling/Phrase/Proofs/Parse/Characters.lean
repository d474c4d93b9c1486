import Phrase.Proofs.Parse.LockstepRule
import Phrase.Proofs.Symbol.Characters

/-!
# Parsing a text in two encodings

The positions of a text in two encodings are paired if they stand behind the same characters.
From such positions on tokens match alike, symbols are the same, and digits write the same
number, so runs over the two encodings go in step (`Environment.Twins.correspondence`).  With
one encoding twice, the pairing says that positions stand between characters.
-/

namespace Phrase

open Encoding

/-! ## Paired positions -/

/-- Two positions behind the same characters of a text in two encodings. -/
def Encoding.Abreast (e e' : Encoding) (cs : List Char) (p p' : Nat) : Prop :=
  ∃ pre post, cs = pre ++ post ∧ p = (e.charsUnits pre).length ∧ p' = (e'.charsUnits pre).length

namespace Encoding.Abreast

variable {e e' : Encoding} {cs : List Char} {p p' q q' : Nat}

theorem start : Abreast e e' cs 0 0 := ⟨[], cs, rfl, rfl, rfl⟩

theorem stop : Abreast e e' cs (e.charsUnits cs).length (e'.charsUnits cs).length :=
  ⟨cs, [], (List.append_nil cs).symm, rfl, rfl⟩

variable (he : e.CanEncodeAll cs)
include he

theorem le_iff (he' : e'.CanEncodeAll cs) (hp : Abreast e e' cs p p')
    (hq : Abreast e e' cs q q') : p ≤ q ↔ p' ≤ q' := by
  obtain ⟨pre, post, hcs, rfl, rfl⟩ := hp
  obtain ⟨pre', post', hcs', rfl, rfl⟩ := hq
  rw [length_charsUnits_le_iff he ⟨post, hcs.symm⟩ ⟨post', hcs'.symm⟩,
    length_charsUnits_le_iff he' ⟨post, hcs.symm⟩ ⟨post', hcs'.symm⟩]

/-- Between two pairs of positions there are the same characters. -/
theorem exists_between (hp : Abreast e e' cs p p') (hq : Abreast e e' cs q q') (hle : p ≤ q) :
    ∃ pre mid post, cs = pre ++ (mid ++ post) ∧
      (p = (e.charsUnits pre).length ∧ q = p + (e.charsUnits mid).length) ∧
      p' = (e'.charsUnits pre).length ∧ q' = p' + (e'.charsUnits mid).length := by
  obtain ⟨pre, post, hcs, rfl, rfl⟩ := hp
  obtain ⟨pre', post', hcs', rfl, rfl⟩ := hq
  have hlength := (length_charsUnits_le_iff he ⟨post, hcs.symm⟩ ⟨post', hcs'.symm⟩).1 hle
  obtain ⟨mid, rfl⟩ := List.prefix_of_prefix_length_le ⟨post, hcs.symm⟩ ⟨post', hcs'.symm⟩ hlength
  refine ⟨pre, mid, post', by rw [hcs', List.append_assoc], ⟨rfl, ?_⟩, rfl, ?_⟩
  · rw [charsUnits_append, List.length_append]
  · rw [charsUnits_append, List.length_append]

end Encoding.Abreast

/-! ## Environments over a text -/

/-- An environment that reads all of some characters, with tables that have kept up with their
keys. -/
structure Environment.Reads (env : Environment) (cs : List Char) : Prop where
  canEncode : env.source.encoding.CanEncodeAll cs
  units : env.source.units.toList = env.source.encoding.charsUnits cs
  stop : env.stop = env.source.size
  sound : ∀ n, (env.grammar.table n).Sound

theorem Environment.Reads.length_eq {env : Environment} {cs : List Char} (h : env.Reads cs) :
    env.stop = (env.source.encoding.charsUnits cs).length := by
  rw [h.stop, ← h.units]
  exact Array.length_toList.symm

/-- Between two positions the characters between them are seen. -/
theorem Environment.Reads.sees {env : Environment} {pre mid post : List Char} {p q : Nat}
    (h : env.Reads (pre ++ (mid ++ post))) (hp : p = (env.source.encoding.charsUnits pre).length)
    (hq : q = p + (env.source.encoding.charsUnits mid).length) :
    (⟨env.source, p, q⟩ : Cursor).Sees mid := by
  have hstart : (⟨env.source, 0, env.stop⟩ : Cursor).Sees (pre ++ (mid ++ post)) := by
    refine ⟨h.canEncode, ?_⟩
    rw [Cursor.remaining_eq ⟨Nat.zero_le _, Nat.le_of_eq h.stop⟩]
    simp only [List.drop_zero, Nat.sub_zero]
    rw [h.length_eq, h.units, List.take_length]
  have hmoved := hstart.moved _
  simp only [Nat.zero_add] at hmoved
  rw [← hp] at hmoved
  exact hmoved.cut hq

/-- Environments over the same characters, each in its encoding, with the same grammar. -/
structure Environment.Twins (env env' : Environment) (cs : List Char) : Prop where
  left : env.Reads cs
  right : env'.Reads cs
  production : ∀ n, env'.grammar.production n = env.grammar.production n
  entries : ∀ n, (env.grammar.table n).entries = (env'.grammar.table n).entries

namespace Environment.Twins

variable {env env' : Environment} {cs : List Char} {p p' q q' : Nat}

theorem refl (h : env.Reads cs) : env.Twins env cs := ⟨h, h, fun _ => rfl, fun _ => rfl⟩

/-- Paired positions are places between which cursors see the same characters, and what is level
there is paired. -/
theorem exists_sees (h : env.Twins env' cs)
    (hp : env.source.encoding.Abreast env'.source.encoding cs p p')
    (hq : env.source.encoding.Abreast env'.source.encoding cs q q') (hle : p ≤ q) :
    ∃ mid, (⟨env.source, p, q⟩ : Cursor).Sees mid ∧ (⟨env'.source, p', q'⟩ : Cursor).Sees mid ∧
      ∀ r r', Cursor.Level ⟨env.source, p, q⟩ ⟨env'.source, p', q'⟩ mid r r' →
        env.source.encoding.Abreast env'.source.encoding cs r r' := by
  obtain ⟨pre, mid, post, rfl, ⟨hpre, hmid⟩, hpre', hmid'⟩ :=
    hp.exists_between h.left.canEncode hq hle
  refine ⟨mid, h.left.sees hpre hmid, h.right.sees hpre' hmid', ?_⟩
  rintro r r' ⟨front, back, rfl, rfl, rfl⟩
  refine ⟨pre ++ front, back ++ post, by simp only [List.append_assoc], ?_, ?_⟩
  · rw [charsUnits_append, List.length_append, ← hpre]
  · rw [charsUnits_append, List.length_append, ← hpre']

theorem at_stop (h : env.Twins env' cs) :
    env.source.encoding.Abreast env'.source.encoding cs env.stop env'.stop := by
  rw [h.left.length_eq, h.right.length_eq]
  exact .stop

theorem le_stop (h : env.Twins env' cs)
    (hp : env.source.encoding.Abreast env'.source.encoding cs p p') :
    p ≤ env.stop ∧ p' ≤ env'.stop := by
  obtain ⟨pre, post, rfl, rfl, rfl⟩ := hp
  rw [h.left.length_eq, h.right.length_eq, charsUnits_append, charsUnits_append,
    List.length_append, List.length_append]
  exact ⟨Nat.le_add_right _ _, Nat.le_add_right _ _⟩

/-- What the cursors at paired positions see up to the end. -/
theorem exists_sees_rest (h : env.Twins env' cs)
    (hp : env.source.encoding.Abreast env'.source.encoding cs p p') :
    ∃ rest, (env.cursor p).Sees rest ∧ (env'.cursor p').Sees rest ∧
      ∀ r r', Cursor.Level (env.cursor p) (env'.cursor p') rest r r' →
        env.source.encoding.Abreast env'.source.encoding cs r r' :=
  h.exists_sees hp h.at_stop (h.le_stop hp).1

theorem findSymbol_alike (h : env.Twins env' cs) (table : Nat)
    (hp : env.source.encoding.Abreast env'.source.encoding cs p p')
    (hq : env.source.encoding.Abreast env'.source.encoding cs q q') (hle : p ≤ q) :
    Option.Rel (fun found found' => found.1 = found'.1 ∧
        env.source.encoding.Abreast env'.source.encoding cs found.2 found'.2)
      (env.findSymbol table ⟨env.source, p, q⟩) (env'.findSymbol table ⟨env'.source, p', q'⟩) := by
  obtain ⟨mid, hsees, hsees', hlevel⟩ := h.exists_sees hp hq hle
  have hlongest := SymbolTable.longestKey_alike (h.left.sound table) (h.right.sound table)
    (h.entries table) hsees hsees'
  have hfind : ∀ (env : Environment) (c : Cursor), env.findSymbol table c =
      ((env.grammar.table table).longestKey c).bind fun found =>
        ((env.grammar.table table).entries[found.1]?).bind fun entry =>
          some (entry.2, c.position + found.2) := fun _ _ => rfl
  rw [hfind, hfind]
  generalize (env.grammar.table table).longestKey ⟨env.source, p, q⟩ = found at hlongest ⊢
  generalize (env'.grammar.table table).longestKey ⟨env'.source, p', q'⟩ = found' at hlongest ⊢
  cases hlongest with
  | none => exact .none
  | @some f f' hf =>
    obtain ⟨number, length⟩ := f
    obtain ⟨number', length'⟩ := f'
    obtain ⟨rfl, hlengths⟩ := hf
    rw [Option.bind_some, Option.bind_some, h.entries table]
    simp only
    cases (env'.grammar.table table).entries[number]? with
    | none => exact .none
    | some entry => exact .some ⟨rfl, hlevel _ _ hlengths⟩

/-- Environments over the same characters correspond. -/
def correspondence (h : env.Twins env' cs) : Correspondence env env' where
  At := env.source.encoding.Abreast env'.source.encoding cs
  le_stop := h.le_stop
  lt_iff := fun hp hq => by
    have := hq.le_iff h.left.canEncode h.right.canEncode hp
    omega
  at_stop := h.at_stop
  production := h.production
  number := fun hp hq hle => by
    obtain ⟨mid, hsees, hsees', -⟩ := h.exists_sees hp hq hle
    refine ⟨_, _, hsees.remaining, hsees'.remaining, fun type radix => ?_⟩
    rw [ofDigits?_charsUnits type radix hsees.canEncode,
      ofDigits?_charsUnits type radix hsees'.canEncode]
  symbol := h.findSymbol_alike
  trailing := fun k hp => by
    obtain ⟨rest, hsees, hsees', -⟩ := h.exists_sees_rest hp
    have halike := k.recognizes.alike hsees hsees'
    generalize k.matchOne (env.cursor _) = next at halike ⊢
    generalize k.matchOne (env'.cursor _) = next' at halike ⊢
    cases halike with
    | none => rfl
    | some _ => rfl

/-- Tokens match alike at paired positions, if literals do, and if the missing of a code point is
the same error. -/
theorem matchUnits?_alike (h : env.Twins env' cs) {Kind : ErrorKind → ErrorKind → Prop}
    (hkind : ∀ k, Kind k k) (hp : env.source.encoding.Abreast env'.source.encoding cs p p')
    (t : Token) (ht : ∀ r kind, t ≠ .rule r kind)
    (hliteral : ∀ text, t = .literal text →
      (matchLiteral text (env.cursor p)).Alike
        (env.source.encoding.Abreast env'.source.encoding cs) Kind
        (matchLiteral text (env'.cursor p')))
    (hmissing : ∀ f, t = .codePoint f →
      Kind (.expectedCharClass env.source.encoding.codePointClass)
        (.expectedCharClass env'.source.encoding.codePointClass)) :
    ∃ m m', t.matchUnits? (env.cursor p) = .ok (some m) ∧
      t.matchUnits? (env'.cursor p') = .ok (some m') ∧
      m.Alike (env.source.encoding.Abreast env'.source.encoding cs) Kind m' := by
  obtain ⟨rest, hsees, hsees', hlevel⟩ := h.exists_sees_rest hp
  by_cases hl : ∃ text, t = .literal text
  · obtain ⟨text, rfl⟩ := hl
    exact ⟨_, _, rfl, rfl, hliteral text rfl⟩
  · obtain ⟨m, m', hm, hm', halike⟩ := Token.matchUnits?_alike hsees hsees' hkind t ht
      (fun text htext => absurd ⟨text, htext⟩ hl) hmissing
    exact ⟨m, m', hm, hm', halike.imp hlevel⟩

theorem matchLiteral_alike (h : env.Twins env' cs) {Kind : ErrorKind → ErrorKind → Prop}
    (hkind : ∀ k, Kind k k) (hp : env.source.encoding.Abreast env'.source.encoding cs p p')
    {text : String} (htext : ∀ x ∈ text.toList, CodePoint.IsAscii x.toNat) :
    (matchLiteral text (env.cursor p)).Alike
      (env.source.encoding.Abreast env'.source.encoding cs) Kind
      (matchLiteral text (env'.cursor p')) := by
  obtain ⟨rest, hsees, hsees', hlevel⟩ := h.exists_sees_rest hp
  exact (Phrase.matchLiteral_alike hsees hsees' hkind htext).imp hlevel

end Environment.Twins

/-! ## Laws -/

/-- Two encodings of a text go in step by a law that says nothing of values and of the reasons of
errors, for rules whose literals match alike. -/
def Lockstep.positions {env env' : Environment} {cs : List Char} (h : env.Twins env' cs)
    {Spells : String → Prop}
    (hliteral : ∀ {text p p'}, Spells text →
      env.source.encoding.Abreast env'.source.encoding cs p p' →
      (matchLiteral text (env.cursor p)).Alike
        (env.source.encoding.Abreast env'.source.encoding cs) (fun _ _ => True)
        (matchLiteral text (env'.cursor p')))
    (hgrammar : env.grammar.Provided Spells) : Lockstep env env' where
  toCorrespondence := h.correspondence
  Kind _ _ := True
  kind_refl _ := trivial
  Admits r := ∀ s ∈ r.inside, s.Provided Spells
  Inner r := ∀ s ∈ r.inside, s.Provided Spells
  Builds _ := True
  Hands _ := True
  Val _ _ := True
  Held _ _ := True
  admits_part hr hs := fun _ ht => hr _ (Rule.mem_inside_of_part hs ht)
  admits_production _ := ⟨(hgrammar.production _).1, trivial, (hgrammar.production _).2⟩
  inner hr ht := fun _ hs => hr _ (Rule.mem_inside_of_token ht hs)
  matched := fun {r} {t} _ _ hr ht hrule hp =>
    h.matchUnits?_alike (fun _ => trivial) hp t hrule
      (fun text htext => hliteral ((hr r r.mem_inside_self).spells text (htext ▸ ht)) hp)
      fun _ _ => trivial
  emitted := fun {kind} {width} _ _ hr _ =>
    absurd rfl ((hr _ (Rule.mem_inside_self (.emit kind width))).provided kind width)
  builds_discard := trivial
  hands_none := trivial
  val_default := trivial
  val_int _ := trivial
  val_pos _ := trivial
  val_lexeme _ _ _ := trivial
  val_symbol _ := trivial
  val_context _ _ _ _ _ := trivial
  held_container _ _ := trivial
  held_push _ _ _ := trivial
  val_finish _ := trivial
  val_call _ _ _ := trivial

end Phrase
