import Phrase.Proofs.Parse.Characters
import Phrase.Proofs.Value.Alike

/-!
# The values of a text in two encodings

A grammar is portable if nothing in it depends on the encoding: literals are of ASCII, code
points, which name the encoding where they are missing, stand inside of tokens only, and values
are made without a look at positions; this can be checked (`Grammar.isPortable`).  Runs of such a
grammar over a text in two encodings agree in their values and in their errors as well
(`Lockstep.values`).
-/

namespace Phrase

open Encoding

/-! ## Portable grammars -/

/-- A rule that is not a code point on its own. -/
def Rule.Unnamed (r : Rule) : Prop := ∀ f, r.token? ≠ some (.codePoint f)

/-- A grammar in which nothing depends on the encoding. -/
structure Grammar.Portable (g : Grammar) : Prop where
  provided : g.Provided fun text => ∀ x ∈ text.toList, CodePoint.IsAscii x.toNat
  unnamed : ∀ p ∈ g.productions.toList, (∀ r ∈ p.rule.outside, r.Unnamed) ∧
    ∀ w, p.whitespace = some w → ∀ r ∈ w.outside, r.Unnamed
  plain : ∀ p ∈ g.productions.toList, p.value.isPlain = true
  names : ∀ n, ∀ entry ∈ (g.table n).entries, ∃ name, entry.2 = .sym name

namespace Rule

variable {r : Rule}

/-- Whether a rule is provided, and its literal, if it is made of one, is of ASCII. -/
def isProvided (r : Rule) : Bool :=
  match r, r.token? with
  | .emit _ _, _ => false
  | _, some (.literal text) => text.toList.all fun x => decide (CodePoint.IsAscii x.toNat)
  | _, _ => true

theorem provided_of_isProvided (h : r.isProvided = true) :
    r.Provided fun text => ∀ x ∈ text.toList, CodePoint.IsAscii x.toNat := by
  refine ⟨?_, fun text htext x hx => ?_⟩
  · rintro kind width rfl
    cases h
  · unfold isProvided at h
    rw [htext] at h
    split at h
    · cases h
    · next heq =>
      cases heq
      exact of_decide_eq_true (List.all_eq_true.1 h x hx)
    · next hne => exact absurd rfl (hne text)

/-- Whether a rule is not a code point on its own. -/
def isUnnamed (r : Rule) : Bool :=
  match r.token? with
  | some (.codePoint _) => false
  | _ => true

theorem unnamed_of_isUnnamed (h : r.isUnnamed = true) : r.Unnamed := by
  intro f hf
  unfold isUnnamed at h
  rw [hf] at h
  cases h

end Rule

/-- Whether a value is a name. -/
def Value.isName : Value → Bool
  | .sym _ => true
  | _ => false

theorem Value.exists_of_isName {v : Value} (h : v.isName = true) : ∃ name, v = .sym name := by
  cases v with
  | sym name => exact ⟨name, rfl⟩
  | _ => cases h

namespace Grammar

variable {g : Grammar}

/-- A check that nothing in a grammar depends on the encoding. -/
def isPortable (g : Grammar) : Bool :=
  g.rules.all Rule.isProvided &&
    g.productions.toList.all (fun p => p.rule.outside.all Rule.isUnnamed &&
      p.whitespace.all (fun w => w.outside.all Rule.isUnnamed) && p.value.isPlain) &&
    g.tables.toList.all fun t => t.entries.toList.all fun entry => entry.2.isName

theorem portable_of_isPortable (h : g.isPortable = true) : g.Portable := by
  simp only [isPortable, Bool.and_eq_true, List.all_eq_true] at h
  obtain ⟨⟨hrules, hproductions⟩, htables⟩ := h
  refine ⟨fun r hr => Rule.provided_of_isProvided (hrules r hr), fun p hp => ?_,
    fun p hp => (hproductions p hp).2, fun n entry hentry => ?_⟩
  · obtain ⟨⟨hrule, hwhitespace⟩, -⟩ := hproductions p hp
    refine ⟨fun r hr => Rule.unnamed_of_isUnnamed (hrule r hr), fun w hw r hr => ?_⟩
    rw [hw, Option.all_some, List.all_eq_true] at hwhitespace
    exact Rule.unnamed_of_isUnnamed (hwhitespace r hr)
  · rw [table, Array.getD_eq_getD_getElem?] at hentry
    cases ht : g.tables[n]? with
    | none =>
      rw [ht] at hentry
      exact absurd hentry (Array.not_mem_empty entry)
    | some t =>
      rw [ht] at hentry
      have hmem := Array.mem_toList_iff.2 (Array.mem_of_getElem? ht)
      exact Value.exists_of_isName (htables t hmem entry (Array.mem_toList_iff.2 hentry))

end Grammar

/-! ## Parses -/

/-- Two encodings of a text go in step by a law that relates the positions in values, and says
that errors are the same. -/
def Lockstep.values {env env' : Environment} {cs : List Char} (h : env.Twins env' cs)
    (hgrammar : env.grammar.Portable) : Lockstep env env' where
  toCorrespondence := h.correspondence
  Kind := Eq
  kind_refl _ := rfl
  Admits r := (∀ s ∈ r.inside, s.Provided fun text => ∀ x ∈ text.toList,
    CodePoint.IsAscii x.toNat) ∧ ∀ s ∈ r.outside, s.Unnamed
  Inner r := ∀ s ∈ r.inside, s.Provided fun text => ∀ x ∈ text.toList, CodePoint.IsAscii x.toNat
  Builds kind := kind.isPlain = true
  Hands _ := True
  Val := Value.Alike (env.source.encoding.Abreast env'.source.encoding cs)
  Held := Container.Alike (env.source.encoding.Abreast env'.source.encoding cs)
  admits_part hr hs := ⟨fun _ ht => hr.1 _ (Rule.mem_inside_of_part hs ht),
    fun _ ht => hr.2 _ (Rule.mem_outside_of_part hs ht)⟩
  admits_production {n} _ := by
    obtain ⟨hrule, hwhitespace⟩ := hgrammar.provided.production n
    have hunnamed : Rule.never.Unnamed := fun _ h => nomatch h
    obtain ⟨hrule', hwhitespace'⟩ := Grammar.forall_production (P := fun p =>
      (∀ r ∈ p.rule.outside, r.Unnamed) ∧ ∀ w, p.whitespace = some w → ∀ r ∈ w.outside, r.Unnamed)
      ⟨fun r hr => List.mem_singleton.1 hr ▸ hunnamed, fun _ hw => nomatch hw⟩ hgrammar.unnamed n
    exact ⟨⟨hrule, hrule'⟩, Grammar.forall_production (P := fun p => p.value.isPlain = true) rfl
      hgrammar.plain n, fun w hw => ⟨hwhitespace w hw, hwhitespace' w hw⟩⟩
  inner hr ht := fun _ hs => hr.1 _ (Rule.mem_inside_of_token ht hs)
  matched := fun {r} {t} _ _ hr ht hrule hp =>
    h.matchUnits?_alike (fun _ => rfl) hp t hrule
      (fun text htext => h.matchLiteral_alike (fun _ => rfl) hp
        ((hr.1 r r.mem_inside_self).spells text (htext ▸ ht)))
      fun f hf => absurd (hf ▸ ht) (hr.2 r r.mem_outside_self f)
  emitted := fun {kind} {width} _ _ hr _ =>
    absurd rfl ((hr.1 _ (Rule.mem_inside_self (.emit kind width))).provided kind width)
  builds_discard := rfl
  hands_none := trivial
  val_default := .default
  val_int := .int
  val_pos := .pos
  val_lexeme := .lexeme
  val_symbol := fun {table} {c} {v} {stop} hfound => by
    obtain ⟨⟨number, length⟩, -, hfound⟩ := Option.bind_eq_some_iff.1 hfound
    obtain ⟨entry, hentry, hfound⟩ := Option.bind_eq_some_iff.1 hfound
    obtain ⟨name, hname⟩ := hgrammar.names table entry (Array.mem_of_getElem? hentry)
    cases hfound
    rw [hname]
    exact .sym name
  val_context := fun name depth items _ hitems => by
    refine .tuple (.cons (.sym name) (.cons (.count depth) (.cons ?_ .nil)))
    rcases hitems with rfl | ⟨n, rfl⟩
    · exact .unit
    · exact .count n
  held_container hkind _ := ValueKind.container_alike hkind _
  held_push _ hc hvs := ValueKind.push_alike _ hc hvs
  val_finish hc := hc.finish
  val_call hkind _ hvs := ValueKind.call_alike hkind _ hvs

/-- Everything in a portable grammar goes in step by that law; tokens that are made of rules, code
points among them, are known to end alike by the law of positions. -/
theorem Lockstep.values_keptBy {env env' : Environment} {cs : List Char} (h : env.Twins env' cs)
    (hgrammar : env.grammar.Portable) (n : Nat) :
    (values h hgrammar).KeptBy (env.calls n) (env'.calls n) := by
  refine (values h hgrammar).keptBy (fun {n} _ {r} {p} {p'} hr hp => ?_) n
  let law := positions h (fun htext hp => h.matchLiteral_alike (fun _ => trivial) hp htext)
    hgrammar.provided
  have hparse : law.OutputsAlike (env.parse n r .silent) (env'.parse n r .silent) p p' :=
    (law.keptBy_of_inner id n).parse hr law.admitsScope_silent hp
  exact hparse.endsAlike

end Phrase
