import Phrase.Proofs.Run.Characters
import Phrase.Proofs.Run.Lossless

/-!
# Tokens between characters

The tokens of a tree over a text start and end between characters, provided that no literal of
the grammar stops inside of one; the tree then has the text for its content
(`Grammar.Runs.keeps_characters`).  A literal is compared unit by unit: where it is missing, it
can have matched the first units of a character that starts like one of its own, and what goes
on behind it starts inside of that character (`Grammar.Runs.splits_character`).
-/

namespace Phrase

open Encoding

/-! ## Boundaries -/

/-- A position between two characters, or at an end of them. -/
def Encoding.IsBoundary (e : Encoding) (cs : List Char) (p : Nat) : Prop :=
  ∃ pre post, cs = pre ++ post ∧ p = (e.charsUnits pre).length

variable {e : Encoding} {cs : List Char} {p q r : Nat}

/-- A position paired with itself is a boundary. -/
theorem Encoding.abreast_self_iff {p' : Nat} :
    e.Abreast e cs p p' ↔ e.IsBoundary cs p ∧ p' = p := by
  constructor
  · rintro ⟨pre, post, hcs, hp, hp'⟩
    exact ⟨⟨pre, post, hcs, hp⟩, hp'.trans hp.symm⟩
  · rintro ⟨⟨pre, post, hcs, hp⟩, rfl⟩
    exact ⟨pre, post, hcs, hp, hp⟩

theorem Encoding.IsBoundary.abreast (h : e.IsBoundary cs p) : e.Abreast e cs p p :=
  abreast_self_iff.2 ⟨h, rfl⟩

theorem Encoding.Abreast.isBoundary (h : e.Abreast e cs p q) : e.IsBoundary cs p :=
  (abreast_self_iff.1 h).1

/-! ## Literals -/

/-- A literal that never stops inside a character of a text: where it is missing, what is there
of it ends at a boundary. -/
def Encoding.StopsBetween (e : Encoding) (text literal : String) : Prop :=
  ∀ p f, e.IsBoundary text.toList p →
    matchLiteral literal ⟨.ofText e text, p, (Source.ofText e text).size⟩ = .error f →
    e.IsBoundary text.toList f.stop

section
variable {text literal : String} (he : e.CanEncodeAll text.toList)

include he in
/-- Up to the end of a text a cursor at a boundary sees characters. -/
theorem Encoding.IsBoundary.exists_sees (hp : e.IsBoundary text.toList p) :
    ∃ rest, (⟨.ofText e text, p, (Source.ofText e text).size⟩ : Cursor).Sees rest ∧
      ∀ q, Cursor.Level ⟨.ofText e text, p, (Source.ofText e text).size⟩
        ⟨.ofText e text, p, (Source.ofText e text).size⟩ rest q q → e.IsBoundary text.toList q := by
  have hreads := Grammar.reads_environment (g := ⟨#[], #[]⟩)
    (fun _ h => absurd h (Array.not_mem_empty _)) he
  obtain ⟨rest, hsees, -, hlevel⟩ := (Environment.Twins.refl hreads).exists_sees_rest hp.abreast
  exact ⟨rest, hsees, fun q hq => (hlevel q q hq).isBoundary⟩

include he in
/-- Such a literal matches, or is missing, between characters. -/
theorem Encoding.StopsBetween.alike (h : e.StopsBetween text literal)
    (hp : e.IsBoundary text.toList p) :
    (matchLiteral literal ⟨.ofText e text, p, (Source.ofText e text).size⟩).Alike
      (e.Abreast e text.toList) (fun _ _ => True)
      (matchLiteral literal ⟨.ofText e text, p, (Source.ofText e text).size⟩) := by
  obtain ⟨rest, hsees, hlevel⟩ := hp.exists_sees he
  cases hmatch : matchLiteral literal ⟨.ofText e text, p, (Source.ofText e text).size⟩ with
  | ok q => exact (hlevel q (hsees.level_of_matchLiteral hmatch)).abreast
  | error f =>
    have hstop := (h p f hp hmatch).abreast
    have hrange := range_of_matchLiteral hmatch
    rw [TokenMatch.Alike, hrange]
    exact ⟨hstop, hp.abreast, hstop, trivial⟩

end

/-! ## Trees -/

section
variable {env : Environment} (h : env.Reads cs)
include h

/-- Texts that meet at a boundary are those of the two parts of a span. -/
theorem Environment.Reads.sliceText_append (hp : env.source.encoding.IsBoundary cs p)
    (hq : env.source.encoding.IsBoundary cs q) (hr : env.source.encoding.IsBoundary cs r)
    (hpq : p ≤ q) (hqr : q ≤ r) {s t : String} (hs : env.source.sliceText ⟨p, q⟩ = .ok s)
    (ht : env.source.sliceText ⟨q, r⟩ = .ok t) : env.source.sliceText ⟨p, r⟩ = .ok (s ++ t) := by
  obtain ⟨front, hfront, -⟩ := (Twins.refl h).exists_sees hp.abreast hq.abreast hpq
  obtain ⟨back, hback, -⟩ := (Twins.refl h).exists_sees hq.abreast hr.abreast hqr
  have hpunits : env.source.slice ⟨p, q⟩ = .ok _ := hfront.remaining
  have hqunits : env.source.slice ⟨q, r⟩ = .ok _ := hback.remaining
  have hunits : env.source.slice ⟨p, r⟩ =
      .ok (env.source.encoding.charsUnits (front ++ back)) := by
    rw [Source.slice_eq_ok_iff] at hpunits hqunits ⊢
    refine ⟨Nat.le_trans hpq hqr, hqunits.2.1, ?_⟩
    rw [charsUnits_append, hpunits.2.2, hqunits.2.2, ← Array.toList_append,
      Array.extract_append_extract, Nat.min_eq_left hpq, Nat.max_eq_right hqr]
  rw [Source.sliceText, hpunits] at hs
  rw [Source.sliceText, hqunits] at ht
  obtain rfl := Except.ok.inj hs
  obtain rfl := Except.ok.inj ht
  have hall : env.source.encoding.CanEncodeAll (front ++ back) :=
    fun x hx => (List.mem_append.1 hx).elim (hfront.canEncode x) (hback.canEncode x)
  rw [Source.sliceText, hunits]
  show Except.ok _ = Except.ok _
  rw [display_charsUnits hfront.canEncode, display_charsUnits hback.canEncode,
    display_charsUnits hall, String.ofList_append]

theorem Environment.Reads.sliceText_self (hp : env.source.encoding.IsBoundary cs p) :
    env.source.sliceText ⟨p, p⟩ = .ok "" := by
  have hunits : env.source.slice ⟨p, p⟩ = .ok [] := by
    have hle := ((Twins.refl h).le_stop hp.abreast).1
    rw [h.stop] at hle
    exact Source.slice_eq_ok_iff.2 ⟨Nat.le_refl p, hle, by simp⟩
  rw [Source.sliceText, hunits]
  rfl

mutual

/-- The content of a tree whose tokens lie between characters is the text of its span. -/
theorem Snapshot.content_ofNode : (n : Node) →
    n.Alike (env.source.encoding.Abreast env.source.encoding cs) n → n.Lossless →
    env.source.encoding.IsBoundary cs n.range.start →
    env.source.encoding.IsBoundary cs n.range.stop ∧ ∃ s, ofNode env.source n = .ok s ∧
      env.source.sliceText n.range = .ok s.content
  | .token kind range, hn, hlossless, hstart => by
    obtain ⟨-, -, hstop, hle⟩ := hn
    obtain ⟨text, htext, -⟩ := (Environment.Twins.refl h).sameText hstart.abreast hstop hle
    replace htext : env.source.sliceText range = .ok text := htext
    refine ⟨hstop.isBoundary, ⟨"token", kind.name, range.start, range.stop, some text, []⟩, ?_,
      htext⟩
    rw [ofNode, htext]
    rfl
  | .production name range children, hn, hlossless, hstart => by
    rw [Node.Lossless] at hlossless
    obtain ⟨hstop, ss, hss, hcontent⟩ :=
      content_ofNodes children hn.2 hlossless.2 hlossless.1 hstart
    refine ⟨hstop, ⟨"production", name, range.start, range.stop, none, ss⟩, ?_, hcontent⟩
    rw [ofNode, hss]
    rfl

theorem Snapshot.content_ofNodes : (ns : List Node) →
    Node.AlikeList (env.source.encoding.Abreast env.source.encoding cs) ns ns →
    Node.LosslessList ns → {p q : Nat} → Span.Tile p q (ns.map Node.range) →
    env.source.encoding.IsBoundary cs p →
    env.source.encoding.IsBoundary cs q ∧ ∃ ss, ofNodes env.source ns = .ok ss ∧
      env.source.sliceText ⟨p, q⟩ = .ok (contentList ss)
  | [], _, _, p, q, htile, hp => by
    obtain rfl : p = q := htile
    exact ⟨hp, [], rfl, h.sliceText_self hp⟩
  | n :: ns, hns, hlossless, p, q, htile, hp => by
    rw [Node.LosslessList] at hlossless
    obtain ⟨rfl, hle, htile⟩ := htile
    obtain ⟨hmiddle, s, hs, hcontent⟩ := content_ofNode n hns.1 hlossless.1 hp
    obtain ⟨hq, ss, hss, hcontents⟩ := content_ofNodes ns hns.2 hlossless.2 htile hmiddle
    refine ⟨hq, s :: ss, ?_, h.sliceText_append hp hmiddle hq hle htile.le hcontent hcontents⟩
    rw [ofNodes, hs]
    simp only [bind, Except.bind, hss]
    rfl

end

end

mutual

/-- Trees of the same form have tokens of the same form. -/
theorem Node.Alike.tokens {At : Nat → Nat → Prop} : (n n' : Node) → n.Alike At n' →
    List.Forall₂ (Node.Alike At) n.tokens n'.tokens
  | .token _ _, .token _ _, h => .cons h .nil
  | .production _ _ ns, .production _ _ ns', h => tokensList ns ns' h.2
  | .token _ _, .production _ _ _, h => h.elim
  | .production _ _ _, .token _ _, h => h.elim

theorem Node.Alike.tokensList {At : Nat → Nat → Prop} : (ns ns' : List Node) →
    Node.AlikeList At ns ns' →
    List.Forall₂ (Node.Alike At) (Node.tokensList ns) (Node.tokensList ns')
  | [], [], _ => .nil
  | n :: ns, n' :: ns', h => List.rel_append (Node.Alike.tokens n n' h.1) (tokensList ns ns' h.2)
  | [], _ :: _, h => h.elim
  | _ :: _, [], h => h.elim

end

end Phrase
