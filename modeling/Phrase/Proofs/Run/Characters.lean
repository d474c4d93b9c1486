import Phrase.Proofs.Encoding.Display
import Phrase.Proofs.Parse.Characters
import Phrase.Proofs.Run.Root
import Phrase.Proofs.Tree.Lockstep

/-!
# Runs over texts

A run over a text in an encoding reads all of its characters, so runs over a text in two
encodings start out as twins.  Between paired positions both sources show the same text.
-/

namespace Phrase

open Encoding

/-- Every table of a grammar has come about by adding entries and looking things up. -/
def Grammar.TablesInUse (g : Grammar) : Prop :=
  ∀ t ∈ g.tables, ∃ uses : List (TableUse Value), t = .ofUses uses

namespace Grammar

variable {g : Grammar} {e e' : Encoding} {text : String}

theorem production_compile (n : Nat) : (g.compile e).production n = g.production n := rfl

theorem table_compile (n : Nat) :
    (g.compile e).table n = (g.table n).compile e ∨
      (g.compile e).table n = .empty ∧ g.table n = .empty := by
  simp only [table, compile, Array.getD_eq_getD_getElem?, Array.getElem?_map]
  cases g.tables[n]? with
  | none => exact .inr ⟨rfl, rfl⟩
  | some t => exact .inl rfl

theorem entries_table_compile (n : Nat) :
    ((g.compile e).table n).entries = (g.table n).entries := by
  rcases g.table_compile n with h | ⟨h, h'⟩
  · rw [h]
    rfl
  · rw [h, h']

theorem TablesInUse.sound (h : g.TablesInUse) (n : Nat) : ((g.compile e).table n).Sound := by
  rcases g.table_compile n with htable | ⟨htable, -⟩
  · rw [htable]
    refine SymbolTable.Sound.compile ?_ e
    rw [table, Array.getD_eq_getD_getElem?]
    cases ht : g.tables[n]? with
    | none => exact SymbolTable.sound_empty
    | some t =>
      obtain ⟨uses, rfl⟩ := h t (Array.mem_of_getElem? ht)
      exact SymbolTable.sound_ofUses uses
  · rw [htable]
    exact SymbolTable.sound_empty

/-- A run over a text reads its characters. -/
theorem reads_environment (htables : g.TablesInUse) (he : e.CanEncodeAll text.toList) :
    (g.environment (.ofText e text)).Reads text.toList :=
  ⟨he, encodeText_eq text, rfl, htables.sound⟩

/-- Runs over a text in two encodings. -/
theorem twins_environment (htables : g.TablesInUse) (he : e.CanEncodeAll text.toList)
    (he' : e'.CanEncodeAll text.toList) :
    (g.environment (.ofText e text)).Twins (g.environment (.ofText e' text)) text.toList :=
  ⟨g.reads_environment htables he, g.reads_environment htables he',
    fun n => (g.production_compile n).trans (g.production_compile n).symm,
    fun n => (g.entries_table_compile n).trans (g.entries_table_compile n).symm⟩

end Grammar

/-- Between paired positions there is the same text. -/
theorem Environment.Twins.sameText {env env' : Environment} {cs : List Char}
    (h : env.Twins env' cs) :
    env.source.SameText (env.source.encoding.Abreast env'.source.encoding cs) env'.source := by
  intro p p' q q' hp hq hle
  obtain ⟨mid, hsees, hsees', -⟩ := h.exists_sees hp hq hle
  have hslice : ∀ {c : Cursor}, c.Sees mid →
      c.source.sliceText ⟨c.position, c.stop⟩ = .ok (String.ofList mid) := by
    intro c hc
    have hunits : c.source.slice ⟨c.position, c.stop⟩ = .ok _ := hc.remaining
    rw [Source.sliceText, hunits]
    exact congrArg _ (display_charsUnits hc.canEncode)
  exact ⟨String.ofList mid, hslice hsees, hslice hsees'⟩

end Phrase
