import Phrase.Proofs.Parse.Termination
import Phrase.Proofs.Run.Encodings
import Phrase.Sample.Catalogue

/-!
# The samples in any encoding

The grammars of the samples are portable and ranked, so a run of a sample ends, and what it
finds in a text does not depend on the encoding that the text is in but for units
(`Sample.run_agrees`).  Values are shown with the texts of their arguments, and these stand
between paired positions.
-/

namespace Phrase

open Encoding

/-! ## Grammars -/

namespace Sample

/-- How deep the productions of a sample reach. -/
def ranks : Sample → Nat → Nat
  | .integerList, n => [8].getD n 1
  | .shell, n => [20, 15, 11, 6, 4, 2].getD n 1

theorem ranked (sample : Sample) : sample.grammar.Ranked sample.ranks := by
  cases sample with
  | integerList =>
    refine ⟨fun n => ?_, List.all_eq_true.1 (by decide +kernel)⟩
    rcases n with _ | n
    · decide +kernel
    · exact Nat.le_refl 1
  | shell =>
    refine ⟨fun n => ?_, List.all_eq_true.1 (by decide +kernel)⟩
    rcases n with _ | _ | _ | _ | _ | _ | n
    iterate 6 decide +kernel
    exact Nat.le_refl 1

theorem portable (sample : Sample) : sample.grammar.Portable := by
  refine Grammar.portable_of_isPortable ?_
  cases sample with
  | integerList => decide +kernel
  | shell => decide +kernel

theorem tablesInUse (sample : Sample) : sample.grammar.TablesInUse := by
  intro t ht
  cases sample with
  | integerList => exact absurd ht (Array.not_mem_empty t)
  | shell =>
    obtain rfl : t = Shell.builtins := List.mem_singleton.1 (Array.mem_toList_iff.2 ht)
    exact ⟨_, SymbolTable.ofEntries_eq_ofUses _⟩

end Sample

/-! ## Lists -/

theorem mapM_alike {α α' β β' : Type} {R : α → α' → Prop} {S : β → β' → Prop}
    {f : α → Option β} {f' : α' → Option β'} (hf : ∀ a a', R a a' → Option.Rel S (f a) (f' a'))
    {as : List α} {as' : List α'} (h : List.Forall₂ R as as') :
    Option.Rel (List.Forall₂ S) (as.mapM f) (as'.mapM f') := by
  induction h with
  | nil => exact .some .nil
  | @cons a a' as as' ha _ ih =>
    have hb := hf a a' ha
    rw [List.mapM_cons, List.mapM_cons]
    generalize f a = b? at hb ⊢
    generalize f' a' = b?' at hb ⊢
    generalize as.mapM f = bs? at ih ⊢
    generalize as'.mapM f' = bs?' at ih ⊢
    cases hb with
    | none => exact .none
    | some hb =>
      cases ih with
      | none => exact .none
      | some hbs => exact .some (.cons hb hbs)

theorem exists_mapM_eq_ok {α α' β ε : Type} {R : α → α' → Prop} {f : α → Except ε β}
    {f' : α' → Except ε β} (hf : ∀ a a', R a a' → ∃ b, f a = .ok b ∧ f' a' = .ok b)
    {as : List α} {as' : List α'} (h : List.Forall₂ R as as') :
    ∃ bs, as.mapM f = .ok bs ∧ as'.mapM f' = .ok bs := by
  induction h with
  | nil => exact ⟨[], rfl, rfl⟩
  | @cons a a' as as' ha _ ih =>
    obtain ⟨b, hb, hb'⟩ := hf a a' ha
    obtain ⟨bs, hbs, hbs'⟩ := ih
    refine ⟨b :: bs, ?_, ?_⟩
    · rw [List.mapM_cons, hb, hbs]
      rfl
    · rw [List.mapM_cons, hb', hbs']
      rfl

/-! ## Values -/

section
variable {At : Nat → Nat → Prop} {v v' : Value}

namespace Sample.IntegerList

theorem number_eq (h : v.Alike At v') : number v = number v' := by
  cases h with
  | _ => rfl

theorem numbers_eq (h : v.Alike At v') : numbers v = numbers v' := by
  cases h with
  | list hvs =>
    rw [numbers, numbers]
    induction hvs with
    | nil => rfl
    | cons hv _ ih => rw [List.map_cons, List.map_cons, number_eq hv, ih]
  | _ => rfl

end Sample.IntegerList

namespace Sample.Shell

/-- Arguments of the same kind between paired positions. -/
structure Argument.Alike (At : Nat → Nat → Prop) (a a' : Argument) : Prop where
  kind : a.kind = a'.kind
  start : At a.range.start a'.range.start
  stop : At a.range.stop a'.range.stop
  ordered : a.range.start ≤ a.range.stop

/-- Commands with the same builtin and arguments that are alike. -/
structure Command.Alike (At : Nat → Nat → Prop) (c c' : Command) : Prop where
  builtin : c.builtin = c'.builtin
  arguments : List.Forall₂ (Argument.Alike At) c.arguments c'.arguments

theorem Argument.ofValue?_eq_none (hv : ∀ name w, v ≠ .tuple [.sym name, w]) :
    ofValue? v = none := by
  unfold ofValue?
  split
  · exact absurd rfl (hv _ _)
  · rfl

theorem Argument.ofValue?_alike (h : v.Alike At v') :
    Option.Rel (Argument.Alike At) (ofValue? v) (ofValue? v') := by
  rcases h.named_or_not with ⟨name, w, w', rfl, rfl, hw⟩ | ⟨hv, hv'⟩
  · cases hw with
    | lexeme hp hq hle =>
      simp only [ofValue?]
      cases ArgumentKind.ofName? name with
      | none => exact .none
      | some kind => exact .some ⟨rfl, hp, hq, hle⟩
    | _ => exact .none
  · rw [ofValue?_eq_none hv, ofValue?_eq_none hv']
    exact .none

theorem Command.ofValue?_eq_none (hv : ∀ name w, v ≠ .tuple [.sym name, w]) :
    ofValue? v = none := by
  unfold ofValue?
  split
  · exact absurd rfl (hv _ _)
  · rfl

theorem Command.ofValue?_alike (h : v.Alike At v') :
    Option.Rel (Command.Alike At) (ofValue? v) (ofValue? v') := by
  rcases h.named_or_not with ⟨name, w, w', rfl, rfl, hw⟩ | ⟨hv, hv'⟩
  · cases hw with
    | @list arguments arguments' hvs =>
      simp only [ofValue?]
      have harguments := mapM_alike (R := Value.Alike At) (fun _ _ => Argument.ofValue?_alike) hvs
      cases Builtin.ofName? name with
      | none => exact .none
      | some builtin =>
        generalize arguments.mapM Argument.ofValue? = as? at harguments ⊢
        generalize arguments'.mapM Argument.ofValue? = as?' at harguments ⊢
        cases harguments with
        | none => exact .none
        | some has => exact .some ⟨rfl, has⟩
    | _ => exact .none
  · rw [ofValue?_eq_none hv, ofValue?_eq_none hv']
    exact .none

theorem commands?_alike (h : v.Alike At v') :
    Option.Rel (List.Forall₂ (Command.Alike At)) (commands? v) (commands? v') := by
  cases h with
  | list hvs => exact mapM_alike (R := Value.Alike At) (fun _ _ => Command.ofValue?_alike) hvs
  | _ => exact .none

/-! ## Commands as data -/

variable {source source' : Source} (htext : source.SameText At source')
include htext

theorem Argument.exists_toJson {a a' : Argument} (h : a.Alike At a') :
    ∃ j, a.toJson source = .ok j ∧ a'.toJson source' = .ok j := by
  obtain ⟨kind, range⟩ := a
  obtain ⟨kind', range'⟩ := a'
  obtain ⟨rfl, hstart, hstop, hle⟩ := h
  obtain ⟨text, hslice, hslice'⟩ := htext hstart hstop hle
  replace hslice : source.sliceText range = .ok text := hslice
  replace hslice' : source'.sliceText range' = .ok text := hslice'
  refine ⟨.obj [(kind.name, .str text)], ?_, ?_⟩
  · simp only [toJson, hslice]
    rfl
  · simp only [toJson, hslice']
    rfl

theorem Command.exists_toJson {c c' : Command} (h : c.Alike At c') :
    ∃ j, c.toJson source = .ok j ∧ c'.toJson source' = .ok j := by
  obtain ⟨js, hjs, hjs'⟩ := exists_mapM_eq_ok (R := Argument.Alike At)
    (fun _ _ => Argument.exists_toJson htext) h.arguments
  refine ⟨.obj [("args", .arr js), ("command", .str c.builtin.name)], ?_, ?_⟩
  · simp only [toJson, hjs]
    rfl
  · simp only [toJson, hjs', h.builtin]
    rfl

/-- Commands that are alike are the same data. -/
theorem exists_toJson {cs cs' : List Command} (h : List.Forall₂ (Command.Alike At) cs cs') :
    ∃ j, toJson cs source = .ok j ∧ toJson cs' source' = .ok j := by
  obtain ⟨js, hjs, hjs'⟩ := exists_mapM_eq_ok (R := Command.Alike At)
    (fun _ _ => Command.exists_toJson htext) h
  refine ⟨.arr js, ?_, ?_⟩
  · simp only [toJson, hjs]
    rfl
  · simp only [toJson, hjs']
    rfl

end Sample.Shell

/-- Values in step are the same data. -/
theorem Sample.exists_present (sample : Sample) {source source' : Source}
    (htext : source.SameText At source') (h : v.Alike At v') :
    ∃ j, sample.present source v = .ok j ∧ sample.present source' v' = .ok j := by
  cases sample with
  | integerList =>
    refine ⟨IntegerList.toJson (IntegerList.numbers v), rfl, ?_⟩
    rw [IntegerList.numbers_eq h]
    rfl
  | shell =>
    refine Shell.exists_toJson htext ?_
    have hcommands := Shell.commands?_alike h
    generalize Shell.commands? v = commands? at hcommands ⊢
    generalize Shell.commands? v' = commands?' at hcommands ⊢
    cases hcommands with
    | none => exact .nil
    | some hcommands => exact hcommands

end

/-! ## Findings -/

/-- Findings in two sources that differ in units only. -/
structure Finding.Agrees (source source' : Source) (f f' : Finding) : Prop where
  report : f.report.Agrees source source' f'.report
  value : f.value = f'.value
  tree : f.tree.map Snapshot.unplaced = f'.tree.map Snapshot.unplaced

/-- Values that are missing together or in step are the same data. -/
theorem Sample.exists_mapM_present (sample : Sample) {At : Nat → Nat → Prop}
    {source source' : Source} (htext : source.SameText At source') {v? v?' : Option Value}
    (h : Option.Rel (Value.Alike At) v? v?') :
    ∃ j?, v?.mapM (sample.present source) = .ok j? ∧
      v?'.mapM (sample.present source') = .ok j? := by
  cases h with
  | none => exact ⟨none, rfl, rfl⟩
  | some hv =>
    obtain ⟨j, hj, hj'⟩ := sample.exists_present htext hv
    refine ⟨some j, ?_, ?_⟩
    · rw [Option.mapM_some, hj]
      rfl
    · rw [Option.mapM_some, hj']
      rfl

/-- Runs of a sample over a text in two encodings end, and agree in what they find. -/
theorem Sample.run_agrees (sample : Sample) (mode : Mode) (text : String) (options : Options)
    (e e' : Encoding) (he : e = .ascii → ∀ c ∈ text.toList, CodePoint.IsAscii c.toNat)
    (he' : e' = .ascii → ∀ c ∈ text.toList, CodePoint.IsAscii c.toNat) :
    ∃ f f', sample.run mode (.ofText e text) options = .ok f ∧
      sample.run mode (.ofText e' text) options = .ok f' ∧
      f.Agrees (.ofText e text) (.ofText e' text) f' := by
  have hcan := canEncodeAll_of_ascii he
  have hcan' := canEncodeAll_of_ascii he'
  have hroot : sample.ranks 0 ≤ Scope.defaultMaxDepth := by
    cases sample <;> decide
  obtain ⟨o, ho⟩ := sample.ranked.exists_run hroot (.ofText e text) options
  obtain ⟨o', ho'⟩ := sample.ranked.exists_run hroot (.ofText e' text) options
  obtain ⟨hreport, hvalue, htree⟩ := (Grammar.runs_of_run ho).abreast (Grammar.runs_of_run ho')
    sample.tablesInUse sample.portable hcan hcan'
  have htext : (Source.ofText e text).SameText (e.Abreast e' text.toList) (.ofText e' text) :=
    (sample.grammar.twins_environment sample.tablesInUse hcan hcan').sameText
  cases mode with
  | validate =>
    refine ⟨⟨o.report, none, none⟩, ⟨o'.report, none, none⟩, ?_, ?_, hreport, rfl, rfl⟩
    · simp only [run, ho]
      rfl
    · simp only [run, ho']
      rfl
  | parse =>
    obtain ⟨j?, hj, hj'⟩ := sample.exists_mapM_present htext hvalue
    refine ⟨⟨o.report, j?, none⟩, ⟨o'.report, j?, none⟩, ?_, ?_, hreport, rfl, rfl⟩
    · simp only [run, ho, bind, Except.bind, hj]
      rfl
    · simp only [run, ho', bind, Except.bind, hj']
      rfl
  | tree =>
    obtain ⟨s?, s?', hs, hs', heq⟩ := SyntaxTree.snapshot?_alike htext htree
    refine ⟨⟨o.report, none, s?⟩, ⟨o'.report, none, s?'⟩, ?_, ?_, hreport, rfl, heq⟩
    · simp only [run, ho, bind, Except.bind, hs]
      rfl
    · simp only [run, ho', bind, Except.bind, hs']
      rfl

/-- A string that is not closed is reported at the end of the text, which is at another unit in
another encoding; a text of ASCII can be in ASCII as well. -/
theorem Sample.run_agrees_unclosed :
    (∃ f f', Sample.shell.run .tree (.ofText .utf8 "echo ü \"") .standard = .ok f ∧
      Sample.shell.run .tree (.ofText .utf16 "echo ü \"") .standard = .ok f' ∧
      f.Agrees (.ofText .utf8 "echo ü \"") (.ofText .utf16 "echo ü \"") f' ∧
      f.report.errors.map ParseError.range = [⟨9, 9⟩] ∧
      f'.report.errors.map ParseError.range = [⟨8, 8⟩]) ∧
    ∃ f f', Sample.shell.run .parse (.ofText .ascii "ls a") .standard = .ok f ∧
      Sample.shell.run .parse (.ofText .utf32 "ls a") .standard = .ok f' ∧
      f.Agrees (.ofText .ascii "ls a") (.ofText .utf32 "ls a") f' ∧ f.report.status = .success := by
  have hranges : ∀ {e : Encoding} {rs : List Span} {f : Finding},
      Sample.shell.run .tree (.ofText e "echo ü \"") .standard = .ok f →
      ((Sample.shell.run .tree (.ofText e "echo ü \"") .standard).toOption.map fun f =>
        f.report.errors.map ParseError.range) = some rs →
      f.report.errors.map ParseError.range = rs := by
    intro e rs f hf hrs
    rw [hf] at hrs
    exact Option.some.inj hrs
  refine ⟨?_, ?_⟩
  · obtain ⟨f, f', hf, hf', hagrees⟩ := run_agrees .shell .tree "echo ü \"" .standard
      .utf8 .utf16 (fun h => nomatch h) fun h => nomatch h
    exact ⟨f, f', hf, hf', hagrees, hranges hf (by decide +kernel), hranges hf' (by decide +kernel)⟩
  · have hascii : ("ls a".toList.all fun c => decide (CodePoint.IsAscii c.toNat)) = true := by
      decide +kernel
    obtain ⟨f, f', hf, hf', hagrees⟩ := run_agrees .shell .parse "ls a" .standard .ascii .utf32
      (fun _ c hc => of_decide_eq_true (List.all_eq_true.1 hascii c hc)) fun h => nomatch h
    have hstatus : (Sample.shell.run .parse (.ofText .ascii "ls a") .standard).toOption.map
        (fun f => f.report.status) = some .success := by
      decide +kernel
    rw [hf] at hstatus
    exact ⟨f, f', hf, hf', hagrees, Option.some.inj hstatus⟩

end Phrase
