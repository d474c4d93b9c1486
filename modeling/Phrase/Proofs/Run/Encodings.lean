import Phrase.Proofs.Encoding.Location
import Phrase.Proofs.Parse.Fuel
import Phrase.Proofs.Parse.Values
import Phrase.Proofs.Run.Characters

/-!
# Runs over a text in two encodings

Runs of a portable grammar over a text in two encodings go in step (`Grammar.Runs.abreast`).  So
their reports are the same but for the units that errors are about, which are on the same lines
and in the same columns of code points; their values have the same form; and their trees differ
in positions only.
-/

namespace Phrase

open Encoding

/-! ## Agreement -/

/-- Errors of two sources that differ in nothing but units: they are on the same line and in the
same column of code points. -/
structure ParseError.Agrees (source source' : Source) (x x' : ParseError) : Prop where
  kind : x.kind = x'.kind
  production : x.production = x'.production
  line : ((LineIndex.ofSource source).location .codePoints x.position).line =
    ((LineIndex.ofSource source').location .codePoints x'.position).line
  column : ((LineIndex.ofSource source).location .codePoints x.position).column =
    ((LineIndex.ofSource source').location .codePoints x'.position).column

/-- Reports of two sources with the same status and errors that agree. -/
structure Report.Agrees (source source' : Source) (r r' : Report) : Prop where
  status : r.status = r'.status
  errors : List.Forall₂ (ParseError.Agrees source source') r.errors r'.errors

/-- A status does not depend on what the errors are. -/
theorem Status.of_agrees {R : ParseError → ParseError → Prop} (matched : Bool)
    {xs xs' : List ParseError} (h : List.Forall₂ R xs xs') :
    Status.of matched xs = Status.of matched xs' := by
  cases h with
  | nil => rfl
  | cons => rfl

/-! ## Trees -/

/-- Trees of the same form have snapshots that differ in positions only. -/
theorem SyntaxTree.snapshot?_alike {At : Nat → Nat → Prop} {source source' : Source}
    (htext : source.SameText At source') {t t' : SyntaxTree}
    (h : Option.Rel (Node.Alike At) t.root? t'.root?) :
    ∃ s? s?', t.snapshot? source = .ok s? ∧ t'.snapshot? source' = .ok s?' ∧
      s?.map Snapshot.unplaced = s?'.map Snapshot.unplaced := by
  obtain ⟨root?⟩ := t
  obtain ⟨root?'⟩ := t'
  cases h with
  | none => exact ⟨none, none, rfl, rfl, rfl⟩
  | @some n n' hn =>
    obtain ⟨s, s', hs, hs', heq⟩ := Snapshot.ofNode_alike htext n n' hn
    exact ⟨some s, some s', by simp only [snapshot?, hs]; rfl, by simp only [snapshot?, hs']; rfl,
      congrArg some heq⟩

/-! ## Runs -/

/-- What is built for an encoding does not matter. -/
theorem Grammar.Portable.compile {g : Grammar} (h : g.Portable) (e : Encoding) :
    (g.compile e).Portable :=
  ⟨h.provided, h.unnamed, h.plain, fun n entry hentry =>
    h.names n entry (g.entries_table_compile n ▸ hentry)⟩

/-- What two runs over a text in two encodings have in common. -/
structure Outcome.Abreast (e e' : Encoding) (text : String) (o o' : Outcome Outputs) : Prop where
  report : o.report.Agrees (.ofText e text) (.ofText e' text) o'.report
  value : Option.Rel (Value.Alike (e.Abreast e' text.toList)) o.value o'.value
  tree : Option.Rel (Node.Alike (e.Abreast e' text.toList)) o.tree.root? o'.tree.root?

section
variable {env env' : Environment} {cs : List Char} (h : env.Twins env' cs)
  (hgrammar : env.grammar.Portable)

/-- Events that go in step report the same errors. -/
theorem Lockstep.errorsOf_agree {es es' : List Event}
    (hes : List.Forall₂ (Lockstep.values h hgrammar).EventAlike es es') :
    List.Forall₂ (ParseError.Agrees env.source env'.source) (errorsOf es) (errorsOf es') := by
  refine List.rel_filterMap (P := ParseError.Agrees env.source env'.source) ?_ hes
  intro event event' hevent
  cases hevent with
  | error hkind hstart _ hproduction =>
    obtain ⟨hline, hcolumn⟩ := h.location_alike hstart
    exact .some ⟨hkind, hproduction, hline, hcolumn⟩
  | start | finish | cancel | token => exact .none

/-- Outcomes that go in step have reports that agree. -/
theorem Lockstep.report_agree {o o' : Outcome Outputs}
    {R : Outputs → Outputs → Nat → Nat → Prop}
    (ho : (Lockstep.values h hgrammar).OutcomeAlike R o o') :
    o.report.Agrees env.source env'.source o'.report := by
  obtain ⟨result, q, es⟩ := o
  obtain ⟨result', q', es'⟩ := o'
  obtain ⟨-, hes, hresult⟩ := ho
  have herrors := Lockstep.errorsOf_agree h hgrammar hes
  refine ⟨?_, herrors⟩
  cases hresult with
  | none => exact Status.of_agrees false herrors
  | some _ => exact Status.of_agrees true herrors

/-- Outcomes that go in step have values that do. -/
theorem Lockstep.value_alike {o o' : Outcome Outputs}
    (ho : (Lockstep.values h hgrammar).OutcomeAlike
      (fun vs vs' _ _ => List.Forall₂ (Lockstep.values h hgrammar).Val vs vs') o o') :
    Option.Rel (Lockstep.values h hgrammar).Val o.value o'.value := by
  obtain ⟨result, q, es⟩ := o
  obtain ⟨result', q', es'⟩ := o'
  obtain ⟨-, -, hresult⟩ := ho
  cases hresult with
  | none => exact .none
  | some hvs =>
    cases hvs with
    | nil => exact .none
    | cons hv _ => exact .some hv

end

/-- Runs of a portable grammar go in step. -/
theorem Grammar.Runs.abreast {g : Grammar} {root : Nat} {e e' : Encoding} {text : String}
    {options : Options} {o o' : Outcome Outputs}
    (h : g.Runs root (.ofText e text) options o) (h' : g.Runs root (.ofText e' text) options o')
    (htables : g.TablesInUse) (hgrammar : g.Portable) (he : e.CanEncodeAll text.toList)
    (he' : e'.CanEncodeAll text.toList) : o.Abreast e e' text o' := by
  have htwins := g.twins_environment htables he he'
  have hcompiled := hgrammar.compile e
  let law := Lockstep.values htwins hcompiled
  obtain ⟨fuel, ho⟩ := h
  obtain ⟨fuel', ho'⟩ := h'
  have hroot : law.Admits (.production root) := by
    refine ⟨Rule.provided_inside_production root, fun s hs => ?_⟩
    rw [List.mem_singleton.1 hs]
    exact fun _ h => nomatch h
  have hscope : law.AdmitsScope (.outer options.state options.maxDepth .discard) :=
    ⟨fun _ h => (nomatch h), rfl, trivial⟩
  -- Both runs go on with the larger amount of fuel as they do with their own.
  have halike : InStep _
      ((g.environment (.ofText e text)).parse (max fuel fuel') (.production root) _ 0)
      ((g.environment (.ofText e' text)).parse (max fuel fuel') (.production root) _ 0) :=
    (Lockstep.values_keptBy htwins hcompiled (max fuel fuel')).parse hroot hscope
      (show law.At 0 0 from .start)
  rw [Environment.parse_mono (Nat.le_max_left fuel fuel') ho (fun h => nomatch h),
    Environment.parse_mono (Nat.le_max_right fuel fuel') ho' (fun h => nomatch h)] at halike
  cases halike with
  | ok halike =>
    exact ⟨Lockstep.report_agree htwins hcompiled halike,
      Lockstep.value_alike htwins hcompiled halike, Lockstep.tree_alike halike.events⟩

end Phrase
