import Phrase.Action
import Phrase.Proofs.Parse.Attempt
import Phrase.Proofs.Run.Root

/-!
# The limit on nesting shows in its error only

A production that would be nested too deep reports that before anything else happens.  Recovery
and whitespace keep the errors of what they are around, and a rule that is used as a token has a
limit of its own.  So a run that has not reported the limit has not met it, and goes as it does
with a higher limit or with none (`Grammar.Runs.limit_irrelevant`).
-/

namespace Phrase

/-- Whether an error tells that productions are nested too deep. -/
def ErrorKind.isLimit : ErrorKind → Bool
  | .recursionLimit _ => true
  | _ => false

/-- A run with a limit tells of one with a higher limit, or with none, unless it has reported the
limit. -/
def Comparison.higherLimit : Comparison where
  Halts _ := True
  Spoils e := e.kind.isLimit = true
  halts _ _ := trivial
  Admits _ s s' := 0 < s.maxDepth ∧
    ∃ maxDepth, s' = { s with maxDepth } ∧ (maxDepth = 0 ∨ s.maxDepth ≤ maxDepth)
  scopes h := ⟨h.2.choose, h.2.choose_spec.1⟩
  part h _ := h
  whitespace h _ := h
  withoutAuto := by
    rintro _ s _ ⟨hpos, maxDepth, rfl, hle⟩
    exact ⟨hpos, maxDepth, rfl, hle⟩
  insideWhitespace := by
    rintro _ s _ ⟨hpos, maxDepth, rfl, hle⟩
    exact ⟨hpos, maxDepth, rfl, hle⟩

namespace Environment

open Comparison Excuse

variable {env : Environment}

/-- A production that is too deep under the lower limit says so; any other one is entered under
the higher limit as well. -/
theorem enters_higherLimit {calls : Calls} (h : higherLimit.Skips calls calls) :
    env.Enters higherLimit calls calls where
  admits {n s s'} hs := by
    obtain ⟨hpos, maxDepth, rfl, hle⟩ := hs.elim id id
    exact ⟨hpos, maxDepth, rfl, hle⟩
  agree {n s s' body body' p} hs hbody := by
    obtain ⟨hpos, maxDepth, rfl, hle⟩ := hs.elim id id
    by_cases hdeep : s.Refuses
    · rw [inProduction_of_refuses hdeep]
      exact .void ⟨_, List.mem_singleton_self _, rfl⟩
    · have hfits : ¬ ({ s with maxDepth } : Scope).Refuses := by
        unfold Scope.Refuses at hdeep ⊢
        simp only
        omega
      exact inProduction_foretells (r := .never) h _ ⟨hpos, maxDepth, rfl, hle⟩ hdeep hfits hbody

theorem foretells_higherLimit (env : Environment) (n : Nat) :
    higherLimit.Skips (env.calls n) (env.calls n) ∧
      higherLimit.Parses (env.calls n) (env.calls n) := by
  induction n with
  | zero => exact ⟨⟨fun _ _ => .error _, .inl rfl⟩, fun _ _ => .error _⟩
  | succ n ih =>
    obtain ⟨hskips, hparses⟩ := ih
    -- Tokens do not depend on the limit: the rules that they are made of start anew.
    have hmatch : ∀ r, higherLimit.Matches r (env.calls n) (env.calls n) :=
      fun _ _ _ _ _ => Tells.refl (fun _ => rfl) _
    have henters := env.enters_higherLimit hskips
    exact ⟨⟨fun hr p => anyAttempt_foretells hskips hparses hmatch henters hr p, .inl rfl⟩,
      fun hr p => anyRule_foretells hskips hparses hmatch henters hr p⟩

end Environment

/-- A run ends with one outcome only. -/
theorem Grammar.Runs.unique {g : Grammar} {root : Nat} {source : Source} {options : Options}
    {o o' : Outcome Outputs} (h : g.Runs root source options o)
    (h' : g.Runs root source options o') : o = o' := by
  obtain ⟨n, hn⟩ := h
  obtain ⟨n', hn'⟩ := h'
  have hends : (g.environment source).ParseEnds _ _ _ (.ok o) := ⟨fun h => (nomatch h), n, hn⟩
  exact Except.ok.inj (hends.unique ⟨fun h => (nomatch h), n', hn'⟩)

/-- A run that has not reported the limit goes as it does with a higher limit, or with none: the
events are the same, and so is all that is made of them. -/
theorem Grammar.Runs.limit_irrelevant {g : Grammar} {root : Nat} {source : Source}
    {state : ParseState} {limit limit' : Nat} {o : Outcome Outputs}
    (h : g.Runs root source ⟨state, limit⟩ o) (hpos : 0 < limit)
    (hlimit : limit' = 0 ∨ limit ≤ limit')
    (hmet : ∀ e ∈ errorsOf o.events, e.kind.isLimit = false) :
    g.Runs root source ⟨state, limit'⟩ o ∧
      ∀ o', g.Runs root source ⟨state, limit'⟩ o' →
        o'.events = o.events ∧ o'.position = o.position ∧ o'.value = o.value ∧
        o'.validate = o.validate ∧ o'.parse = o.parse ∧
        ∀ before, o'.parseAsTree before = o.parseAsTree before := by
  have hruns : g.Runs root source ⟨state, limit'⟩ o := by
    obtain ⟨n, hn⟩ := h
    have hagree := (Environment.foretells_higherLimit (g.environment source) n).2
      (r := .production root) (s := .outer state limit .discard)
      ⟨hpos, limit', rfl, hlimit⟩ 0
    refine ⟨n, hagree.eq hn ?_⟩
    rintro ⟨e, he, hspoils⟩
    have hnot := hmet e (List.mem_filterMap.2 ⟨_, he, rfl⟩)
    rw [hspoils] at hnot
    cases hnot
  refine ⟨hruns, fun o' ho' => ?_⟩
  obtain rfl := ho'.unique hruns
  exact ⟨rfl, rfl, rfl, rfl, rfl, fun _ => rfl⟩

/-- A pair of brackets reaches the limit, and what fails inside of it is something else. -/
theorem Grammar.Runs.limit_irrelevant_brackets :
    let g : Grammar := ⟨#[
      ⟨"group", .choice (.branch (.token (.literal "(")) (.seq (.recurse 0) (.token (.literal ")"))))
        (.branch .position (.recover (.token (.charClass .digit)))), .discard, none, false⟩], #[]⟩
    let source : Source := ⟨.ascii, #[0x28, 0x29], by decide⟩
    ∃ o, g.Runs 0 source ⟨.none, 2⟩ o ∧ 0 < 2 ∧ (0 = 0 ∨ 2 ≤ 0) ∧
      (∀ e ∈ errorsOf o.events, e.kind.isLimit = false) ∧
      o.validate.status = .recoveredError ∧ g.Runs 0 source ⟨.none, 0⟩ o := by
  intro g source
  have hrun : ((g.environment source).parse 12 (.production 0)
      (.outer .none 2 .discard)).answers 0 (fun o =>
        o.validate.status == .recoveredError &&
          (errorsOf o.events).all (fun e => !e.kind.isLimit)) = true := by decide +kernel
  obtain ⟨o, ho, hcheck⟩ := Parse.exists_of_answers hrun
  rw [Bool.and_eq_true, beq_iff_eq, List.all_eq_true] at hcheck
  have hruns : g.Runs 0 source ⟨.none, 2⟩ o := ⟨12, ho⟩
  have hmet : ∀ e ∈ errorsOf o.events, e.kind.isLimit = false := by simpa using hcheck.2
  exact ⟨o, hruns, by decide, .inl rfl, hmet, hcheck.1,
    (hruns.limit_irrelevant (by decide) (.inl rfl) hmet).1⟩

end Phrase
