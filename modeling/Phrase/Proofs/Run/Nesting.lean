import Phrase.Action
import Phrase.Proofs.Parse.Nesting
import Phrase.Proofs.Run.Characters

/-!
# How deep productions are nested in a run

A run goes as the one that counts how many productions are inside one another: it never has
more of them than its limit says, refuses the one that would be too many, and refuses none if
there is no limit (`Grammar.runs_iff_nested`).  Inside of a token the count starts anew, with
the usual limit; so it is the count of the whole run only where tokens enter no production.
-/

namespace Phrase

/-- Running a grammar while nesting is counted ends with this outcome, given enough fuel. -/
def Grammar.RunsNested (g : Grammar) (inToken : Nesting → Nesting) (root : Nat) (source : Source)
    (options : Options) (o : Outcome Outputs) : Prop :=
  ∃ fuel, ((g.environment source).nestedCalls inToken fuel (.outer options.maxDepth)).parse
    (.production root) (.outer options.state 0 .discard) 0 = .ok o

/-- Whether no token of a grammar enters a production. -/
def Grammar.tokensClosed (g : Grammar) : Bool :=
  g.rules.all fun r =>
    match r.token? with
    | some (.rule t _) => t.inside.all (!·.isReference)
    | _ => true

namespace Grammar

variable {g : Grammar} {inToken : Nesting → Nesting}

theorem closed_of_tokensClosed (h : g.tokensClosed = true) {r t : Rule} {kind : TokenKind}
    (hr : r ∈ g.rules) (ht : r.token? = some (.rule t kind)) : t.Closed := by
  intro s hs
  have hcheck := List.all_eq_true.1 h r hr
  rw [ht] at hcheck
  simpa using List.all_eq_true.1 hcheck s hs

/-- Where tokens keep how nesting is counted, both runs end alike. -/
theorem runs_iff_nested_of_tokens (root : Nat) (source : Source) (options : Options)
    (o : Outcome Outputs) (hg : (g.environment source).TokensCount inToken) :
    g.Runs root source options o ↔ g.RunsNested inToken root source options o := by
  have hroot : (Rule.production root).TokensCount inToken := by
    intro s hs t kind ht
    rw [List.mem_singleton.1 hs] at ht
    cases ht
  have hadmits : (Comparison.nested inToken (.outer options.maxDepth)).Admits (.production root)
      (.outer options.state options.maxDepth .discard) (.outer options.state 0 .discard) :=
    ⟨⟨hroot, fun _ hw => (by cases hw), .inl ⟨rfl, rfl⟩⟩, rfl⟩
  exact exists_congr fun fuel => by rw [Environment.parse_eq_nested hg hadmits]

/-- A run keeps within its limit on how deep productions are nested, counted from the root on or
from the innermost token; where tokens enter no production, it is counted from the root on. -/
theorem runs_iff_nested (g : Grammar) (root : Nat) (source : Source) (options : Options)
    (o : Outcome Outputs) :
    (g.Runs root source options o ↔ g.RunsNested .restart root source options o) ∧
    (g.tokensClosed = true →
      (g.Runs root source options o ↔ g.RunsNested id root source options o)) := by
  constructor
  · exact runs_iff_nested_of_tokens root source options o fun _ =>
      ⟨fun _ _ _ _ _ => .inl rfl, fun _ _ _ _ _ _ _ => .inl rfl⟩
  · intro hclosed
    refine runs_iff_nested_of_tokens root source options o fun n => ?_
    have hinside := g.forall_inside (P := fun r => ∀ t kind, r.token? = some (.rule t kind) →
      id = Nesting.restart ∨ t.Closed) (fun _ _ h => (nomatch h))
      (fun r hr t kind ht => .inr (closed_of_tokensClosed hclosed hr ht)) n
    exact hinside

/-- Two brackets are as deep as productions may be nested, so what is inside of them is recovered
from; the token behind them is made of a rule of its own. -/
theorem runs_iff_nested_brackets :
    let g : Grammar := ⟨#[
      ⟨"group", .seq (.token (.literal "(")) (.seq (.recover (.recurse 0))
        (.token (.rule (.token (.literal ")")) .unknown))), .discard, none, false⟩], #[]⟩
    let source : Source := ⟨.utf8, #[0x28, 0x28, 0x29, 0x29], by decide⟩
    g.tokensClosed = true ∧
      ∃ o, g.Runs 0 source ⟨.none, 2⟩ o ∧ o.validate.status = .recoveredError ∧
        g.RunsNested id 0 source ⟨.none, 2⟩ o := by
  intro g source
  have hclosed : g.tokensClosed = true := by decide +kernel
  have hrun : ((g.environment source).parse 12 (.production 0)
      (.outer .none 2 .discard)).answers 0 (fun o => o.validate.status == .recoveredError) =
        true := by decide +kernel
  obtain ⟨o, ho, hcheck⟩ := Parse.exists_of_answers hrun
  have hruns : g.Runs 0 source ⟨.none, 2⟩ o := ⟨12, ho⟩
  exact ⟨hclosed, o, hruns, beq_iff_eq.1 hcheck,
    ((g.runs_iff_nested 0 source ⟨.none, 2⟩ o).2 hclosed).1 hruns⟩

/-- Inside of a token a second production is entered, although no more than one may be. -/
theorem Runs.exceeds_limit_in_token :
    let g : Grammar := ⟨#[
      ⟨"p0", .token (.rule (.production 1) .unknown), .discard, none, false⟩,
      ⟨"p1", .token (.literal "a"), .discard, none, false⟩], #[]⟩
    let source : Source := ⟨.utf8, #[0x61], by decide⟩
    ∃ o, g.Runs 0 source ⟨.none, 1⟩ o ∧ o.validate.status = .success ∧
      ¬ g.RunsNested id 0 source ⟨.none, 1⟩ o := by
  intro g source
  have hrun : ((g.environment source).parse 5 (.production 0)
      (.outer .none 1 .discard)).answers 0 (fun o => o.validate.status == .success) = true := by
    decide +kernel
  obtain ⟨o, ho, hcheck⟩ := Parse.exists_of_answers hrun
  refine ⟨o, ⟨5, ho⟩, beq_iff_eq.1 hcheck, ?_⟩
  -- With three units of fuel or more the run that counts refuses the second production.
  have hrefused : ∀ n, ((g.environment source).nestedCalls id (n + 3) (.outer 1)).parse
      (.production 0) (.outer .none 0 .discard) 0 = .ok ⟨none, 0,
        [.start "p0" 0, .error ⟨.missingToken, ⟨0, 0⟩, "p0"⟩, .cancel "p0" 0]⟩ := fun _ => rfl
  rintro ⟨fuel, h⟩
  match fuel, h with
  | 0, h | 1, h | 2, h => cases (show Except.error Halt.exhausted = Except.ok o from h)
  | n + 3, h =>
    obtain rfl := Except.ok.inj ((hrefused n).symm.trans h)
    cases hcheck

end Grammar

end Phrase
