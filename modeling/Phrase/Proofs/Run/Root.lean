import Phrase.Proofs.Parse.Outputs
import Phrase.Proofs.Parse.Tiling
import Phrase.Run

/-!
# The root of a run

A run that ends has entered its root production: its events are those of the rule of the
root between the bounds of the root, the later of which says whether the root matched.
-/

namespace Phrase

/-- Running a grammar ends with this outcome, given enough fuel. -/
def Grammar.Runs (g : Grammar) (root : Nat) (source : Source) (options : Options)
    (o : Outcome Outputs) : Prop :=
  ∃ fuel, (g.environment source).parse fuel (.production root)
    (.outer options.state options.maxDepth .discard) 0 = .ok o

theorem Grammar.runs_of_run {g : Grammar} {root : Nat} {source : Source} {options : Options}
    {o : Outcome Outputs} (h : g.run root source options = .ok o) :
    g.Runs root source options o :=
  ⟨(g.environment source).fuel options.maxDepth, h⟩

/-- What is known of the outcome of a run whose root has this name. -/
structure Outcome.Rooted (o : Outcome Outputs) (name : String) (inner : List Event) : Prop where
  /-- The rule of the root has laid out what is inside of it. -/
  layout : Layout 0 o.position inner
  /-- The root is around all of it. -/
  events : o.events =
    .start name 0 :: (inner ++ [Event.close name o.result.isSome o.position])
  /-- The root outputs its value only. -/
  outputs : ∀ vs, o.result = some vs → ∃ v, vs = [v]

/-- A production with an outcome outside of all others has been entered. -/
theorem Environment.parse_outer_production {env : Environment} {n root : Nat}
    {state : ParseState} {maxDepth : Nat} {o : Outcome Outputs}
    (ho : env.parse n (.production root) (.outer state maxDepth .discard) 0 = .ok o) :
    ∃ inner, o.Rooted (env.grammar.production root).name inner := by
  have houtputs := exists_output_of_production ho
  cases n with
  | zero => cases ho
  | succ n =>
    let production := env.grammar.production root
    let scope := Scope.outer state maxDepth .discard
    have hdepth : ¬(scope.maxDepth ≠ 0 ∧ scope.maxDepth < scope.depth + 1) := by
      show ¬(maxDepth ≠ 0 ∧ maxDepth < 0 + 1)
      omega
    have hskip : ∀ calls, skipWhitespace calls scope = pure () := fun _ => rfl
    change inProduction ⟨env.parse n, env.attempt n, n⟩ production scope
      (env.parse n production.rule) 0 = .ok o at ho
    unfold inProduction at ho
    rw [if_neg hdepth, hskip] at ho
    cases hbody : env.parse n production.rule (scope.inside production) 0 with
    | error h =>
      rw [Parse.bind_of_error (h := h) (by rw [Parse.between, hbody])] at ho
      cases ho
    | ok b =>
      have hlayout := parse_layout (Nat.zero_le _) hbody
      obtain ⟨result, q, inner⟩ := b
      cases result with
      | none =>
        rw [Parse.bind_of_none (q := q) (by rw [Parse.between, hbody])] at ho
        cases ho
        exact ⟨inner, hlayout, rfl, houtputs⟩
      | some outputs =>
        rw [Parse.bind_of_some (a := outputs) (q := q) (by rw [Parse.between, hbody])] at ho
        cases ho
        exact ⟨inner, hlayout, List.append_nil _, houtputs⟩

theorem Grammar.Runs.rooted {g : Grammar} {root : Nat} {source : Source} {options : Options}
    {o : Outcome Outputs} (h : g.Runs root source options o) :
    ∃ inner, o.Rooted (g.production root).name inner := by
  obtain ⟨fuel, ho⟩ := h
  exact Environment.parse_outer_production ho

end Phrase
