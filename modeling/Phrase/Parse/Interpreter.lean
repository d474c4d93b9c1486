import Phrase.Parse.Rule

/-!
# The interpreter

Rules call each other without end, so the interpreter counts down: every call inside of a
rule has one unit of fuel less, and a rule is repeated at most as often as there is fuel.  A
parse without fuel is halted, which is not the same as a failure.
-/

namespace Phrase.Environment

mutual

/-- Parses a rule. -/
def parse (env : Environment) : Nat → Rule → Scope → Parse Outputs
  | 0 => fun _ _ => .halt .exhausted
  | fuel + 1 => fun r scope =>
    env.parseRule ⟨parse env fuel, attempt env fuel, fuel⟩ r scope

/-- Tries a branch. -/
def attempt (env : Environment) : Nat → Rule → Attempt
  | 0 => fun _ _ => .error .exhausted
  | fuel + 1 => fun r position =>
    env.attemptRule ⟨parse env fuel, attempt env fuel, fuel⟩ r position

end

/-- What the rules inside of a rule do with this much fuel. -/
def calls (env : Environment) (fuel : Nat) : Calls := ⟨env.parse fuel, env.attempt fuel, fuel⟩

theorem parse_succ (env : Environment) (fuel : Nat) (r : Rule) (scope : Scope) :
    env.parse (fuel + 1) r scope = env.parseRule (env.calls fuel) r scope := rfl

theorem attempt_succ (env : Environment) (fuel : Nat) (r : Rule) (p : Nat) :
    env.attempt (fuel + 1) r p = env.attemptRule (env.calls fuel) r p := rfl

/-- Enough fuel for a run that ends: it grows with the units, the grammar, and the nesting
that is allowed. -/
def fuel (env : Environment) (maxDepth : Nat) : Nat :=
  (env.source.size + 2) * (env.grammar.size + 2) * (maxDepth + Scope.defaultMaxDepth + 2)

end Phrase.Environment
