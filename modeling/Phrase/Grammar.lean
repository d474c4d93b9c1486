import Phrase.Rule.Basic
import Phrase.Symbol.Table

/-!
# Grammars

A grammar is a list of productions and a list of symbol tables; rules refer to both by
number.
-/

namespace Phrase

/-- Productions and symbol tables. -/
structure Grammar where
  productions : Array Production
  tables : Array (SymbolTable Value)

namespace Grammar

/-- The production with this number; one that is missing never applies. -/
def production (g : Grammar) (n : Nat) : Production := g.productions.getD n default

/-- The symbol table with this number; one that is missing is empty. -/
def table (g : Grammar) (n : Nat) : SymbolTable Value := g.tables.getD n .empty

/-- The grammar with the indexes of all its tables built for an encoding. -/
def compile (g : Grammar) (e : Encoding) : Grammar :=
  { g with tables := g.tables.map (·.compile e) }

/-- The number of constructors of all rules. -/
def size (g : Grammar) : Nat :=
  g.productions.foldl
    (fun n p => n + p.rule.size + (p.whitespace.map Rule.size).getD 0 + 1) 0

/-- Whether a rule is a branch, looking through at most `fuel` productions. -/
def isBranchWithin (g : Grammar) : Nat → Rule → Bool
  | fuel, r =>
    match r.unwrapped with
    | .token _ | .integer _ _ | .capture _ | .position | .symbol _ | .symbolOf _ _
    | .symbolIdentifier _ _ _ | .choice _ _ | .branch _ _ | .list _ | .never => true
    | .production n =>
      match fuel with
      | 0 => false
      | fuel + 1 => g.isBranchWithin fuel (g.production n).rule
    | _ => false

/-- Whether it can be found out that a rule applies without committing to it. -/
def isBranch (g : Grammar) (r : Rule) : Bool := g.isBranchWithin (g.productions.size + 1) r

end Grammar

end Phrase
