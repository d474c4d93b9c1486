import Phrase.Parse.Interpreter
import Phrase.Tree.Builder

/-!
# Runs

Running a grammar over a source parses its root production.  What comes of the run depends
on what is asked for: a report of the errors, a value, or a tree; all of them are made from
the same run.
-/

namespace Phrase

/-- What a run can be told. -/
structure Options where
  state : ParseState
  /-- How deep productions may nest; zero sets no limit. -/
  maxDepth : Nat

/-- No state, and the usual limit. -/
def Options.standard : Options := ⟨.none, Scope.defaultMaxDepth⟩

/-- How a run ended. -/
inductive Status where
  /-- The root matched, and nothing was reported. -/
  | success
  /-- The root matched after errors. -/
  | recoveredError
  /-- The root failed. -/
  | fatalError
  deriving DecidableEq, Repr

namespace Status

/-- The status of a run, from whether the root matched and from the errors. -/
def of (matched : Bool) (errors : List ParseError) : Status :=
  if !matched then .fatalError else if errors.isEmpty then .success else .recoveredError

/-- The status in data. -/
def tag : Status → String
  | .success => "success"
  | .recoveredError => "recovered_error"
  | .fatalError => "fatal_error"

end Status

/-- A status with the errors in order. -/
structure Report where
  status : Status
  errors : List ParseError

namespace Report

/-- Whether nothing was reported. -/
def isSuccess (r : Report) : Bool := r.status == .success

/-- Whether the root failed. -/
def isFatal (r : Report) : Bool := r.status == .fatalError

/-- Whether the root matched. -/
def isRecovered (r : Report) : Bool := !r.isFatal

/-- The report as data. -/
def toJson (r : Report) : Json :=
  .obj [("status", .str r.status.tag), ("errors", .arr (r.errors.map ParseError.toJson))]

end Report

/-- Parses a rule from a cursor on, outside of all productions. -/
def Grammar.parseAt (g : Grammar) (c : Cursor) (r : Rule) (scope : Scope) :
    Except Halt (Outcome Outputs) :=
  let env : Environment := ⟨g.compile c.source.encoding, c.source, c.stop⟩
  env.parse (env.fuel scope.maxDepth) r scope c.position

/-- Whether a branch applies at a cursor. -/
def Grammar.applies (g : Grammar) (c : Cursor) (r : Rule) : Except Halt Bool :=
  let env : Environment := ⟨g.compile c.source.encoding, c.source, c.stop⟩
  (env.attempt (env.fuel 0) r c.position).map (·.isSome)

/-- Matches a token at a cursor. -/
def Grammar.matchToken (g : Grammar) (c : Cursor) (t : Token) : Except Halt TokenMatch :=
  let env : Environment := ⟨g.compile c.source.encoding, c.source, c.stop⟩
  let fuel := env.fuel 0
  env.matchToken ⟨env.parse fuel, env.attempt fuel, fuel⟩ t c.position

/-- Where a rule ends that matches at a cursor. -/
def Grammar.matchEnd (g : Grammar) (c : Cursor) (r : Rule) : Except Halt (Option Nat) := do
  let o ← g.parseAt c r .silent
  return if o.result.isSome then some o.position else none

/-- What a run over all of a source works on. -/
def Grammar.environment (g : Grammar) (source : Source) : Environment :=
  ⟨g.compile source.encoding, source, source.size⟩

/-- Runs a grammar: parses production `root` over all of a source. -/
def Grammar.run (g : Grammar) (root : Nat) (source : Source) (options : Options) :
    Except Halt (Outcome Outputs) :=
  g.parseAt (.ofSource source) (.production root) (.outer options.state options.maxDepth .discard)

namespace Outcome

variable (o : Outcome Outputs)

/-- The errors of a run and its status. -/
def report : Report :=
  let errors := errorsOf o.events
  ⟨.of o.result.isSome errors, errors⟩

/-- The value of the root. -/
def value : Option Value := o.result.bind (·.head?)

/-- The tree of a run. -/
def tree : SyntaxTree := .ofEvents o.events

/-- The events, a line each. -/
def trace : List String := o.events.map Event.text

end Outcome

end Phrase
