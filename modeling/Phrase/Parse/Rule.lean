import Phrase.Grammar
import Phrase.Parse.Basic
import Phrase.Rule.Matching

/-!
# Parsing rules

The meaning of every rule, as a parse over the meanings of the rules inside of it.  Those
are handed in as `Calls`; tying the knot is left to the interpreter.

A rule is parsed in a scope: what is skipped as whitespace, whether that happens by itself
behind every token, and in which production the rule stands.

A branch can be tried.  If it applies, the attempt answers with a `Commit`, the parse that
goes on from there; committing and parsing the rule from the start are the same.
-/

namespace Phrase

/-! ## Surroundings -/

/-- The circumstances in which a rule is parsed. -/
structure Scope where
  /-- What is skipped as whitespace. -/
  whitespace : Option Rule
  /-- Whether whitespace is skipped behind every token. -/
  auto : Bool
  /-- The name of the production around the rule. -/
  production : String
  /-- How deep productions are nested. -/
  depth : Nat
  /-- How deep productions may be nested; zero sets no limit. -/
  maxDepth : Nat
  /-- What the caller has handed in. -/
  state : ParseState
  /-- How the production around the rule builds its value. -/
  value : ValueKind

namespace Scope

/-- The limit where none is set. -/
def defaultMaxDepth : Nat := 1000

/-- The scope outside of all productions. -/
def outer (state : ParseState) (maxDepth : Nat) (value : ValueKind) : Scope :=
  { whitespace := none, auto := true, production := "", depth := 0, maxDepth, state, value }

/-- The scope of a rule that is used as a token, and of a rule that is only matched. -/
def silent : Scope := outer .none defaultMaxDepth .discard

/-- The scope inside of whitespace. -/
def insideWhitespace (s : Scope) : Scope :=
  { s with whitespace := none, auto := false, value := .discard }

/-- The scope in which whitespace is not skipped by itself. -/
def withoutAuto (s : Scope) : Scope := { s with auto := false }

/-- The scope inside of a production. -/
def inside (s : Scope) (p : Production) : Scope :=
  { s with
    whitespace := if p.isToken then p.whitespace else p.whitespace.or s.whitespace
    auto := if p.isToken then false else s.auto
    production := p.name
    depth := s.depth + 1
    value := p.value }

end Scope

/-- What a run works on. -/
structure Environment where
  grammar : Grammar
  source : Source
  /-- Where reading ends. -/
  stop : Nat

/-- The cursor at a position. -/
def Environment.cursor (env : Environment) (position : Nat) : Cursor :=
  ⟨env.source, position, env.stop⟩

/-- A rule's outputs. -/
abbrev Outputs := List Value

/-- What is left to parse after a branch has turned out to apply. -/
abbrev Commit := Scope → Parse Outputs

/-- An attempt at a position: how to go on if the branch applies. -/
abbrev Attempt := Nat → Except Halt (Option Commit)

namespace Attempt

/-- Going on from the attempt ends with an outcome that passes a check. -/
def answers (a : Attempt) (scope : Scope) (p : Nat) (check : Outcome Outputs → Bool) : Bool :=
  match a p with
  | .ok (some commit) => (commit scope).answers p check
  | _ => false

theorem exists_of_answers {a : Attempt} {scope : Scope} {p : Nat}
    {check : Outcome Outputs → Bool} (h : a.answers scope p check = true) :
    ∃ commit o, a p = .ok (some commit) ∧ commit scope p = .ok o ∧ check o = true := by
  unfold answers at h
  split at h
  · next commit hcommit =>
    obtain ⟨o, ho, hcheck⟩ := Parse.exists_of_answers h
    exact ⟨commit, o, hcommit, ho, hcheck⟩
  · cases h

end Attempt

/-- The meanings of the rules inside of a rule. -/
structure Calls where
  parse : Rule → Scope → Parse Outputs
  attempt : Rule → Attempt
  /-- How many times a rule may be repeated. -/
  fuel : Nat

namespace Environment

variable (env : Environment) (calls : Calls)

/-! ## Whitespace -/

/-- Moves to a position. -/
@[inline] def moveTo (stop : Nat) : Parse Unit :=
  .move fun p => ((env.cursor p).moveTo stop).map (·.position)

/-- Reports what went wrong. -/
@[inline] def report (scope : Scope) (kind : ErrorKind) (range : Span) : Parse Unit :=
  .emit (.error ⟨kind, range, scope.production⟩)

/-- Skips a branch as often as it applies and moves on. -/
def skipBranch (w : Rule) (scope : Scope) : Parse Unit :=
  .iterate (fun _ => do
    match ← Parse.look (calls.attempt w) with
    | none => return .done ()
    | some commit =>
      let before ← Parse.position
      let _ ← commit scope
      if (← Parse.position) = before then return .done () else return .yield ())
    calls.fuel ()

/-- Skips a branch as whitespace, which makes one token. -/
def skipWith (w : Rule) (scope : Scope) : Parse Unit :=
  (skipBranch calls w scope.insideWhitespace).asOneToken fun skipped =>
    if skipped then .whitespace else .error

/-- Skips the whitespace of the scope. -/
def skipScopeWhitespace (scope : Scope) : Parse Unit :=
  match scope.whitespace with
  | some w => skipWith calls w scope
  | none => return ()

/-- Skips whitespace behind a token, where that happens by itself. -/
def skipWhitespace (scope : Scope) : Parse Unit :=
  if scope.auto then skipScopeWhitespace calls scope else return ()

/-! ## Tokens -/

/-- Matches a token.  A rule used as a token is parsed without a trace. -/
def matchToken (t : Token) (position : Nat) : Except Halt TokenMatch :=
  match t with
  | .rule r _ =>
    match calls.parse r .silent position with
    | .error h => .error h
    | .ok o =>
      match o.result with
      | some _ => .ok (.ok o.position)
      | none => .ok (.error ⟨o.position, .missingToken, ⟨position, o.position⟩⟩)
  | t =>
    match t.matchUnits? (env.cursor position) with
    | .error f => .error (.fault f)
    | .ok (some m) => .ok m
    | .ok none => .ok (.error (.at position .missingToken))

/-- Reports why a token does not match; what it has read becomes an error token. -/
def reportFailure (f : TokenFailure) (scope : Scope) : Parse Unit := do
  let begin ← Parse.position
  if begin < f.stop then
    Parse.emit (.token .error ⟨begin, f.stop⟩)
    env.moveTo f.stop
  report scope f.kind f.range

/-- Makes a token up to `stop`. -/
def passToken (kind : TokenKind) (stop : Nat) : Parse Unit := do
  let begin ← Parse.position
  Parse.emit (.token kind ⟨begin, stop⟩)
  env.moveTo stop

/-- Makes a token up to `stop` and skips whitespace behind it. -/
def finishToken (kind : TokenKind) (stop : Nat) (scope : Scope) : Parse Unit := do
  env.passToken kind stop
  skipWhitespace calls scope

/-- Where a token ends; fails, and reports why, if it does not match. -/
def expectToken (t : Token) (scope : Scope) : Parse Nat := do
  match ← Parse.look (env.matchToken calls t) with
  | .ok stop => return stop
  | .error f =>
    env.reportFailure f scope
    Parse.fail

/-- Makes a token that outputs nothing. -/
def commitToken (t : Token) (stop : Nat) : Commit := fun scope => do
  env.finishToken calls t.kind stop scope
  return []

/-- Makes a token that outputs its span. -/
def commitCapture (t : Token) (stop : Nat) : Commit := fun scope => do
  let begin ← Parse.position
  env.finishToken calls t.kind stop scope
  return [.lexeme ⟨begin, stop⟩]

/-- Makes a token of digits that outputs their number, or fails if it is too large. -/
def commitInteger (type : IntegerType) (radix : Radix) (stop : Nat) : Commit := fun scope => do
  let begin ← Parse.position
  let digits ← Parse.lift (env.source.slice ⟨begin, stop⟩)
  match type.ofDigits? radix digits with
  | some n =>
    env.finishToken calls .digits stop scope
    return [.int n]
  | none =>
    env.passToken .digits stop
    report scope .integerOverflow ⟨begin, stop⟩
    Parse.fail

/-! ## Symbols -/

/-- The value of the longest key at a cursor, and where the key ends. -/
def findSymbol (table : Nat) (c : Cursor) : Option (Value × Nat) := do
  let t := env.grammar.table table
  let (number, length) ← t.longestKey c
  let entry ← t.entries[number]?
  return (entry.2, c.position + length)

/-- The value of the key that ends at `stop`. -/
def findSymbolTo (table : Nat) (stop position : Nat) : Except Fault (Option Value) := do
  let c ← (env.cursor position).partialTo stop
  match env.findSymbol table c with
  | some (v, last) => return if last = stop then some v else none
  | none => return none

/-- The value of the longest key that no trailing character follows, and where it ends. -/
def findKeyword (table : Nat) (trailing : CharClass) (position : Nat) :
    Except Fault (Option (Value × Nat)) := do
  match env.findSymbol table (env.cursor position) with
  | none => return none
  | some (v, stop) =>
    let behind ← (env.cursor position).moveTo stop
    return if (trailing.matchOne behind).isSome then none else some (v, stop)

/-- Makes a token that outputs the value of a key. -/
def commitSymbol (kind : TokenKind) (v : Value) (stop : Nat) : Commit := fun scope => do
  env.finishToken calls kind stop scope
  return [v]

/-- Makes a token that is not a key, and fails. -/
def refuseSymbol (kind : TokenKind) (stop : Nat) (scope : Scope) : Parse Outputs := do
  let begin ← Parse.position
  env.passToken kind stop
  report scope .unknownSymbol ⟨begin, stop⟩
  Parse.fail

/-! ## Sequences -/

/-- A rule behind a parse; their outputs are joined. -/
def andThen (first : Parse Outputs) (rest : Rule) (scope : Scope) : Parse Outputs := do
  let outputs ← first
  return outputs ++ (← calls.parse rest scope)

/-- Skips whitespace behind a parse. -/
def thenSkip (first : Parse Outputs) (scope : Scope) : Parse Outputs := do
  let outputs ← first
  skipWhitespace calls scope
  return outputs

/-! ## Repetition -/

/-- Takes up items as long as they apply; the last one may be empty. -/
def moreItems (item : Rule) (scope : Scope) : Container → Parse Container :=
  .iterate (fun c => do
    match ← Parse.look (calls.attempt item) with
    | none => return .done c
    | some commit =>
      let before ← Parse.position
      let c := scope.value.push c (← commit scope)
      if (← Parse.position) = before then return .done c else return .yield c)
    calls.fuel

/-- An item whose parse is given, then more as long as they apply. -/
def listFrom (item : Rule) (scope : Scope) (first : Parse Outputs) : Parse Outputs := do
  let c := scope.value.container scope.state
  let c := scope.value.push c (← first)
  return [(← moreItems calls item scope c).finish]

/-- Takes up items behind separators. -/
def separatedItems (item separator : Rule) (scope : Scope) : Container → Parse Container :=
  .iterate (fun c => do
    match ← Parse.look (calls.attempt separator) with
    | none => return .done c
    | some commit =>
      let _ ← commit scope
      return .yield (scope.value.push c (← calls.parse item scope)))
    calls.fuel

/-- Takes up items behind separators; there need be none behind the last separator. -/
def trailedItems (item separator : Rule) (scope : Scope) : Container → Parse Container :=
  .iterate (fun c => do
    match ← Parse.look (calls.attempt separator) with
    | none => return .done c
    | some commit =>
      let _ ← commit scope
      match ← Parse.look (calls.attempt item) with
      | none => return .done c
      | some commit => return .yield (scope.value.push c (← commit scope)))
    calls.fuel

/-! ## Productions -/

/-- Parses inside of a production: its events stand between its bounds, its outputs become
its value, and then the whitespace around it is skipped. -/
def inProduction (p : Production) (scope : Scope) (body : Commit) : Parse Outputs := do
  if scope.maxDepth ≠ 0 ∧ scope.maxDepth < scope.depth + 1 then
    let position ← Parse.position
    report scope (.recursionLimit scope.maxDepth) ⟨position, position⟩
    Parse.fail
  else
    let outputs ← (body (scope.inside p)).between (.start p.name) (.close p.name)
    skipWhitespace calls scope
    return [p.value.call scope.state outputs]

/-- Parses a production. -/
def parseProduction (number : Nat) (scope : Scope) : Parse Outputs :=
  let p := env.grammar.production number
  inProduction calls p scope (calls.parse p.rule)

/-! ## All rules -/

/-- What a rule outputs instead of failing. -/
def defaults (r : Rule) : Outputs := List.replicate r.arity .default

/-- Tries a branch.  It goes on with the outputs of what has been tried: those of a choice are the
outputs of the alternative that applies. -/
def attemptRule (r : Rule) : Attempt := fun position =>
  match r with
  | .token t => do
    match ← env.matchToken calls t position with
    | .ok stop => return some (env.commitToken calls t stop)
    | .error _ => return none
  | .capture t => do
    match ← env.matchToken calls t position with
    | .ok stop => return some (env.commitCapture calls t stop)
    | .error _ => return none
  | .integer type radix => do
    match ← env.matchToken calls (.digits radix) position with
    | .ok stop => return some (env.commitInteger calls type radix stop)
    | .error _ => return none
  | .position => return some (calls.parse .position)
  | .symbol table =>
    return (env.findSymbol table (env.cursor position)).map fun (v, stop) =>
      env.commitSymbol calls .identifier v stop
  | .symbolOf table t => do
    match ← env.matchToken calls t position with
    | .error _ => return none
    | .ok stop =>
      match env.findSymbolTo table stop position with
      | .error f => .error (.fault f)
      | .ok v? => return v?.map fun v => env.commitSymbol calls t.kind v stop
  | .symbolIdentifier table _ trailing =>
    match env.findKeyword table trailing position with
    | .error f => .error (.fault f)
    | .ok found => return found.map fun (v, stop) => env.commitSymbol calls .identifier v stop
  | .branch condition rest => do
    return (← calls.attempt condition position).map fun commit scope =>
      andThen calls (commit scope) rest scope
  | .choice first second => do
    match ← calls.attempt first position with
    | some commit => return some commit
    | none => calls.attempt second position
  | .list item => do
    return (← calls.attempt item position).map fun commit scope =>
      listFrom calls item scope (commit scope)
  | .production number => do
    let p := env.grammar.production number
    return (← calls.attempt p.rule position).map fun commit scope =>
      inProduction calls p scope commit
  | .recover r => do
    return (← calls.attempt r position).map fun commit scope =>
      (commit scope).orDefault (defaults r)
  | .noWhitespace r => do
    return (← calls.attempt r position).map fun commit scope =>
      thenSkip calls (commit scope.withoutAuto) scope
  | _ => return none

/-- Parses a rule.  The rules inside of it are taken to fit together (`Rule.fits`): what an optional
branch goes on to output would be output here as well. -/
def parseRule (r : Rule) (scope : Scope) : Parse Outputs :=
  match r with
  | .token t => do env.commitToken calls t (← env.expectToken calls t scope) scope
  | .capture t => do env.commitCapture calls t (← env.expectToken calls t scope) scope
  | .integer type radix => do
    env.commitInteger calls type radix (← env.expectToken calls (.digits radix) scope) scope
  | .position => do
    let position ← Parse.position
    Parse.emit (.token .position ⟨position, position⟩)
    return [.pos position]
  | .symbol table => do
    match ← Parse.look fun p => .ok (env.findSymbol table (env.cursor p)) with
    | some (v, stop) => env.commitSymbol calls .identifier v stop scope
    | none =>
      let position ← Parse.position
      report scope .unknownSymbol ⟨position, position⟩
      Parse.fail
  | .symbolOf table t => do
    let stop ← env.expectToken calls t scope
    match ← Parse.lift (env.findSymbolTo table stop (← Parse.position)) with
    | some v => env.commitSymbol calls t.kind v stop scope
    | none => env.refuseSymbol t.kind stop scope
  | .symbolIdentifier table leading trailing => do
    match ← Parse.lift (env.findKeyword table trailing (← Parse.position)) with
    | some (v, stop) => env.commitSymbol calls .identifier v stop scope
    | none =>
      let stop ← env.expectToken calls (.identifier leading trailing) scope
      env.refuseSymbol .identifier stop scope
  | .seq first second => andThen calls (calls.parse first scope) second scope
  | .branch condition rest => andThen calls (calls.parse condition scope) rest scope
  | .choice _ _ => do
    match ← Parse.look (calls.attempt r) with
    | some commit => commit scope
    | none =>
      let position ← Parse.position
      report scope .exhaustedChoice ⟨position, position⟩
      Parse.fail
  | .opt r => do
    match ← Parse.look (calls.attempt r) with
    | some commit => commit scope
    | none => return []
  | .list item => listFrom calls item scope (calls.parse item scope)
  | .listOpt item => do
    return [(← moreItems calls item scope (scope.value.container scope.state)).finish]
  | .listSep item separator => do
    let c := scope.value.container scope.state
    let c := scope.value.push c (← calls.parse item scope)
    return [(← separatedItems calls item separator scope c).finish]
  | .listTrailing item separator => do
    let c := scope.value.container scope.state
    let c := scope.value.push c (← calls.parse item scope)
    return [(← trailedItems calls item separator scope c).finish]
  | .times count item => do
    let c ← Parse.replicate (fun c => do
      return scope.value.push c (← calls.parse item scope))
      count (scope.value.container scope.state)
    return [c.finish]
  | .production number | .recurse number => env.parseProduction calls number scope
  | .recover r => (calls.parse r scope).orDefault (defaults r)
  | .scopeWhitespace => do
    skipScopeWhitespace calls scope
    return []
  | .whitespace r => do
    skipWith calls r scope
    return []
  | .noWhitespace r => thenSkip calls (calls.parse r scope.withoutAuto) scope
  | .never => return []
  | .fail message => do
    let position ← Parse.position
    report scope (.custom message) ⟨position, position⟩
    Parse.fail
  | .warn message => do
    let position ← Parse.position
    report scope (.custom message) ⟨position, position⟩
    return []
  | .context =>
    let items := match scope.state with
      | .seed items => .count items.length
      | _ => .unit
    return [.tuple [.sym scope.production, .count scope.depth, items]]
  | .emit kind width => do
    let position ← Parse.position
    env.passToken kind (min env.stop (position + width))
    return []

end Environment

end Phrase
