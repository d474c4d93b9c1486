import Phrase.Encoding.Decoding
import Phrase.Format.Json
import Phrase.Source

/-!
# Parse errors

Errors are values that are reported while parsing goes on: what went wrong, over which
units, and in which production.
-/

namespace Phrase

/-- What went wrong. -/
inductive ErrorKind where
  /-- A literal did not match; `index` of its units did. -/
  | expectedLiteral (literal : String) (index : Nat)
  /-- A unit or code point was not of the expected class. -/
  | expectedCharClass (name : String)
  /-- No alternative of a choice applied. -/
  | exhaustedChoice
  /-- A symbol table has no entry for the units. -/
  | unknownSymbol
  /-- A rule used as a token did not match. -/
  | missingToken
  /-- The units are not well formed. -/
  | invalidCodePoint (status : DecodeStatus)
  /-- A number does not fit its type. -/
  | integerOverflow
  /-- Productions nest deeper than the limit. -/
  | recursionLimit (maxDepth : Nat)
  /-- Reported by a rule of the grammar's own. -/
  | custom (message : String)
  deriving DecidableEq, Repr

/-- An error, the units it refers to, and the production that reported it. -/
structure ParseError where
  kind : ErrorKind
  range : Span
  production : String
  deriving DecidableEq, Repr

namespace ErrorKind

/-- What went wrong in words. -/
def text : ErrorKind → String
  | .expectedLiteral literal _ => s!"expected '{literal}'"
  | .expectedCharClass name => s!"expected {name}"
  | .exhaustedChoice => "exhausted choice"
  | .unknownSymbol => "unknown symbol"
  | .missingToken => "missing token"
  | .invalidCodePoint status => s!"invalid code point: {status.name}"
  | .integerOverflow => "integer overflow"
  | .recursionLimit maxDepth => s!"maximum recursion depth of {maxDepth} exceeded"
  | .custom message => message

/-- What went wrong as data: its tag, then its details. -/
def members : ErrorKind → List (String × Json)
  | .expectedLiteral literal index =>
    [("kind", .str "expected_literal"), ("literal", .str literal), ("index", .nat index)]
  | .expectedCharClass name => [("kind", .str "expected_char_class"), ("name", .str name)]
  | .exhaustedChoice => [("kind", .str "exhausted_choice")]
  | .unknownSymbol => [("kind", .str "unknown_symbol")]
  | .missingToken => [("kind", .str "missing_token")]
  | .invalidCodePoint status =>
    [("kind", .str "invalid_code_point"), ("status", .str status.tag)]
  | .integerOverflow => [("kind", .str "integer_overflow")]
  | .recursionLimit maxDepth =>
    [("kind", .str "recursion_limit"), ("max_depth", .nat maxDepth)]
  | .custom message => [("kind", .str "custom"), ("message", .str message)]

end ErrorKind

/-- A span as data. -/
def Span.toJson (r : Span) : Json := .obj [("start", .nat r.start), ("end", .nat r.stop)]

namespace ParseError

/-- Where the error is. -/
def position (e : ParseError) : Nat := e.range.start

/-- The error in words. -/
def text (e : ParseError) : String := s!"{e.production}: {e.kind.text} at {e.range.text}"

/-- The members of the error as data. -/
def members (e : ParseError) : List (String × Json) :=
  e.kind.members ++ [("range", e.range.toJson), ("production", .str e.production)]

/-- The error as data. -/
def toJson (e : ParseError) : Json := .obj e.members

end ParseError

end Phrase
