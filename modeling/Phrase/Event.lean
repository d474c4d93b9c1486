import Phrase.ParseError

/-!
# Events

Parsing emits one ordered stream of events: the bounds of productions, tokens and errors.
All results other than values are made from this stream.
-/

namespace Phrase

/-- The class of a token. -/
inductive TokenKind where
  | unknown
  /-- Units passed over by a rule that failed. -/
  | error
  | whitespace
  /-- An empty token that marks a position. -/
  | position
  | eof
  | newline
  | literal
  | identifier
  | digits
  | charClass
  | codePoint
  /-- A class of the grammar's own. -/
  | custom (name : String)
  deriving DecidableEq, Repr

namespace TokenKind

/-- The classes that every grammar has. -/
def standard : List TokenKind :=
  [.unknown, .error, .whitespace, .position, .eof, .newline, .literal, .identifier, .digits,
    .charClass, .codePoint]

/-- The name of a class. -/
def name : TokenKind → String
  | .unknown => "unknown"
  | .error => "error"
  | .whitespace => "whitespace"
  | .position => "position"
  | .eof => "eof"
  | .newline => "newline"
  | .literal => "literal"
  | .identifier => "identifier"
  | .digits => "digits"
  | .charClass => "char-class"
  | .codePoint => "code-point"
  | .custom name => name

/-- The class with this name, the grammar's own if no other has it. -/
def ofName (n : String) : TokenKind := (standard.find? (·.name == n)).getD (.custom n)

end TokenKind

/-- What happens while parsing. -/
inductive Event where
  | start (production : String) (position : Nat)
  | finish (production : String) (position : Nat)
  | cancel (production : String) (position : Nat)
  | token (kind : TokenKind) (range : Span)
  | error (e : ParseError)
  deriving DecidableEq, Repr

namespace Event

/-- The event on a line of its own. -/
def text : Event → String
  | .start name _ => s!"production {name}"
  | .finish name _ => s!"finish {name}"
  | .cancel name _ => s!"cancel {name}"
  | .token kind range => s!"token {kind.name} {range.text}"
  | .error e => s!"error {e.text}"

/-- The bound that closes a production. -/
def close (production : String) (finished : Bool) : Nat → Event :=
  if finished then .finish production else .cancel production

/-- Whether the event reports an error. -/
def isError : Event → Bool
  | .error _ => true
  | _ => false

/-- The error that an event reports. -/
def error? : Event → Option ParseError
  | .error e => some e
  | _ => none

end Event

/-- The errors of a stream, in order. -/
def errorsOf (events : List Event) : List ParseError := events.filterMap Event.error?

end Phrase
