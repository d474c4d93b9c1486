import Phrase.Event
import Phrase.Rule.Number
import Phrase.Value.Kind

/-!
# Rules

A rule says what to parse.  Rules are data: tokens, which match units and have a class, and
the ways to combine rules.  Productions and symbol tables are referred to by number.

Some rules are branches: whether they apply can be found out without committing to them.
Every rule outputs a fixed number of values, as long as the rules inside of it fit together
(`Rule.fits`).
-/

namespace Phrase

mutual

/-- What matches units and makes one token of them. -/
inductive Token where
  /-- These characters. -/
  | literal (text : String)
  /-- One character of an ASCII class. -/
  | charClass (c : AsciiClass)
  /-- One code point that passes a filter. -/
  | codePoint (f : CodePointFilter)
  /-- One leading character, then trailing ones as long as there are any. -/
  | identifier (leading trailing : CharClass)
  /-- Digits, at least one. -/
  | digits (radix : Radix)
  /-- The end of the input. -/
  | eof
  /-- A line feed, or a carriage return and a line feed. -/
  | newline
  /-- All that a rule matches, as one token. -/
  | rule (r : Rule) (kind : TokenKind)

/-- What to parse. -/
inductive Rule where
  | token (t : Token)
  /-- Digits, as a number of a type. -/
  | integer (type : IntegerType) (radix : Radix)
  /-- A token whose span is output. -/
  | capture (t : Token)
  /-- The position, marked by an empty token. -/
  | position
  /-- The longest key of a table. -/
  | symbol (table : Nat)
  /-- A token that is a key of a table. -/
  | symbolOf (table : Nat) (t : Token)
  /-- The longest key of a table that is not continued as an identifier. -/
  | symbolIdentifier (table : Nat) (leading trailing : CharClass)
  /-- One after the other. -/
  | seq (first second : Rule)
  /-- The condition decides, then the rest follows in any case. -/
  | branch (condition rest : Rule)
  /-- The first alternative that applies; both output equally many values. -/
  | choice (first second : Rule)
  /-- A branch without outputs, if it applies. -/
  | opt (r : Rule)
  /-- An item and then more as long as they apply. -/
  | list (item : Rule)
  /-- Items as long as they apply. -/
  | listOpt (item : Rule)
  /-- Items with separators between them. -/
  | listSep (item separator : Rule)
  /-- Items with separators between them, and perhaps one behind the last. -/
  | listTrailing (item separator : Rule)
  /-- This many items. -/
  | times (count : Nat) (item : Rule)
  /-- A production of the grammar. -/
  | production (number : Nat)
  /-- A production that may be the one around it. -/
  | recurse (number : Nat)
  /-- A rule whose failure ends here: its outputs are replaced by defaults. -/
  | recover (r : Rule)
  /-- Skips the whitespace of the scope. -/
  | scopeWhitespace
  /-- Skips a branch as whitespace. -/
  | whitespace (r : Rule)
  /-- Skips no whitespace inside, but once behind. -/
  | noWhitespace (r : Rule)
  /-- Whitespace that there is none of: never applies. -/
  | never
  /-- Reports a message and fails. -/
  | fail (message : String)
  /-- Reports a message. -/
  | warn (message : String)
  /-- Outputs where in the grammar it is parsed. -/
  | context
  /-- Makes a token of some units, at most `width`. -/
  | emit (kind : TokenKind) (width : Nat)

end

instance : Inhabited Rule := ⟨.never⟩

namespace Token

/-- The class of a token. -/
def kind : Token → TokenKind
  | .literal _ => .literal
  | .charClass _ => .charClass
  | .codePoint _ => .codePoint
  | .identifier _ _ => .identifier
  | .digits _ => .digits
  | .eof => .eof
  | .newline => .newline
  | .rule _ kind => kind

end Token

namespace Rule

/-- The number of values that a rule outputs. -/
def arity : Rule → Nat
  | .integer _ _ | .capture _ | .position | .symbol _ | .symbolOf _ _ | .symbolIdentifier _ _ _
  | .list _ | .listOpt _ | .listSep _ _ | .listTrailing _ _ | .times _ _ | .production _
  | .recurse _ | .context => 1
  | .seq a b | .branch a b => a.arity + b.arity
  | .choice a _ => a.arity
  | .recover r | .noWhitespace r => r.arity
  | .token _ | .opt _ | .scopeWhitespace | .whitespace _ | .never | .fail _ | .warn _
  | .emit _ _ => 0

/-- Whether the rules right inside of a rule output as many values as it takes: an optional branch
outputs none, and one alternative of a choice as many as the other. -/
def fits : Rule → Bool
  | .opt r => r.arity == 0
  | .choice a b => a.arity == b.arity
  | _ => true

mutual

/-- The number of constructors of a token. -/
def tokenSize : Token → Nat
  | .rule r _ => r.size + 1
  | _ => 1

/-- The number of constructors of a rule. -/
def size : Rule → Nat
  | .token t | .capture t | .symbolOf _ t => tokenSize t + 1
  | .seq a b | .branch a b | .choice a b | .listSep a b | .listTrailing a b =>
    a.size + b.size + 1
  | .opt r | .list r | .listOpt r | .times _ r | .recover r | .whitespace r
  | .noWhitespace r => r.size + 1
  | _ => 1

end

end Rule

namespace Rule

/-- The rules right inside of a rule, those of its tokens apart. -/
def parts : Rule → List Rule
  | .seq a b | .branch a b | .choice a b | .listSep a b | .listTrailing a b => [a, b]
  | .opt r | .list r | .listOpt r | .times _ r | .recover r | .whitespace r
  | .noWhitespace r => [r]
  | _ => []

/-- The rule inside of what changes neither whether it applies nor what it outputs. -/
def unwrapped : Rule → Rule
  | .recover r | .noWhitespace r => r.unwrapped
  | r => r

end Rule

/-! ## Productions -/

/-- A named rule with the value it builds and the whitespace inside of it. -/
structure Production where
  name : String
  rule : Rule
  value : ValueKind
  /-- What is skipped inside; if absent, what is skipped around it. -/
  whitespace : Option Rule
  /-- Inside of a token nothing is skipped by itself. -/
  isToken : Bool
  deriving Inhabited

end Phrase
