import Phrase.Rule.Basic

/-!
# Matching tokens

A token that does not match says how far it read; those units become an error token.
`Token.matchUnits?` covers the tokens that need nothing but the units; a rule used as a token
is up to the interpreter.
-/

namespace Phrase

/-- Why a token did not match. -/
structure TokenFailure where
  /-- How far the token read. -/
  stop : Nat
  kind : ErrorKind
  range : Span

/-- A failure that read nothing. -/
def TokenFailure.at (position : Nat) (kind : ErrorKind) : TokenFailure :=
  ⟨position, kind, ⟨position, position⟩⟩

/-- Where a token ends, or why it does not match. -/
abbrev TokenMatch := Except TokenFailure Nat

/-! ## Algorithm -/

/-- The length of the longest common start. -/
def commonLength : List Nat → List Nat → Nat
  | u :: us, v :: vs => if u = v then commonLength us vs + 1 else 0
  | _, _ => 0

/-- Compares characters with units, one unit at a time: whether all characters are there, and
how many units agree. -/
def compareChars (e : Encoding) : List Char → List Nat → Bool × Nat
  | [], _ => (true, 0)
  | c :: cs, units =>
    match e.units? c.toNat with
    | none => (false, 0)
    | some us =>
      let n := commonLength us units
      if n = us.length then
        let (all, m) := compareChars e cs (units.drop n)
        (all, n + m)
      else (false, n)

namespace Cursor

/-- Moves on while `next` says where, `fuel` times at most. -/
def passWhile (next : Cursor → Option Nat) : Nat → Cursor → Except Fault Cursor
  | 0, c => .ok c
  | fuel + 1, c =>
    match next c with
    | some stop => (c.moveTo stop).bind (passWhile next fuel)
    | none => .ok c

/-- Moves on while `next` says where. -/
def passAll (next : Cursor → Option Nat) (c : Cursor) : Except Fault Cursor :=
  c.passWhile next (c.stop - c.position)

end Cursor

/-- Matches a text. -/
def matchLiteral (text : String) (c : Cursor) : TokenMatch :=
  let e := c.source.encoding
  let (all, n) := compareChars e text.toList (c.ahead (text.toList.length * e.maxUnits))
  let stop := c.position + n
  if all then .ok stop else .error ⟨stop, .expectedLiteral text n, ⟨c.position, stop⟩⟩

/-- Matches a code point.  Malformed units are passed over and reported as such. -/
def matchCodePoint (f : CodePointFilter) (c : Cursor) : Except Fault TokenMatch :=
  let d := c.decode
  match d.status with
  | .success =>
    let stop := c.position + d.length
    .ok <| if f.accepts d.value then .ok stop
      else .error ⟨stop, .expectedCharClass f.name, ⟨c.position, stop⟩⟩
  | .eof => .ok <| .error <| .at c.position (.expectedCharClass c.source.encoding.codePointClass)
  | status => do
    let skipped ← c.recover d
    return .error ⟨skipped.position, .invalidCodePoint status, ⟨c.position, skipped.position⟩⟩

/-- Matches an identifier. -/
def matchIdentifier (leading trailing : CharClass) (c : Cursor) : Except Fault TokenMatch :=
  match leading.matchOne c with
  | none => .ok <| .error <| .at c.position (.expectedCharClass leading.name)
  | some stop => do
    let first ← c.moveTo stop
    let last ← first.passAll trailing.matchOne
    return .ok last.position

/-- Matches digits. -/
def matchDigits (radix : Radix) (c : Cursor) : Except Fault TokenMatch := do
  let last ← c.passAll radix.matchOne
  return if last.position = c.position then
    .error <| .at c.position (.expectedCharClass radix.className)
  else .ok last.position

/-- Matches the end of the input. -/
def matchEof (c : Cursor) : TokenMatch :=
  if c.isAtEnd then .ok c.position else .error <| .at c.position (.expectedCharClass "EOF")

/-- Matches a line break. -/
def matchNewline (c : Cursor) : TokenMatch :=
  match c.peekAt 0, c.peekAt 1 with
  | some 10, _ => .ok (c.position + 1)
  | some 13, some 10 => .ok (c.position + 2)
  | _, _ => .error <| .at c.position (.expectedCharClass "newline")

/-- Matches one character of a class. -/
def matchClass (k : AsciiClass) (c : Cursor) : TokenMatch :=
  match k.matchOne c with
  | some stop => .ok stop
  | none => .error <| .at c.position (.expectedCharClass k.name)

/-- Matches a token that is not made of a rule. -/
def Token.matchUnits? (t : Token) (c : Cursor) : Except Fault (Option TokenMatch) :=
  match t with
  | .literal text => .ok (matchLiteral text c)
  | .charClass k => .ok (matchClass k c)
  | .codePoint f => (matchCodePoint f c).map some
  | .identifier leading trailing => (matchIdentifier leading trailing c).map some
  | .digits radix => (matchDigits radix c).map some
  | .eof => .ok (matchEof c)
  | .newline => .ok (matchNewline c)
  | .rule _ _ => .ok none

end Phrase
