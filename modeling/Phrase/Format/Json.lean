/-!
# JSON values

A value keeps the order of its members, also when a name occurs twice.  Whole numbers are
exact.  A number with a fraction or an exponent and a negative zero are kept raw, as they were
written.  A string with half of a surrogate pair is no text: it is raw with nothing in it, and
so is an object with such a name.

`Json.pretty` writes a value over several lines, two spaces for each level, with empty
lists and objects closed at once.
-/

namespace Phrase

/-- A JSON value. -/
inductive Json where
  | null
  | bool (b : Bool)
  | int (n : Int)
  | raw (text : String)
  | str (s : String)
  | arr (items : List Json)
  | obj (members : List (String × Json))
  deriving Inhabited

namespace Json

/-- A number that counts something. -/
def nat (n : Nat) : Json := .int n

/-! ## Printing -/

/-- Two hexadecimal digits in lower case. -/
def hex2 (n : Nat) : List Char :=
  [Nat.digitChar (n / 16 % 16), Nat.digitChar (n % 16)]

/-- A character inside of a string. -/
def escapeChar (c : Char) : List Char :=
  if c = '"' then ['\\', '"']
  else if c = '\\' then ['\\', '\\']
  else if c.toNat < 0x20 then
    if c.toNat = 0x08 then ['\\', 'b']
    else if c.toNat = 0x09 then ['\\', 't']
    else if c.toNat = 0x0A then ['\\', 'n']
    else if c.toNat = 0x0C then ['\\', 'f']
    else if c.toNat = 0x0D then ['\\', 'r']
    else ['\\', 'u', '0', '0'] ++ hex2 c.toNat
  else [c]

/-- A string in quotes. -/
def quoteChars (s : String) : List Char := '"' :: s.toList.flatMap escapeChar ++ ['"']

/-- The start of a line at this level. -/
def indent (level : Nat) : List Char := '\n' :: List.replicate (2 * level) ' '

mutual

/-- A value whose lines, behind the first, start at this level. -/
def prettyChars (level : Nat) : Json → List Char
  | .null => "null".toList
  | .bool true => "true".toList
  | .bool false => "false".toList
  | .int n => (toString n).toList
  | .raw text => text.toList
  | .str s => quoteChars s
  | .arr [] => ['[', ']']
  | .arr (j :: js) =>
    '[' :: indent (level + 1) ++ prettyChars (level + 1) j ++ prettyItems (level + 1) js ++
      indent level ++ [']']
  | .obj [] => ['\x7b', '\x7d']
  | .obj ((name, j) :: members) =>
    '\x7b' :: indent (level + 1) ++ quoteChars name ++ [':', ' '] ++ prettyChars (level + 1) j ++
      prettyMembers (level + 1) members ++ indent level ++ ['\x7d']

/-- The items behind the first. -/
def prettyItems (level : Nat) : List Json → List Char
  | [] => []
  | j :: js => ',' :: indent level ++ prettyChars level j ++ prettyItems level js

/-- The members behind the first. -/
def prettyMembers (level : Nat) : List (String × Json) → List Char
  | [] => []
  | (name, j) :: members =>
    ',' :: indent level ++ quoteChars name ++ [':', ' '] ++ prettyChars level j ++
      prettyMembers level members

end

/-- A value over several lines. -/
def pretty (j : Json) : String := String.ofList (prettyChars 0 j)

end Json

end Phrase
