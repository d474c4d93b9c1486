import Phrase.Format.Json

/-!
# YAML

Data is written in block style: a member as its name, a colon and its value, an item behind
a dash, lists at the column of their name and objects two columns further.

A text is written plainly unless something else would be read back: it stands in single
quotes if it would be taken for something else than a text or starts like another part of
the format, in double quotes if it holds characters that do not print, and as a literal
block if it has several lines.
-/

namespace Phrase.Yaml

/-! ## Characters -/

/-- Spaces up to a column. -/
def pad (column : Nat) : List Char := List.replicate column ' '

/-- The characters that end a line. -/
def isBreak (c : Char) : Bool :=
  c = '\n' || c = '\r' || c.toNat = 0x85 || c.toNat = 0x2028 || c.toNat = 0x2029

/-- The characters that print. -/
def isPrintable (c : Char) : Bool :=
  let n := c.toNat
  n = 0x0A || (0x20 ≤ n && n ≤ 0x7E) || (0xA0 ≤ n && n ≤ 0xFFFD && n ≠ 0xFEFF) || 0x10000 ≤ n

/-- Whether a part of the format can end in front of these characters. -/
def endsHere : List Char → Bool
  | [] => true
  | c :: _ => c = ' ' || c = '\t' || isBreak c || c.toNat = 0

/-! ## What plain text would be read as -/

/-- Splits a sign off. -/
def unsigned : List Char → List Char
  | '+' :: cs => cs
  | '-' :: cs => cs
  | cs => cs

/-- A zero with more digits behind it is no number. -/
def isZeroPadded (cs : List Char) : Bool :=
  match unsigned cs with
  | '0' :: c :: cs => (c :: cs).all Char.isDigit
  | _ => false

/-- Whether these are digits of a base and the number is below a limit. -/
def isNumeral (base limit : Nat) (cs : List Char) : Bool :=
  let digit? (c : Char) : Option Nat :=
    if c.isDigit then some (c.toNat - 0x30)
    else if c.isLower then some (c.toNat - 0x61 + 10)
    else if c.isUpper then some (c.toNat - 0x41 + 10)
    else none
  !cs.isEmpty && match cs.mapM (fun c => (digit? c).filter (· < base)) with
    | some ds => ds.foldl (fun n d => n * base + d) 0 < limit
    | none => false

/-- Whole numbers in hexadecimal, octal and binary. -/
def isPrefixedNumber (cs : List Char) : Bool :=
  let (limit, cs) := match cs with
    | '-' :: cs => (Nat.pow 2 127 + 1, cs)
    | '+' :: cs => (Nat.pow 2 128, cs)
    | cs => (Nat.pow 2 128, cs)
  match cs with
  | '0' :: 'x' :: cs => isNumeral 16 limit cs
  | '0' :: 'o' :: cs => isNumeral 8 limit cs
  | '0' :: 'b' :: cs => isNumeral 2 limit cs
  | _ => false

/-- Whether `digits` times ten to the power of `exponent` is a double precision number and
not rounded to infinity. -/
def isFinite (digits : List Char) (exponent : Int) : Bool :=
  let digits := digits.dropWhile (· = '0')
  if digits.isEmpty then true
  else
    let magnitude := digits.length + exponent
    if magnitude < 300 then true
    else if 320 < magnitude then false
    else
      let n := digits.foldl (fun n c => n * 10 + (c.toNat - 0x30)) 0
      let limit := Nat.pow 2 1024 - Nat.pow 2 970
      if 0 ≤ exponent then n * Nat.pow 10 exponent.toNat < limit
      else n < limit * Nat.pow 10 (-exponent).toNat

/-- Decimal numbers, with a fraction and an exponent or without. -/
def isDecimal (cs : List Char) : Bool :=
  let cs := unsigned cs
  let whole := cs.takeWhile Char.isDigit
  let cs := cs.dropWhile Char.isDigit
  let (fraction, cs) := match cs with
    | '.' :: cs => (cs.takeWhile Char.isDigit, cs.dropWhile Char.isDigit)
    | cs => ([], cs)
  let digits := whole ++ fraction
  let shift : Int := fraction.length
  if digits.isEmpty then false
  else
    match cs with
    | [] => isFinite digits (-shift)
    | e :: cs =>
      let exponent := unsigned cs
      if (e = 'e' || e = 'E') && !exponent.isEmpty && exponent.all Char.isDigit then
        let n : Int := exponent.foldl (fun n c => n * 10 + (c.toNat - 0x30)) 0
        isFinite digits ((if cs.head? = some '-' then -n else n) - shift)
      else false

/-- Words that stand for nothing, a truth value, or a number that is not finite. -/
def isWord (s : String) : Bool :=
  ["", "~", "null", "Null", "NULL", "true", "True", "TRUE", "false", "False", "FALSE",
    ".inf", ".Inf", ".INF", "+.inf", "+.Inf", "+.INF", "-.inf", "-.Inf", "-.INF",
    ".nan", ".NaN", ".NAN"].contains s

/-- Whether plain text would be read as something else than a text, or as a number by some
readers. -/
def isOtherData (s : String) : Bool :=
  let cs := s.toList
  isWord s || isZeroPadded cs || isPrefixedNumber cs || isDecimal cs

/-! ## Where plain text cannot be written -/

/-- Whether a first character starts another part of the format. -/
def startsOtherwise : List Char → Bool
  | [] => false
  | c :: cs =>
    "#,[]&*!|>'\"%@\x60\x7b\x7d".toList.contains c ||
      ((c = '?' || c = ':' || c = '-') && endsHere cs)

/-- Whether a colon or a comment would end plain text; `previous` stands in front. -/
def endsEarly (previous : Char) : List Char → Bool
  | [] => false
  | c :: cs =>
    (c = ':' && endsHere cs) || (c = '#' && endsHere [previous]) || endsEarly c cs

/-- Whether the text would be taken for the bound of a document. -/
def isDocumentBound (cs : List Char) : Bool :=
  ['-', '-', '-'].isPrefixOf cs || ['.', '.', '.'].isPrefixOf cs

/-- Whether two characters with these properties follow each other. -/
def follows (first second : Char → Bool) : List Char → Bool
  | c :: d :: cs => (first c && second d) || follows first second (d :: cs)
  | _ => false

/-- Whether the text has a shape that only plain text cannot have. -/
def isAwkward (cs : List Char) : Bool :=
  let edge (c? : Option Char) : Bool := c?.any fun c => c = ' ' || isBreak c
  edge cs.head? || edge cs.getLast? || cs.any isBreak || isDocumentBound cs ||
    startsOtherwise cs || match cs with
      | [] => false
      | c :: cs => endsEarly c cs

/-- Whether only double quotes can hold the text. -/
def isSpecial (cs : List Char) : Bool :=
  cs.any (fun c => !isPrintable c) || follows (· = ' ') isBreak cs

/-! ## Ways to write a text -/

/-- A number in upper case hexadecimal, with zeros in front. -/
def hexDigits (width n : Nat) : List Char :=
  let digits := (Nat.toDigits 16 n).map Char.toUpper
  List.replicate (width - digits.length) '0' ++ digits

/-- A character in double quotes. -/
def escape (c : Char) : List Char :=
  let n := c.toNat
  if c = '"' then ['\\', '"']
  else if c = '\\' then ['\\', '\\']
  else if isPrintable c && !isBreak c then [c]
  else if n = 0x00 then ['\\', '0']
  else if n = 0x07 then ['\\', 'a']
  else if n = 0x08 then ['\\', 'b']
  else if n = 0x09 then ['\\', 't']
  else if n = 0x0A then ['\\', 'n']
  else if n = 0x0B then ['\\', 'v']
  else if n = 0x0C then ['\\', 'f']
  else if n = 0x0D then ['\\', 'r']
  else if n = 0x1B then ['\\', 'e']
  else if n = 0x85 then ['\\', 'N']
  else if n = 0x2028 then ['\\', 'L']
  else if n = 0x2029 then ['\\', 'P']
  else if n ≤ 0xFF then ['\\', 'x'] ++ hexDigits 2 n
  else if n ≤ 0xFFFF then ['\\', 'u'] ++ hexDigits 4 n
  else ['\\', 'U'] ++ hexDigits 8 n

/-- The text in double quotes. -/
def doubleQuoted (cs : List Char) : List Char := '"' :: cs.flatMap escape ++ ['"']

/-- Lines of text, the ones behind a break at a column; `fresh` says whether a break stands
in front. -/
def lines (column : Nat) : Bool → List Char → List Char
  | _, [] => []
  | fresh, c :: cs =>
    if isBreak c then c :: lines column true cs
    else (if fresh then pad column else []) ++ c :: lines column false cs

/-- The inside of single quotes; in front of a first break stands one more. -/
def quotedLines (column : Nat) : Bool → List Char → List Char
  | fresh, [] => if fresh then pad column else []
  | fresh, c :: cs =>
    if isBreak c then (if !fresh && c = '\n' then ['\n'] else []) ++ c :: quotedLines column true cs
    else
      (if fresh && c ≠ ' ' then pad column else []) ++ (if c = '\'' then ['\'', '\''] else [c]) ++
        quotedLines column (fresh && c = ' ') cs

/-- The text in single quotes. -/
def singleQuoted (column : Nat) (cs : List Char) : List Char :=
  '\'' :: quotedLines column false cs ++ ['\'']

/-- The head of a literal block: the indentation, where the text itself starts with space,
and what becomes of the breaks at its end. -/
def literalHead (cs : List Char) : List Char :=
  let hint := if cs.head?.any (fun c => c = ' ' || isBreak c) then ['2'] else []
  let chomp := match cs.reverse with
    | [] => ['-']
    | c :: before =>
      if !isBreak c then ['-']
      else match before with
        | [] => ['+']
        | d :: _ => if isBreak d then ['+'] else []
  '|' :: hint ++ chomp

/-- The text as a literal block, up to the end of its last line. -/
def literal (column : Nat) (cs : List Char) : List Char :=
  literalHead cs ++ '\n' :: lines column true cs ++
    if cs.getLast?.any isBreak then [] else ['\n']

/-- A text up to the end of its line; further lines start at a column. -/
def text (column : Nat) (s : String) : List Char :=
  let cs := s.toList
  let endsBlank := cs.getLast? = some ' '
  let noSingle := isSpecial cs || follows isBreak (· = ' ') cs
  if cs.contains '\n' then
    if isSpecial cs || endsBlank then doubleQuoted cs ++ ['\n'] else literal column cs
  else if !noSingle && !isOtherData s && !isAwkward cs then cs ++ ['\n']
  else if !noSingle then singleQuoted column cs ++ ['\n']
  else doubleQuoted cs ++ ['\n']

/-! ## Data -/

mutual

/-- A value that starts at a column of a line. -/
def valueAt (column : Nat) : Json → List Char
  | .null => "null\n".toList
  | .bool true => "true\n".toList
  | .bool false => "false\n".toList
  | .int n => (toString n).toList ++ ['\n']
  | .raw s => s.toList ++ ['\n']
  | .str s => text column s
  | .arr [] => ['[', ']', '\n']
  | .arr (j :: js) => '-' :: ' ' :: valueAt (column + 2) j ++ itemsAt column js
  | .obj [] => ['\x7b', '\x7d', '\n']
  | .obj ((name, j) :: members) =>
    name.toList ++ ':' :: afterName column j ++ membersAt column members

/-- The items behind the first. -/
def itemsAt (column : Nat) : List Json → List Char
  | [] => []
  | j :: js => pad column ++ '-' :: ' ' :: valueAt (column + 2) j ++ itemsAt column js

/-- The members behind the first. -/
def membersAt (column : Nat) : List (String × Json) → List Char
  | [] => []
  | (name, j) :: members =>
    pad column ++ name.toList ++ ':' :: afterName column j ++ membersAt column members

/-- The value of a name that stands at a column. -/
def afterName (column : Nat) : Json → List Char
  | .arr (j :: js) =>
    '\n' :: pad column ++ '-' :: ' ' :: valueAt (column + 2) j ++ itemsAt column js
  | .obj ((name, j) :: members) =>
    '\n' :: pad (column + 2) ++ name.toList ++ ':' :: afterName (column + 2) j ++
      membersAt (column + 2) members
  | .str s => ' ' :: text (column + 2) s
  | .null => " null\n".toList
  | .bool true => " true\n".toList
  | .bool false => " false\n".toList
  | .int n => ' ' :: (toString n).toList ++ ['\n']
  | .raw s => ' ' :: s.toList ++ ['\n']
  | .arr [] => [' ', '[', ']', '\n']
  | .obj [] => [' ', '\x7b', '\x7d', '\n']

end

end Phrase.Yaml

namespace Phrase

/-- A value as YAML. -/
def Json.yaml (j : Json) : String := String.ofList (Yaml.valueAt 0 j)

end Phrase
