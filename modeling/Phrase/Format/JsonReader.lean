import Phrase.Format.Json

/-!
# Reading JSON

`Json.read?` reads a text that holds one JSON value and nothing else but blanks.  Each reader
takes characters from the front and answers with what is left.
-/

namespace Phrase.Json

/-! ## Blanks -/

/-- The characters that may stand between the parts of a value. -/
def isBlank (c : Char) : Bool := c = ' ' || c = '\n' || c = '\t' || c = '\r'

/-- Drops blanks from the front. -/
def skipBlanks (cs : List Char) : List Char := cs.dropWhile isBlank

/-! ## Strings -/

/-- The value of a hexadecimal digit. -/
def hexDigit? (c : Char) : Option Nat :=
  if '0' ≤ c ∧ c ≤ '9' then some (c.toNat - 0x30)
  else if 'a' ≤ c ∧ c ≤ 'f' then some (c.toNat - 0x61 + 10)
  else if 'A' ≤ c ∧ c ≤ 'F' then some (c.toNat - 0x41 + 10)
  else none

/-- The UTF-16 unit that four hexadecimal digits write. -/
def unit? (a b c d : Char) : Option Nat := do
  return (((← hexDigit? a) * 16 + (← hexDigit? b)) * 16 + (← hexDigit? c)) * 16 + (← hexDigit? d)

/-- The character that a letter behind a backslash stands for. -/
def unescape? (c : Char) : Option Char :=
  match c with
  | '"' => some '"'
  | '\\' => some '\\'
  | '/' => some '/'
  | 'b' => some (Char.ofNat 0x08)
  | 'f' => some (Char.ofNat 0x0C)
  | 'n' => some '\n'
  | 'r' => some '\r'
  | 't' => some '\t'
  | _ => none

/-- Reads the inside of a string and the quote behind it: characters, and UTF-16 units where
these are written by number. -/
def readPieces : List Char → Option (List (Char ⊕ Nat) × List Char)
  | [] => none
  | '"' :: rest => some ([], rest)
  | '\\' :: 'u' :: a :: b :: c :: d :: rest => do
    let u ← unit? a b c d
    let (pieces, rest) ← readPieces rest
    return (.inr u :: pieces, rest)
  | '\\' :: e :: rest => do
    let c ← unescape? e
    let (pieces, rest) ← readPieces rest
    return (.inl c :: pieces, rest)
  | c :: rest =>
    if c.toNat < 0x20 then none
    else do
      let (pieces, rest) ← readPieces rest
      return (.inl c :: pieces, rest)

/-- Joins characters and UTF-16 units; surrogates have to come in pairs. -/
def joinPieces : List (Char ⊕ Nat) → Option (List Char)
  | [] => some []
  | .inl c :: pieces => (joinPieces pieces).map (c :: ·)
  | .inr u :: pieces =>
    if 0xD800 ≤ u ∧ u ≤ 0xDFFF then
      match pieces with
      | .inr w :: pieces =>
        if u ≤ 0xDBFF ∧ 0xDC00 ≤ w ∧ w ≤ 0xDFFF then
          (joinPieces pieces).map
            (Char.ofNat (0x10000 + (u - 0xD800) * 0x400 + (w - 0xDC00)) :: ·)
        else none
      | _ => none
    else (joinPieces pieces).map (Char.ofNat u :: ·)

/-- Reads a string behind its first quote. -/
def readString (cs : List Char) : Option (Json × List Char) := do
  let (pieces, rest) ← readPieces cs
  match joinPieces pieces with
  | some text => return (.str (String.ofList text), rest)
  | none => return (.raw "", rest)

/-- Reads a name behind its first quote; the name is absent if it is no text. -/
def readName (cs : List Char) : Option (Option String × List Char) := do
  match ← readString cs with
  | (.str text, rest) => return (some text, rest)
  | (_, rest) => return (none, rest)

/-! ## Numbers -/

/-- Splits digits off. -/
def readDigits (cs : List Char) : List Char × List Char :=
  (cs.takeWhile Char.isDigit, cs.dropWhile Char.isDigit)

/-- The number that decimal digits write. -/
def ofDigits (cs : List Char) : Nat := cs.foldl (fun n c => n * 10 + (c.toNat - 0x30)) 0

/-- Reads the fraction of a number, if there is one. -/
def readFraction : List Char → Option (List Char × List Char)
  | '.' :: cs =>
    let (digits, rest) := readDigits cs
    if digits.isEmpty then none else some ('.' :: digits, rest)
  | cs => some ([], cs)

/-- Reads the exponent of a number, if there is one. -/
def readExponent : List Char → Option (List Char × List Char)
  | e :: cs =>
    if e = 'e' ∨ e = 'E' then
      let (sign, cs) := match cs with
        | '+' :: cs => (['+'], cs)
        | '-' :: cs => (['-'], cs)
        | cs => ([], cs)
      let (digits, rest) := readDigits cs
      if digits.isEmpty then none else some (e :: sign ++ digits, rest)
    else some ([], e :: cs)
  | [] => some ([], [])

/-- Reads a number. -/
def readNumber (cs : List Char) : Option (Json × List Char) := do
  let (negative, cs) := match cs with
    | '-' :: cs => (true, cs)
    | cs => (false, cs)
  let (digits, rest) := readDigits cs
  if digits.isEmpty ∨ (digits.head? = some '0' ∧ 1 < digits.length) then none
  else
    let (fraction, rest) ← readFraction rest
    let (exponent, rest) ← readExponent rest
    let n := ofDigits digits
    let text := String.ofList ((if negative then ['-'] else []) ++ digits ++ fraction ++ exponent)
    if !fraction.isEmpty || !exponent.isEmpty || (negative && n == 0) then return (.raw text, rest)
    else return (.int (if negative then -n else n), rest)

/-! ## Values -/

/-- The object of some members, if all their names are texts. -/
def ofMembers (members : List (Option String × Json)) : Json :=
  match members.mapM fun (name, j) => name.map (·, j) with
  | some members => .obj members
  | none => .raw ""

mutual

/-- Reads a value that is nested less than `fuel` deep. -/
def readValue : Nat → List Char → Option (Json × List Char)
  | 0, _ => none
  | fuel + 1, cs =>
    match skipBlanks cs with
    | 'n' :: 'u' :: 'l' :: 'l' :: rest => some (.null, rest)
    | 't' :: 'r' :: 'u' :: 'e' :: rest => some (.bool true, rest)
    | 'f' :: 'a' :: 'l' :: 's' :: 'e' :: rest => some (.bool false, rest)
    | '"' :: rest => readString rest
    | '[' :: rest =>
      match skipBlanks rest with
      | ']' :: rest => some (.arr [], rest)
      | rest => do
        let (j, rest) ← readValue fuel rest
        let (js, rest) ← readItems fuel rest
        return (.arr (j :: js), rest)
    | '\x7b' :: rest =>
      match skipBlanks rest with
      | '\x7d' :: rest => some (.obj [], rest)
      | rest => do
        let (m, rest) ← readMember fuel rest
        let (ms, rest) ← readMembers fuel rest
        return (ofMembers (m :: ms), rest)
    | cs => readNumber cs

/-- Reads the items behind the first. -/
def readItems : Nat → List Char → Option (List Json × List Char)
  | 0, _ => none
  | fuel + 1, cs =>
    match skipBlanks cs with
    | ']' :: rest => some ([], rest)
    | ',' :: rest => do
      let (j, rest) ← readValue fuel rest
      let (js, rest) ← readItems fuel rest
      return (j :: js, rest)
    | _ => none

/-- Reads a name with its value. -/
def readMember : Nat → List Char → Option ((Option String × Json) × List Char)
  | 0, _ => none
  | fuel + 1, cs =>
    match skipBlanks cs with
    | '"' :: rest => do
      let (name, rest) ← readName rest
      match skipBlanks rest with
      | ':' :: rest =>
        let (j, rest) ← readValue fuel rest
        return ((name, j), rest)
      | _ => none
    | _ => none

/-- Reads the members behind the first. -/
def readMembers : Nat → List Char → Option (List (Option String × Json) × List Char)
  | 0, _ => none
  | fuel + 1, cs =>
    match skipBlanks cs with
    | '\x7d' :: rest => some ([], rest)
    | ',' :: rest => do
      let (m, rest) ← readMember fuel rest
      let (ms, rest) ← readMembers fuel rest
      return (m :: ms, rest)
    | _ => none

end

/-- The value that a text holds. -/
def read? (text : String) : Option Json :=
  let cs := text.toList
  match readValue (3 * cs.length + 3) cs with
  | some (j, rest) => if (skipBlanks rest).isEmpty then some j else none
  | none => none

end Phrase.Json
