/-!
# TOML

`Toml.read?` reads a document of statements, one on a line: an assignment, or the header of
the table that the assignments behind it belong to.  Statements are then put together to one
table; no key may be given twice, and a table may be opened only once.
-/

namespace Phrase

/-- How a table came about, which decides what may be added to it later. -/
inductive TableOrigin where
  /-- Opened by a header of its own. -/
  | header
  /-- Named on the way to another header. -/
  | path
  /-- Named by a dotted key. -/
  | dotted
  /-- Written as a value. -/
  | inline
  deriving DecidableEq, Repr

/-- A value of a document. -/
inductive Toml where
  | str (s : String)
  | int (n : Int)
  | float (x : Float)
  | bool (b : Bool)
  /-- A date or time, as it was written. -/
  | date (text : String)
  | arr (items : List Toml)
  | table (origin : TableOrigin) (entries : List (String × Toml))
  /-- Tables that share a header; the last one comes first. -/
  | tables (reversed : List Toml)
  deriving Inhabited

/-- A line of a document. -/
inductive TomlStatement where
  | assign (key : List String) (value : Toml)
  | open (key : List String)
  | openNext (key : List String)

namespace Toml

/-! ## Characters -/

/-- Blanks inside of a line. -/
def isBlank (c : Char) : Bool := c = ' ' || c = '\t'

/-- Drops blanks from the front. -/
def skipBlanks (cs : List Char) : List Char := cs.dropWhile isBlank

/-- The characters that may stand in comments and strings as they are. -/
def isPlain (c : Char) : Bool := c = '\t' || (0x20 ≤ c.toNat && c.toNat ≠ 0x7F)

/-- The characters of keys without quotes. -/
def isBare (c : Char) : Bool := c.isAlphanum || c = '_' || c = '-'

/-- Drops a comment, which ends with the line. -/
def skipComment : List Char → List Char
  | '#' :: cs => cs.dropWhile isPlain
  | cs => cs

/-- Takes a line break. -/
def lineBreak? : List Char → Option (List Char)
  | '\n' :: cs => some cs
  | '\r' :: '\n' :: cs => some cs
  | _ => none

/-- Drops blanks and line breaks. -/
def skipBreaks : List Char → List Char
  | '\r' :: '\n' :: cs => skipBreaks cs
  | c :: cs => if isBlank c || c = '\n' then skipBreaks cs else c :: cs
  | [] => []

/-- Drops blanks, comments and line breaks; `fuel` bounds the number of lines. -/
def skipLines : Nat → List Char → List Char
  | 0, cs => cs
  | fuel + 1, cs =>
    let cs := skipComment (skipBlanks cs)
    match lineBreak? cs with
    | some rest => skipLines fuel rest
    | none => cs

/-! ## Numbers -/

/-- The value of a digit of a base. -/
def digit? (base : Nat) (c : Char) : Option Nat :=
  let n :=
    if c.isDigit then some (c.toNat - 0x30)
    else if 'a' ≤ c ∧ c ≤ 'f' then some (c.toNat - 0x61 + 10)
    else if 'A' ≤ c ∧ c ≤ 'F' then some (c.toNat - 0x41 + 10)
    else none
  n.filter (· < base)

/-- Digits with single underscores between them. -/
def digits? (base : Nat) : List Char → Option (List Nat)
  | [] => none
  | [c] => (digit? base c).map ([·])
  | c :: '_' :: cs => do return (← digit? base c) :: (← digits? base cs)
  | c :: cs => do return (← digit? base c) :: (← digits? base cs)

/-- The number that digits of a base write. -/
def ofDigits (base : Nat) (ds : List Nat) : Nat := ds.foldl (fun n d => n * base + d) 0

/-- Splits a sign off, and says whether it is a minus. -/
def sign : List Char → Bool × List Char
  | '-' :: cs => (true, cs)
  | '+' :: cs => (false, cs)
  | cs => (false, cs)

/-- A whole number, which fits 64 bits. -/
def integer? (cs : List Char) : Option Toml := do
  let n : Int ← match cs with
    | '0' :: 'x' :: cs => (digits? 16 cs).map fun ds => (ofDigits 16 ds : Int)
    | '0' :: 'o' :: cs => (digits? 8 cs).map fun ds => (ofDigits 8 ds : Int)
    | '0' :: 'b' :: cs => (digits? 2 cs).map fun ds => (ofDigits 2 ds : Int)
    | cs =>
      let (negative, cs) := sign cs
      match cs with
      | '0' :: _ :: _ => none
      | cs => (digits? 10 cs).map fun ds => if negative then -(ofDigits 10 ds) else ofDigits 10 ds
  if -0x8000000000000000 ≤ n ∧ n < 0x8000000000000000 then return .int n else none

/-- A number with a fraction or an exponent, or one that is not finite. -/
def float? (cs : List Char) : Option Toml := do
  let (negative, cs) := sign cs
  let signed (x : Float) : Toml := .float (if negative then -x else x)
  if cs = ['i', 'n', 'f'] then return signed (1.0 / 0.0)
  if cs = ['n', 'a', 'n'] then return signed (0.0 / 0.0)
  let isMark (c : Char) : Bool := c = '.' || c = 'e' || c = 'E'
  let isExponent (c : Char) : Bool := c = 'e' || c = 'E'
  let whole := cs.takeWhile fun c => !isMark c
  let rest := cs.dropWhile fun c => !isMark c
  if rest.isEmpty then none
  if whole.head? = some '0' ∧ 1 < whole.length then none
  let whole ← digits? 10 whole
  let (fraction, rest) ← match rest with
    | '.' :: rest =>
      (digits? 10 (rest.takeWhile fun c => !isExponent c)).map
        (·, rest.dropWhile fun c => !isExponent c)
    | rest => some ([], rest)
  let exponent : Int ← match rest with
    | [] => some 0
    | _ :: rest =>
      let (negative, rest) := sign rest
      (digits? 10 rest).map fun ds => if negative then -(ofDigits 10 ds) else ofDigits 10 ds
  let mantissa := ofDigits 10 (whole ++ fraction)
  let shift := exponent - fraction.length
  let x := if mantissa = 0 ∨ shift < -100000 then 0.0
    else if 100000 < shift then 1.0 / 0.0
    else Float.ofScientific mantissa (shift < 0) shift.natAbs
  if x.isInf && !negative then none else return signed x

/-! ## Dates and times -/

/-- Takes `count` decimal digits. -/
def fixed? (count : Nat) (cs : List Char) : Option (Nat × List Char) :=
  let ds := cs.take count
  if ds.length = count ∧ ds.all Char.isDigit then
    some (ofDigits 10 (ds.map fun c => c.toNat - 0x30), cs.drop count)
  else none

/-- Takes this character. -/
def exactly? (c : Char) : List Char → Option (List Char)
  | d :: cs => if d = c then some cs else none
  | [] => none

/-- The number of days in a month. -/
def daysIn (year month : Nat) : Nat :=
  if month = 2 then
    if year % 4 = 0 ∧ (year % 100 ≠ 0 ∨ year % 400 = 0) then 29 else 28
  else if month ∈ [4, 6, 9, 11] then 30
  else 31

/-- Takes a date. -/
def takeDate (cs : List Char) : Option (List Char) := do
  let (year, cs) ← fixed? 4 cs
  let (month, cs) ← fixed? 2 (← exactly? '-' cs)
  let (day, cs) ← fixed? 2 (← exactly? '-' cs)
  if 1 ≤ month ∧ month ≤ 12 ∧ 1 ≤ day ∧ day ≤ daysIn year month then return cs else none

/-- Takes a time of day. -/
def takeTime (cs : List Char) : Option (List Char) := do
  let (hour, cs) ← fixed? 2 cs
  let (minute, cs) ← fixed? 2 (← exactly? ':' cs)
  let (second, cs) ← fixed? 2 (← exactly? ':' cs)
  if 23 < hour ∨ 59 < minute ∨ 60 < second then none
  match cs with
  | '.' :: c :: cs => if c.isDigit then return cs.dropWhile Char.isDigit else none
  | '.' :: _ => none
  | cs => return cs

/-- Takes the distance to universal time, if it is there. -/
def takeOffset (cs : List Char) : Option (List Char) :=
  match cs with
  | 'Z' :: cs | 'z' :: cs => some cs
  | c :: rest =>
    if c = '+' ∨ c = '-' then do
      let (hour, rest) ← fixed? 2 rest
      let (minute, rest) ← fixed? 2 (← exactly? ':' rest)
      if 23 < hour ∨ 59 < minute then none else return rest
    else some cs
  | [] => some []

/-- Takes a date, a time, or both. -/
def takeDateTime (cs : List Char) : Option (List Char) :=
  match takeDate cs with
  | none => takeTime cs
  | some rest =>
    match rest with
    | c :: more =>
      if c = 'T' ∨ c = 't' then (takeTime more).bind takeOffset
      else if c = ' ' then
        match more.head? with
        | some d => if d.isDigit then (takeTime more).bind takeOffset else some rest
        | none => some rest
      else some rest
    | [] => some rest

/-- Whether a date or a time starts here. -/
def startsDate (cs : List Char) : Bool :=
  let digits := (cs.takeWhile Char.isDigit).length
  let behind := (cs.dropWhile Char.isDigit).head?
  (digits = 4 && behind = some '-') || (digits = 2 && behind = some ':')

/-! ## Strings -/

/-- The character with a number of hexadecimal digits, and what is behind it. -/
def numbered? (count : Nat) (cs : List Char) : Option (Char × List Char) := do
  let ds := cs.take count
  if ds.length ≠ count then none
  let ds ← ds.mapM (digit? 16)
  let n := ofDigits 16 ds
  if n.isValidChar then return (Char.ofNat n, cs.drop count) else none

/-- The character that is written behind a backslash, and what is behind it. -/
def escaped? : List Char → Option (Char × List Char)
  | 'b' :: cs => some (Char.ofNat 0x08, cs)
  | 't' :: cs => some ('\t', cs)
  | 'n' :: cs => some ('\n', cs)
  | 'f' :: cs => some (Char.ofNat 0x0C, cs)
  | 'r' :: cs => some ('\r', cs)
  | '"' :: cs => some ('"', cs)
  | '\\' :: cs => some ('\\', cs)
  | 'u' :: cs => numbered? 4 cs
  | 'U' :: cs => numbered? 8 cs
  | _ => none

/-- A string on one line, behind its first quote. -/
def basic? : Nat → List Char → Option (List Char × List Char)
  | 0, _ => none
  | _ + 1, [] => none
  | fuel + 1, c :: cs =>
    if c = '"' then some ([], cs)
    else if c = '\\' then do
      let (d, cs) ← escaped? cs
      let (ds, cs) ← basic? fuel cs
      return (d :: ds, cs)
    else if isPlain c then do
      let (ds, cs) ← basic? fuel cs
      return (c :: ds, cs)
    else none

/-- A string without escapes on one line, behind its first quote. -/
def verbatim? (cs : List Char) : Option (List Char × List Char) :=
  let text := cs.takeWhile fun c => isPlain c && c ≠ '\''
  match cs.dropWhile fun c => isPlain c && c ≠ '\'' with
  | '\'' :: rest => some (text, rest)
  | _ => none

/-- The end of a string over several lines: three quotes, with up to two more in front that
belong to the text. -/
def closing? (quote : Char) (cs : List Char) : Option (List Char × List Char) :=
  let count := (cs.takeWhile (· = quote)).length
  if 3 ≤ count then
    let inside := min (count - 3) 2
    some (List.replicate inside quote, cs.drop (inside + 3))
  else none

/-- A string over several lines, behind its first quotes.  A backslash at the end of a line
drops the blanks and the breaks up to the next text. -/
def multiline? (escapes : Bool) (quote : Char) : Nat → List Char → Option (List Char × List Char)
  | 0, _ => none
  | fuel + 1, cs =>
    match closing? quote cs with
    | some found => some found
    | none =>
      match cs with
      | [] => none
      | c :: rest =>
        if c = '\\' && escapes then
          match lineBreak? (skipBlanks rest) with
          | some rest => multiline? escapes quote fuel (skipBreaks rest)
          | none => do
            let (d, rest) ← escaped? rest
            let (ds, rest) ← multiline? escapes quote fuel rest
            return (d :: ds, rest)
        else
          match lineBreak? cs with
          | some rest => do
            let (ds, rest) ← multiline? escapes quote fuel rest
            return ('\n' :: ds, rest)
          | none =>
            if isPlain c then do
              let (ds, rest) ← multiline? escapes quote fuel rest
              return (c :: ds, rest)
            else none

/-- A string behind its first quotes, where a first line break is dropped. -/
def paragraph? (escapes : Bool) (quote : Char) (cs : List Char) :
    Option (List Char × List Char) :=
  let cs := (lineBreak? cs).getD cs
  multiline? escapes quote (cs.length + 1) cs

/-! ## Keys -/

/-- One part of a key. -/
def keyPart? (cs : List Char) : Option (String × List Char) := do
  match cs with
  | '"' :: cs =>
    let (text, cs) ← basic? (cs.length + 1) cs
    return (String.ofList text, cs)
  | '\'' :: cs =>
    let (text, cs) ← verbatim? cs
    return (String.ofList text, cs)
  | cs =>
    let text := cs.takeWhile isBare
    if text.isEmpty then none else return (String.ofList text, cs.dropWhile isBare)

/-- The deepest nesting of arrays and tables in a value, and of tables by one key. -/
def maxDepth : Nat := 79

/-- A key with dots between its at most `fuel` parts, and the blanks behind it. -/
def keyWithin? : Nat → List Char → Option (List String × List Char)
  | 0, _ => none
  | fuel + 1, cs => do
    let (part, cs) ← keyPart? (skipBlanks cs)
    match skipBlanks cs with
    | '.' :: cs =>
      let (parts, cs) ← keyWithin? fuel cs
      return (part :: parts, cs)
    | cs => return ([part], cs)

/-- A key with dots between its parts, and the blanks behind it. -/
def key? (cs : List Char) : Option (List String × List Char) := keyWithin? maxDepth cs

/-! ## Tables -/

/-- The entry of a key. -/
def find? (key : String) (entries : List (String × Toml)) : Option Toml := entries.lookup key

/-- Gives a key a value, in its place if it has one already. -/
def put (key : String) (v : Toml) : List (String × Toml) → List (String × Toml)
  | [] => [(key, v)]
  | (k, w) :: entries => if k = key then (k, v) :: entries else (k, w) :: put key v entries

/-- Changes the table at the end of a path.  Tables that are missing on the way are made.
Dotted keys cannot go through tables that a header has opened. -/
def atPath (dotted : Bool) (change : Toml → Option Toml) : List String → Toml → Option Toml
  | [], t => change t
  | k :: ks, .table origin entries =>
    match find? k entries with
    | none => do
      let t ← atPath dotted change ks (.table (if dotted then .dotted else .path) [])
      return .table origin (put k t entries)
    | some (.table inner es) =>
      if inner = .inline ∨ (dotted ∧ inner = .header) then none
      else do
        let t ← atPath dotted change ks (.table inner es)
        return .table origin (put k t entries)
    | some (.tables (last :: before)) => do
      let t ← atPath dotted change ks last
      return .table origin (put k (.tables (t :: before)) entries)
    | some _ => none
  | _ :: _, _ => none

/-- Gives the last part of a key a value, which it must not have yet. -/
def addLast (viaDots : Bool) (key : String) (v : Toml) : Toml → Option Toml
  | .table origin entries =>
    if (origin = .dotted) = viaDots ∧ (find? key entries).isNone then
      some (.table origin (put key v entries))
    else none
  | _ => none

/-- Adds an assignment to a table. -/
def assign (key : List String) (v : Toml) (t : Toml) : Option Toml :=
  match key.getLast? with
  | none => none
  | some last =>
    atPath true (addLast (1 < key.length) last v) key.dropLast t

/-- Opens a table. -/
def openTable (key : List String) (t : Toml) : Option Toml :=
  match key.getLast? with
  | none => none
  | some last =>
    atPath false (fun
      | .table origin entries =>
        match find? last entries with
        | none => some (.table origin (put last (.table .header []) entries))
        | some (.table .path es) =>
          some (.table origin (entries.filter (·.1 ≠ last) ++ [(last, .table .header es)]))
        | some _ => none
      | _ => none) key.dropLast t

/-- Opens another one of the tables that share a header. -/
def openNext (key : List String) (t : Toml) : Option Toml :=
  match key.getLast? with
  | none => none
  | some last =>
    atPath false (fun
      | .table origin entries =>
        match find? last entries with
        | none => some (.table origin (put last (.tables [.table .header []]) entries))
        | some (.tables ts) =>
          some (.table origin (put last (.tables (.table .header [] :: ts)) entries))
        | some _ => none
      | _ => none) key.dropLast t

/-! ## Values -/

/-- The characters of a number. -/
def isNumberChar (c : Char) : Bool := c.isAlphanum || c = '_' || c = '+' || c = '-' || c = '.'

/-- A number, a date or a time. -/
def number? (cs : List Char) : Option (Toml × List Char) :=
  if startsDate cs then do
    let rest ← takeDateTime cs
    return (.date (String.ofList (cs.take (cs.length - rest.length))), rest)
  else do
    let text := cs.takeWhile isNumberChar
    let v ← (integer? text).or (float? text)
    return (v, cs.dropWhile isNumberChar)

mutual

/-- Reads a value; arrays and tables may be nested `depth` deep in it. -/
def value? : Nat → Nat → List Char → Option (Toml × List Char)
  | 0, _, _ => none
  | fuel + 1, depth, cs => do
    match cs with
    | '"' :: '"' :: '"' :: cs =>
      let (text, cs) ← paragraph? true '"' cs
      return (.str (String.ofList text), cs)
    | '"' :: cs =>
      let (text, cs) ← basic? (cs.length + 1) cs
      return (.str (String.ofList text), cs)
    | '\'' :: '\'' :: '\'' :: cs =>
      let (text, cs) ← paragraph? false '\'' cs
      return (.str (String.ofList text), cs)
    | '\'' :: cs =>
      let (text, cs) ← verbatim? cs
      return (.str (String.ofList text), cs)
    | 't' :: 'r' :: 'u' :: 'e' :: cs => return (.bool true, cs)
    | 'f' :: 'a' :: 'l' :: 's' :: 'e' :: cs => return (.bool false, cs)
    | '[' :: cs =>
      if depth = 0 then none
      let (items, cs) ← items? fuel (depth - 1) cs
      return (.arr items, cs)
    | '\x7b' :: cs =>
      if depth = 0 then none
      match skipBlanks cs with
      | '\x7d' :: cs => return (.table .inline [], cs)
      | cs =>
        let (t, cs) ← entries? fuel (depth - 1) (.table .inline []) cs
        return (t, cs)
    | cs => number? cs

/-- Reads the items of an array up to its end. -/
def items? : Nat → Nat → List Char → Option (List Toml × List Char)
  | 0, _, _ => none
  | fuel + 1, depth, cs => do
    match skipLines (cs.length + 1) cs with
    | ']' :: cs => return ([], cs)
    | cs =>
      let (v, cs) ← value? fuel depth cs
      match skipLines (cs.length + 1) cs with
      | ']' :: cs => return ([v], cs)
      | ',' :: cs =>
        let (vs, cs) ← items? fuel depth cs
        return (v :: vs, cs)
      | _ => none

/-- Reads the entries of a table up to its end. -/
def entries? : Nat → Nat → Toml → List Char → Option (Toml × List Char)
  | 0, _, _, _ => none
  | fuel + 1, depth, t, cs => do
    let (key, cs) ← key? cs
    let cs ← exactly? '=' cs
    let (v, cs) ← value? fuel depth (skipBlanks cs)
    let t ← assign key v t
    match skipBlanks cs with
    | '\x7d' :: cs => return (t, cs)
    | ',' :: cs => entries? fuel depth t cs
    | _ => none

end

/-! ## Documents -/

/-- Reads a statement. -/
def statement? (cs : List Char) : Option (TomlStatement × List Char) := do
  match cs with
  | '[' :: '[' :: cs =>
    let (key, cs) ← key? cs
    let cs ← exactly? ']' (← exactly? ']' cs)
    return (.openNext key, cs)
  | '[' :: cs =>
    let (key, cs) ← key? cs
    let cs ← exactly? ']' cs
    return (.open key, cs)
  | cs =>
    let (key, cs) ← key? cs
    let cs ← exactly? '=' cs
    let (v, cs) ← value? (2 * cs.length + 2) maxDepth (skipBlanks cs)
    return (.assign key v, cs)

/-- Reads statements to the end of the document. -/
def statements? : Nat → List Char → Option (List TomlStatement)
  | 0, _ => none
  | fuel + 1, cs => do
    match skipLines (cs.length + 1) cs with
    | [] => return []
    | cs =>
      let (s, cs) ← statement? cs
      match skipComment (skipBlanks cs) with
      | [] => return [s]
      | cs =>
        let cs ← lineBreak? cs
        return s :: (← statements? fuel cs)

/-- Puts statements together, below the header that is open. -/
def build? : List String → List TomlStatement → Toml → Option Toml
  | _, [], t => some t
  | header, .assign key v :: rest, t => do
    build? header rest (← atPath false (assign key v) header t)
  | _, .open key :: rest, t => do build? key rest (← openTable key t)
  | _, .openNext key :: rest, t => do build? key rest (← openNext key t)

/-- The key that marks a table as a stand-in for a date, where it comes first. -/
def dateKey : String := "$__toml_private_datetime"

mutual

/-- Puts dates in the place of tables that stand for them; absent if one stands for something
that is no date. -/
def resolve? : Toml → Option Toml
  | .arr items => (resolveItems? items).map .arr
  | .tables reversed => (resolveItems? reversed).map .tables
  | .table origin entries =>
    match entries with
    | (k, v) :: es =>
      if k = dateKey then
        match v with
        | .str s => if takeDateTime s.toList = some [] then some (.date s) else none
        | _ => none
      else do return .table origin ((k, ← resolve? v) :: (← resolveEntries? es))
    | [] => some (.table origin [])
  | v => some v

/-- Puts dates in the place of tables in a list. -/
def resolveItems? : List Toml → Option (List Toml)
  | [] => some []
  | v :: vs => do return (← resolve? v) :: (← resolveItems? vs)

/-- Puts dates in the place of tables among entries. -/
def resolveEntries? : List (String × Toml) → Option (List (String × Toml))
  | [] => some []
  | (k, v) :: es => do return (k, ← resolve? v) :: (← resolveEntries? es)

end

/-- The characters behind a byte order mark, which may stand in front. -/
def skipMark : List Char → List Char
  | '\uFEFF' :: cs => cs
  | cs => cs

/-- The entries of the table that a document holds. -/
def read? (text : String) : Option (List (String × Toml)) := do
  let cs := skipMark text.toList
  let statements ← statements? (cs.length + 1) cs
  match ← resolve? (← build? [] statements (.table .header [])) with
  | .table _ entries => return entries
  | _ => none

end Toml

end Phrase
