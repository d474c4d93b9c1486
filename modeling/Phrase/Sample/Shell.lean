import Phrase.Grammar
import Phrase.Text.Class

/-!
# Shell scripts

A script is a sequence of commands, each ended by a semicolon, a line break or the end of the
input.  A command is the name of a builtin with arguments, which are words, strings in quotes
and variables.  Line breaks end a command, so inside of one only blanks are whitespace;
blank lines between commands are.
-/

namespace Phrase.Sample.Shell

/-! ## Scripts -/

/-- What a command can be. -/
inductive Builtin where
  | cd
  | echo
  | exit
  | export
  | ls
  | pwd
  deriving DecidableEq, Repr

namespace Builtin

/-- All builtins. -/
def all : List Builtin := [.cd, .echo, .exit, .export, .ls, .pwd]

/-- How a builtin is written. -/
def name : Builtin → String
  | .cd => "cd"
  | .echo => "echo"
  | .exit => "exit"
  | .export => "export"
  | .ls => "ls"
  | .pwd => "pwd"

/-- The builtin with this name. -/
def ofName? (n : String) : Option Builtin := all.find? (·.name == n)

theorem ofName?_name (b : Builtin) : ofName? b.name = some b := by
  cases b <;> rfl

end Builtin

/-- The kinds of arguments. -/
inductive ArgumentKind where
  | word
  /-- What stands between quotes. -/
  | quoted
  /-- What stands behind a dollar sign. -/
  | variable
  deriving DecidableEq, Repr

namespace ArgumentKind

/-- All kinds. -/
def all : List ArgumentKind := [.word, .quoted, .variable]

/-- The name of a kind. -/
def name : ArgumentKind → String
  | .word => "word"
  | .quoted => "quoted"
  | .variable => "variable"

/-- The kind with this name. -/
def ofName? (n : String) : Option ArgumentKind := all.find? (·.name == n)

theorem ofName?_name (k : ArgumentKind) : ofName? k.name = some k := by
  cases k <;> rfl

end ArgumentKind

/-- An argument, and where its text is. -/
structure Argument where
  kind : ArgumentKind
  range : Span
  deriving DecidableEq, Repr

/-- A builtin with its arguments. -/
structure Command where
  builtin : Builtin
  arguments : List Argument
  deriving DecidableEq, Repr

/-! ## Grammar -/

/-- Whether a code point can be part of a word. -/
def isWordPart (v : Nat) : Bool :=
  match CodePoint.toChar? v with
  | some c => !Text.IsWhiteSpace c && !Text.IsControl c && c ∉ ['"', '$', ';']
  | none => false

/-- Whether a code point can be part of a string in quotes. -/
def isStringPart (v : Nat) : Bool :=
  match CodePoint.toChar? v with
  | some c => c ∉ ['"', '\n']
  | none => false

/-- The characters of words. -/
def wordPart : CodePointFilter := .satisfying "word character" isWordPart

/-- The characters of strings. -/
def stringPart : CodePointFilter := .satisfying "string character" isStringPart

/-- The builtins by name. -/
def builtins : SymbolTable Value := .ofEntries (Builtin.all.map fun b => (b.name, .sym b.name))

/-- The number of production `script`. -/
def scriptId : Nat := 0

/-- The number of production `command`. -/
def commandId : Nat := 1

/-- The number of production `arguments`. -/
def argumentsId : Nat := 2

/-- The number of production `quoted`. -/
def quotedId : Nat := 3

/-- The number of production `variable`. -/
def variableId : Nat := 4

/-- The number of production `word`. -/
def wordId : Nat := 5

/-- The commands, up to the end of the input. -/
def script : Production where
  name := "script"
  rule := .seq .scopeWhitespace (.seq (.listOpt (.production commandId)) (.token .eof))
  value := .list false
  whitespace := some (.token (.charClass .space))
  isToken := false

/-- What ends a command. -/
def terminator : Rule :=
  .choice (.token (.literal ";")) (.choice (.token .newline) (.token .eof))

/-- A builtin, its arguments and what ends them. -/
def command : Production where
  name := "command"
  rule := .branch (.symbolIdentifier 0 (.ascii .alpha) (.ascii .alnumUnderscore))
    (.seq (.production argumentsId) terminator)
  value := .callback
  whitespace := some (.token (.charClass .blank))
  isToken := false

/-- Any number of arguments. -/
def arguments : Production where
  name := "arguments"
  rule := .listOpt
    (.choice (.production quotedId) (.choice (.production variableId) (.production wordId)))
  value := .list false
  whitespace := none
  isToken := false

/-- A string in quotes, on one line and without escapes. -/
def quoted : Production where
  name := "quoted"
  rule := .branch (.token (.literal "\""))
    (.seq (.capture (.rule (.listOpt (.token (.codePoint stringPart))) (.custom "string")))
      (.token (.literal "\"")))
  value := .labelled ArgumentKind.quoted.name
  whitespace := none
  isToken := true

/-- A dollar sign and a name. -/
def variableName : Production where
  name := "variable"
  rule := .branch (.token (.literal "$"))
    (.capture (.identifier (.ascii .alphaUnderscore) (.ascii .alnumUnderscore)))
  value := .labelled ArgumentKind.variable.name
  whitespace := none
  isToken := true

/-- Characters of words, at least one. -/
def word : Production where
  name := "word"
  rule := .capture (.identifier (.codePoint wordPart) (.codePoint wordPart))
  value := .labelled ArgumentKind.word.name
  whitespace := none
  isToken := false

/-- The grammar; its root is `script`. -/
def grammar : Grammar where
  productions := #[script, command, arguments, quoted, variableName, word]
  tables := #[builtins]

/-! ## Values -/

/-- The argument with this value. -/
def Argument.ofValue? : Value → Option Argument
  | .tuple [.sym kind, .lexeme range] => do return ⟨← ArgumentKind.ofName? kind, range⟩
  | _ => none

/-- The command with this value. -/
def Command.ofValue? : Value → Option Command
  | .tuple [.sym name, .list arguments] => do
    return ⟨← Builtin.ofName? name, ← arguments.mapM Argument.ofValue?⟩
  | _ => none

/-- The commands in the value of a script. -/
def commands? : Value → Option (List Command)
  | .list commands => commands.mapM Command.ofValue?
  | _ => none

/-! ## Commands as data -/

/-- An argument as data, under the name of its kind. -/
def Argument.toJson (a : Argument) (source : Source) : Except Fault Json := do
  return .obj [(a.kind.name, .str (← source.sliceText a.range))]

/-- A command as data. -/
def Command.toJson (c : Command) (source : Source) : Except Fault Json := do
  return .obj [("args", .arr (← c.arguments.mapM (·.toJson source))),
    ("command", .str c.builtin.name)]

/-- Commands as data. -/
def toJson (commands : List Command) (source : Source) : Except Fault Json :=
  return .arr (← commands.mapM (·.toJson source))

end Phrase.Sample.Shell
