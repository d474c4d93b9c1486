import Phrase.CommandLine.Arguments

/-!
# Help page

The page lists all parameters, each on a line of its own, with what they are for in a column
behind the longest of them.
-/

namespace Phrase.CommandLine

/-- The name of the program. -/
def programName : String := "lexkit"

/-- The version of the program. -/
def programVersion : String := "0.1.0"

/-- What the program does. -/
def summary : String := "Runs the lexkit demo grammars over a file"

namespace Parameter

/-- What a parameter is for. -/
def purpose : Parameter → String
  | .grammar => "Grammar to run (see --list-grammars)"
  | .path => "Input file, or '-' for stdin"
  | .mode => "What to produce: validation errors, the parsed value or the parse tree"
  | .format => "Output format (default from config: treeviz)"
  | .encoding => "Encoding of the input; UTF-16 and UTF-32 are read little-endian"
  | .config => "TOML file layered over the built-in defaults"
  | .maxDepth => "Deepest allowed production nesting, 0 for no limit"
  | .hideWhitespace => "Leave whitespace tokens out of treeviz output"
  | .listGrammars => "List the built-in grammars"
  | .help => "Print help"
  | .version => "Print version"

/-- The value of a parameter that is not given, if it is always the same. -/
def default? : Parameter → Option String
  | .mode => some "validate"
  | _ => none

/-- The values of a parameter, if there are only a few. -/
def choices : Parameter → List String
  | .grammar => Sample.named.map (·.1)
  | .mode => Mode.named.map (·.1)
  | .format => OutputFormat.named.map (·.1)
  | .encoding => Encoding.all.map Encoding.tag
  | _ => []

/-- A parameter as it is written on the command line. -/
def usage (p : Parameter) : String :=
  if placed.contains p then s!"[{p.name}]"
  else if p.takesValue then s!"--{p.name} <{p.name}>"
  else s!"--{p.name}"

/-- All that is said about a parameter. -/
def details (p : Parameter) : String :=
  let default := match p.default? with
    | some value => s!" [default: {value}]"
    | none => ""
  let choices := match p.choices with
    | [] => ""
    | values => " [possible values: " ++ ", ".intercalate values ++ "]"
  p.purpose ++ default ++ choices

/-- The letter of a parameter, in the columns in front of its name. -/
def letterColumn (p : Parameter) : String :=
  match p.letter? with
  | some c => s!"-{c}, "
  | none => "    "

end Parameter

/-- The width of the longest of some texts. -/
def widest (texts : List String) : Nat := texts.foldl (fun n t => max n t.length) 0

/-- Some lines, each with what stands in front, the parameter and what is said about it. -/
def helpLines (front : Parameter → String) (ps : List Parameter) : String :=
  let width := widest (ps.map (·.usage))
  let line (p : Parameter) : String :=
    "  " ++ front p ++ p.usage ++ String.ofList (List.replicate (width + 2 - p.usage.length) ' ') ++
      p.details ++ "\n"
  String.join (ps.map line)

/-- The help page. -/
def helpPage : String :=
  summary ++ "\n\nUsage: " ++ programName ++ " [OPTIONS] " ++
    " ".intercalate (Parameter.placed.map (·.usage)) ++ "\n\nArguments:\n" ++
    helpLines (fun _ => "") Parameter.placed ++ "\nOptions:\n" ++
    helpLines Parameter.letterColumn Parameter.named

/-- The version on a line. -/
def versionLine : String := programName ++ " " ++ programVersion ++ "\n"

/-- The samples and what they are for. -/
def grammarList : String :=
  "Available grammars:\n\n" ++ String.join (Sample.named.map fun (name, sample) =>
    s!"  {name}\n    {sample.description}\n\n")

end Phrase.CommandLine
