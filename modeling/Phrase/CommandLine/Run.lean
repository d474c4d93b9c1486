import Phrase.CommandLine.Help
import Phrase.Format.Yaml
import Phrase.Location

/-!
# Running a request

A request is run by reading its configuration, then its input, and then running its sample.
Every error goes to the error stream with its line and column, and the findings go to the
output stream in the format of the configuration.  How files are read is left to the caller,
who may be in any monad.
-/

namespace Phrase.CommandLine

/-! ## Streams -/

/-- Where bytes come from. -/
inductive Place where
  | standardInput
  | file (path : String)
  deriving DecidableEq, Repr

/-- The place of an input; a dash stands for the standard input. -/
def Place.ofPath (path : String) : Place := if path = "-" then .standardInput else .file path

/-- What a run leaves. -/
structure Transcript where
  output : String
  errors : String
  exitCode : Nat

/-- Why there was no run. -/
inductive Failure where
  | usage (e : UsageError)
  /-- The configuration is missing or no good. -/
  | configuration
  | unreadable (path reason : String)
  /-- The bytes of the input make no whole units. -/
  | brokenUnits (e : Encoding) (bytes : Nat)
  | halted (h : Halt)

namespace Failure

/-- The wording of a failure. -/
def message : Failure → String
  | .usage e => s!"error: {e.message}\n\nFor more information, try '--help'."
  | .configuration => "Configuration error"
  | .unreadable path reason => s!"Cannot read {path}: {reason}"
  | .brokenUnits e bytes =>
    s!"Invalid input: {e.name} input must be a multiple of {e.unitBytes} bytes, got {bytes}"
  | .halted (.fault f) => f.message
  | .halted .exhausted => "out of fuel"

/-- The transcript of a failure. -/
def transcript (f : Failure) : Transcript := ⟨"", f.message ++ "\n", 2⟩

end Failure

/-! ## Findings -/

/-- An error and where it is. -/
structure Diagnostic where
  location : Location
  error : ParseError

namespace Diagnostic

/-- The errors of a source with their places; columns count code points. -/
def ofErrors (source : Source) (errors : List ParseError) : List Diagnostic :=
  let lines := LineIndex.ofSource source
  errors.map fun e => ⟨lines.location .codePoints e.position, e⟩

/-- A diagnostic as a line. -/
def line (path : String) (d : Diagnostic) : String :=
  s!"{path}:{d.location.text}: {d.error.text}\n"

/-- A diagnostic as data. -/
def toJson (d : Diagnostic) : Json :=
  .obj ([("line", .nat d.location.line), ("column", .nat d.location.column)] ++ d.error.members)

end Diagnostic

/-- Data in a format; there is no drawing of it. -/
def formatJson (format : OutputFormat) (j : Json) : String :=
  match format with
  | .yaml => j.yaml
  | .treeviz | .json => j.pretty ++ "\n"

/-- A report in a format. -/
def formatReport (format : OutputFormat) (status : Status) (ds : List Diagnostic) : String :=
  match format with
  | .treeviz => status.tag ++ "\n"
  | _ => formatJson format (.obj [("status", .str status.tag),
      ("errors", .arr (ds.map Diagnostic.toJson))])

/-- A tree in a format. -/
def formatTree (format : OutputFormat) (showWhitespace : Bool) (tree : Snapshot) : String :=
  match format with
  | .treeviz => tree.draw showWhitespace
  | _ => formatJson format tree.toJson

/-- What a run in some mode outputs. -/
def formatFinding (config : Config) (mode : Mode) (f : Finding) (ds : List Diagnostic) : String :=
  match mode with
  | .validate => formatReport config.format f.report.status ds
  | .parse => (f.value.map (formatJson config.format)).getD ""
  | .tree => (f.tree.map (formatTree config.format config.showWhitespace)).getD ""

/-! ## Requests -/

namespace Request

/-- The layers of the configuration, from the text of its file if one was asked for. -/
def layers (r : Request) (text? : Option String) : List ConfigLayer :=
  let file := if r.config?.isSome then [ConfigLayer.file text?] else []
  let format := r.format?.map fun f => ConfigLayer.set "inspect.format" (.str f.name)
  let encoding := r.encoding?.map fun e => ConfigLayer.set "input.encoding" (.str e.tag)
  let maxDepth := r.maxDepth?.map fun n =>
    ConfigLayer.set "parsing.max_recursion_depth" (.int n)
  let showWhitespace :=
    if r.hideWhitespace then [ConfigLayer.set "inspect.show_whitespace" (.bool false)] else []
  file ++ format.toList ++ encoding.toList ++ maxDepth.toList ++ showWhitespace

/-- Runs the sample over the bytes of the input. -/
def runOver (r : Request) (config : Config) (bytes : List UInt8) : Except Failure Transcript := do
  match Source.ofBytes? config.encoding bytes with
  | none => throw (.brokenUnits config.encoding bytes.length)
  | some source =>
    let finding ← (r.sample.run r.mode source ⟨.none, config.maxDepth⟩).mapError .halted
    let ds := Diagnostic.ofErrors source finding.report.errors
    return {
      output := formatFinding config r.mode finding ds
      errors := String.join (ds.map (·.line r.path))
      exitCode := if finding.report.isFatal then 1 else 0 }

section Reading

variable {m : Type → Type} [Monad m]

/-- Reads bytes, or says why that is not possible. -/
abbrev ReadBytes (m : Type → Type) : Type := Place → m (Except String (List UInt8))

/-- The text of a configuration, which is in UTF-8; its path may lack the ending. -/
def configText? (read : ReadBytes m) (path : String) : m (Option String) := do
  match ← read (.file path) with
  | .ok bytes => return String.fromUTF8? ⟨bytes.toArray⟩
  | .error _ =>
    match ← read (.file (path ++ ".toml")) with
    | .ok bytes => return String.fromUTF8? ⟨bytes.toArray⟩
    | .error _ => return none

/-- Runs a request. -/
def run (read : ReadBytes m) (r : Request) : m (Except Failure Transcript) := do
  let text? ← match r.config? with
    | some path => configText? read path
    | none => pure none
  match Config.load? (r.layers text?) with
  | none => return .error .configuration
  | some config =>
    match ← read (.ofPath r.path) with
    | .error reason => return .error (.unreadable r.path reason)
    | .ok bytes => return r.runOver config bytes

end Reading

end Request

/-- Does what some arguments ask for. -/
def run {m : Type → Type} [Monad m] (read : Request.ReadBytes m) (arguments : List String) :
    m (Except Failure Transcript) :=
  match parse arguments with
  | .error e => return .error (.usage e)
  | .ok .help => return .ok ⟨helpPage, "", 0⟩
  | .ok .version => return .ok ⟨versionLine, "", 0⟩
  | .ok .listGrammars => return .ok ⟨grammarList, "", 0⟩
  | .ok (.run r) => r.run read

end Phrase.CommandLine
