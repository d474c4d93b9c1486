import Phrase.Config
import Phrase.Sample.Catalogue

/-!
# Arguments of the command line

Parameters are given by place or by name, as `--mode tree`, `--mode=tree`, `-m tree`,
`-mtree` or `-m=tree`.  None may be given twice.  Arguments are read from left to right, and
`help` and `version` end the reading at once, so they go before what is wrong or missing
behind them.  Behind `--` all arguments are given by place.
-/

namespace Phrase.CommandLine

/-! ## Parameters -/

/-- What can be given. -/
inductive Parameter where
  | grammar
  | path
  | mode
  | format
  | encoding
  | config
  | maxDepth
  | hideWhitespace
  | listGrammars
  | help
  | version
  deriving DecidableEq, Repr

namespace Parameter

/-- The parameters that are given by place, in order. -/
def placed : List Parameter := [.grammar, .path]

/-- The parameters that are given by name. -/
def named : List Parameter :=
  [.mode, .format, .encoding, .config, .maxDepth, .hideWhitespace, .listGrammars, .help, .version]

/-- The name of a parameter. -/
def name : Parameter → String
  | .grammar => "grammar"
  | .path => "path"
  | .mode => "mode"
  | .format => "format"
  | .encoding => "encoding"
  | .config => "config"
  | .maxDepth => "max-depth"
  | .hideWhitespace => "hide-whitespace"
  | .listGrammars => "list-grammars"
  | .help => "help"
  | .version => "version"

/-- The letter that stands for the name. -/
def letter? : Parameter → Option Char
  | .mode => some 'm'
  | .format => some 'f'
  | .encoding => some 'e'
  | .config => some 'c'
  | .help => some 'h'
  | .version => some 'V'
  | _ => none

/-- Whether a value belongs to the name. -/
def takesValue : Parameter → Bool
  | .hideWhitespace | .listGrammars | .help | .version => false
  | _ => true

/-- The parameter with this name. -/
def ofName? (n : String) : Option Parameter := named.find? (·.name == n)

/-- The parameter with this letter. -/
def ofLetter? (c : Char) : Option Parameter := named.find? (·.letter? == some c)

end Parameter

/-- What is wrong with some arguments. -/
inductive UsageError where
  | unknown (argument : String)
  | surplus (argument : String)
  | repeated (p : Parameter)
  | invalid (p : Parameter) (value : String)
  | unexpectedValue (p : Parameter)
  | missingValue (p : Parameter)
  | missing (p : Parameter)
  deriving DecidableEq, Repr

/-- The wording of a usage error. -/
def UsageError.message : UsageError → String
  | .unknown argument | .surplus argument => s!"unexpected argument '{argument}'"
  | .repeated p => s!"{p.name} is given more than once"
  | .invalid p value => s!"invalid value '{value}' for {p.name}"
  | .unexpectedValue p => s!"{p.name} takes no value"
  | .missingValue p => s!"{p.name} needs a value"
  | .missing p => s!"{p.name} is missing"

/-! ## Requests -/

/-- What to run and how. -/
structure Request where
  sample : Sample
  path : String
  mode : Mode
  format? : Option OutputFormat
  encoding? : Option Encoding
  /-- The path of a configuration. -/
  config? : Option String
  maxDepth? : Option Nat
  hideWhitespace : Bool
  deriving DecidableEq, Repr

/-- What the arguments ask for. -/
inductive Task where
  | run (r : Request)
  | listGrammars
  | help
  | version
  deriving DecidableEq, Repr

/-- What is known of a request while its arguments are read. -/
structure Draft where
  sample? : Option Sample := none
  path? : Option String := none
  mode? : Option Mode := none
  format? : Option OutputFormat := none
  encoding? : Option Encoding := none
  config? : Option String := none
  maxDepth? : Option Nat := none
  hideWhitespace : Bool := false
  listGrammars : Bool := false

/-- The number that an argument writes, with a sign or without one, if it fits 32 bits. -/
def limit? (s : String) : Option Nat :=
  let (negative, digits) := match s.toList with
    | '-' :: cs => (true, cs)
    | '+' :: cs => (false, cs)
    | cs => (false, cs)
  if !digits.isEmpty && digits.all Char.isDigit then
    let n := digits.foldl (fun n c => n * 10 + (c.toNat - 0x30)) 0
    if n < 0x100000000 ∧ (negative = false ∨ n = 0) then some n else none
  else none

/-- The value of a parameter that had the value `old?` so far, from what is given for it. -/
def fill {α : Type} (p : Parameter) (text : String) (old? new? : Option α) :
    Except UsageError (Option α) :=
  match old?, new? with
  | none, some a => .ok (some a)
  | some _, _ => .error (.repeated p)
  | none, none => .error (.invalid p text)

namespace Draft

/-- Gives a parameter a value. -/
def give (d : Draft) (p : Parameter) (text : String) : Except UsageError Draft := do
  match p with
  | .grammar => return { d with sample? := ← fill p text d.sample? (Sample.named.lookup text) }
  | .path => return { d with path? := ← fill p text d.path? (some text) }
  | .mode => return { d with mode? := ← fill p text d.mode? (Mode.named.lookup text) }
  | .format =>
    return { d with format? := ← fill p text d.format? (OutputFormat.named.lookup text) }
  | .encoding => return { d with encoding? := ← fill p text d.encoding? (Encoding.ofTag? text) }
  | .config => return { d with config? := ← fill p text d.config? (some text) }
  | .maxDepth => return { d with maxDepth? := ← fill p text d.maxDepth? (limit? text) }
  | _ => throw (.unexpectedValue p)

/-- Gives an argument by place. -/
def place (d : Draft) (text : String) : Except UsageError Draft :=
  if d.sample?.isNone then d.give .grammar text
  else if d.path?.isNone then d.give .path text
  else .error (.surplus text)

/-- What the arguments ask for, once all are read. -/
def task (d : Draft) : Except UsageError Task :=
  if d.listGrammars then .ok .listGrammars
  else
    match d.sample?, d.path? with
    | some sample, some path =>
      .ok (.run {
        sample
        path
        mode := d.mode?.getD .validate
        format? := d.format?
        encoding? := d.encoding?
        config? := d.config?
        maxDepth? := d.maxDepth?
        hideWhitespace := d.hideWhitespace })
    | none, _ => .error (.missing .grammar)
    | _, none => .error (.missing .path)

/-- Gives a parameter that takes no value.  Some of them are all that is asked for. -/
def raise (d : Draft) (p : Parameter) : Except UsageError (Draft ⊕ Task) :=
  match p with
  | .help => .ok (.inr .help)
  | .version => .ok (.inr .version)
  | .hideWhitespace =>
    if d.hideWhitespace then .error (.repeated p) else .ok (.inl { d with hideWhitespace := true })
  | .listGrammars =>
    if d.listGrammars then .error (.repeated p) else .ok (.inl { d with listGrammars := true })
  | _ => .error (.missingValue p)

end Draft

/-! ## Reading -/

/-- How an argument is meant. -/
inductive Spelling where
  | byPlace
  /-- A name, with what is attached to it as a value. -/
  | byName (p : Parameter) (attached? : Option String)
  | unknown
  /-- The mark behind which all arguments are given by place. -/
  | onlyPlaces

/-- The meaning of an argument that stands for itself; a single dash is no name. -/
def spelling (argument : String) : Spelling :=
  match argument.toList with
  | ['-', '-'] => .onlyPlaces
  | '-' :: '-' :: cs =>
    match Parameter.ofName? (String.ofList (cs.takeWhile (· != '='))) with
    | none => .unknown
    | some p =>
      match cs.dropWhile (· != '=') with
      | [] => .byName p none
      | _ :: value =>
        .byName p (some (String.ofList value))
  | '-' :: c :: cs =>
    match Parameter.ofLetter? c with
    | none => .unknown
    | some p =>
      match p.takesValue, cs with
      | false, _ | _, [] => .byName p none
      | true, '=' :: value => .byName p (some (String.ofList value))
      | true, value => .byName p (some (String.ofList value))
  | _ => .byPlace

/-- Whether an argument can be the value of the name in front of it. -/
def isValue (argument : String) : Bool :=
  match spelling argument with
  | .byPlace => true
  | _ => false

/-- Reads arguments behind those that a draft is made of. -/
def parseFrom (d : Draft) : List String → Except UsageError Task
  | [] => d.task
  | argument :: rest =>
    match spelling argument with
    | .unknown => .error (.unknown argument)
    | .onlyPlaces => do (← rest.foldlM Draft.place d).task
    | .byPlace => do parseFrom (← d.place argument) rest
    | .byName p (some value) => do parseFrom (← d.give p value) rest
    | .byName p none =>
      if p.takesValue then
        match rest with
        | value :: rest =>
          if isValue value then do parseFrom (← d.give p value) rest
          else .error (.missingValue p)
        | [] => .error (.missingValue p)
      else
        match d.raise p with
        | .error e => .error e
        | .ok (.inl d) => parseFrom d rest
        | .ok (.inr task) => .ok task

/-- What some arguments ask for. -/
def parse (arguments : List String) : Except UsageError Task := parseFrom {} arguments

end Phrase.CommandLine
