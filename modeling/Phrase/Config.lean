import Phrase.Run
import Phrase.Setting
import Phrase.Text.Class

/-!
# Configuration

A configuration is put together in layers over the defaults: files one after the other, each
going before the earlier ones, and single settings, which go before all files.  Only then
the settings are given their types.  Settings are converted where there is a reasonable way:
numbers may be written as texts, and truth values as texts or numbers.
-/

namespace Phrase

/-- How results are shown. -/
inductive OutputFormat where
  | treeviz
  | json
  | yaml
  deriving DecidableEq, Repr

/-- The formats and their names. -/
def OutputFormat.named : List (String × OutputFormat) :=
  [("treeviz", .treeviz), ("json", .json), ("yaml", .yaml)]

/-- The name of a format. -/
def OutputFormat.name : OutputFormat → String
  | .treeviz => "treeviz"
  | .json => "json"
  | .yaml => "yaml"

/-- All settings with their types. -/
structure Config where
  /-- How deep productions may nest; zero sets no limit. -/
  maxDepth : Nat
  format : OutputFormat
  /-- Whether drawings show whitespace. -/
  showWhitespace : Bool
  encoding : Encoding
  deriving Repr

/-- A layer of a configuration. -/
inductive ConfigLayer where
  /-- The text of a file; absent if the file has to exist but does not. -/
  | file (text? : Option String)
  /-- A setting that goes before all files. -/
  | set (path : String) (value : Setting)

namespace Setting

/-! ## Types -/

/-- The number that decimal digits write, with a plus in front or without. -/
def decimal? (s : String) : Option Nat :=
  let digits := match s.toList with
    | '+' :: cs => cs
    | cs => cs
  if !digits.isEmpty && digits.all Char.isDigit then some (ofDigits digits) else none

/-- A number of 64 bits without a sign. -/
def number? : Setting → Option Nat
  | .int n => if 0 ≤ n then some n.toNat else none
  | .bool b => some b.toNat
  | .float x => some x.round.toUInt64.toNat
  | .str s =>
    if ["true", "on", "yes"].contains (fold s) then some 1
    else if ["false", "off", "no"].contains (fold s) then some 0
    else (decimal? s).filter (· < 0x10000000000000000)
  | _ => none

/-- A truth value. -/
def bool? : Setting → Option Bool
  | .bool b => some b
  | .int n => some (n != 0)
  | .float x => some (x != 0.0)
  | .str s =>
    if ["1", "true", "on", "yes"].contains (fold s) then some true
    else if ["0", "false", "off", "no"].contains (fold s) then some false
    else none
  | _ => none

/-- One of some names, in letters of either case; a section of one entry stands for the name
of its entry. -/
def oneOf? {α : Type} (names : List (String × α)) : Setting → Option α
  | .str s => names.lookup (fold s)
  | .section [(k, _)] => names.lookup (fold k)
  | _ => none

/-- The settings with these names, from a section or from a list in order. -/
def fields? (names : List String) : Setting → Option (List Setting)
  | .section es => names.mapM (es.lookup ·)
  | .list items => if names.length ≤ items.length then some (items.take names.length) else none
  | _ => none

end Setting

namespace Config

/-- The defaults. -/
def defaults : Setting :=
  .section [
    ("parsing", .section [("max_recursion_depth", .int 1000)]),
    ("inspect", .section [("format", .str "treeviz"), ("show_whitespace", .bool true)]),
    ("input", .section [("encoding", .str "utf8")])]

/-- Gives the settings their types. -/
def ofSetting? (root : Setting) : Option Config := do
  match ← root.fields? ["parsing", "inspect", "input"] with
  | [parsing, inspect, input] =>
    match ← parsing.fields? ["max_recursion_depth"],
        ← inspect.fields? ["format", "show_whitespace"], ← input.fields? ["encoding"] with
    | [maxDepth], [format, showWhitespace], [encoding] =>
      return {
        maxDepth := ← maxDepth.number?
        format := ← format.oneOf? OutputFormat.named
        showWhitespace := ← showWhitespace.bool?
        encoding := ← encoding.oneOf? (Encoding.all.map fun e => (e.tag, e)) }
    | _, _, _ => none
  | _ => none

/-- Puts the files among the layers into a configuration. -/
def addFiles : List ConfigLayer → Setting → Option Setting
  | [], root => some root
  | .file none :: _, _ => none
  | .file (some text) :: layers, root => do
    addFiles layers (← Setting.mergeFile? (Setting.ofEntries (← Toml.read? text)) root)
  | .set _ _ :: layers, root => addFiles layers root

/-- Puts the single settings among the layers into a configuration. -/
def addSettings : List ConfigLayer → Setting → Option Setting
  | [], root => some root
  | .file _ :: layers, root => addSettings layers root
  | .set path v :: layers, root => do
    addSettings layers (← Setting.mergeAt? v (← Setting.steps? path) root)

/-- The configuration of some layers; absent if a layer or a setting is no good. -/
def load? (layers : List ConfigLayer) : Option Config := do
  ofSetting? (← addSettings layers (← addFiles layers defaults))

end Config

end Phrase
