import Phrase.Run
import Phrase.Sample.IntegerList
import Phrase.Sample.Shell
import Phrase.Tree.Snapshot

/-!
# Sample grammars

The samples have names and run in three modes.  Every run reports its errors; what else it
gives depends on the mode.
-/

namespace Phrase

/-- A sample grammar. -/
inductive Sample where
  | integerList
  | shell
  deriving DecidableEq, Repr

/-- What a run is to give besides the report. -/
inductive Mode where
  /-- Nothing. -/
  | validate
  /-- The value. -/
  | parse
  /-- The tree. -/
  | tree
  deriving DecidableEq, Repr

/-- The modes and their names. -/
def Mode.named : List (String × Mode) :=
  [("validate", .validate), ("parse", .parse), ("tree", .tree)]

/-- What a run of a sample gives. -/
structure Finding where
  report : Report
  /-- The value as data. -/
  value : Option Json
  tree : Option Snapshot

namespace Sample

/-- The samples and their names. -/
def named : List (String × Sample) := [("int-list", .integerList), ("shell", .shell)]

/-- What a sample is for. -/
def description : Sample → String
  | .integerList => "Comma separated unsigned integers, e.g. `1, 2, 3`"
  | .shell => "Builtin commands with words, \"quoted strings\" and $variables"

/-- The grammar of a sample; its root is production 0. -/
def grammar : Sample → Grammar
  | .integerList => IntegerList.grammar
  | .shell => Shell.grammar

/-- The value of a sample's root as data. -/
def present (sample : Sample) (source : Source) (value : Value) : Except Fault Json :=
  match sample with
  | .integerList => return IntegerList.toJson (IntegerList.numbers value)
  | .shell => Shell.toJson ((Shell.commands? value).getD []) source

/-- Runs a sample over a source. -/
def run (sample : Sample) (mode : Mode) (source : Source) (options : Options) :
    Except Halt Finding := do
  let outcome ← sample.grammar.run 0 source options
  match mode with
  | .validate => return ⟨outcome.report, none, none⟩
  | .parse =>
    let value ← (outcome.value.mapM (sample.present source)).mapError .fault
    return ⟨outcome.report, value, none⟩
  | .tree =>
    let tree ← (outcome.tree.snapshot? source).mapError .fault
    return ⟨outcome.report, none, tree⟩

end Sample

end Phrase
