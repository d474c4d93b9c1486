import Phrase.Action
import Phrase.CodePoint
import Phrase.CommandLine.Arguments
import Phrase.CommandLine.Help
import Phrase.CommandLine.Run
import Phrase.Config
import Phrase.Cursor
import Phrase.Encoding.Basic
import Phrase.Encoding.Bytes
import Phrase.Encoding.Decoding
import Phrase.Encoding.Lossy
import Phrase.Event
import Phrase.Fault
import Phrase.Format.Json
import Phrase.Format.JsonReader
import Phrase.Format.Toml
import Phrase.Format.Yaml
import Phrase.Grammar
import Phrase.Location
import Phrase.Main
import Phrase.Parse.Basic
import Phrase.Parse.Interpreter
import Phrase.Parse.Rule
import Phrase.ParseError
import Phrase.Proofs.Encoding.Characters
import Phrase.Proofs.Encoding.Chunks
import Phrase.Proofs.Encoding.Display
import Phrase.Proofs.Encoding.Extent
import Phrase.Proofs.Encoding.Inverse
import Phrase.Proofs.Encoding.Lineage
import Phrase.Proofs.Encoding.Lines
import Phrase.Proofs.Encoding.Location
import Phrase.Proofs.Encoding.Malformed
import Phrase.Proofs.Encoding.RoundTrip
import Phrase.Proofs.Encoding.Text
import Phrase.Proofs.Format.Json
import Phrase.Proofs.Parse.Attempt
import Phrase.Proofs.Parse.Characters
import Phrase.Proofs.Parse.Comparison
import Phrase.Proofs.Parse.ComparisonRule
import Phrase.Proofs.Parse.Fuel
import Phrase.Proofs.Parse.Gives
import Phrase.Proofs.Parse.Guarded
import Phrase.Proofs.Parse.Halting
import Phrase.Proofs.Parse.Integer
import Phrase.Proofs.Parse.Law
import Phrase.Proofs.Parse.Listing
import Phrase.Proofs.Parse.Lockstep
import Phrase.Proofs.Parse.LockstepRule
import Phrase.Proofs.Parse.Nesting
import Phrase.Proofs.Parse.Outputs
import Phrase.Proofs.Parse.Reports
import Phrase.Proofs.Parse.Rule
import Phrase.Proofs.Parse.Separated
import Phrase.Proofs.Parse.Settles
import Phrase.Proofs.Parse.Shift
import Phrase.Proofs.Parse.Shows
import Phrase.Proofs.Parse.Skipping
import Phrase.Proofs.Parse.Surroundings
import Phrase.Proofs.Parse.Takes
import Phrase.Proofs.Parse.Termination
import Phrase.Proofs.Parse.Tiling
import Phrase.Proofs.Parse.Trailing
import Phrase.Proofs.Parse.Values
import Phrase.Proofs.Rule.Characters
import Phrase.Proofs.Rule.Extent
import Phrase.Proofs.Rule.Height
import Phrase.Proofs.Rule.Inside
import Phrase.Proofs.Rule.Literal
import Phrase.Proofs.Rule.Shift
import Phrase.Proofs.Rule.Stepwise
import Phrase.Proofs.Rule.Units
import Phrase.Proofs.Run.Actions
import Phrase.Proofs.Run.Boundary
import Phrase.Proofs.Run.Characters
import Phrase.Proofs.Run.Encodings
import Phrase.Proofs.Run.Faultless
import Phrase.Proofs.Run.Limit
import Phrase.Proofs.Run.Lossless
import Phrase.Proofs.Run.Nesting
import Phrase.Proofs.Run.Reports
import Phrase.Proofs.Run.Root
import Phrase.Proofs.Run.Whitespace
import Phrase.Proofs.Sample.Encodings
import Phrase.Proofs.Sample.IntegerList
import Phrase.Proofs.Sample.Script
import Phrase.Proofs.Sample.Shell
import Phrase.Proofs.Sample.Spacing
import Phrase.Proofs.Sample.Written
import Phrase.Proofs.Symbol.Arena
import Phrase.Proofs.Symbol.Characters
import Phrase.Proofs.Symbol.Keyword
import Phrase.Proofs.Symbol.Lexeme
import Phrase.Proofs.Symbol.Stepwise
import Phrase.Proofs.Symbol.Table
import Phrase.Proofs.Symbol.Trie
import Phrase.Proofs.Tree.Arena
import Phrase.Proofs.Tree.Building
import Phrase.Proofs.Tree.Drawing
import Phrase.Proofs.Tree.Hidden
import Phrase.Proofs.Tree.Lockstep
import Phrase.Proofs.Tree.Lossless
import Phrase.Proofs.Tree.Order
import Phrase.Proofs.Tree.Reader
import Phrase.Proofs.Tree.Snapshot
import Phrase.Proofs.Tree.Texts
import Phrase.Proofs.Tree.Traversal
import Phrase.Proofs.Value.Alike
import Phrase.Proofs.Value.Collections
import Phrase.Proofs.Value.Order
import Phrase.Proofs.Value.Shift
import Phrase.Proofs.Value.Sinks
import Phrase.Rule.Basic
import Phrase.Rule.Class
import Phrase.Rule.Matching
import Phrase.Rule.Number
import Phrase.Run
import Phrase.Sample.Catalogue
import Phrase.Sample.IntegerList
import Phrase.Sample.Shell
import Phrase.Setting
import Phrase.Source
import Phrase.Symbol.Table
import Phrase.Symbol.Trie
import Phrase.Text.Class
import Phrase.Text.Quoted
import Phrase.Tree.Arena
import Phrase.Tree.Basic
import Phrase.Tree.Builder
import Phrase.Tree.Reader
import Phrase.Tree.Snapshot
import Phrase.Value.Basic
import Phrase.Value.Container
import Phrase.Value.Kind
