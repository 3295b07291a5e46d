import Stepwise.Check.Header
import Stepwise.Check.Run
import Stepwise.Command.Flag
import Stepwise.Command.Invocation
import Stepwise.Command.Report
import Stepwise.Command.Run
import Stepwise.Command.Workspace
import Stepwise.Decimal.Binary64
import Stepwise.Decimal.Integer
import Stepwise.Decimal.Layout
import Stepwise.Decimal.Numeral
import Stepwise.Decimal.Power
import Stepwise.Decimal.Shortest
import Stepwise.Heap.Basic
import Stepwise.Heap.Codec
import Stepwise.Heap.Convert
import Stepwise.Heap.Object
import Stepwise.Heap.Property
import Stepwise.Heap.Scope
import Stepwise.Heap.Throw
import Stepwise.History.Basic
import Stepwise.Host.Inspect
import Stepwise.Host.Value
import Stepwise.Json.Basic
import Stepwise.Json.Printer
import Stepwise.Json.Reader
import Stepwise.Library.Array
import Stepwise.Library.Function
import Stepwise.Library.Global
import Stepwise.Library.Install
import Stepwise.Library.Native
import Stepwise.Library.Number
import Stepwise.Library.Object
import Stepwise.Library.Script
import Stepwise.Library.Text
import Stepwise.Lint.Check
import Stepwise.Lint.Rule
import Stepwise.Lint.Scope
import Stepwise.Machine.Call
import Stepwise.Machine.Codec
import Stepwise.Machine.Expression
import Stepwise.Machine.Operator
import Stepwise.Machine.Rule
import Stepwise.Machine.Start
import Stepwise.Machine.State
import Stepwise.Machine.Statement
import Stepwise.Machine.Step
import Stepwise.Main
import Stepwise.Parse.Error
import Stepwise.Parse.Expression
import Stepwise.Parse.Program
import Stepwise.Parse.Statement
import Stepwise.Parse.Stream
import Stepwise.Session.Basic
import Stepwise.Session.Collect
import Stepwise.Session.Console
import Stepwise.Session.Excerpt
import Stepwise.Session.Function
import Stepwise.Session.Prompt
import Stepwise.Settings.Basic
import Stepwise.Settings.Duration
import Stepwise.Settings.Level
import Stepwise.Source.Position
import Stepwise.Stepper.Step
import Stepwise.Stepper.Stop
import Stepwise.Text.Search
import Stepwise.Text.Bytes
import Stepwise.Text.Case
import Stepwise.Text.Ink
import Stepwise.Text.Category
import Stepwise.Text.Path
import Stepwise.Text.Quoted
import Stepwise.Text.Units
import Stepwise.Token.Basic
import Stepwise.Token.Lexer
import Stepwise.Trace.Basic
import Stepwise.Trace.Printer
import Stepwise.Trace.Reader
import Stepwise.Tree.Basic
import Stepwise.Tree.Declaration
import Stepwise.Tree.Kind
import Stepwise.Tree.Number
import Stepwise.Tree.Operator
import Stepwise.Tree.Walk
import Stepwise.Value.Basic
import Stepwise.Value.Number
import Stepwise.Yaml.Basic
import Stepwise.Yaml.Reader
import Stepwise.Proofs.Heap.Filed
import Stepwise.Proofs.Heap.Native
import Stepwise.Proofs.Tree.Numbering
import Stepwise.Proofs.Decimal.Binary64
import Stepwise.Proofs.Decimal.Shortest
import Stepwise.Proofs.Decimal.Text
import Stepwise.Proofs.Heap.Install
import Stepwise.Proofs.Machine.Expression
import Stepwise.Proofs.Machine.Node
import Stepwise.Proofs.Machine.Reach
import Stepwise.Proofs.Machine.Shape
import Stepwise.Proofs.Machine.WellFormed
import Stepwise.Proofs.Heap.Codec
import Stepwise.Proofs.Machine.Codec
import Stepwise.Proofs.Session.Cursor
import Stepwise.Proofs.Stepper.Restore
import Stepwise.Proofs.Machine.Advance
import Stepwise.Proofs.Machine.Bound
import Stepwise.Proofs.Library.Tail
import Stepwise.Proofs.Machine.CallChain
import Stepwise.Proofs.Machine.Running
import Stepwise.Proofs.Session.Collect
import Stepwise.Proofs.Session.Frames
import Stepwise.Proofs.Machine.Evaluate
import Stepwise.Proofs.Machine.Evaluation
import Stepwise.Proofs.Token.Cursor
import Stepwise.Proofs.Parse.Expression
import Stepwise.Proofs.Parse.Roundtrip
import Stepwise.Proofs.Token.Tiling
import Stepwise.Proofs.Session.Describe
import Stepwise.Proofs.Session.Position
import Stepwise.Proofs.Parse.Placed
import Stepwise.Proofs.Machine.Jump
import Stepwise.Proofs.Parse.Lawful
import Stepwise.Proofs.Library.Script
import Stepwise.Proofs.Machine.Fault
import Stepwise.Proofs.Machine.Defined
import Stepwise.Proofs.Machine.Intact
import Stepwise.Proofs.Machine.Land
import Stepwise.Proofs.Parse.AgreeProgram
import Stepwise.Proofs.Machine.Left
import Stepwise.Proofs.Stepper.Settle
import Stepwise.Proofs.Heap.Resolve
import Stepwise.Proofs.Machine.Binding
import Stepwise.Proofs.Machine.Course
import Stepwise.Proofs.Machine.ForIn
import Stepwise.Proofs.Machine.Switch
import Stepwise.Proofs.Session.Recovery
import Stepwise.Proofs.Parse.Precedence
import Stepwise.Proofs.Machine.Convert
import Stepwise.Proofs.Machine.Construct
import Stepwise.Proofs.Machine.Property
import Stepwise.Proofs.Heap.Equality
import Stepwise.Proofs.Heap.Lifetime
import Stepwise.Proofs.Library.Join
import Stepwise.Proofs.Decimal.Layout
import Stepwise.Proofs.Machine.NumericKey
import Stepwise.Proofs.Decimal.Whole
import Stepwise.Proofs.Token.Literal
import Stepwise.Proofs.Token.Unit
import Stepwise.Proofs.Lint.Redeclare
import Stepwise.Proofs.Session.Locals
import Stepwise.Proofs.Host.Value
import Stepwise.Proofs.Session.Excerpt
import Stepwise.Proofs.History.Stack
import Stepwise.Proofs.Trace.Roundtrip
import Stepwise.Proofs.Decimal.Value
import Stepwise.Proofs.Library.Numeral
