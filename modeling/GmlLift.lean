import GmlLift.Build
import GmlLift.ByteReader
import GmlLift.Clean.Basic
import GmlLift.Clean.ForLoop
import GmlLift.Clean.Locals
import GmlLift.Clean.Naming
import GmlLift.CodeEntry
import GmlLift.CodeError
import GmlLift.CommandLine
import GmlLift.Decimal.Binary64
import GmlLift.Decimal.Power
import GmlLift.Decimal.Reading
import GmlLift.Decimal.Shortest
import GmlLift.Decode
import GmlLift.EntryName
import GmlLift.EnumTable
import GmlLift.Flow.Analyze
import GmlLift.Flow.Blocks
import GmlLift.Flow.Branch
import GmlLift.Flow.Error
import GmlLift.Flow.Fragments
import GmlLift.Flow.Graph
import GmlLift.Flow.Loops
import GmlLift.Flow.Node
import GmlLift.Flow.Nullish
import GmlLift.Flow.Pass
import GmlLift.Flow.ShortCircuit
import GmlLift.Flow.StackEffect
import GmlLift.Flow.StaticInit
import GmlLift.Flow.Switch
import GmlLift.Flow.TryCatch
import GmlLift.Frame.Assign
import GmlLift.Frame.Basic
import GmlLift.Frame.Call
import GmlLift.Frame.Error
import GmlLift.Frame.Execute
import GmlLift.Frame.Variable
import GmlLift.FunctionTable
import GmlLift.Game
import GmlLift.Instr.AssetKind
import GmlLift.Instr.Basic
import GmlLift.Instr.DataType
import GmlLift.Instr.Opcode
import GmlLift.Instr.Scope
import GmlLift.Instr.Text
import GmlLift.Json.Range
import GmlLift.Json.Raw
import GmlLift.Json.Value
import GmlLift.Lift.Error
import GmlLift.Lift.GlobalScript
import GmlLift.Lift.Session
import GmlLift.Listing
import GmlLift.Main
import GmlLift.Naming.Load
import GmlLift.Naming.Resolve
import GmlLift.Naming.Rule
import GmlLift.Settings
import GmlLift.Settings.Load
import GmlLift.Slots
import GmlLift.Source.Basic
import GmlLift.Source.Entry
import GmlLift.Source.Layout
import GmlLift.Source.Literal
import GmlLift.Source.Operator
import GmlLift.Table
import GmlLift.Text.Blank
import GmlLift.Text.Hex
import GmlLift.Text.Numeral
import GmlLift.Text.Printable
import GmlLift.Text.Quoted
import GmlLift.Tree.Basic
import GmlLift.Tree.Equality
import GmlLift.Tree.Walk
import GmlLift.Proofs.Build.Visits
import GmlLift.Proofs.Flow.BlockList
import GmlLift.Proofs.Flow.EdgeDuality
import GmlLift.Proofs.Flow.SingleEntry
import GmlLift.Proofs.Flow.ControlFlow
import GmlLift.Proofs.Code.Bytes
import GmlLift.Proofs.Flow.SplitPoints
import GmlLift.Proofs.Code.Lines
import GmlLift.Proofs.Build.Leniency
import GmlLift.Proofs.Lift.Prescan
import GmlLift.Proofs.Code.Written
import GmlLift.Proofs.Clean.EnumRecords
import GmlLift.Proofs.Clean.StepLoops
import GmlLift.Proofs.Lift.Naming
import GmlLift.Proofs.Flow.Nesting
import GmlLift.Proofs.Flow.StepJumps
import GmlLift.Proofs.Build.ShortCircuitChain
import GmlLift.Proofs.Build.Depth
import GmlLift.Proofs.Flow.Acyclic
import GmlLift.Proofs.Frame.Height
import GmlLift.Proofs.Frame.PostOrder
import GmlLift.Proofs.Build.LoopLayouts
import GmlLift.Proofs.Flow.SwitchEnd
import GmlLift.Proofs.Build.Handlers
import GmlLift.Proofs.Flow.Acceptance
import GmlLift.Proofs.Frame.Stores
import GmlLift.Proofs.Frame.Substitution
import GmlLift.Proofs.Clean.Executions
import GmlLift.Proofs.Build.Conditionals
import GmlLift.Proofs.Naming.Again
import GmlLift.Proofs.Naming.Loading
import GmlLift.Proofs.Source.Indentation
import GmlLift.Proofs.Source.Unambiguous
import GmlLift.Proofs.Lift.Bindings
import GmlLift.Proofs.Lift.Calls
import GmlLift.Proofs.Tree.SameAs
import GmlLift.Proofs.Tree.Walks
