import WasmMachine.Binary.Cursor
import WasmMachine.Binary.Error
import WasmMachine.Binary.Loader
import WasmMachine.Binary.Section
import WasmMachine.Blocks
import WasmMachine.Bytes
import WasmMachine.Cli
import WasmMachine.Config
import WasmMachine.Config.Json
import WasmMachine.Directory
import WasmMachine.Floating.Arithmetic
import WasmMachine.Floating.Decimal
import WasmMachine.Floating.Format
import WasmMachine.Floating.Hex
import WasmMachine.Frame
import WasmMachine.Instance
import WasmMachine.Integer
import WasmMachine.Journal
import WasmMachine.Json.Scanner
import WasmMachine.Leb128
import WasmMachine.Machine.Basic
import WasmMachine.Machine.Control
import WasmMachine.Machine.Data
import WasmMachine.Machine.Numeric
import WasmMachine.Machine.Step
import WasmMachine.Main
import WasmMachine.Memo
import WasmMachine.Memory
import WasmMachine.Module
import WasmMachine.Module.Summary
import WasmMachine.Opcode
import WasmMachine.Operands
import WasmMachine.Proofs.Binary.Assembly
import WasmMachine.Proofs.Binary.Encoding
import WasmMachine.Proofs.Binary.Insertion
import WasmMachine.Proofs.Binary.Layout
import WasmMachine.Proofs.Binary.Locality
import WasmMachine.Proofs.Binary.Readers
import WasmMachine.Proofs.Binary.Truncation
import WasmMachine.Proofs.Code.Boundary
import WasmMachine.Proofs.Code.Delimiters
import WasmMachine.Proofs.Code.Forms
import WasmMachine.Proofs.Code.Instruction
import WasmMachine.Proofs.Code.Plan
import WasmMachine.Proofs.Config.Settings
import WasmMachine.Proofs.Floating.Meaning
import WasmMachine.Proofs.Floating.Rounding
import WasmMachine.Proofs.Guarded.Basic
import WasmMachine.Proofs.Guarded.Loading
import WasmMachine.Proofs.Guarded.Machine
import WasmMachine.Proofs.Guarded.Session
import WasmMachine.Proofs.Guarded.Stack
import WasmMachine.Proofs.Instance.Constancy
import WasmMachine.Proofs.Instance.Constants
import WasmMachine.Proofs.Instance.Description
import WasmMachine.Proofs.Instance.Initializers
import WasmMachine.Proofs.Instance.Phases
import WasmMachine.Proofs.Instance.Segments
import WasmMachine.Proofs.Json.Grammar
import WasmMachine.Proofs.Json.Numbers
import WasmMachine.Proofs.Json.Scanning
import WasmMachine.Proofs.Leb128.Meaning
import WasmMachine.Proofs.Leb128.Register
import WasmMachine.Proofs.Leb128.Shortest
import WasmMachine.Proofs.Machine.Branching
import WasmMachine.Proofs.Machine.Callers
import WasmMachine.Proofs.Machine.Causes
import WasmMachine.Proofs.Machine.Effect
import WasmMachine.Proofs.Machine.Failing
import WasmMachine.Proofs.Machine.Invocation
import WasmMachine.Proofs.Machine.Isolation
import WasmMachine.Proofs.Machine.Keeping
import WasmMachine.Proofs.Machine.OperandLaws
import WasmMachine.Proofs.Machine.Operands
import WasmMachine.Proofs.Machine.Refinement
import WasmMachine.Proofs.Machine.Region
import WasmMachine.Proofs.Machine.Thread
import WasmMachine.Proofs.Machine.Transparency
import WasmMachine.Proofs.Numeric.Integers
import WasmMachine.Proofs.Numeric.Truncation
import WasmMachine.Proofs.Session.Arguments
import WasmMachine.Proofs.Session.Boundaries
import WasmMachine.Proofs.Session.CallFrames
import WasmMachine.Proofs.Session.Failures
import WasmMachine.Proofs.Session.History
import WasmMachine.Proofs.Session.IndirectCalls
import WasmMachine.Proofs.Session.Lengths
import WasmMachine.Proofs.Session.Limits
import WasmMachine.Proofs.Session.Locations
import WasmMachine.Proofs.Session.Results
import WasmMachine.Proofs.Session.Stages
import WasmMachine.Proofs.Stack.Activities
import WasmMachine.Proofs.Stack.Frames
import WasmMachine.Proofs.Stack.Locals
import WasmMachine.Proofs.Stack.Scan
import WasmMachine.Proofs.Stack.Unwinding
import WasmMachine.Proofs.Store.Accesses
import WasmMachine.Proofs.Store.Buffers
import WasmMachine.Proofs.Store.Growth
import WasmMachine.Proofs.Store.Numbers
import WasmMachine.Proofs.Structured.Driver
import WasmMachine.Proofs.Structured.Evaluator
import WasmMachine.Proofs.Structured.Labels
import WasmMachine.Proofs.Structured.Nesting
import WasmMachine.Proofs.Structured.Refinement
import WasmMachine.Proofs.Structured.Runs
import WasmMachine.Proofs.Structured.Sequence
import WasmMachine.Proofs.Structured.Simulation
import WasmMachine.Proofs.Typing.Instances
import WasmMachine.Proofs.Typing.Instructions
import WasmMachine.Proofs.Typing.Preservation
import WasmMachine.Proofs.Typing.Rules
import WasmMachine.Proofs.Typing.Soundness
import WasmMachine.Proofs.Value.Decimal
import WasmMachine.Report
import WasmMachine.Session
import WasmMachine.Stack
import WasmMachine.Table
import WasmMachine.Trap
import WasmMachine.Types
import WasmMachine.Value
import WasmMachine.Value.Text
