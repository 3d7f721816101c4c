import WasmMachine.Trap
import WasmMachine.Value

/-!
# Frames

The evaluation stack holds three kinds of frames in one sequence: values, the labels of open
blocks, and the activations of functions that have not returned. A code point is a place in a
code buffer, either in the body of a defined function or in the short driver sequence that
starts an invocation.
-/

namespace WasmMachine

/-! ## Places in code -/

/-- A code buffer. -/
inductive CodeRef where
  /-- The sequence of calls that starts an invocation. -/
  | driver
  /-- The body of a defined function, by its place among the defined functions. -/
  | function (index : Nat)
  deriving DecidableEq, Repr, Hashable

/-- The text of a code buffer in journal records. -/
def CodeRef.text : CodeRef → String
  | .driver => "Driver"
  | .function index => "Function(" ++ toString index ++ ")"

/-- A place in a code buffer. -/
structure CodePoint where
  code : CodeRef
  offset : Nat
  deriving DecidableEq, Repr, Hashable

/-! ## Frames -/

/-- The kinds of structured blocks. -/
inductive LabelKind where
  | block
  | loop
  | ifThen
  deriving DecidableEq, Repr

/-- The label of an open block. -/
structure LabelFrame where
  kind : LabelKind
  blockType : BlockType
  /-- Where execution goes on after a branch, in the code buffer of the block. -/
  continuation : Nat
  deriving DecidableEq, Repr

namespace LabelFrame

/-- The types of the values that a branch carries. A branch to a loop starts it again and
carries nothing. -/
def branchArity (l : LabelFrame) : List ValueType :=
  match l.kind with
  | .loop => []
  | .block => l.blockType.results
  | .ifThen => l.blockType.results

/-- The types of the values that are left when control reaches the end of the block. -/
def resultArity (l : LabelFrame) : List ValueType := l.blockType.results

end LabelFrame

/-- The activation of a function. -/
structure ActivationFrame where
  /-- The function index; the driver has none. -/
  function : Option UInt32
  locals : Array Value
  /-- Where the caller goes on; the outermost activation has no caller. -/
  returnTo : Option CodePoint
  signature : FunctionType
  deriving DecidableEq, Repr

/-- The types of the values that a function returns. -/
def ActivationFrame.resultArity (a : ActivationFrame) : List ValueType := a.signature.results

/-- An entry of the evaluation stack. -/
inductive Frame where
  | value (v : Value)
  | label (l : LabelFrame)
  | activation (a : ActivationFrame)
  deriving DecidableEq, Repr

/-- The kinds of frames. -/
inductive FrameKind where
  | value
  | label
  | activation
  deriving DecidableEq, Repr

/-- The kind of a frame. -/
def Frame.kind : Frame → FrameKind
  | .value _ => .value
  | .label _ => .label
  | .activation _ => .activation

/-- The value in a value frame. -/
def Frame.value? : Frame → Option Value
  | .value v => some v
  | .label _ => none
  | .activation _ => none

/-- The label in a label frame. -/
def Frame.label? : Frame → Option LabelFrame
  | .label l => some l
  | .value _ => none
  | .activation _ => none

/-- The activation in an activation frame. -/
def Frame.activation? : Frame → Option ActivationFrame
  | .activation a => some a
  | .value _ => none
  | .label _ => none

end WasmMachine
