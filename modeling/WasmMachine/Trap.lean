import WasmMachine.Floating.Decimal
import WasmMachine.Integer
import WasmMachine.Leb128

/-!
# Traps

A trap is the reason why an instantiation fails or a running instruction stops. It holds the
values and types that it is about; the wording and the code of its class are functions on it.
A fault is a trap together with the byte offset of the instruction that raised it, once that
is known. The offset that is attached first stays.

* `Fault.located_located`: attaching a second offset changes nothing.
-/

namespace WasmMachine

/-- Why an initializer expression is refused. -/
inductive InitError where
  /-- The expression is not one constant followed by its end. -/
  | notConstant (expr : Bytes)
  /-- A global of one type has an initializer of another. -/
  | globalType (found declared : ValueType)
  /-- The offset of a segment is no `i32`. -/
  | offsetType (found : ValueType)
  deriving DecidableEq, Repr

/-- The wording of an initializer error. -/
def InitError.message : InitError → String
  | .notConstant expr => "expected a single constant, got " ++ expr.hex
  | .globalType found declared =>
    found.text ++ " initializer for a " ++ declared.text ++ " global"
  | .offsetType found => "segment offset must be i32, got " ++ found.text

/-- What a call found in place of its parameters. -/
inductive FoundParams where
  /-- Arguments of these types were passed from outside. -/
  | arguments (types : List ValueType)
  /-- The stack held no value. -/
  | nothing
  /-- The stack held a value of this type. -/
  | value (type : ValueType)
  deriving DecidableEq, Repr

/-- The text of what was found in place of parameters. -/
def FoundParams.text : FoundParams → String
  | .arguments types => "(" ++ ValueType.listText types ++ ")"
  | .nothing => "nothing"
  | .value type => type.text

/-- Why instantiation or execution stops. -/
inductive Trap where
  | memoryExceedsMax (initial maximum : Nat)
  | dataExceedsMemory (offset len size : Nat)
  | tableExceedsMax (initial maximum : Nat)
  | elementsExceedTable (offset len size : Nat)
  | noTable
  | noMemory
  | invalidInitExpr (reason : InitError)
  | unsupportedImport (module name : String)
  | entryNotFound (name : String)
  | memoryAccessOutOfBounds (address width size : Nat)
  | tableAccessOutOfBounds (slot : UInt32)
  | uninitializedElement (slot : UInt32)
  | missingFunctionParams (expected : FunctionType) (actual : FoundParams)
  | typeMismatch (expected actual : ValueType)
  | unreachable
  | localIndexOutOfBounds (index : UInt32)
  | stackExhausted
  | breakLevelExceeded (depth labels : Nat)
  | arityMismatch (expected actual : List ValueType)
  | noActivation
  | illFormedStructure (offset : Nat)
  | functionIndexOutOfBounds (index : UInt32)
  | typeIndexOutOfBounds (index : UInt32)
  | globalIndexOutOfBounds (index : UInt32)
  | indirectCallTypeMismatch (expected actual : FunctionType)
  | immutableGlobal (index : UInt32)
  | divisionByZero
  | notRepresentable
  /-- A float, widened to 64 bits, is no integer of the target type. -/
  | floatUnrepresentable (bits : BitVec 64)
  | invalidOpcode (byte : UInt8)
  | malformedImmediate (e : VarintError)
  | unresolvedImport (module name : String)
  | callStackExhausted (depth : Nat)
  | stepLimitExceeded (limit : Nat)
  deriving DecidableEq, Repr

namespace Trap

/-- The trap of a failed integer operation. -/
def ofIntFailure : IntFailure → Trap
  | .divisionByZero => .divisionByZero
  | .notRepresentable => .notRepresentable

/-- Types in brackets. -/
def bracketed (types : List ValueType) : String := "[" ++ ValueType.listText types ++ "]"

/-- The wording of a trap. -/
def message : Trap → String
  | .memoryExceedsMax initial maximum =>
    "The amount of initial memory pages (" ++ toString initial ++ ") exceeds the maximum ("
      ++ toString maximum ++ ")"
  | .dataExceedsMemory offset len size =>
    "The initialized data exceed the memory size: " ++ toString len ++ " bytes at offset "
      ++ toString offset ++ ", memory is " ++ toString size ++ " bytes"
  | .tableExceedsMax initial maximum =>
    "The amount of initial table entries (" ++ toString initial ++ ") exceeds the maximum ("
      ++ toString maximum ++ ")"
  | .elementsExceedTable offset len size =>
    "The initialized elements exceed the table entries: " ++ toString len ++ " at offset "
      ++ toString offset ++ ", table has " ++ toString size
  | .noTable => "No table available"
  | .noMemory => "No memory available"
  | .invalidInitExpr reason => "Invalid initializer expression: " ++ reason.message
  | .unsupportedImport module name => "Unsupported import " ++ module ++ "." ++ name
  | .entryNotFound name => "Entry function not found: " ++ name
  | .memoryAccessOutOfBounds address width size =>
    "Memory access out of bound: " ++ toString width ++ " bytes at " ++ toString address
      ++ ", memory is " ++ toString size ++ " bytes"
  | .tableAccessOutOfBounds slot => "Table access out of bound: " ++ toString slot.toNat
  | .uninitializedElement slot => "Uninitialized table element: " ++ toString slot.toNat
  | .missingFunctionParams expected actual =>
    "Missing function params: expected " ++ expected.text ++ ", got " ++ actual.text
  | .typeMismatch expected actual =>
    "Stack value type mismatch: expected " ++ expected.text ++ ", got " ++ actual.text
  | .unreachable => "Unreachable instruction executed"
  | .localIndexOutOfBounds index => "Illegal local index: " ++ toString index.toNat
  | .stackExhausted => "Exhausted stack access"
  | .breakLevelExceeded depth labels =>
    "Illegal break level " ++ toString depth ++ ", " ++ toString labels ++ " labels in scope"
  | .arityMismatch expected actual =>
    "Arity mismatch: expected " ++ bracketed expected ++ ", got " ++ bracketed actual
  | .noActivation => "No activation frame on the stack"
  | .illFormedStructure offset =>
    "Ill-formed structure: no matching end for the block at offset " ++ toString offset
  | .functionIndexOutOfBounds index =>
    "Function index out of bounds: " ++ toString index.toNat
  | .typeIndexOutOfBounds index =>
    "Function type index out of bounds: " ++ toString index.toNat
  | .globalIndexOutOfBounds index => "Global index out of bounds: " ++ toString index.toNat
  | .indirectCallTypeMismatch expected actual =>
    "Indirect call type mismatch: expected " ++ expected.text ++ ", got " ++ actual.text
  | .immutableGlobal index => "Immutable global changed: " ++ toString index.toNat
  | .divisionByZero => "Integer division by zero"
  | .notRepresentable => "Integer overflow, value not representable"
  | .floatUnrepresentable bits =>
    "Float unrepresentable in integer range: " ++ Floating.text .f64 .plain bits
  | .invalidOpcode byte => "Invalid opcode: " ++ hexText 2 byte.toNat
  | .malformedImmediate e => "Malformed immediate: " ++ e.message
  | .unresolvedImport module name =>
    "Unresolved import " ++ module ++ "." ++ name ++ " called"
  | .callStackExhausted depth => "Call stack exhausted at depth " ++ toString depth
  | .stepLimitExceeded limit =>
    "Step limit of " ++ toString limit ++ " instructions exceeded"

/-- The code of the class that a trap belongs to. -/
def code : Trap → String
  | .memoryExceedsMax .. => "MEM_EXCEED_MAX"
  | .dataExceedsMemory .. => "MEM_DATA_EXCEED_MAX"
  | .tableExceedsMax .. => "TBL_EXCEED_MAX"
  | .elementsExceedTable .. => "TBL_ELEM_EXCEED_MAX"
  | .noTable => "NO_AVAILABLE_TABLES_EXIST"
  | .noMemory => "NO_AVAILABLE_MEM"
  | .invalidInitExpr _ => "INVALID_GLOBAL_SIG"
  | .unsupportedImport .. => "UNSUPPORTED_IMPORT"
  | .entryNotFound _ => "ENTRY_NOT_FOUND"
  | .memoryAccessOutOfBounds .. => "MEM_ACCESS_OOB"
  | .tableAccessOutOfBounds _ => "TBL_ACCESS_OOB"
  | .uninitializedElement _ => "TBL_ACCESS_OOB"
  | .missingFunctionParams .. => "MISSING_FUNC_PARAMS"
  | .typeMismatch .. => "STACK_VAL_TYPE_MISMATCH"
  | .unreachable => "UNREACHABLE"
  | .localIndexOutOfBounds _ => "ILLEGAL_LOCAL_IDX"
  | .stackExhausted => "EXHAUSTED_STACK_ACCESS"
  | .breakLevelExceeded .. => "BREAK_LEVEL_EXCEEDED"
  | .arityMismatch .. => "ARITY_TYPE_MISMATCH"
  | .noActivation => "NO_ACTIV_ON_STACK"
  | .illFormedStructure _ => "ILLFORMED_STRUCTURE"
  | .malformedImmediate _ => "ILLFORMED_STRUCTURE"
  | .functionIndexOutOfBounds _ => "FUNC_TYPE_ACCESS_OOB"
  | .typeIndexOutOfBounds _ => "FUNC_TYPE_ACCESS_OOB"
  | .globalIndexOutOfBounds _ => "GLOBAL_ACCESS_OOB"
  | .indirectCallTypeMismatch .. => "FUNC_TYPE_MISMATCH"
  | .immutableGlobal _ => "IMMUTABLE_GLOBAL_CHANGED"
  | .divisionByZero => "DIVISION_BY_ZERO"
  | .notRepresentable => "VAL_NOT_REPRESENTABLE"
  | .floatUnrepresentable _ => "FLOAT_UNREPRESENTABLE"
  | .invalidOpcode _ => "INVALID_OPCODE"
  | .unresolvedImport .. => "UNRESOLVED_IMPORT"
  | .callStackExhausted _ => "CALL_STACK_EXHAUSTED"
  | .stepLimitExceeded _ => "STEP_LIMIT_EXCEEDED"

end Trap

/-- A trap and, once it is known, the byte offset of the instruction that raised it. -/
structure Fault where
  trap : Trap
  offset : Option Nat := none
  deriving DecidableEq, Repr

namespace Fault

/-- Attaches a byte offset unless the fault has one already. -/
def located (f : Fault) (offset : Nat) : Fault :=
  match f.offset with
  | some _ => f
  | none => { f with offset := some offset }

/-- The offset that is attached first stays. -/
@[simp] theorem located_located (f : Fault) (first second : Nat) :
    (f.located first).located second = f.located first := by
  cases hOffset : f.offset <;> simp [located, hOffset]

end Fault

end WasmMachine
