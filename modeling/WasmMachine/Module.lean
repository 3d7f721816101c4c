import WasmMachine.Bytes
import WasmMachine.Types

/-!
# Module descriptions

What a binary module says, section by section. Imported functions come first in the function
index space, followed by the functions that the module defines. Initializers and bodies stay in
their binary form; a body knows where its code stands in the module.
-/

namespace WasmMachine

/-- What an import asks for. -/
inductive ImportKind where
  | function (typeIndex : UInt32)
  | table (limits : Limits)
  | memory (limits : Limits)
  | global (type : GlobalType)
  deriving DecidableEq, Repr

/-- An import: the module and the name it is looked up by, and what is asked for. -/
structure Import where
  module : String
  name : String
  kind : ImportKind
  deriving DecidableEq, Repr

/-- What an export refers to. -/
inductive ExportTarget where
  | function (index : UInt32)
  | table (index : UInt32)
  | memory (index : UInt32)
  | global (index : UInt32)
  deriving DecidableEq, Repr

/-- A named export. -/
structure Export where
  name : String
  target : ExportTarget
  deriving DecidableEq, Repr

/-- A global and its initializer, which includes the closing `end`. -/
structure GlobalDecl where
  type : GlobalType
  init : Bytes
  deriving DecidableEq, Repr

/-- The body of a defined function. -/
structure FunctionBody where
  /-- The declared locals, one entry for each. -/
  locals : Array ValueType
  /-- The code, which ends with the `end` of the function. -/
  code : Bytes
  /-- The offset of the first code byte in the binary module. -/
  position : Nat
  deriving DecidableEq, Repr

/-- An element segment: function indices that are written to a table. -/
structure ElementSegment where
  table : UInt32
  offset : Bytes
  functions : Array UInt32
  deriving DecidableEq, Repr

/-- A data segment: bytes that are written to a memory. -/
structure DataSegment where
  memory : UInt32
  offset : Bytes
  bytes : Bytes
  deriving DecidableEq, Repr

/-- A custom section, which has no effect on execution. -/
structure CustomSection where
  name : String
  bytes : Bytes
  deriving DecidableEq, Repr

/-- The description of a module. -/
structure Module where
  name : String
  version : UInt32 := 1
  types : Array FunctionType := #[]
  imports : Array Import := #[]
  /-- The type index of each defined function. -/
  functions : Array UInt32 := #[]
  tables : Array Limits := #[]
  memories : Array Limits := #[]
  globals : Array GlobalDecl := #[]
  exports : Array Export := #[]
  start : Option UInt32 := none
  elements : Array ElementSegment := #[]
  code : Array FunctionBody := #[]
  data : Array DataSegment := #[]
  custom : Array CustomSection := #[]
  deriving DecidableEq, Repr

namespace Module

/-- The type indices of the imported functions, in order. -/
def importedTypes (m : Module) : Array UInt32 :=
  m.imports.filterMap fun i =>
    match i.kind with
    | .function typeIndex => some typeIndex
    | _ => none

/-- The number of imported functions. -/
def importedFunctionCount (m : Module) : Nat := m.importedTypes.size

/-- The signature of a function of the index space. -/
def functionType? (m : Module) (index : UInt32) : Option FunctionType :=
  let typeIndex :=
    if index.toNat < m.importedFunctionCount then m.importedTypes[index.toNat]?
    else m.functions[index.toNat - m.importedFunctionCount]?
  typeIndex.bind fun i => m.types[i.toNat]?

/-- The index of the first function that is exported under a name. -/
def exportedFunction? (m : Module) (name : String) : Option UInt32 :=
  m.exports.findSome? fun e =>
    match e.target with
    | .function index => if e.name = name then some index else none
    | _ => none

/-- The first name that a function is exported under. -/
def functionName? (m : Module) (index : UInt32) : Option String :=
  m.exports.findSome? fun e =>
    match e.target with
    | .function i => if i = index then some e.name else none
    | _ => none

end Module

end WasmMachine
