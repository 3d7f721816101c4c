import WasmMachine.Binary.Cursor
import WasmMachine.Module
import WasmMachine.Operands

/-!
# Sections

A binary module is a header and a sequence of sections, each with its id and length. Here each
kind of section is read from its payload. A reader does not stop at the end of its section by
itself: the loader compares what was consumed with the declared length.

* `Reader.initExpr` takes an initializer up to and including its first `end` and keeps it in
  binary form. It admits any opcode without operands or with a constant operand; whether the
  expression is a constant is decided at instantiation.
* `readSection` reads the payload of a section of a given id.
-/

namespace WasmMachine

/-- The content of a section. -/
inductive Section where
  | custom (c : CustomSection)
  | types (ts : Array FunctionType)
  | imports (is : Array Import)
  | functions (typeIndices : Array UInt32)
  | tables (ts : Array Limits)
  | memories (ms : Array Limits)
  | globals (gs : Array GlobalDecl)
  | exports (es : Array Export)
  | start (function : UInt32)
  | elements (es : Array ElementSegment)
  | code (bodies : Array FunctionBody)
  | data (ds : Array DataSegment)
  deriving DecidableEq, Repr

/-- The greatest number of locals that a body may declare. -/
def maxLocals : Nat := 50000

namespace Reader

/-! ## Types -/

/-- A value type. -/
def valueType : Reader ValueType := do
  let pos ← position
  let b ← byte
  match ValueType.ofByte? b with
  | some t => return t
  | none => failAt (.invalidValueType b) pos

/-- The types of parameters or results. -/
def resultTypes : Reader (List ValueType) := do
  return (← vector valueType).toList

/-- A function signature. -/
def functionType : Reader FunctionType := do
  let pos ← position
  let form ← byte
  if form ≠ 0x60 then failAt (.invalidFunctionType form) pos
  else
    let parameters ← resultTypes
    let results ← resultTypes
    return { parameters, results }

/-- A declared size: a flag that tells whether a maximum follows. -/
def limits : Reader Limits := do
  let pos ← position
  let flag ← byte
  if flag = 0 then
    let min ← u32
    return { min, max := none }
  else if flag = 1 then
    let min ← u32
    let max ← u32
    return { min, max := some max }
  else failAt (.invalidLimits flag) pos

/-- The type of a table, whose elements are functions. -/
def tableType : Reader Limits := do
  let pos ← position
  let element ← byte
  if element ≠ 0x70 then failAt (.invalidElementType element) pos else limits

/-- The type of a global. -/
def globalType : Reader GlobalType := do
  let type ← valueType
  let pos ← position
  let flag ← byte
  if flag = 0 then return { type, isMutable := false }
  else if flag = 1 then return { type, isMutable := true }
  else failAt (.invalidGlobalSignature flag) pos

/-! ## Initializers -/

/-- Reads and drops the operands that an opcode has in an initializer. -/
def initOperands (opcode : UInt8) (pos : Nat) : Reader Unit :=
  match (Opcode.ofByte? opcode).map Opcode.operands with
  | some .empty => pure ()
  | some .varU32 => do let _ ← u32
  | some .varS32 => do let _ ← s32
  | some .varS64 => do let _ ← s64
  | some .float32 => do let _ ← bytes 4
  | some .float64 => do let _ ← bytes 8
  | _ => failAt (.invalidInitExpr opcode) pos

/-- Reads instructions up to and including the first `end`, at most `fuel` of them. -/
def initInstructions : (fuel : Nat) → Reader Unit
  | 0 => failHere .unexpectedEof
  | fuel + 1 => do
    let pos ← position
    let opcode ← byte
    if opcode = endByte then return
    else
      initOperands opcode pos
      initInstructions fuel

/-- The bytes from a position up to the one that has been reached. -/
def consumedSince (start : Nat) : Reader Bytes := fun c => .ok (c.slice start c.pos) c

/-- The number of bytes that are left. -/
def remaining : Reader Nat := fun c => .ok c.remaining c

/-- An initializer in binary form. Every instruction takes a byte at least, so there are never
more instructions than bytes. -/
def initExpr : Reader Bytes := do
  let start ← position
  let left ← remaining
  initInstructions (left + 1)
  consumedSince start

/-! ## Entries -/

/-- An import. -/
def importEntry : Reader Import := do
  let module ← string
  let name ← string
  let pos ← position
  let kind ← byte
  if kind = 0 then return { module, name, kind := .function (← u32) }
  else if kind = 1 then return { module, name, kind := .table (← tableType) }
  else if kind = 2 then return { module, name, kind := .memory (← limits) }
  else if kind = 3 then return { module, name, kind := .global (← globalType) }
  else failAt (.invalidExternalKind kind) pos

/-- The type index of a defined function, which must be one of `typeCount` types. -/
def typeIndex (typeCount : Nat) : Reader UInt32 := do
  let pos ← position
  let index ← u32
  if typeCount ≤ index.toNat then failAt (.typeIndexOutOfBounds index) pos else return index

/-- A global with its initializer. -/
def globalEntry : Reader GlobalDecl := do
  let type ← globalType
  let init ← initExpr
  return { type, init }

/-- An export. -/
def exportEntry : Reader Export := do
  let name ← string
  let pos ← position
  let kind ← byte
  let index ← u32
  if kind = 0 then return { name, target := .function index }
  else if kind = 1 then return { name, target := .table index }
  else if kind = 2 then return { name, target := .memory index }
  else if kind = 3 then return { name, target := .global index }
  else failAt (.invalidExternalKind kind) pos

/-- An element segment. -/
def elementEntry : Reader ElementSegment := do
  let table ← u32
  let offset ← initExpr
  let functions ← vector u32
  return { table, offset, functions }

/-- A data segment. -/
def dataEntry : Reader DataSegment := do
  let memory ← u32
  let offset ← initExpr
  let bytes ← byteVector
  return { memory, offset, bytes }

/-! ## Bodies -/

/-- Locals in runs of one type, `count` runs, added to the locals found before. -/
def localRuns : (count : Nat) → (found : Array ValueType) → Reader (Array ValueType)
  | 0, found => pure found
  | count + 1, found => do
    let pos ← position
    let n ← u32
    let total := found.size + n.toNat
    if maxLocals < total then failAt (.tooManyLocals total) pos
    else
      let type ← valueType
      localRuns count (found ++ Array.replicate n.toNat type)

/-- A function body: its size, its locals, and the code in the rest of the size, which must end
with `end`. -/
def bodyEntry : Reader FunctionBody := do
  let size ← u32
  let start ← position
  if !(← hasAtLeast size.toNat) then failHere .unexpectedEof
  else
    let runs ← u32
    let locals ← localRuns runs.toNat #[]
    let position ← position
    if size.toNat < position - start then failHere .unexpectedEof
    else
      let code ← bytes (size.toNat - (position - start))
      if code.back? ≠ some endByte then failHere .unexpectedEof
      else return { locals, code, position }

/-- A custom section of `len` bytes: a name and whatever follows it. -/
def customSection (len : Nat) : Reader CustomSection := do
  let start ← position
  let name ← string
  let used := (← position) - start
  if len < used then failHere .unexpectedEof
  else
    let bytes ← bytes (len - used)
    return { name, bytes }

end Reader

/-- Reads the payload of a section of `len` bytes in a module with `typeCount` types so far. -/
def readSection (id : UInt8) (len typeCount : Nat) : Reader Section :=
  match id.toNat with
  | 0 => return .custom (← Reader.customSection len)
  | 1 => return .types (← Reader.vector Reader.functionType)
  | 2 => return .imports (← Reader.vector Reader.importEntry)
  | 3 => return .functions (← Reader.vector (Reader.typeIndex typeCount))
  | 4 => return .tables (← Reader.vector Reader.tableType)
  | 5 => return .memories (← Reader.vector Reader.limits)
  | 6 => return .globals (← Reader.vector Reader.globalEntry)
  | 7 => return .exports (← Reader.vector Reader.exportEntry)
  | 8 => return .start (← Reader.u32)
  | 9 => return .elements (← Reader.vector Reader.elementEntry)
  | 10 => return .code (← Reader.vector Reader.bodyEntry)
  | 11 => return .data (← Reader.vector Reader.dataEntry)
  | _ => Reader.failHere (.invalidSectionId id)

/-- The module with the content of one more section. -/
def Module.extend (m : Module) : Section → Module
  | .custom c => { m with custom := m.custom.push c }
  | .types ts => { m with types := m.types ++ ts }
  | .imports is => { m with imports := m.imports ++ is }
  | .functions typeIndices => { m with functions := m.functions ++ typeIndices }
  | .tables ts => { m with tables := m.tables ++ ts }
  | .memories ms => { m with memories := m.memories ++ ms }
  | .globals gs => { m with globals := m.globals ++ gs }
  | .exports es => { m with exports := m.exports ++ es }
  | .start function => { m with start := some function }
  | .elements es => { m with elements := m.elements ++ es }
  | .code bodies => { m with code := m.code ++ bodies }
  | .data ds => { m with data := m.data ++ ds }

end WasmMachine
