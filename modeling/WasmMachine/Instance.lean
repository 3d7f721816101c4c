import WasmMachine.Config
import WasmMachine.Journal
import WasmMachine.Memory
import WasmMachine.Module
import WasmMachine.Operands
import WasmMachine.Table
import WasmMachine.Value

/-!
# Instances

Instantiation turns a module description into a program, which never changes, and a store,
which execution works on. It goes through imports, globals, functions, memories and their data,
tables and their elements, and the start function, and stops at the first that is not in order.

* `evaluateConst` gives the value of an initializer, which must be one constant and its `end`.
* `instantiate` builds an instance; `instantiateRecorded` also records the phases it completed.
-/

namespace WasmMachine

/-! ## Programs and stores -/

/-- A function that the module defines. -/
structure Function where
  /-- The index in the function index space. -/
  index : Nat
  typeIndex : UInt32
  signature : FunctionType
  code : Bytes
  /-- The offset of the code in the binary module. -/
  position : Nat
  /-- The locals of a new activation: parameters, then declared locals, all zero. -/
  locals : Array Value
  deriving DecidableEq, Repr

/-- A function that the module imports. It has no code, so calling it traps. -/
structure ImportedFunction where
  module : String
  name : String
  signature : FunctionType
  deriving DecidableEq, Repr

/-- The part of an instance that execution reads and never changes. -/
structure Program where
  types : Array FunctionType
  imported : Array ImportedFunction
  functions : Array Function
  start : Option UInt32
  /-- The index of the configured entry function, if the module exports one. -/
  entry : Option UInt32
  deriving DecidableEq, Repr

/-- A global of an instance. -/
structure Global where
  value : Value
  isMutable : Bool
  deriving DecidableEq, Repr

/-- The part of an instance that execution changes. -/
structure Store where
  globals : Array Global
  memories : Array Memory
  tables : Array Table
  /-- How often each defined function was called. -/
  callCounts : Array Nat

/-- A program with its store. -/
structure Instance where
  program : Program
  store : Store

/-- A function of the index space. -/
inductive Callee where
  | imported (f : ImportedFunction)
  /-- A defined function and its place among the defined functions. -/
  | defined (place : Nat) (f : Function)
  deriving DecidableEq, Repr

/-- The signature of a function of the index space. -/
def Callee.signature : Callee → FunctionType
  | .imported f => f.signature
  | .defined _ f => f.signature

namespace Program

/-- The number of functions in the index space. -/
def functionCount (p : Program) : Nat := p.imported.size + p.functions.size

/-- The function of an index: the imported ones come first. -/
def callee (p : Program) (index : UInt32) : Except Trap Callee :=
  match p.imported[index.toNat]? with
  | some f => .ok (.imported f)
  | none =>
    let place := index.toNat - p.imported.size
    match p.functions[place]? with
    | some f => .ok (.defined place f)
    | none => .error (.functionIndexOutOfBounds index)

/-- The signature of the function of an index. -/
def signature (p : Program) (index : UInt32) : Except Trap FunctionType :=
  (p.callee index).map Callee.signature

/-- The code of a buffer, given the driver sequence of the current invocation. -/
def codeOf (p : Program) (driver : Bytes) : CodeRef → Bytes
  | .driver => driver
  | .function place =>
    match p.functions[place]? with
    | some f => f.code
    | none => #[]

/-- The byte offset in the binary module of a place in code. Places in the driver sequence are
given as they are. -/
def modulePosition (p : Program) (place : CodePoint) : Nat :=
  match place.code with
  | .driver => place.offset
  | .function i =>
    match p.functions[i]? with
    | some f => f.position + place.offset
    | none => place.offset

end Program

namespace Store

/-- The first memory. -/
def memory (s : Store) : Except Trap Memory :=
  match s.memories[0]? with
  | some m => .ok m
  | none => .error .noMemory

/-- The first table. -/
def table (s : Store) : Except Trap Table :=
  match s.tables[0]? with
  | some t => .ok t
  | none => .error .noTable

end Store

/-! ## Constant expressions -/

/-- The constant at the start of an expression and the offset past it. -/
def constant? (expr : Bytes) : Option (Value × Nat) :=
  match (expr[0]?).bind Opcode.ofByte? with
  | some (.const .i32) =>
    match Leb128.decodeS32 expr 1 with
    | .ok (v, next) => some (.i32 v, next)
    | .error _ => none
  | some (.const .i64) =>
    match Leb128.decodeS64 expr 1 with
    | .ok (v, next) => some (.i64 v, next)
    | .error _ => none
  | some (.const .f32) =>
    (expr.slice? 1 4).map fun b => (.f32 (BitVec.ofNat 32 (littleEndian b.toList)), 5)
  | some (.const .f64) =>
    (expr.slice? 1 8).map fun b => (.f64 (BitVec.ofNat 64 (littleEndian b.toList)), 9)
  | _ => none

/-- The value of an initializer, which must be exactly one constant and its `end`. -/
def evaluateConst (expr : Bytes) : Except Trap Value :=
  match constant? expr with
  | some (v, next) =>
    if expr[next]? = some endByte ∧ expr.size = next + 1 then .ok v
    else .error (.invalidInitExpr (.notConstant expr))
  | none => .error (.invalidInitExpr (.notConstant expr))

/-- The offset of a segment, which must be an `i32` constant and is read as unsigned. -/
def evaluateOffset (expr : Bytes) : Except Trap UInt32 := do
  match ← evaluateConst expr with
  | .i32 bits => return UInt32.ofNat bits.toNat
  | other => throw (.invalidInitExpr (.offsetType other.type))

/-! ## Instantiation -/

namespace Instantiation

/-- The signature of a type index. -/
def signatureOf (m : Module) (typeIndex : UInt32) : Except Trap FunctionType :=
  match m.types[typeIndex.toNat]? with
  | some t => .ok t
  | none => .error (.typeIndexOutOfBounds typeIndex)

/-- The imported functions; any other import is refused. -/
def importFunctions (m : Module) : Except Trap (Array ImportedFunction) :=
  m.imports.mapM fun i =>
    match i.kind with
    | .function typeIndex => do
      return { module := i.module, name := i.name, signature := ← signatureOf m typeIndex }
    | _ => throw (.unsupportedImport i.module i.name)

/-- A global with the value of its initializer, which must have the declared type. -/
def createGlobal (g : GlobalDecl) : Except Trap Global := do
  let value ← evaluateConst g.init
  if value.type = g.type.type then return { value, isMutable := g.type.isMutable }
  else throw (.invalidInitExpr (.globalType value.type g.type.type))

/-- A defined function from its place, its type index and its body. -/
def createFunction (m : Module) (imported : Nat) (place : Nat) (typeIndex : UInt32)
    (body : FunctionBody) : Except Trap Function := do
  let signature ← signatureOf m typeIndex
  return {
    index := imported + place
    typeIndex
    signature
    code := body.code
    position := body.position
    locals := signature.parameters.toArray.map Value.zero ++ body.locals.map Value.zero }

/-- The defined functions. -/
def createFunctions (m : Module) (imported : Nat) : Except Trap (Array Function) :=
  (m.functions.zip m.code).zipIdx.mapM fun ((typeIndex, body), place) =>
    createFunction m imported place typeIndex body

/-- Writes a data segment to its memory. The offset is evaluated before the memory is looked
up. -/
def writeData (memories : Array Memory) (d : DataSegment) : Except Trap (Array Memory) := do
  let offset ← evaluateOffset d.offset
  match memories[d.memory.toNat]? with
  | none => throw .noMemory
  | some memory =>
    match Memory.writeBytes offset.toNat d.bytes.toList memory with
    | .ok _ memory => return memories.setIfInBounds d.memory.toNat memory
    | .error _ memory =>
      throw (.dataExceedsMemory offset.toNat d.bytes.size memory.size)

/-- Writes an element segment to its table. The offset is evaluated first, then the function
indices are checked, then the table is looked up. -/
def writeElements (functionCount : Nat) (tables : Array Table) (e : ElementSegment) :
    Except Trap (Array Table) := do
  let offset ← evaluateOffset e.offset
  match e.functions.find? (functionCount ≤ ·.toNat) with
  | some bad => throw (.functionIndexOutOfBounds bad)
  | none =>
    match tables[e.table.toNat]? with
    | none => throw .noTable
    | some table =>
      match Table.writeElements offset e.functions.toList table with
      | .ok _ table => return tables.setIfInBounds e.table.toNat table
      | .error trap _ => throw trap

/-- Checks that the start function exists. -/
def checkStart (m : Module) (functionCount : Nat) : Except Trap Unit :=
  match m.start with
  | some start =>
    if functionCount ≤ start.toNat then throw (.functionIndexOutOfBounds start) else pure ()
  | none => pure ()

end Instantiation

/-- Instantiation, which records the phases that it completes. -/
abbrev InstantiationM := EStateM Trap Journal

namespace Instantiation

/-- Records an event. -/
def note (e : Event) : InstantiationM Unit := modify (·.note e)

/-- The memories with their data, and the record of that phase. -/
def createMemories (m : Module) (config : Config) : InstantiationM (Array Memory) := do
  let empty ← ofExcept (m.memories.mapM fun l => Memory.create l.min l.max config.maxPages)
  let memories ← ofExcept (m.data.foldlM writeData empty)
  note (.memoriesReady memories.size m.data.size)
  return memories

/-- The tables with their elements. -/
def createTables (m : Module) (config : Config) (functionCount : Nat) :
    Except Trap (Array Table) := do
  let empty ← m.tables.mapM fun l => Table.create l config.maxTableSize
  m.elements.foldlM (writeElements functionCount) empty

/-- The entry function, and the record of whether there is one. -/
def findEntry (m : Module) (config : Config) : InstantiationM (Option UInt32) := do
  match m.exportedFunction? config.entry with
  | some index =>
    note (.entryFound config.entry index)
    return some index
  | none =>
    note (.entryMissing config.entry)
    return none

/-- Builds an instance of a module and records the phases. -/
def run (m : Module) (config : Config) : InstantiationM Instance := do
  let imported ← ofExcept (importFunctions m)
  let globals ← ofExcept (m.globals.mapM createGlobal)
  note (.globalsReady globals.size)
  let functions ← ofExcept (createFunctions m imported.size)
  note (.functionsReady functions.size)
  let memories ← createMemories m config
  let functionCount := imported.size + functions.size
  let tables ← ofExcept (createTables m config functionCount)
  ofExcept (checkStart m functionCount)
  let entry ← findEntry m config
  return {
    program := { types := m.types, imported, functions, start := m.start, entry }
    store := { globals, memories, tables, callCounts := functions.map fun _ => 0 } }

end Instantiation

/-- Builds an instance of a module and adds the phases to a journal. -/
def instantiateRecorded (m : Module) (config : Config) (journal : Journal) :
    Except Trap Instance × Journal :=
  match Instantiation.run m config journal with
  | .ok i journal => (.ok i, journal)
  | .error e journal => (.error e, journal)

/-- Builds an instance of a module. -/
def instantiate (m : Module) (config : Config) : Except Trap Instance :=
  (instantiateRecorded m config {}).1

end WasmMachine
