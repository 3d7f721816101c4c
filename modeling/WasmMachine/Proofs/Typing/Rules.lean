import WasmMachine.Instance
import WasmMachine.Proofs.Structured.Sequence

/-!
# Validation

The rules that make code valid. A context lists what code may refer to; an instruction takes
operands of some types from the top and leaves operands of others, whatever stands below them. An
instruction that never passes control on, a branch for instance, may be given any types after it.
The body of a construct starts without operands and ends with exactly its results.

All lists of operand types are topmost first, like the operands of a region, so the parameters and
results of a signature appear reversed.

* `Sequence.Typed`: the typing of well-nested code.
* `Module.Valid`: the validity of a module. The rules on what instantiation checks itself, and those
  that concern no execution, are left out: without them more modules are valid.
* `Trap.Dynamic`: the traps that no validation excludes.
-/

namespace WasmMachine

/-- What code may refer to. The last three fields change from one function or construct to the
next; `labels` are the types that branches to the enclosing constructs carry, innermost first. -/
structure Context where
  types : Array FunctionType
  signature? : UInt32 → Option FunctionType
  globals : Array GlobalType
  memories : Nat
  tables : Nat
  locals : Array ValueType := #[]
  labels : List (List ValueType) := []
  results : List ValueType := []

namespace Context

/-- The context of the body of a construct. -/
def inside (C : Context) (arity : List ValueType) : Context :=
  { C with labels := arity :: C.labels }

/-- The context of the body of a function. -/
def within (C : Context) (locals : Array ValueType) (results : List ValueType) : Context :=
  { C with locals, labels := [results], results }

end Context

/-! ## Instructions without control -/

def Conversion.source : Conversion → ValueType
  | .wrap => .i64
  | .extend _ => .i32
  | .trunc _ source _ => source.valueType
  | .convert _ source _ => source.valueType
  | .demote => .f64
  | .promote => .f32
  | .bitsOfFloat .i32 => .f32
  | .bitsOfFloat .i64 => .f64
  | .floatOfBits .f32 => .i32
  | .floatOfBits .f64 => .i64

def Conversion.target : Conversion → ValueType
  | .wrap => .i32
  | .extend _ => .i64
  | .trunc target _ _ => target.valueType
  | .convert target _ _ => target.valueType
  | .demote => .f32
  | .promote => .f64
  | .bitsOfFloat target => target.valueType
  | .floatOfBits target => target.valueType

/-- The types of the operands of a numeric operation. -/
def Numeric.operandTypes : Numeric → List ValueType
  | .eqz t => [t.valueType]
  | .compareInt t _ => [t.valueType, t.valueType]
  | .compareFloat t _ => [t.valueType, t.valueType]
  | .unaryInt t _ => [t.valueType]
  | .binaryInt t _ => [t.valueType, t.valueType]
  | .unaryFloat t _ => [t.valueType]
  | .binaryFloat t _ => [t.valueType, t.valueType]
  | .convert c => [c.source]

def Numeric.resultType : Numeric → ValueType
  | .eqz _ => .i32
  | .compareInt _ _ => .i32
  | .compareFloat _ _ => .i32
  | .unaryInt t _ => t.valueType
  | .binaryInt t _ => t.valueType
  | .unaryFloat t _ => t.valueType
  | .binaryFloat t _ => t.valueType
  | .convert c => c.target

def LoadOp.type : LoadOp → ValueType
  | .full t => t
  | .packed t _ _ => t.valueType

/-- An instruction without control takes operands of the first types and leaves operands of the
second. -/
inductive Simple.Typed (C : Context) : Simple → List ValueType → List ValueType → Prop
  | unreachable (ts us : List ValueType) : Typed C .unreachable ts us
  | nop : Typed C .nop [] []
  | drop (t : ValueType) : Typed C .drop [t] []
  | select (t : ValueType) : Typed C .select [.i32, t, t] [t]
  | localGet {index : UInt32} {t : ValueType} (declared : C.locals[index.toNat]? = some t) :
      Typed C (.localGet index) [] [t]
  | localSet {index : UInt32} {t : ValueType} (declared : C.locals[index.toNat]? = some t) :
      Typed C (.localSet index) [t] []
  | localTee {index : UInt32} {t : ValueType} (declared : C.locals[index.toNat]? = some t) :
      Typed C (.localTee index) [t] [t]
  | globalGet {index : UInt32} {g : GlobalType} (declared : C.globals[index.toNat]? = some g) :
      Typed C (.globalGet index) [] [g.type]
  | globalSet {index : UInt32} {g : GlobalType} (declared : C.globals[index.toNat]? = some g)
      (assignable : g.isMutable = true) : Typed C (.globalSet index) [g.type] []
  | load {op : LoadOp} {offset : UInt32} (memory : 0 < C.memories) :
      Typed C (.load op offset) [.i32] [op.type]
  | store {op : StoreOp} {offset : UInt32} (memory : 0 < C.memories) :
      Typed C (.store op offset) [op.type, .i32] []
  | memorySize (memory : 0 < C.memories) : Typed C .memorySize [] [.i32]
  | memoryGrow (memory : 0 < C.memories) : Typed C .memoryGrow [.i32] [.i32]
  | const (v : Value) : Typed C (.const v) [] [v.type]
  | numeric (n : Numeric) : Typed C (.numeric n) n.operandTypes [n.resultType]

/-! ## Control -/

/-- The typing of instructions without a body. After a branch that is always taken, the operands
below those that it carries and the operands it leaves have any types. -/
inductive Leaf.Typed (C : Context) : Leaf → List ValueType → List ValueType → Prop
  | simple {s : Simple} {ins outs : List ValueType} (typed : s.Typed C ins outs) :
      Typed C (.simple s) ins outs
  | branch {depth : UInt32} {arity : List ValueType}
      (label : C.labels[depth.toNat]? = some arity) (ts us : List ValueType) :
      Typed C (.branch depth) (arity.reverse ++ ts) us
  | branchIf {depth : UInt32} {arity : List ValueType}
      (label : C.labels[depth.toNat]? = some arity) :
      Typed C (.branchIf depth) (.i32 :: arity.reverse) arity.reverse
  | branchTable {depths : Array UInt32} {default : UInt32} {arity : List ValueType}
      (label : C.labels[default.toNat]? = some arity)
      (labels : ∀ depth ∈ depths, C.labels[depth.toNat]? = some arity)
      (ts us : List ValueType) :
      Typed C (.branchTable depths default) (.i32 :: (arity.reverse ++ ts)) us
  | ret (ts us : List ValueType) : Typed C .ret (C.results.reverse ++ ts) us
  | call {index : UInt32} {signature : FunctionType}
      (declared : C.signature? index = some signature) :
      Typed C (.call index) signature.parameters.reverse signature.results.reverse
  | callIndirect {typeIndex : UInt32} {signature : FunctionType} (table : 0 < C.tables)
      (declared : C.types[typeIndex.toNat]? = some signature) :
      Typed C (.callIndirect typeIndex) (.i32 :: signature.parameters.reverse)
        signature.results.reverse

/-- The typing of a sequence: from operands of exactly the first types it comes to its end with
operands of exactly the second. -/
inductive Sequence.Typed : Context → List ValueType → Sequence → List ValueType → Prop
  | stop {C : Context} {place : Nat} (ts : List ValueType) : Typed C ts (.stop place) ts
  | leaf {C : Context} {place : Nat} {i : Leaf} {rest : Sequence} {us : List ValueType}
      (ins outs ts : List ValueType) (head : i.Typed C ins outs)
      (tail : Typed C (outs ++ ts) rest us) : Typed C (ins ++ ts) (.leaf place i rest) us
  | block {C : Context} {place : Nat} {t : BlockType} {body rest : Sequence}
      {ts us : List ValueType} (inside : Typed (C.inside t.results) [] body t.results.reverse)
      (tail : Typed C (t.results.reverse ++ ts) rest us) : Typed C ts (.block place t body rest) us
  | loop {C : Context} {place : Nat} {t : BlockType} {body rest : Sequence}
      {ts us : List ValueType} (inside : Typed (C.inside []) [] body t.results.reverse)
      (tail : Typed C (t.results.reverse ++ ts) rest us) : Typed C ts (.loop place t body rest) us
  | ifThen {C : Context} {place : Nat} {arm rest : Sequence} {ts us : List ValueType}
      (inside : Typed (C.inside []) [] arm []) (tail : Typed C ts rest us) :
      Typed C (.i32 :: ts) (.ifThen place .empty arm rest) us
  | ifElse {C : Context} {place : Nat} {t : BlockType} {arm other rest : Sequence}
      {ts us : List ValueType} (first : Typed (C.inside t.results) [] arm t.results.reverse)
      (second : Typed (C.inside t.results) [] other t.results.reverse)
      (tail : Typed C (t.results.reverse ++ ts) rest us) :
      Typed C (.i32 :: ts) (.ifElse place t arm other rest) us

/-! ## Modules -/

namespace Module

def importedGlobals (m : Module) : Array GlobalType :=
  m.imports.filterMap fun i =>
    match i.kind with
    | .global type => some type
    | _ => none

def importedMemories (m : Module) : Array Limits :=
  m.imports.filterMap fun i =>
    match i.kind with
    | .memory limits => some limits
    | _ => none

def importedTables (m : Module) : Array Limits :=
  m.imports.filterMap fun i =>
    match i.kind with
    | .table limits => some limits
    | _ => none

/-- The context that a module gives its code: imports come before what it defines. -/
def context (m : Module) : Context where
  types := m.types
  signature? := m.functionType?
  globals := m.importedGlobals ++ m.globals.map (·.type)
  memories := m.importedMemories.size + m.memories.size
  tables := m.importedTables.size + m.tables.size

end Module

/-- A function body is an encoding of well-nested code, which starts without operands and ends with
the results of the function. The parameters are its first locals. -/
def FunctionBody.Typed (C : Context) (signature : FunctionType) (body : FunctionBody) : Prop :=
  ∃ s : Sequence, Encodes body.code endByte 0 s ∧
    s.Typed (C.within (signature.parameters.toArray ++ body.locals) signature.results) []
      signature.results.reverse

/-- A valid module: every declared function has a body of its type, and the start function takes
and gives nothing. -/
structure Module.Valid (m : Module) : Prop where
  bodies : m.code.size = m.functions.size
  code : ∀ (place : Nat) (typeIndex : UInt32) (body : FunctionBody),
    m.functions[place]? = some typeIndex → m.code[place]? = some body →
      ∃ signature, m.types[typeIndex.toNat]? = some signature ∧ body.Typed m.context signature
  start : ∀ index, m.start = some index → m.functionType? index = some ⟨[], []⟩

/-! ## Traps -/

/-- The traps that depend on values, on the imports and on the settings, and that valid code can
therefore raise. -/
inductive Trap.Dynamic : Trap → Prop
  | unreachable : Dynamic .unreachable
  | divisionByZero : Dynamic .divisionByZero
  | notRepresentable : Dynamic .notRepresentable
  | floatUnrepresentable (bits : BitVec 64) : Dynamic (.floatUnrepresentable bits)
  | memoryAccessOutOfBounds (address width size : Nat) :
      Dynamic (.memoryAccessOutOfBounds address width size)
  | tableAccessOutOfBounds (slot : UInt32) : Dynamic (.tableAccessOutOfBounds slot)
  | uninitializedElement (slot : UInt32) : Dynamic (.uninitializedElement slot)
  | indirectCallTypeMismatch (expected actual : FunctionType) :
      Dynamic (.indirectCallTypeMismatch expected actual)
  | unresolvedImport (module name : String) : Dynamic (.unresolvedImport module name)
  | callStackExhausted (depth : Nat) : Dynamic (.callStackExhausted depth)
  | stepLimitExceeded (limit : Nat) : Dynamic (.stepLimitExceeded limit)

end WasmMachine
