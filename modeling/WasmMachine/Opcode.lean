import WasmMachine.Types

/-!
# Opcodes

The instructions of the machine by families: control, variables, memory, constants and the
numeric operations, which are indexed by the type they work on. A byte stands for an opcode
by its place in one of five runs of consecutive bytes, and the mnemonic of an opcode is put
together from its parts.

* `Opcode.ofByte?` and `Opcode.mnemonic` are the opcode table.
* `Opcode.operands` is the layout of the bytes that follow an opcode in a code body.
-/

namespace WasmMachine

/-! ## Numeric operations -/

/-- How an integer operation reads its operands. -/
inductive Signedness where
  | signed
  | unsigned
  deriving DecidableEq, Repr

/-- The relations between two integers. -/
inductive IntRelation where
  | eq
  | ne
  | lt (s : Signedness)
  | gt (s : Signedness)
  | le (s : Signedness)
  | ge (s : Signedness)
  deriving DecidableEq, Repr

/-- The relations between two floats. -/
inductive FloatRelation where
  | eq
  | ne
  | lt
  | gt
  | le
  | ge
  deriving DecidableEq, Repr

/-- Integer operations with one operand. -/
inductive IntUnary where
  | clz
  | ctz
  | popcnt
  deriving DecidableEq, Repr

/-- Integer operations with two operands. -/
inductive IntBinary where
  | add
  | sub
  | mul
  | div (s : Signedness)
  | rem (s : Signedness)
  | and
  | or
  | xor
  | shl
  | shr (s : Signedness)
  | rotl
  | rotr
  deriving DecidableEq, Repr

/-- Float operations with one operand. -/
inductive FloatUnary where
  | abs
  | neg
  | ceil
  | floor
  | trunc
  | nearest
  | sqrt
  deriving DecidableEq, Repr

/-- Float operations with two operands. -/
inductive FloatBinary where
  | add
  | sub
  | mul
  | div
  | min
  | max
  | copysign
  deriving DecidableEq, Repr

/-- Conversions from one value type to another. -/
inductive Conversion where
  /-- Keeps the low half of an `i64`. -/
  | wrap
  /-- Widens an `i32`. -/
  | extend (s : Signedness)
  /-- Truncates a float toward zero; traps outside the target's range. -/
  | trunc (target : IntType) (source : FloatType) (s : Signedness)
  /-- Rounds an integer to the nearest float. -/
  | convert (target : FloatType) (source : IntType) (s : Signedness)
  /-- Rounds an `f64` to the nearest `f32`. -/
  | demote
  /-- Widens an `f32`. -/
  | promote
  /-- Takes the bits of a float as an integer of the same width. -/
  | bitsOfFloat (target : IntType)
  /-- Takes the bits of an integer as a float of the same width. -/
  | floatOfBits (target : FloatType)
  deriving DecidableEq, Repr

/-- The operations that only replace values on top of the stack by a number. -/
inductive Numeric where
  | eqz (t : IntType)
  | compareInt (t : IntType) (r : IntRelation)
  | compareFloat (t : FloatType) (r : FloatRelation)
  | unaryInt (t : IntType) (op : IntUnary)
  | binaryInt (t : IntType) (op : IntBinary)
  | unaryFloat (t : FloatType) (op : FloatUnary)
  | binaryFloat (t : FloatType) (op : FloatBinary)
  | convert (c : Conversion)
  deriving DecidableEq, Repr

/-! ## Memory access -/

/-- The widths narrower than the integer type that a memory access may have. -/
inductive Packing where
  | bits8
  | bits16
  | bits32
  deriving DecidableEq, Repr

/-- The width of a packed access in bytes. -/
def Packing.bytes : Packing → Nat
  | .bits8 => 1
  | .bits16 => 2
  | .bits32 => 4

/-- The load instructions. -/
inductive LoadOp where
  | full (t : ValueType)
  | packed (t : IntType) (p : Packing) (s : Signedness)
  deriving DecidableEq, Repr

/-- The store instructions. -/
inductive StoreOp where
  | full (t : ValueType)
  | packed (t : IntType) (p : Packing)
  deriving DecidableEq, Repr

/-- The width in bytes of a value type in memory. -/
def ValueType.bytes : ValueType → Nat
  | .i32 => 4
  | .i64 => 8
  | .f32 => 4
  | .f64 => 8

/-- How many bytes a load reads. -/
def LoadOp.bytes : LoadOp → Nat
  | .full t => t.bytes
  | .packed _ p _ => p.bytes

/-- How many bytes a store writes. -/
def StoreOp.bytes : StoreOp → Nat
  | .full t => t.bytes
  | .packed _ p => p.bytes

/-! ## The opcodes -/

/-- An instruction without its operands. -/
inductive Opcode where
  | unreachable
  | nop
  | block
  | loop
  | ifThen
  | elseArm
  | blockEnd
  | branch
  | branchIf
  | branchTable
  | ret
  | call
  | callIndirect
  | drop
  | select
  | localGet
  | localSet
  | localTee
  | globalGet
  | globalSet
  | load (l : LoadOp)
  | store (s : StoreOp)
  | memorySize
  | memoryGrow
  | const (t : ValueType)
  | numeric (n : Numeric)
  deriving DecidableEq, Repr

/-! ## Bytes of opcodes -/

/-- The integer relations in the order of their bytes. -/
def IntRelation.all : List IntRelation :=
  [.eq, .ne, .lt .signed, .lt .unsigned, .gt .signed, .gt .unsigned,
    .le .signed, .le .unsigned, .ge .signed, .ge .unsigned]

/-- The float relations in the order of their bytes. -/
def FloatRelation.all : List FloatRelation := [.eq, .ne, .lt, .gt, .le, .ge]

/-- The integer operations with one operand in the order of their bytes. -/
def IntUnary.all : List IntUnary := [.clz, .ctz, .popcnt]

/-- The integer operations with two operands in the order of their bytes. -/
def IntBinary.all : List IntBinary :=
  [.add, .sub, .mul, .div .signed, .div .unsigned, .rem .signed, .rem .unsigned,
    .and, .or, .xor, .shl, .shr .signed, .shr .unsigned, .rotl, .rotr]

/-- The float operations with one operand in the order of their bytes. -/
def FloatUnary.all : List FloatUnary :=
  [.abs, .neg, .ceil, .floor, .trunc, .nearest, .sqrt]

/-- The float operations with two operands in the order of their bytes. -/
def FloatBinary.all : List FloatBinary := [.add, .sub, .mul, .div, .min, .max, .copysign]

/-- The conversions in the order of their bytes. -/
def Conversion.all : List Conversion :=
  [.wrap,
    .trunc .i32 .f32 .signed, .trunc .i32 .f32 .unsigned,
    .trunc .i32 .f64 .signed, .trunc .i32 .f64 .unsigned,
    .extend .signed, .extend .unsigned,
    .trunc .i64 .f32 .signed, .trunc .i64 .f32 .unsigned,
    .trunc .i64 .f64 .signed, .trunc .i64 .f64 .unsigned,
    .convert .f32 .i32 .signed, .convert .f32 .i32 .unsigned,
    .convert .f32 .i64 .signed, .convert .f32 .i64 .unsigned,
    .demote,
    .convert .f64 .i32 .signed, .convert .f64 .i32 .unsigned,
    .convert .f64 .i64 .signed, .convert .f64 .i64 .unsigned,
    .promote,
    .bitsOfFloat .i32, .bitsOfFloat .i64, .floatOfBits .f32, .floatOfBits .f64]

/-- The loads in the order of their bytes. -/
def LoadOp.all : List LoadOp :=
  [.full .i32, .full .i64, .full .f32, .full .f64,
    .packed .i32 .bits8 .signed, .packed .i32 .bits8 .unsigned,
    .packed .i32 .bits16 .signed, .packed .i32 .bits16 .unsigned,
    .packed .i64 .bits8 .signed, .packed .i64 .bits8 .unsigned,
    .packed .i64 .bits16 .signed, .packed .i64 .bits16 .unsigned,
    .packed .i64 .bits32 .signed, .packed .i64 .bits32 .unsigned]

/-- The stores in the order of their bytes. -/
def StoreOp.all : List StoreOp :=
  [.full .i32, .full .i64, .full .f32, .full .f64,
    .packed .i32 .bits8, .packed .i32 .bits16,
    .packed .i64 .bits8, .packed .i64 .bits16, .packed .i64 .bits32]

/-- The numeric operations in the order of their bytes. -/
def Numeric.all : List Numeric :=
  let relations (t : IntType) := Numeric.eqz t :: IntRelation.all.map (Numeric.compareInt t)
  let integers (t : IntType) :=
    IntUnary.all.map (Numeric.unaryInt t) ++ IntBinary.all.map (Numeric.binaryInt t)
  let floats (t : FloatType) :=
    FloatUnary.all.map (Numeric.unaryFloat t) ++ FloatBinary.all.map (Numeric.binaryFloat t)
  relations .i32 ++ relations .i64
    ++ FloatRelation.all.map (Numeric.compareFloat .f32)
    ++ FloatRelation.all.map (Numeric.compareFloat .f64)
    ++ integers .i32 ++ integers .i64 ++ floats .f32 ++ floats .f64
    ++ Conversion.all.map Numeric.convert

namespace Opcode

/-- The opcodes on memory, the constants and the numeric operations in the order of their
bytes. -/
def longRun : List Opcode :=
  LoadOp.all.map .load ++ StoreOp.all.map .store ++ [.memorySize, .memoryGrow]
    ++ [.const .i32, .const .i64, .const .f32, .const .f64] ++ Numeric.all.map .numeric

/-- The five runs of consecutive bytes that stand for opcodes, each with its first byte. -/
def runs : List (Nat × Array Opcode) :=
  [(0x00, #[.unreachable, .nop, .block, .loop, .ifThen, .elseArm]),
    (0x0b, #[.blockEnd, .branch, .branchIf, .branchTable, .ret, .call, .callIndirect]),
    (0x1a, #[.drop, .select]),
    (0x20, #[.localGet, .localSet, .localTee, .globalGet, .globalSet]),
    (0x28, longRun.toArray)]

/-- The opcode that a byte stands for. -/
def ofByte? (b : UInt8) : Option Opcode :=
  runs.findSome? fun (first, opcodes) =>
    if first ≤ b.toNat then opcodes[b.toNat - first]? else none

end Opcode

/-- The byte of `end`, which closes blocks, bodies and constant expressions. -/
def endByte : UInt8 := 0x0b

/-- The byte of `call`. -/
def callByte : UInt8 := 0x10

/-! ## Mnemonics -/

/-- The ending that tells signed from unsigned operations. -/
def Signedness.ending : Signedness → String
  | .signed => "_s"
  | .unsigned => "_u"

/-- The name of an integer relation. -/
def IntRelation.name : IntRelation → String
  | .eq => "eq"
  | .ne => "ne"
  | .lt s => "lt" ++ s.ending
  | .gt s => "gt" ++ s.ending
  | .le s => "le" ++ s.ending
  | .ge s => "ge" ++ s.ending

/-- The name of a float relation. -/
def FloatRelation.name : FloatRelation → String
  | .eq => "eq"
  | .ne => "ne"
  | .lt => "lt"
  | .gt => "gt"
  | .le => "le"
  | .ge => "ge"

/-- The name of an integer operation with one operand. -/
def IntUnary.name : IntUnary → String
  | .clz => "clz"
  | .ctz => "ctz"
  | .popcnt => "popcnt"

/-- The name of an integer operation with two operands. -/
def IntBinary.name : IntBinary → String
  | .add => "add"
  | .sub => "sub"
  | .mul => "mul"
  | .div s => "div" ++ s.ending
  | .rem s => "rem" ++ s.ending
  | .and => "and"
  | .or => "or"
  | .xor => "xor"
  | .shl => "shl"
  | .shr s => "shr" ++ s.ending
  | .rotl => "rotl"
  | .rotr => "rotr"

/-- The name of a float operation with one operand. -/
def FloatUnary.name : FloatUnary → String
  | .abs => "abs"
  | .neg => "neg"
  | .ceil => "ceil"
  | .floor => "floor"
  | .trunc => "trunc"
  | .nearest => "nearest"
  | .sqrt => "sqrt"

/-- The name of a float operation with two operands. -/
def FloatBinary.name : FloatBinary → String
  | .add => "add"
  | .sub => "sub"
  | .mul => "mul"
  | .div => "div"
  | .min => "min"
  | .max => "max"
  | .copysign => "copysign"

/-- The mnemonic of a conversion. -/
def Conversion.mnemonic : Conversion → String
  | .wrap => "i32.wrap_i64"
  | .extend s => "i64.extend_i32" ++ s.ending
  | .trunc target source s => target.text ++ ".trunc_" ++ source.text ++ s.ending
  | .convert target source s => target.text ++ ".convert_" ++ source.text ++ s.ending
  | .demote => "f32.demote_f64"
  | .promote => "f64.promote_f32"
  | .bitsOfFloat .i32 => "i32.reinterpret_f32"
  | .bitsOfFloat .i64 => "i64.reinterpret_f64"
  | .floatOfBits .f32 => "f32.reinterpret_i32"
  | .floatOfBits .f64 => "f64.reinterpret_i64"

/-- The mnemonic of a numeric operation. -/
def Numeric.mnemonic : Numeric → String
  | .eqz t => t.text ++ ".eqz"
  | .compareInt t r => t.text ++ "." ++ r.name
  | .compareFloat t r => t.text ++ "." ++ r.name
  | .unaryInt t op => t.text ++ "." ++ op.name
  | .binaryInt t op => t.text ++ "." ++ op.name
  | .unaryFloat t op => t.text ++ "." ++ op.name
  | .binaryFloat t op => t.text ++ "." ++ op.name
  | .convert c => c.mnemonic

/-- The number of bits of a packed access, as text. -/
def Packing.text (p : Packing) : String := toString (8 * p.bytes)

/-- The mnemonic of a load. -/
def LoadOp.mnemonic : LoadOp → String
  | .full t => t.text ++ ".load"
  | .packed t p s => t.text ++ ".load" ++ p.text ++ s.ending

/-- The mnemonic of a store. -/
def StoreOp.mnemonic : StoreOp → String
  | .full t => t.text ++ ".store"
  | .packed t p => t.text ++ ".store" ++ p.text

namespace Opcode

/-- The mnemonic of an opcode. -/
def mnemonic : Opcode → String
  | .unreachable => "unreachable"
  | .nop => "nop"
  | .block => "block"
  | .loop => "loop"
  | .ifThen => "if"
  | .elseArm => "else"
  | .blockEnd => "end"
  | .branch => "br"
  | .branchIf => "br_if"
  | .branchTable => "br_table"
  | .ret => "return"
  | .call => "call"
  | .callIndirect => "call_indirect"
  | .drop => "drop"
  | .select => "select"
  | .localGet => "local.get"
  | .localSet => "local.set"
  | .localTee => "local.tee"
  | .globalGet => "global.get"
  | .globalSet => "global.set"
  | .load l => l.mnemonic
  | .store s => s.mnemonic
  | .memorySize => "memory.size"
  | .memoryGrow => "memory.grow"
  | .const t => t.text ++ ".const"
  | .numeric n => n.mnemonic

/-- The mnemonic of the opcode of a byte; a byte of no opcode is marked as such. -/
def mnemonicOfByte (b : UInt8) : String :=
  match ofByte? b with
  | some op => op.mnemonic
  | none => "<invalid>"

/-- The opcode of a mnemonic. -/
def ofMnemonic? (name : String) : Option Opcode :=
  runs.findSome? fun (_, opcodes) => opcodes.find? fun op => op.mnemonic == name

end Opcode

/-! ## Operand layout -/

/-- The layout of the bytes that follow an opcode in a code body. -/
inductive Operands where
  | empty
  /-- One byte for the block type. -/
  | blockType
  /-- An unsigned 32-bit number. -/
  | varU32
  /-- A signed 32-bit number. -/
  | varS32
  /-- A signed 64-bit number. -/
  | varS64
  /-- Four bytes of a float. -/
  | float32
  /-- Eight bytes of a float. -/
  | float64
  /-- Two unsigned numbers: alignment hint and offset. -/
  | memArg
  /-- A type index and a reserved table index. -/
  | callIndirect
  /-- A count, then one more label depth than it says. -/
  | branchTable
  /-- A reserved memory index. -/
  | reserved
  deriving DecidableEq, Repr

/-- The operand layout of an opcode. -/
def Opcode.operands : Opcode → Operands
  | .block => .blockType
  | .loop => .blockType
  | .ifThen => .blockType
  | .branch => .varU32
  | .branchIf => .varU32
  | .branchTable => .branchTable
  | .call => .varU32
  | .callIndirect => .callIndirect
  | .localGet => .varU32
  | .localSet => .varU32
  | .localTee => .varU32
  | .globalGet => .varU32
  | .globalSet => .varU32
  | .load _ => .memArg
  | .store _ => .memArg
  | .memorySize => .reserved
  | .memoryGrow => .reserved
  | .const .i32 => .varS32
  | .const .i64 => .varS64
  | .const .f32 => .float32
  | .const .f64 => .float64
  | _ => .empty

/-- The operand layout of a byte; a byte of no opcode has no operands. -/
def Operands.ofByte (b : UInt8) : Operands :=
  match Opcode.ofByte? b with
  | some op => op.operands
  | none => .empty

end WasmMachine
