/-!
# Types of the instruction set

Value types, block types, function signatures, limits and global types, with the bytes
that stand for them in a binary module and their text in reports. Integer and float types
are kept apart from the four value types, because an instruction is defined for one kind
of number only.
-/

namespace WasmMachine

/-! ## Numbers -/

/-- The integer types. -/
inductive IntType where
  | i32
  | i64
  deriving DecidableEq, Repr

/-- The floating-point types. -/
inductive FloatType where
  | f32
  | f64
  deriving DecidableEq, Repr

/-- The four types of values. -/
inductive ValueType where
  | i32
  | i64
  | f32
  | f64
  deriving DecidableEq, Repr

/-- The number of bits of an integer type. -/
abbrev IntType.width : IntType → Nat
  | .i32 => 32
  | .i64 => 64

/-- An integer type as a value type. -/
def IntType.valueType : IntType → ValueType
  | .i32 => .i32
  | .i64 => .i64

/-- A floating-point type as a value type. -/
def FloatType.valueType : FloatType → ValueType
  | .f32 => .f32
  | .f64 => .f64

namespace ValueType

/-- The text of a value type. -/
def text : ValueType → String
  | .i32 => "i32"
  | .i64 => "i64"
  | .f32 => "f32"
  | .f64 => "f64"

/-- The value type that a byte of a binary module stands for. -/
def ofByte? (b : UInt8) : Option ValueType :=
  if b = 0x7f then some .i32
  else if b = 0x7e then some .i64
  else if b = 0x7d then some .f32
  else if b = 0x7c then some .f64
  else none

/-- The byte that stands for a value type. -/
def toByte : ValueType → UInt8
  | .i32 => 0x7f
  | .i64 => 0x7e
  | .f32 => 0x7d
  | .f64 => 0x7c

@[simp] theorem ofByte?_toByte (t : ValueType) : ofByte? t.toByte = some t := by
  cases t <;> rfl

/-- Value types separated by commas. -/
def listText (types : List ValueType) : String := ", ".intercalate (types.map text)

end ValueType

/-- The text of an integer type. -/
def IntType.text (t : IntType) : String := t.valueType.text

/-- The text of a floating-point type. -/
def FloatType.text (t : FloatType) : String := t.valueType.text

/-! ## Blocks and functions -/

/-- What a structured block leaves on the stack: nothing or one value. -/
inductive BlockType where
  | empty
  | value (type : ValueType)
  deriving DecidableEq, Repr

namespace BlockType

/-- The block type that a byte stands for. -/
def ofByte? (b : UInt8) : Option BlockType :=
  if b = 0x40 then some .empty else (ValueType.ofByte? b).map .value

/-- The types of the values that a block leaves. -/
def results : BlockType → List ValueType
  | .empty => []
  | .value t => [t]

end BlockType

/-- A function signature. -/
structure FunctionType where
  parameters : List ValueType
  results : List ValueType
  deriving DecidableEq, Repr

/-- The text of a signature, for instance `(i32, i64) -> f32`; no results are `nil`. -/
def FunctionType.text (t : FunctionType) : String :=
  let results := if t.results.isEmpty then "nil" else ValueType.listText t.results
  "(" ++ ValueType.listText t.parameters ++ ") -> " ++ results

/-! ## Limits and globals -/

/-- A declared size: the least size and, if given, the greatest. -/
structure Limits where
  min : UInt32
  max : Option UInt32
  deriving DecidableEq, Repr

/-- The text of a declared size. -/
def Limits.text (l : Limits) : String :=
  match l.max with
  | some max => "initial=" ++ toString l.min.toNat ++ " max=" ++ toString max.toNat
  | none => "initial=" ++ toString l.min.toNat

/-- The type of a global and whether it may be assigned. -/
structure GlobalType where
  type : ValueType
  isMutable : Bool
  deriving DecidableEq, Repr

end WasmMachine
