import WasmMachine.Types
import WasmMachine.Floating.Arithmetic

/-!
# Values

A value is one of the four kinds of numbers, always as a bit pattern: integers have no sign
of their own, and floats keep the payload of a NaN.
-/

namespace WasmMachine

/-- A value of the machine. -/
inductive Value where
  | i32 (bits : BitVec 32)
  | i64 (bits : BitVec 64)
  | f32 (bits : BitVec 32)
  | f64 (bits : BitVec 64)
  deriving DecidableEq, Repr

namespace Value

/-- The type of a value. -/
def type : Value → ValueType
  | .i32 _ => .i32
  | .i64 _ => .i64
  | .f32 _ => .f32
  | .f64 _ => .f64

/-- The value of a type whose bits are all zero. -/
def zero : ValueType → Value
  | .i32 => .i32 0
  | .i64 => .i64 0
  | .f32 => .f32 0
  | .f64 => .f64 0

@[simp] theorem type_zero (t : ValueType) : (zero t).type = t := by
  cases t <;> rfl

/-- An integer as a value of its type. -/
def ofInt : (t : IntType) → BitVec t.width → Value
  | .i32, bits => .i32 bits
  | .i64, bits => .i64 bits

/-- A float as a value of its type. -/
def ofFloat : (t : FloatType) → BitVec t.width → Value
  | .f32, bits => .f32 bits
  | .f64, bits => .f64 bits

@[simp] theorem type_ofInt (t : IntType) (bits : BitVec t.width) :
    (ofInt t bits).type = t.valueType := by
  cases t <;> rfl

@[simp] theorem type_ofFloat (t : FloatType) (bits : BitVec t.width) :
    (ofFloat t bits).type = t.valueType := by
  cases t <;> rfl

/-- The truth value of a test: one or zero. -/
def ofBool (b : Bool) : Value := .i32 (if b then 1 else 0)

/-- The bits of an integer of the given type. -/
def int? : (t : IntType) → Value → Option (BitVec t.width)
  | .i32, .i32 bits => some bits
  | .i64, .i64 bits => some bits
  | _, _ => none

/-- The bits of a float of the given type. -/
def float? : (t : FloatType) → Value → Option (BitVec t.width)
  | .f32, .f32 bits => some bits
  | .f64, .f64 bits => some bits
  | _, _ => none

/-- All bits of a value as a number. -/
def toNat : Value → Nat
  | .i32 bits => bits.toNat
  | .i64 bits => bits.toNat
  | .f32 bits => bits.toNat
  | .f64 bits => bits.toNat

/-- The value of a type with the given bits, reduced to the width of the type. -/
def ofNat : ValueType → Nat → Value
  | .i32, n => .i32 (BitVec.ofNat 32 n)
  | .i64, n => .i64 (BitVec.ofNat 64 n)
  | .f32, n => .f32 (BitVec.ofNat 32 n)
  | .f64, n => .f64 (BitVec.ofNat 64 n)

/-- Whether a value is a float that is no number. -/
def isNan : Value → Bool
  | .f32 bits => Floating.isNan .f32 bits
  | .f64 bits => Floating.isNan .f64 bits
  | _ => false

/-- Equality as numbers: a NaN differs from itself, and the zeros are equal. -/
def numericEq : Value → Value → Bool
  | .i32 a, .i32 b => a == b
  | .i64 a, .i64 b => a == b
  | .f32 a, .f32 b => Floating.eq .f32 a b
  | .f64 a, .f64 b => Floating.eq .f64 a b
  | _, _ => false

/-- Equality of type and of all bits. -/
def bitEq (a b : Value) : Bool := decide (a = b)

end Value

end WasmMachine
