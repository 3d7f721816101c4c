import WasmMachine.Integer
import WasmMachine.Stack

/-!
# Numeric instructions

The instructions that only replace values on top of the stack. An operation with two operands
takes the second from the top. Operands are checked one by one, so an operand of a wrong type is
noticed before the one below it is looked at.
-/

namespace WasmMachine

open Stack

/-! ## Operations on floats -/

namespace FloatRelation

/-- Whether a relation holds; with a NaN only `ne` does. -/
def holds (t : FloatType) : FloatRelation → BitVec t.width → BitVec t.width → Bool
  | .eq, a, b => Floating.eq t a b
  | .ne, a, b => !Floating.eq t a b
  | .lt, a, b => Floating.lt t a b
  | .gt, a, b => Floating.lt t b a
  | .le, a, b => Floating.le t a b
  | .ge, a, b => Floating.le t b a

end FloatRelation

namespace FloatUnary

/-- The result of an operation on one float. -/
def apply (t : FloatType) : FloatUnary → BitVec t.width → BitVec t.width
  | .abs => Floating.abs t
  | .neg => Floating.neg t
  | .ceil => Floating.roundIntegral t .up
  | .floor => Floating.roundIntegral t .down
  | .trunc => Floating.roundIntegral t .towardZero
  | .nearest => Floating.roundIntegral t .nearestEven
  | .sqrt => Floating.sqrt t

end FloatUnary

namespace FloatBinary

/-- The result of an operation on two floats. -/
def apply (t : FloatType) : FloatBinary → BitVec t.width → BitVec t.width → BitVec t.width
  | .add => Floating.add t
  | .sub => Floating.sub t
  | .mul => Floating.mul t
  | .div => Floating.div t
  | .min => Floating.min t
  | .max => Floating.max t
  | .copysign => Floating.copysign t

end FloatBinary

/-! ## Conversions -/

/-- A float as a double. -/
def widen : (source : FloatType) → BitVec source.width → BitVec FloatType.f64.width
  | .f32, bits => Floating.convert .f32 .f64 bits
  | .f64, bits => bits

/-- The integral part of a double, if it lies between two others and is none of them. -/
def truncBetween? (lower upper x : BitVec FloatType.f64.width) :
    Option (BitVec FloatType.f64.width) :=
  if Floating.isNan .f64 x then none
  else
    let truncated := Floating.roundIntegral .f64 .towardZero x
    if Floating.le .f64 truncated lower || Floating.le .f64 upper truncated then none
    else some truncated

/-- The integral part of a double, if it is less than `upper` and not less than `-upper`. Where
there is no double just below the range, its least integer is the bound. -/
def truncFrom? (upper x : BitVec FloatType.f64.width) : Option (BitVec FloatType.f64.width) :=
  if Floating.isNan .f64 x then none
  else
    let truncated := Floating.roundIntegral .f64 .towardZero x
    if Floating.lt .f64 truncated (Floating.neg .f64 upper) || Floating.le .f64 upper truncated
    then none
    else some truncated

/-- The integral part of a double, if it is in the range of words of a type. -/
def truncInRange? (target : IntType) (s : Signedness) (x : BitVec FloatType.f64.width) :
    Option (BitVec FloatType.f64.width) :=
  match target, s with
  | .i32, .signed =>
    truncBetween? (Floating.ofInt .f64 (-2147483649)) (Floating.ofInt .f64 2147483648) x
  | .i32, .unsigned => truncBetween? (Floating.ofInt .f64 (-1)) (Floating.ofInt .f64 4294967296) x
  | .i64, .signed => truncFrom? (Floating.ofInt .f64 9223372036854775808) x
  | .i64, .unsigned =>
    truncBetween? (Floating.ofInt .f64 (-1)) (Floating.ofInt .f64 18446744073709551616) x

/-- The word of a double: its integer part, or the nearest integer that a word stands for, and zero
if it is no number. -/
def wordOfDouble (target : IntType) (s : Signedness) (x : BitVec FloatType.f64.width) :
    BitVec target.width :=
  match Floating.decode .f64 x with
  | .nan => 0
  | .infinite negative =>
    BitVec.ofInt target.width
      (if negative then Integer.least target.width s else Integer.greatest target.width s)
  | .finite negative mantissa exponent =>
    Integer.saturate target.width s (Floating.integerPart negative mantissa exponent)

/-- The integer part of a float as a word, if it is in the range of the word. -/
def truncToInt? (target : IntType) (source : FloatType) (s : Signedness)
    (bits : BitVec source.width) : Option (BitVec target.width) :=
  (truncInRange? target s (widen source bits)).map (wordOfDouble target s)

namespace Conversion

/-- Runs a conversion. -/
def run : Conversion → StackM Unit
  | .wrap => do
    let a ← popInt .i64
    pushValue (.i32 (a.setWidth 32))
  | .extend .signed => do
    let a ← popInt .i32
    pushValue (.i64 (a.signExtend 64))
  | .extend .unsigned => do
    let a ← popInt .i32
    pushValue (.i64 (a.setWidth 64))
  | .trunc target source s => do
    let a ← popFloat source
    match truncToInt? target source s a with
    | some v => pushValue (.ofInt target v)
    | none => throw (.floatUnrepresentable (widen source a))
  | .convert target source s => do
    let a ← popInt source
    pushValue (.ofFloat target (Floating.ofInt target (Integer.read s a)))
  | .demote => do
    let a ← popFloat .f64
    pushValue (.f32 (Floating.convert .f64 .f32 a))
  | .promote => do
    let a ← popFloat .f32
    pushValue (.f64 (Floating.convert .f32 .f64 a))
  | .bitsOfFloat .i32 => do
    let a ← popFloat .f32
    pushValue (.i32 a)
  | .bitsOfFloat .i64 => do
    let a ← popFloat .f64
    pushValue (.i64 a)
  | .floatOfBits .f32 => do
    let a ← popInt .i32
    pushValue (.f32 a)
  | .floatOfBits .f64 => do
    let a ← popInt .i64
    pushValue (.f64 a)

end Conversion

/-! ## Dispatch -/

namespace Numeric

/-- Runs a numeric operation. -/
def run : Numeric → StackM Unit
  | .eqz t => do
    let a ← popInt t
    pushValue (.ofBool (a == 0))
  | .compareInt t r => do
    let b ← popInt t
    let a ← popInt t
    pushValue (.ofBool (Integer.compare r a b))
  | .compareFloat t r => do
    let b ← popFloat t
    let a ← popFloat t
    pushValue (.ofBool (r.holds t a b))
  | .unaryInt t op => do
    let a ← popInt t
    pushValue (.ofInt t (Integer.unary op a))
  | .binaryInt t op => do
    let b ← popInt t
    let a ← popInt t
    match Integer.binary op a b with
    | .ok v => pushValue (.ofInt t v)
    | .error e => throw (.ofIntFailure e)
  | .unaryFloat t op => do
    let a ← popFloat t
    pushValue (.ofFloat t (op.apply t a))
  | .binaryFloat t op => do
    let b ← popFloat t
    let a ← popFloat t
    pushValue (.ofFloat t (op.apply t a b))
  | .convert c => c.run

end Numeric

/-! ## Parametric instructions -/

namespace Stack

/-- Drops the value on top. -/
def drop : StackM Unit := do let _ ← popValue

/-- Takes a condition and two values of one type, and puts back the first of them if the
condition is not zero, and else the second. -/
def select : StackM Unit := do
  let condition ← popI32
  let second ← popValue
  let first ← popTyped second.type
  pushValue (if condition ≠ 0 then first else second)

/-- Runs an instruction that works on the stack alone and has no operands in the code. -/
def exec : Opcode → Option (StackM Unit)
  | .drop => some drop
  | .select => some select
  | .numeric n => some n.run
  | _ => none

end Stack

end WasmMachine
