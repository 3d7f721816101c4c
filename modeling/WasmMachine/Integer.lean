import WasmMachine.Opcode

/-!
# Integer operations

The meaning of the integer operations on words of any width. Words are bit patterns; an
operation that depends on a sign says which reading it takes. Division is the only operation
that can fail, for a zero divisor or a quotient that no word holds.
-/

namespace WasmMachine

/-- Why an integer operation has no result. -/
inductive IntFailure where
  | divisionByZero
  | notRepresentable
  deriving DecidableEq, Repr

namespace Integer

variable {n : Nat}

/-- Whether a relation holds between two words. -/
def compare : IntRelation → BitVec n → BitVec n → Bool
  | .eq, a, b => a == b
  | .ne, a, b => a != b
  | .lt .signed, a, b => a.slt b
  | .lt .unsigned, a, b => a.ult b
  | .gt .signed, a, b => b.slt a
  | .gt .unsigned, a, b => b.ult a
  | .le .signed, a, b => a.sle b
  | .le .unsigned, a, b => a.ule b
  | .ge .signed, a, b => b.sle a
  | .ge .unsigned, a, b => b.ule a

/-- The count of leading zeros, of trailing zeros, or of ones. -/
def unary : IntUnary → BitVec n → BitVec n
  | .clz, a => a.clz
  | .ctz, a => a.ctz
  | .popcnt, a => a.cpop

/-- The quotient, rounded toward zero. -/
def divide : Signedness → BitVec n → BitVec n → Except IntFailure (BitVec n)
  | .signed, a, b =>
    if b = 0 then .error .divisionByZero
    else if a = BitVec.intMin n ∧ b = -1 then .error .notRepresentable
    else .ok (a.sdiv b)
  | .unsigned, a, b => if b = 0 then .error .divisionByZero else .ok (a / b)

/-- The remainder of the quotient rounded toward zero; it has the sign of the dividend. -/
def remainder : Signedness → BitVec n → BitVec n → Except IntFailure (BitVec n)
  | .signed, a, b => if b = 0 then .error .divisionByZero else .ok (a.srem b)
  | .unsigned, a, b => if b = 0 then .error .divisionByZero else .ok (a % b)

/-- The count that a shift takes: what is left of the low 32 bits of a word modulo the width. -/
def shiftCount (b : BitVec n) : Nat := (b.setWidth 32).toNat % n

/-- The result of an operation on two words. Shift and rotation counts are taken modulo the
width. -/
def binary : IntBinary → BitVec n → BitVec n → Except IntFailure (BitVec n)
  | .add, a, b => .ok (a + b)
  | .sub, a, b => .ok (a - b)
  | .mul, a, b => .ok (a * b)
  | .div s, a, b => divide s a b
  | .rem s, a, b => remainder s a b
  | .and, a, b => .ok (a &&& b)
  | .or, a, b => .ok (a ||| b)
  | .xor, a, b => .ok (a ^^^ b)
  | .shl, a, b => .ok (a <<< shiftCount b)
  | .shr .signed, a, b => .ok (a.sshiftRight (shiftCount b))
  | .shr .unsigned, a, b => .ok (a >>> shiftCount b)
  | .rotl, a, b => .ok (a.rotateLeft (b.toNat % n))
  | .rotr, a, b => .ok (a.rotateRight (b.toNat % n))

/-- The integer that a word stands for. -/
def read : Signedness → BitVec n → Int
  | .signed, a => a.toInt
  | .unsigned, a => a.toNat

/-- The least integer that a word of `n` bits stands for. -/
def least (n : Nat) : Signedness → Int
  | .signed => -(Nat.pow 2 (n - 1) : Int)
  | .unsigned => 0

/-- The greatest integer that a word of `n` bits stands for. -/
def greatest (n : Nat) : Signedness → Int
  | .signed => (Nat.pow 2 (n - 1) : Int) - 1
  | .unsigned => (Nat.pow 2 n : Int) - 1

/-- The word of an integer, or of the nearest one that a word stands for. -/
def saturate (n : Nat) (s : Signedness) (v : Int) : BitVec n :=
  BitVec.ofInt n (max (least n s) (min v (greatest n s)))

end Integer

end WasmMachine
