import WasmMachine.Floating.Format

/-!
# Floating-point arithmetic

Each operation works on the exact meaning of its operands and rounds once at the end.
Operations on the sign bit alone, and the choice of a lesser or greater operand, move bit
patterns unchanged, whatever they mean; every other result that is no number is the
canonical NaN.
-/

namespace WasmMachine.Floating

/-! ## Sign operations -/

/-- Clears the sign bit. -/
def abs (t : FloatType) (x : BitVec t.width) : BitVec t.width :=
  ofMagnitude t false (magnitude t x)

/-- Flips the sign bit. -/
def neg (t : FloatType) (x : BitVec t.width) : BitVec t.width :=
  ofMagnitude t (!isNegative t x) (magnitude t x)

/-- The magnitude of `x` under the sign of `y`. -/
def copysign (t : FloatType) (x y : BitVec t.width) : BitVec t.width :=
  ofMagnitude t (isNegative t y) (magnitude t x)

/-! ## Sums, products, quotients -/

/-- The integer `± n`. -/
def signed (negative : Bool) (n : Nat) : Int := if negative then -(n : Int) else n

/-- The sum. An exact sum of zero is negative only if both operands are. -/
def add (t : FloatType) (x y : BitVec t.width) : BitVec t.width :=
  match decode t x, decode t y with
  | .nan, _ => canonicalNan t
  | _, .nan => canonicalNan t
  | .infinite s, .infinite r => if s = r then infinity t s else canonicalNan t
  | .infinite s, .finite .. => infinity t s
  | .finite .., .infinite r => infinity t r
  | .finite s m e, .finite r n f =>
    let common := min e f
    let sum := signed s (m * Nat.pow 2 (e - common).toNat)
      + signed r (n * Nat.pow 2 (f - common).toNat)
    if sum = 0 then zero t (s && r)
    else roundScaled t (decide (sum < 0)) sum.natAbs common

/-- The difference. -/
def sub (t : FloatType) (x y : BitVec t.width) : BitVec t.width := add t x (neg t y)

/-- The product. -/
def mul (t : FloatType) (x y : BitVec t.width) : BitVec t.width :=
  match decode t x, decode t y with
  | .nan, _ => canonicalNan t
  | _, .nan => canonicalNan t
  | .infinite s, .infinite r => infinity t (s != r)
  | .infinite s, .finite r n _ => if n = 0 then canonicalNan t else infinity t (s != r)
  | .finite s m _, .infinite r => if m = 0 then canonicalNan t else infinity t (s != r)
  | .finite s m e, .finite r n f => roundScaled t (s != r) (m * n) (e + f)

/-- The quotient. Division by zero gives an infinity, or NaN for a zero dividend. -/
def div (t : FloatType) (x y : BitVec t.width) : BitVec t.width :=
  match decode t x, decode t y with
  | .nan, _ => canonicalNan t
  | _, .nan => canonicalNan t
  | .infinite _, .infinite _ => canonicalNan t
  | .infinite s, .finite r _ _ => infinity t (s != r)
  | .finite s _ _, .infinite r => zero t (s != r)
  | .finite s m e, .finite r n f =>
    if n = 0 then
      if m = 0 then canonicalNan t else infinity t (s != r)
    else roundRatio t (s != r) (m * Nat.pow 2 (e - f).toNat) (n * Nat.pow 2 (f - e).toNat)

/-! ## Square root -/

/-- The integer square root, rounded down: two bits of the operand give one of the root. -/
def isqrt (n : Nat) : Nat :=
  if n = 0 then 0
  else
    let root := 2 * isqrt (n / 4)
    if (root + 1) * (root + 1) ≤ n then root + 1 else root
termination_by n
decreasing_by omega

/-- The square root. The integer root carries two bits more than the format keeps, and a last
bit that tells an inexact root, so that rounding it is rounding the real root. -/
def sqrt (t : FloatType) (x : BitVec t.width) : BitVec t.width :=
  match decode t x with
  | .nan => canonicalNan t
  | .infinite s => if s then canonicalNan t else x
  | .finite s m e =>
    if m = 0 then x
    else if s then canonicalNan t
    else
      let parity := (e % 2).toNat
      let extra := t.fractionBits + 2
      let n := m * Nat.pow 2 (2 * extra + parity)
      let root := isqrt n
      let inexact := if root * root = n then 0 else 1
      roundScaled t false (2 * root + inexact) ((e - parity) / 2 - extra - 1)

/-! ## Rounding to integers -/

/-- The ways to round a fraction to an integer. -/
inductive Direction where
  | up
  | down
  | towardZero
  | nearestEven
  deriving DecidableEq, Repr

/-- The magnitude of `± num / den` rounded to an integer. -/
def roundMagnitude (direction : Direction) (negative : Bool) (num den : Nat) : Nat :=
  let ceiling := num / den + if num % den = 0 then 0 else 1
  match direction with
  | .up => if negative then num / den else ceiling
  | .down => if negative then ceiling else num / den
  | .towardZero => num / den
  | .nearestEven => roundDiv num den

/-- Rounds to an integral float and keeps the sign, also of a zero result. -/
def roundIntegral (t : FloatType) (direction : Direction) (x : BitVec t.width) :
    BitVec t.width :=
  match decode t x with
  | .nan => canonicalNan t
  | .infinite _ => x
  | .finite s m e =>
    if 0 ≤ e then x
    else roundRatio t s (roundMagnitude direction s m (Nat.pow 2 (-e).toNat)) 1

/-- The integer part of `± mantissa · 2 ^ exponent`. -/
def integerPart (negative : Bool) (mantissa : Nat) (exponent : Int) : Int :=
  signed negative (mantissa * Nat.pow 2 exponent.toNat / Nat.pow 2 (-exponent).toNat)

/-! ## Comparison and choice -/

/-- Whether both operands are numbers. -/
def ordered (t : FloatType) (x y : BitVec t.width) : Bool := !isNan t x && !isNan t y

/-- Equality of numbers: the zeros are equal, a NaN equals nothing. -/
def eq (t : FloatType) (x y : BitVec t.width) : Bool :=
  ordered t x y && orderKey t x == orderKey t y

/-- The strict order of numbers. -/
def lt (t : FloatType) (x y : BitVec t.width) : Bool :=
  ordered t x y && decide (orderKey t x < orderKey t y)

/-- The order of numbers. -/
def le (t : FloatType) (x y : BitVec t.width) : Bool :=
  ordered t x y && decide (orderKey t x ≤ orderKey t y)

/-- The lesser operand; the first NaN operand if there is one; `-0` is less than `+0`. -/
def min (t : FloatType) (x y : BitVec t.width) : BitVec t.width :=
  if isNan t x then x
  else if isNan t y then y
  else if lt t x y then x
  else if lt t y x then y
  else if isNegative t x then x
  else y

/-- The greater operand; the first NaN operand if there is one; `+0` is greater than `-0`. -/
def max (t : FloatType) (x y : BitVec t.width) : BitVec t.width :=
  if isNan t x then x
  else if isNan t y then y
  else if lt t y x then x
  else if lt t x y then y
  else if isNegative t x then y
  else x

/-! ## Between formats -/

/-- The float of another format that is nearest to a float. -/
def convert (source target : FloatType) (x : BitVec source.width) : BitVec target.width :=
  encode target (decode source x)

end WasmMachine.Floating
