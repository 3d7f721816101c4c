import WasmMachine.Types

/-!
# Binary floating-point formats

A float is a bit pattern: a sign bit over a magnitude, and a magnitude is an exponent field
over a fraction field. This file gives the meaning of a bit pattern as an exact number
`± mantissa · 2 ^ exponent` and rounds an exact ratio to the nearest float, ties to even.
All arithmetic is exact integer arithmetic; nothing rests on the floats of the host.

* `decode` is the meaning of a bit pattern.
* `roundRatio` is the only place where a number is rounded.
* `orderKey` puts the floats that are numbers in their order, the two zeros together.
-/

namespace WasmMachine

/-- The number of bits of a floating-point type. -/
abbrev FloatType.width : FloatType → Nat
  | .f32 => 32
  | .f64 => 64

/-- The number of fraction bits. -/
def FloatType.fractionBits : FloatType → Nat
  | .f32 => 23
  | .f64 => 52

/-- The number of exponent bits. -/
def FloatType.exponentBits : FloatType → Nat
  | .f32 => 8
  | .f64 => 11

/-- The exponent of two of the last place of the smallest floats. -/
def FloatType.leastExponent : FloatType → Int
  | .f32 => -149
  | .f64 => -1074

/-- The meaning of a bit pattern. -/
inductive Floating where
  | nan
  | infinite (negative : Bool)
  /-- The number `± mantissa · 2 ^ exponent`. -/
  | finite (negative : Bool) (mantissa : Nat) (exponent : Int)
  deriving DecidableEq, Repr

namespace Floating

/-! ## Fields of a bit pattern -/

/-- The bits below the sign bit. -/
def magnitude (t : FloatType) (bits : BitVec t.width) : Nat :=
  bits.toNat % Nat.pow 2 (t.width - 1)

/-- Whether the sign bit is set. -/
def isNegative (t : FloatType) (bits : BitVec t.width) : Bool :=
  Nat.pow 2 (t.width - 1) ≤ bits.toNat

/-- The bit pattern of a sign over a magnitude. -/
def ofMagnitude (t : FloatType) (negative : Bool) (magnitude : Nat) : BitVec t.width :=
  BitVec.ofNat t.width (magnitude + if negative then Nat.pow 2 (t.width - 1) else 0)

/-- The magnitude of the infinities; greater ones are no numbers. -/
def infinityMagnitude (t : FloatType) : Nat :=
  (Nat.pow 2 t.exponentBits - 1) * Nat.pow 2 t.fractionBits

/-- The fraction bit that alone is set in the fraction of the canonical NaN. -/
def quietBit (t : FloatType) : Nat := Nat.pow 2 (t.fractionBits - 1)

/-- Whether a bit pattern is no number. -/
def isNan (t : FloatType) (bits : BitVec t.width) : Bool :=
  infinityMagnitude t < magnitude t bits

/-- An infinity. -/
def infinity (t : FloatType) (negative : Bool) : BitVec t.width :=
  ofMagnitude t negative (infinityMagnitude t)

/-- A zero. -/
def zero (t : FloatType) (negative : Bool) : BitVec t.width := ofMagnitude t negative 0

/-- The result of every arithmetic operation whose result is no number. -/
def canonicalNan (t : FloatType) : BitVec t.width :=
  ofMagnitude t false (infinityMagnitude t + quietBit t)

/-- The meaning of a bit pattern. -/
def decode (t : FloatType) (bits : BitVec t.width) : Floating :=
  let m := magnitude t bits
  let negative := isNegative t bits
  if infinityMagnitude t < m then .nan
  else if m = infinityMagnitude t then .infinite negative
  else
    let field := m / Nat.pow 2 t.fractionBits
    let fraction := m % Nat.pow 2 t.fractionBits
    if field = 0 then .finite negative fraction t.leastExponent
    else .finite negative (fraction + Nat.pow 2 t.fractionBits) (t.leastExponent + field - 1)

/-! ## Order -/

/-- An integer that orders the floats that are numbers; both zeros have key zero. -/
def orderKey (t : FloatType) (bits : BitVec t.width) : Int :=
  if isNegative t bits then -(magnitude t bits : Int) else magnitude t bits

/-! ## Rounding -/

/-- The quotient rounded to the nearest integer, a tie to the even one. -/
def roundDiv (num den : Nat) : Nat :=
  let quotient := num / den
  let rest := num % den
  if 2 * rest < den then quotient
  else if den < 2 * rest then quotient + 1
  else quotient + quotient % 2

/-- The greatest `k` with `2 ^ k ≤ num / den`, for positive `num` and `den`. -/
def log2Ratio (num den : Nat) : Int :=
  let guess : Int := (num.log2 : Int) - den.log2
  if den * Nat.pow 2 guess.toNat ≤ num * Nat.pow 2 (-guess).toNat then guess else guess - 1

/-- The float nearest to `± num / den`, a tie to the one with even mantissa. Beyond the
greatest float it is an infinity. -/
def roundRatio (t : FloatType) (negative : Bool) (num den : Nat) : BitVec t.width :=
  if num = 0 then zero t negative
  else
    let exponent := max t.leastExponent (log2Ratio num den - t.fractionBits)
    let mantissa := roundDiv (num * Nat.pow 2 (-exponent).toNat) (den * Nat.pow 2 exponent.toNat)
    let m := (exponent - t.leastExponent).toNat * Nat.pow 2 t.fractionBits + mantissa
    ofMagnitude t negative (min m (infinityMagnitude t))

/-- The float nearest to `± mantissa · 2 ^ exponent`. -/
def roundScaled (t : FloatType) (negative : Bool) (mantissa : Nat) (exponent : Int) :
    BitVec t.width :=
  roundRatio t negative (mantissa * Nat.pow 2 exponent.toNat) (Nat.pow 2 (-exponent).toNat)

/-- The float nearest to an integer. -/
def ofInt (t : FloatType) (v : Int) : BitVec t.width :=
  roundRatio t (decide (v < 0)) v.natAbs 1

/-- The float of a format that is nearest to a meaning. -/
def encode (t : FloatType) : Floating → BitVec t.width
  | .nan => canonicalNan t
  | .infinite negative => infinity t negative
  | .finite negative mantissa exponent => roundScaled t negative mantissa exponent

end Floating

end WasmMachine
