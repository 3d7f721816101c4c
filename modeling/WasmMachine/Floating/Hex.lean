import WasmMachine.Bytes
import WasmMachine.Floating.Format

/-!
# Hexadecimal text of floats

The exact form of a float: a leading one, the fraction in hexadecimal without trailing
zeros and the exponent of two, so that the smallest floats are written like all others. A
NaN shows its fraction unless it has the quiet bit alone.
-/

namespace WasmMachine.Floating

/-- Removes the zeros at the end of a digit string. -/
def trimZeros (digits : List Char) : List Char := (digits.reverse.dropWhile (· = '0')).reverse

/-- The hexadecimal digits after the point of `n / 2 ^ bits`, for `n < 2 ^ bits`. -/
def hexFraction (n bits : Nat) : List Char :=
  let places := (bits + 3) / 4
  trimZeros (hexDigitsPadded places (n * Nat.pow 2 (4 * places - bits)))

/-- An exponent with its sign always shown. -/
def signedExponent (e : Int) : String :=
  (if e < 0 then "-" else "+") ++ toString e.natAbs

/-- The text of a positive number `mantissa · 2 ^ exponent`. -/
def hexMagnitude (mantissa : Nat) (exponent : Int) : String :=
  let top := mantissa.log2
  let fraction := hexFraction (mantissa - Nat.pow 2 top) top
  let point := if fraction.isEmpty then "" else "."
  "0x1" ++ point ++ String.ofList fraction ++ "p" ++ signedExponent (exponent + top)

/-- The hexadecimal text of a float. -/
def hex (t : FloatType) (x : BitVec t.width) : String :=
  let sign := if isNegative t x then "-" else ""
  match decode t x with
  | .nan =>
    let fraction := magnitude t x % Nat.pow 2 t.fractionBits
    sign ++ "nan" ++ (if fraction = quietBit t then "" else ":" ++ hexText 1 fraction)
  | .infinite _ => sign ++ "inf"
  | .finite _ m e => sign ++ (if m = 0 then "0x0p+0" else hexMagnitude m e)

end WasmMachine.Floating
