import WasmMachine.Floating.Format

/-!
# Decimal text of floats

A float is written with the fewest significant digits that round back to it. `shortest`
finds them by exact integer arithmetic: on coarser decimal grids first, it tests the two
grid points next to the number and takes the first that lies in the interval of reals that
round to the float. How the digits are laid out is a `Style`: `Style.plain` never uses an
exponent, `Style.precise` always shows a fraction or an exponent.

Reading goes the other way: `parse?` accepts decimal text and the names of the infinities
and of NaN, and rounds the exact value once.
-/

namespace WasmMachine.Floating

/-! ## Shortest digits -/

/-- A positive decimal `digits · 10 ^ exponent`. -/
structure Decimal where
  digits : Nat
  exponent : Int
  deriving DecidableEq, Repr

/-- The reals that round to `mantissa · 2 ^ exponent`, in quarters of its last place: they lie
between `low` and `high`, which belong to them when `closed` holds. -/
structure RoundingInterval where
  low : Nat
  value : Nat
  high : Nat
  closed : Bool
  deriving DecidableEq, Repr

/-- The rounding interval of a positive float. The gap below a power of two is half as wide,
unless the power is among the smallest floats. -/
def RoundingInterval.of (t : FloatType) (mantissa : Nat) (exponent : Int) : RoundingInterval :=
  let narrow := mantissa = Nat.pow 2 t.fractionBits ∧ t.leastExponent < exponent
  { low := if narrow then 4 * mantissa - 1 else 4 * mantissa - 2
    value := 4 * mantissa
    high := 4 * mantissa + 2
    closed := mantissa % 2 = 0 }

/-- The grid point `c · den / num`, in quarters of the last place, lies in the interval. -/
def RoundingInterval.contains (i : RoundingInterval) (num den c : Nat) : Bool :=
  if i.closed then i.low * num ≤ c * den ∧ c * den ≤ i.high * num
  else i.low * num < c * den ∧ c * den < i.high * num

/-- The grid point next to the number that lies in its rounding interval: the nearer one if both
do, and the upper one of two equally near. A quarter of the last place is `num / den` grid steps. -/
def RoundingInterval.gridPoint? (i : RoundingInterval) (num den : Nat) : Option Nat :=
  let below := i.value * num / den
  let rest := i.value * num % den
  match i.contains num den below, i.contains num den (below + 1) with
  | true, true => some (if den ≤ 2 * rest then below + 1 else below)
  | true, false => some below
  | false, true => some (below + 1)
  | false, false => none

/-- Searches the grids `10 ^ grid`, `10 ^ (grid - 1)` and so on, `tries` of them. -/
def searchGrids (i : RoundingInterval) (exponent : Int) : (tries : Nat) → (grid : Int) → Decimal
  | 0, grid => ⟨i.value, grid⟩
  | tries + 1, grid =>
    let num := Nat.pow 2 exponent.toNat * Nat.pow 10 (-grid).toNat
    let den := Nat.pow 2 (-exponent).toNat * Nat.pow 10 grid.toNat
    match i.gridPoint? num den with
    | some digits => ⟨digits, grid⟩
    | none => searchGrids i exponent tries (grid - 1)

/-- The shortest decimal that rounds to the positive float `mantissa · 2 ^ exponent`. The first
grid is coarser than the number; seventeen digits always suffice. -/
def shortest (t : FloatType) (mantissa : Nat) (exponent : Int) : Decimal :=
  let top := ((mantissa.log2 : Int) + exponent + 1) * 30103 / 100000 + 1
  searchGrids (.of t mantissa exponent) (exponent - 2) 21 top

/-! ## Layout -/

/-- How decimal digits are laid out. -/
structure Style where
  /-- Whether an integral number keeps a fraction of zero. -/
  keepFraction : Bool
  /-- Whether a number whose leading digit has this decimal exponent is written with an exponent. -/
  withExponent : Int → Bool

/-- Never an exponent, and no fraction for integral numbers. -/
def Style.plain : Style := ⟨false, fun _ => false⟩

/-- A fraction always, and an exponent below `10 ^ -4` and from `10 ^ 16` on. -/
def Style.precise : Style := ⟨true, fun e => e < -4 || 16 ≤ e⟩

/-- The text of a zero in a style. -/
def Style.zeroText (style : Style) : String := if style.keepFraction then "0.0" else "0"

/-- Digits without an exponent. -/
def positional (style : Style) (digits : List Char) (exponent : Int) : String :=
  if 0 ≤ exponent then
    String.ofList (digits ++ List.replicate exponent.toNat '0')
      ++ (if style.keepFraction then ".0" else "")
  else
    let places := (-exponent).toNat
    if places < digits.length then
      let whole := digits.length - places
      String.ofList (digits.take whole) ++ "." ++ String.ofList (digits.drop whole)
    else "0." ++ String.ofList (List.replicate (places - digits.length) '0' ++ digits)

/-- Digits with one of them before the point and the exponent after an `e`. -/
def scientific (digits : List Char) (leading : Int) : String :=
  let fraction := if digits.length ≤ 1 then "" else "." ++ String.ofList (digits.drop 1)
  String.ofList (digits.take 1) ++ fraction ++ "e" ++ toString leading

/-- The text of a positive decimal. -/
def Decimal.text (style : Style) (d : Decimal) : String :=
  let digits := Nat.toDigits 10 d.digits
  let leading := d.exponent + digits.length - 1
  if style.withExponent leading then scientific digits leading
  else positional style digits d.exponent

/-- The decimal text of a float. A NaN shows no sign. -/
def text (t : FloatType) (style : Style) (x : BitVec t.width) : String :=
  match decode t x with
  | .nan => "NaN"
  | .infinite negative => (if negative then "-" else "") ++ "inf"
  | .finite negative m e =>
    (if negative then "-" else "")
      ++ (if m = 0 then style.zeroText else (shortest t m e).text style)

/-! ## Reading -/

/-- Why a text is no float. -/
inductive ParseError where
  | empty
  | invalid
  deriving DecidableEq, Repr

/-- The wording of a float parse error. -/
def ParseError.message : ParseError → String
  | .empty => "cannot parse float from empty string"
  | .invalid => "invalid float literal"

/-- The number that decimal digits spell. -/
def digitsValue (digits : List Char) : Nat :=
  digits.foldl (fun n c => 10 * n + (c.toNat - '0'.toNat)) 0

/-- Splits off an optional sign; `true` for a minus. -/
def splitSign : List Char → Bool × List Char
  | '-' :: rest => (true, rest)
  | '+' :: rest => (false, rest)
  | rest => (false, rest)

/-- The exponent after a mantissa: nothing, or an `e` with an optional sign and digits. -/
def parseExponent? : List Char → Option Int
  | [] => some 0
  | c :: rest =>
    if c = 'e' ∨ c = 'E' then
      let (negative, digits) := splitSign rest
      if digits.isEmpty || !digits.all Char.isDigit then none
      else some (if negative then -(digitsValue digits : Int) else digitsValue digits)
    else none

/-- Splits an unsigned decimal into its digits and the exponent of the last of them. -/
def parseDecimal? (text : List Char) : Option (List Char × Int) :=
  let whole := text.takeWhile Char.isDigit
  let rest := text.dropWhile Char.isDigit
  let (fraction, rest) :=
    match rest with
    | '.' :: after => (after.takeWhile Char.isDigit, after.dropWhile Char.isDigit)
    | _ => ([], rest)
  if whole.isEmpty && fraction.isEmpty then none
  else (parseExponent? rest).map fun e => (whole ++ fraction, e - fraction.length)

/-- The float nearest to `± digits · 10 ^ exponent`. A number whose leading digit stands far
outside the range of the formats is an infinity or a zero without further arithmetic. -/
def ofDecimal (t : FloatType) (negative : Bool) (digits : List Char) (exponent : Int) :
    BitVec t.width :=
  let digits := digits.dropWhile (· = '0')
  let leading := exponent + digits.length
  if digits.isEmpty then zero t negative
  else if 400 < leading then infinity t negative
  else if leading < -400 then zero t negative
  else
    roundRatio t negative (digitsValue digits * Nat.pow 10 exponent.toNat)
      (Nat.pow 10 (-exponent).toNat)

/-- Reads a float: decimal text, `inf`, `infinity` or `nan` in any case, after an optional
sign. -/
def parse? (t : FloatType) (text : List Char) : Except ParseError (BitVec t.width) :=
  if text.isEmpty then .error .empty
  else
    let (negative, rest) := splitSign text
    match parseDecimal? rest with
    | some (digits, exponent) => .ok (ofDecimal t negative digits exponent)
    | none =>
      let name := String.ofList (rest.map Char.toLower)
      if name = "inf" ∨ name = "infinity" then .ok (infinity t negative)
      else if name = "nan" then
        .ok (ofMagnitude t negative (infinityMagnitude t + quietBit t))
      else .error .invalid

end WasmMachine.Floating
