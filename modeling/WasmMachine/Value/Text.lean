import WasmMachine.Floating.Decimal
import WasmMachine.Floating.Hex
import WasmMachine.Value

/-!
# Text of values

`Value.display` is the form that results are printed in, `Value.precise` the form of a final
stack, and `Value.parse` reads the `type:value` form of arguments. An integer argument may be
given in the signed or in the unsigned range of its type; when it fits neither, the message
is that of the unsigned reading.
-/

namespace WasmMachine

/-! ## Writing -/

namespace Value

/-- The text of a value with its type; a float also shows its exact hexadecimal form. -/
def display : Value → String
  | .i32 bits => "i32:" ++ toString bits.toInt
  | .i64 bits => "i64:" ++ toString bits.toInt
  | .f32 bits =>
    "f32:" ++ Floating.text .f32 .plain bits ++ " (" ++ Floating.hex .f32 bits ++ ")"
  | .f64 bits =>
    "f64:" ++ Floating.text .f64 .plain bits ++ " (" ++ Floating.hex .f64 bits ++ ")"

/-- The text of a value inside its constructor; a float always shows a fraction or exponent. -/
def precise : Value → String
  | .i32 bits => "I32(" ++ toString bits.toInt ++ ")"
  | .i64 bits => "I64(" ++ toString bits.toInt ++ ")"
  | .f32 bits => "F32(" ++ Floating.text .f32 .precise bits ++ ")"
  | .f64 bits => "F64(" ++ Floating.text .f64 .precise bits ++ ")"

/-- The text of a list of values. -/
def preciseList (values : List Value) : String :=
  "[" ++ ", ".intercalate (values.map precise) ++ "]"

end Value

/-! ## Integers from text -/

/-- Why a text is no integer of a type. -/
inductive IntParseError where
  | empty
  | invalidDigit
  | tooLarge
  | tooSmall
  deriving DecidableEq, Repr

/-- The wording of an integer parse error. -/
def IntParseError.message : IntParseError → String
  | .empty => "cannot parse integer from empty string"
  | .invalidDigit => "invalid digit found in string"
  | .tooLarge => "number too large to fit in target type"
  | .tooSmall => "number too small to fit in target type"

/-- Adds digits to the number read so far, which must stay at most `bound`. The first digit that
is none, or that passes the bound, ends the reading. -/
def parseMagnitude (overflow : IntParseError) (bound : Nat) :
    List Char → Nat → Except IntParseError Nat
  | [], n => .ok n
  | c :: rest, n =>
    if !c.isDigit then .error .invalidDigit
    else
      let next := 10 * n + (c.toNat - '0'.toNat)
      if bound < next then .error overflow else parseMagnitude overflow bound rest next

/-- Reads a natural number of `width` bits after an optional plus sign. -/
def parseUnsigned (width : Nat) : List Char → Except IntParseError Nat
  | [] => .error .empty
  | [c] => if c.isDigit then .ok (c.toNat - '0'.toNat) else .error .invalidDigit
  | '+' :: rest => parseMagnitude .tooLarge (Nat.pow 2 width - 1) rest 0
  | text => parseMagnitude .tooLarge (Nat.pow 2 width - 1) text 0

/-- Reads an integer of `width` bits, in two's complement, after an optional sign. -/
def parseSigned (width : Nat) : List Char → Except IntParseError Int
  | [] => .error .empty
  | [c] => if c.isDigit then .ok ((c.toNat - '0'.toNat : Nat) : Int) else .error .invalidDigit
  | '+' :: rest => (parseMagnitude .tooLarge (Nat.pow 2 (width - 1) - 1) rest 0).map Int.ofNat
  | '-' :: rest => (parseMagnitude .tooSmall (Nat.pow 2 (width - 1)) rest 0).map fun n => -(n : Int)
  | text => (parseMagnitude .tooLarge (Nat.pow 2 (width - 1) - 1) text 0).map Int.ofNat

/-- Reads an integer in the signed range or else in the unsigned range of a width. -/
def parseInteger (width : Nat) (text : List Char) : Except IntParseError (BitVec width) :=
  match parseSigned width text with
  | .ok v => .ok (BitVec.ofInt width v)
  | .error _ => (parseUnsigned width text).map (BitVec.ofNat width)

/-! ## Reading -/

/-- Why a text is no value. -/
inductive ValueParseError where
  /-- There is no colon between a type and a value. -/
  | noColon (text : String)
  | badInt (t : IntType) (e : IntParseError)
  | badFloat (t : FloatType) (e : Floating.ParseError)
  | unknownType (name : String)
  deriving DecidableEq, Repr

/-- The wording of a value parse error. -/
def ValueParseError.message : ValueParseError → String
  | .noColon text => "expected <type>:<value>, got '" ++ text ++ "'"
  | .badInt t e => "Failed to parse " ++ t.text ++ ": " ++ e.message
  | .badFloat t e => "Failed to parse " ++ t.text ++ ": " ++ e.message
  | .unknownType name => "Unknown value type: " ++ name

namespace Value

/-- Reads an integer value. -/
def parseInt (t : IntType) (text : List Char) : Except ValueParseError Value :=
  match parseInteger t.width text with
  | .ok bits => .ok (ofInt t bits)
  | .error e => .error (.badInt t e)

/-- Reads a float value. -/
def parseFloat (t : FloatType) (text : List Char) : Except ValueParseError Value :=
  match Floating.parse? t text with
  | .ok bits => .ok (ofFloat t bits)
  | .error e => .error (.badFloat t e)

/-- Reads a value of the type of the given name. -/
def parseAs (name : List Char) (text : List Char) : Except ValueParseError Value :=
  let name := String.ofList name
  if name = "i32" then parseInt .i32 text
  else if name = "i64" then parseInt .i64 text
  else if name = "f32" then parseFloat .f32 text
  else if name = "f64" then parseFloat .f64 text
  else .error (.unknownType name)

/-- Reads a value from its `type:value` form. -/
def parse (text : String) : Except ValueParseError Value :=
  let chars := text.toList
  let name := chars.takeWhile (· ≠ ':')
  match chars.dropWhile (· ≠ ':') with
  | [] => .error (.noColon text)
  | _ :: rest => parseAs name rest

end Value

end WasmMachine
