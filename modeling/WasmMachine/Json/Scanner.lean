import WasmMachine.Floating.Arithmetic

/-!
# Scanning JSON

Scanners take the rest of a text and give what they read with the rest after it. They read from
left to right and report the first thing that is wrong, which is one of three kinds: the text
breaks a rule of JSON, it ends too early, or it is JSON of an unexpected shape.

A value that is not wanted is passed over by `skipValue`. That is more lenient than reading in
one respect and stricter in another: a surrogate need not have its partner, and a number that the
end of the text cuts off breaks a rule.

A number that is wanted must have a float. That float is the product of two: the leading digits, as
many as 64 bits hold, and the power of ten that they are to be multiplied with. Both factors and the
product are rounded, so that close to the greatest float the product, not the number as it is
written, decides.
-/

namespace WasmMachine.Json

/-- What is wrong with a text. -/
inductive Error where
  /-- The text is no JSON. -/
  | malformed
  /-- The text ends too early. -/
  | truncated
  /-- The text is JSON of an unexpected shape. -/
  | shape
  deriving DecidableEq, Repr

/-- A scanner. -/
abbrev Scanner (α : Type) := List Char → Except Error (α × List Char)

/-! ## White space and words -/

/-- Whether a character is white space. -/
def isSpace (c : Char) : Bool := c = ' ' || c = '\n' || c = '\t' || c = '\r'

/-- The text without the white space at its start. -/
def skipSpace (text : List Char) : List Char := text.dropWhile isSpace

/-- Reads the given characters. -/
def word : List Char → List Char → Except Error (List Char)
  | [], text => .ok text
  | _ :: _, [] => .error .truncated
  | expected :: word', c :: rest =>
    if c = expected then word word' rest else .error .malformed

/-! ## Strings -/

/-- The value of a hexadecimal digit. -/
def hexValue? (c : Char) : Option Nat :=
  if '0' ≤ c ∧ c ≤ '9' then some (c.toNat - '0'.toNat)
  else if 'a' ≤ c ∧ c ≤ 'f' then some (c.toNat - 'a'.toNat + 10)
  else if 'A' ≤ c ∧ c ≤ 'F' then some (c.toNat - 'A'.toNat + 10)
  else none

/-- The number that four hexadecimal digits spell. -/
def hexQuad? (a b c d : Char) : Option Nat := do
  let a ← hexValue? a
  let b ← hexValue? b
  let c ← hexValue? c
  let d ← hexValue? d
  return 4096 * a + 256 * b + 16 * c + d

/-- What a text that does not go on with four hexadecimal digits is: it ends too early if it has
fewer than four bytes left. -/
def quadError (text : List Char) : Error :=
  if (String.ofList (text.take 4)).utf8ByteSize < 4 then .truncated else .malformed

/-- Whether a code unit is the first half of a pair. -/
def isLeading (n : Nat) : Bool := 0xd800 ≤ n && n ≤ 0xdbff

/-- Whether a code unit is the second half of a pair. -/
def isTrailing (n : Nat) : Bool := 0xdc00 ≤ n && n ≤ 0xdfff

/-- The character of a pair of code units. -/
def pairChar (first second : Nat) : Char :=
  Char.ofNat (0x10000 + 1024 * (first - 0xd800) + (second - 0xdc00))

/-- The character that a one-letter escape stands for. -/
def escapedChar? (c : Char) : Option Char :=
  if c = '"' ∨ c = '\\' ∨ c = '/' then some c
  else if c = 'b' then some (Char.ofNat 8)
  else if c = 'f' then some (Char.ofNat 12)
  else if c = 'n' then some '\n'
  else if c = 'r' then some '\r'
  else if c = 't' then some '\t'
  else none

/-- Reads a string after its opening quote and adds its characters, last one first, to those
found before. Surrogates must come in pairs. -/
def stringBody : List Char → (found : List Char) → Except Error (String × List Char)
  | [], _ => .error .truncated
  | '"' :: rest, found => .ok (String.ofList found.reverse, rest)
  | '\\' :: 'u' :: a :: b :: c :: d :: rest, found =>
    match hexQuad? a b c d with
    | none => .error (quadError (a :: b :: c :: d :: rest))
    | some n =>
      if isTrailing n then .error .malformed
      else if !isLeading n then stringBody rest (Char.ofNat n :: found)
      else
        match rest with
        | [] => .error .truncated
        | ['\\'] => .error .truncated
        | '\\' :: 'u' :: a :: b :: c :: d :: rest =>
          match hexQuad? a b c d with
          | none => .error (quadError (a :: b :: c :: d :: rest))
          | some m =>
            if isTrailing m then stringBody rest (pairChar n m :: found)
            else .error .malformed
        | '\\' :: 'u' :: rest => .error (quadError rest)
        | _ => .error .malformed
  | '\\' :: 'u' :: rest, _ => .error (quadError rest)
  | '\\' :: [], _ => .error .truncated
  | '\\' :: c :: rest, found =>
    match escapedChar? c with
    | some e => stringBody rest (e :: found)
    | none => .error .malformed
  | c :: rest, found =>
    if c.toNat < 0x20 then .error .malformed else stringBody rest (c :: found)

/-- Passes over a string after its opening quote. -/
def skipString : List Char → Except Error (List Char)
  | [] => .error .truncated
  | '"' :: rest => .ok rest
  | '\\' :: 'u' :: a :: b :: c :: d :: rest =>
    match hexQuad? a b c d with
    | none => .error (quadError (a :: b :: c :: d :: rest))
    | some _ => skipString rest
  | '\\' :: 'u' :: rest => .error (quadError rest)
  | '\\' :: [] => .error .truncated
  | '\\' :: c :: rest =>
    match escapedChar? c with
    | some _ => skipString rest
    | none => .error .malformed
  | c :: rest => if c.toNat < 0x20 then .error .malformed else skipString rest

/-! ## Numbers -/

/-- A number as it is written. -/
structure Numeral where
  negative : Bool
  whole : List Char
  fraction : List Char
  /-- Whether there is a fraction or an exponent. -/
  isFloat : Bool
  exponent : Int
  deriving DecidableEq, Repr

/-- The number that decimal digits spell. -/
def digitsValue (digits : List Char) : Nat :=
  digits.foldl (fun n c => 10 * n + (c.toNat - '0'.toNat)) 0

/-- The error for a digit that is missing: the end of the text is one of its own when a number is
read, and a broken rule when it is passed over. -/
def missingDigit (skipping : Bool) : List Char → Error
  | [] => if skipping then .malformed else .truncated
  | _ :: _ => .malformed

/-- Splits off the digits at the start of a text. -/
def digits (text : List Char) : List Char × List Char :=
  (text.takeWhile Char.isDigit, text.dropWhile Char.isDigit)

/-- Reads the digits before the point: a zero stands alone. -/
def wholeDigits (skipping : Bool) (text : List Char) : Except Error (List Char × List Char) :=
  match digits text with
  | ([], rest) => .error (missingDigit skipping rest)
  | ('0' :: _ :: _, _) => .error .malformed
  | (ds, rest) => .ok (ds, rest)

/-- Reads digits of which there must be one. -/
def someDigits (skipping : Bool) (text : List Char) : Except Error (List Char × List Char) :=
  match digits text with
  | ([], rest) => .error (missingDigit skipping rest)
  | (ds, rest) => .ok (ds, rest)

/-- Reads an exponent, if there is one. -/
def exponentPart (skipping : Bool) (text : List Char) :
    Except Error (Option Int × List Char) :=
  match text with
  | c :: rest =>
    if c = 'e' ∨ c = 'E' then do
      let (negative, rest) :=
        match rest with
        | '-' :: rest => (true, rest)
        | '+' :: rest => (false, rest)
        | rest => (false, rest)
      let (ds, rest) ← someDigits skipping rest
      let n : Int := digitsValue ds
      return (some (if negative then -n else n), rest)
    else return (none, text)
  | [] => return (none, [])

/-- Reads a fraction, if there is one. -/
def fractionPart (skipping : Bool) (text : List Char) :
    Except Error (Option (List Char) × List Char) :=
  match text with
  | '.' :: rest => do
    let (ds, rest) ← someDigits skipping rest
    return (some ds, rest)
  | _ => return (none, text)

/-- Reads a number. -/
def numeral (skipping : Bool) (text : List Char) : Except Error (Numeral × List Char) := do
  let (negative, text) :=
    match text with
    | '-' :: rest => (true, rest)
    | rest => (false, rest)
  let (whole, text) ← wholeDigits skipping text
  let (fraction, text) ← fractionPart skipping text
  let (exponent, text) ← exponentPart skipping text
  return ({
    negative
    whole
    fraction := fraction.getD []
    isFloat := fraction.isSome || exponent.isSome
    exponent := exponent.getD 0 }, text)

/-- Takes digits into a number for as long as it fits into 64 bits; gives the number and the digits
that are left. -/
def takeDigits : (n : Nat) → List Char → Nat × List Char
  | n, [] => (n, [])
  | n, c :: rest =>
    let next := 10 * n + (c.toNat - '0'.toNat)
    if next < UInt64.size then takeDigits next rest else (n, c :: rest)

/-- A number as its leading digits and the power of ten that they are to be multiplied with. Digits
before the point that are left out count in the power, those after the point do not. -/
def Numeral.scaled (n : Numeral) : Nat × Int :=
  let (head, wholeLeft) := takeDigits 0 n.whole
  let (significand, fractionLeft) := takeDigits head n.fraction
  let taken := n.fraction.length - fractionLeft.length
  (significand, n.exponent + wholeLeft.length - taken)

/-- The exponent of the greatest power of ten that a 64-bit float is near to. -/
def greatestPower : Int := 308

/-- Whether the float of a number is infinite. -/
def Numeral.overflows (n : Numeral) : Bool :=
  let (significand, power) := n.scaled
  if significand = 0 ∨ power < 0 then false
  else if greatestPower < power then true
  else
    let product := Floating.mul .f64 (Floating.ofInt .f64 significand)
      (Floating.ofInt .f64 (Nat.pow 10 power.toNat))
    product = Floating.infinity .f64 false

/-- The natural number that is written without sign, fraction and exponent. -/
def Numeral.nat? (n : Numeral) : Option Nat :=
  if n.negative || n.isFloat then none else some (digitsValue n.whole)

/-- Reads a number that is wanted. One whose float is infinite is refused, also when it is written
without fraction and exponent. -/
def wantedNumeral (text : List Char) : Except Error (Numeral × List Char) := do
  let (n, rest) ← numeral false text
  if n.overflows then throw .malformed else return (n, rest)

/-! ## Passing over a value -/

/-- The brackets of a value that is being passed over. -/
inductive Bracket where
  | array
  | object
  deriving DecidableEq, Repr

/-- What must come next inside a value that is being passed over. -/
inductive Expect where
  /-- A value. -/
  | value
  /-- A comma or the end of the innermost bracket. -/
  | separator
  /-- The end of the innermost bracket, which has just been opened, or its first entry. -/
  | entryOrEnd
  /-- The name of a member. -/
  | key
  deriving DecidableEq, Repr

/-- Passes over a name and its colon. -/
def skipKey (text : List Char) : Except Error (List Char) :=
  match text with
  | [] => .error .truncated
  | '"' :: rest => do
    match skipSpace (← skipString rest) with
    | [] => .error .truncated
    | ':' :: rest => return rest
    | _ => .error .malformed
  | _ => .error .malformed

/-- Whether a character closes a bracket. -/
def Bracket.closedBy : Bracket → Char → Bool
  | .array, c => c = ']'
  | .object, c => c = '\x7d'

/-- What comes first inside a bracket. -/
def Bracket.entry : Bracket → Expect
  | .array => .value
  | .object => .key

/-- Passes over a number, a string or a word; gives the bracket if one opens. -/
def skipScalar (text : List Char) : Except Error (Option Bracket × List Char) :=
  match text with
  | [] => .error .truncated
  | c :: rest =>
    if c = 'n' then (word ['u', 'l', 'l'] rest).map (none, ·)
    else if c = 't' then (word ['r', 'u', 'e'] rest).map (none, ·)
    else if c = 'f' then (word ['a', 'l', 's', 'e'] rest).map (none, ·)
    else if c = '-' ∨ c.isDigit then (numeral true text).map fun (_, rest) => (none, rest)
    else if c = '"' then (skipString rest).map (none, ·)
    else if c = '[' then .ok (some .array, rest)
    else if c = '\x7b' then .ok (some .object, rest)
    else .error .malformed

/-- Passes over the rest of a value inside the open brackets, innermost first. Each turn takes at
least one character, or is the step from an opened bracket to its first entry. -/
def skipNested : (fuel : Nat) → Expect → List Bracket → List Char → Except Error (List Char)
  | 0, _, _, _ => .error .truncated
  | fuel + 1, expect, open', text =>
    let text := skipSpace text
    match expect, open' with
    | .value, open' => do
      match ← skipScalar text with
      | (some b, rest) => skipNested fuel .entryOrEnd (b :: open') rest
      | (none, rest) => if open'.isEmpty then return rest else skipNested fuel .separator open' rest
    | .key, open' => do
      skipNested fuel .value open' (← skipKey text)
    | _, [] => .ok text
    | expect, b :: outer =>
      match text with
      | [] => .error .truncated
      | c :: rest =>
        if b.closedBy c then
          if outer.isEmpty then .ok rest else skipNested fuel .separator outer rest
        else if expect = .separator then
          if c = ',' then skipNested fuel b.entry (b :: outer) rest else .error .malformed
        else skipNested fuel b.entry (b :: outer) text

/-- Passes over a value of any shape. -/
def skipValue (text : List Char) : Except Error (List Char) :=
  skipNested (2 * text.length + 1) .value [] text

/-! ## Values of a wanted type -/

/-- The error for a value that is not of the wanted type: what is wrong with the value itself, or
else its shape. -/
def unexpected (text : List Char) : Error :=
  let verdict : Except Error Unit :=
    match text with
    | [] => .error .truncated
    | c :: rest =>
      if c = '"' then do let _ ← stringBody rest []
      else if c = '-' ∨ c.isDigit then do let _ ← wantedNumeral text
      else if c = 'n' then do let _ ← word ['u', 'l', 'l'] rest
      else if c = 't' then do let _ ← word ['r', 'u', 'e'] rest
      else if c = 'f' then do let _ ← word ['a', 'l', 's', 'e'] rest
      else if c = '[' ∨ c = '\x7b' then .ok ()
      else .error .malformed
  match verdict with
  | .error e => e
  | .ok _ => .shape

/-- Reads a string. -/
def string : Scanner String := fun text =>
  match skipSpace text with
  | '"' :: rest => stringBody rest []
  | rest => .error (unexpected rest)

/-- Reads a truth value. -/
def bool : Scanner Bool := fun text =>
  match skipSpace text with
  | 't' :: rest => (word ['r', 'u', 'e'] rest).map (true, ·)
  | 'f' :: rest => (word ['a', 'l', 's', 'e'] rest).map (false, ·)
  | rest => .error (unexpected rest)

/-- Reads a natural number below a bound. -/
def natBelow (bound : Nat) : Scanner Nat := fun text =>
  match skipSpace text with
  | c :: rest =>
    if c = '-' ∨ c.isDigit then do
      let (n, rest) ← wantedNumeral (c :: rest)
      match n.nat? with
      | some v => if v < bound then return (v, rest) else throw .shape
      | none => throw .shape
    else .error (unexpected (c :: rest))
  | [] => .error .truncated

/-- Reads `null` as nothing, and anything else with a scanner. -/
def optional {α : Type} (item : Scanner α) : Scanner (Option α) := fun text =>
  match skipSpace text with
  | 'n' :: rest => (word ['u', 'l', 'l'] rest).map (none, ·)
  | rest => do
    let (a, rest) ← item rest
    return (some a, rest)

end WasmMachine.Json
