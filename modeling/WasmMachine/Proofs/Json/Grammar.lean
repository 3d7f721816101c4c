import WasmMachine.Json.Scanner

/-!
# The grammar of JSON

Which texts are JSON, told without a scanner. A character of a string can be written in several
ways: as itself, as a short escape, as its code unit or, beyond the first plane, as its two code
units. Values nest to any depth, and white space may stand around everything.

* `CharForm`, `StringForm`: the ways to write characters and strings.
* `NumberForm`: the texts of numbers.
* `IsJson`: the texts of values, and of what stands inside brackets.
-/

namespace WasmMachine.Json

/-! ## White space -/

/-- White space. -/
def Blank (text : List Char) : Prop := ∀ c ∈ text, c = ' ' ∨ c = '\n' ∨ c = '\t' ∨ c = '\r'

theorem blank_nil : Blank [] := fun _ hMem => nomatch hMem

/-! ## Strings -/

/-- A hexadecimal digit, in lower or in upper case. -/
def HexDigit (c : Char) (value : Nat) : Prop :=
  value < 16 ∧ (c = value.digitChar ∨ c = value.digitChar.toUpper)

/-- Four hexadecimal digits that spell a code unit. -/
inductive Quad : List Char → Nat → Prop where
  | spell {a b c d : Char} {i j k l : Nat} (hA : HexDigit a i) (hB : HexDigit b j)
    (hC : HexDigit c k) (hD : HexDigit d l) : Quad [a, b, c, d] (4096 * i + 256 * j + 16 * k + l)

/-- The letters of the short escapes, with the characters that they stand for. -/
def shortEscapes : List (Char × Char) :=
  [('"', '"'), ('\\', '\\'), ('/', '/'), ('b', Char.ofNat 8), ('f', Char.ofNat 12), ('n', '\n'),
    ('r', '\r'), ('t', '\t')]

/-- The ways to write a character in a string. -/
inductive CharForm (c : Char) : List Char → Prop where
  | plain (hPrintable : 0x20 ≤ c.toNat) (hQuote : c ≠ '"') (hBackslash : c ≠ '\\') : CharForm c [c]
  | short {letter : Char} (hLetter : (letter, c) ∈ shortEscapes) : CharForm c ['\\', letter]
  | unit {quad : List Char} (hQuad : Quad quad c.toNat) : CharForm c ('\\' :: 'u' :: quad)
  | pair {first second : List Char} (hPlane : 0x10000 ≤ c.toNat)
    (hFirst : Quad first (0xd800 + (c.toNat - 0x10000) / 0x400))
    (hSecond : Quad second (0xdc00 + (c.toNat - 0x10000) % 0x400)) :
    CharForm c ('\\' :: 'u' :: first ++ '\\' :: 'u' :: second)

/-- The ways to write the characters of a string between its quotes. -/
inductive StringForm : (characters text : List Char) → Prop where
  | nil : StringForm [] []
  | cons {c : Char} {characters form text : List Char} (hChar : CharForm c form)
    (hRest : StringForm characters text) : StringForm (c :: characters) (form ++ text)

/-- A string in quotes. -/
def quoted (text : List Char) : List Char := '"' :: text ++ ['"']

/-! ## Numbers -/

/-- One digit or more. -/
def Digits (text : List Char) : Prop := text ≠ [] ∧ ∀ c ∈ text, c.isDigit = true

/-- The digits before the point: a zero stands alone. -/
def WholeForm (text : List Char) : Prop := Digits text ∧ (text.head? = some '0' → text = ['0'])

/-- A fraction, or nothing. -/
inductive FractionForm : List Char → Prop where
  | none : FractionForm []
  | some {ds : List Char} (hDigits : Digits ds) : FractionForm ('.' :: ds)

/-- An exponent, or nothing. -/
inductive ExponentForm : List Char → Prop where
  | none : ExponentForm []
  | some {mark : Char} {sign ds : List Char} (hMark : mark = 'e' ∨ mark = 'E')
    (hSign : sign = [] ∨ sign = ['+'] ∨ sign = ['-']) (hDigits : Digits ds) :
    ExponentForm (mark :: sign ++ ds)

/-- The texts of numbers. -/
inductive NumberForm : List Char → Prop where
  | mk {sign whole fraction exponent : List Char} (hSign : sign = [] ∨ sign = ['-'])
    (hWhole : WholeForm whole) (hFraction : FractionForm fraction)
    (hExponent : ExponentForm exponent) : NumberForm (sign ++ whole ++ fraction ++ exponent)

/-! ## Values -/

/-- The character that opens a bracket. -/
def Bracket.opening : Bracket → Char
  | .array => '['
  | .object => '\x7b'

/-- The character that closes a bracket. -/
def Bracket.closing : Bracket → Char
  | .array => ']'
  | .object => '\x7d'

/-- What a text is part of. -/
inductive Part where
  | value
  /-- What stands inside a bracket, which is not empty. -/
  | entries (b : Bracket)

/-- The texts of values and of the entries of brackets. -/
inductive IsJson : Part → List Char → Prop where
  | null : IsJson .value ['n', 'u', 'l', 'l']
  | true : IsJson .value ['t', 'r', 'u', 'e']
  | false : IsJson .value ['f', 'a', 'l', 's', 'e']
  | number {text : List Char} (hNumber : NumberForm text) : IsJson .value text
  | string {characters text : List Char} (hString : StringForm characters text) :
    IsJson .value (quoted text)
  | empty (b : Bracket) {blank : List Char} (hBlank : Blank blank) :
    IsJson .value (b.opening :: blank ++ [b.closing])
  | bracket {b : Bracket} {text : List Char} (hEntries : IsJson (.entries b) text) :
    IsJson .value (b.opening :: text ++ [b.closing])
  | element {left text right : List Char} (hLeft : Blank left) (hText : IsJson .value text)
    (hRight : Blank right) : IsJson (.entries .array) (left ++ text ++ right)
  | member {left name beforeColon afterColon text right characters : List Char} (hLeft : Blank left)
    (hName : StringForm characters name) (hBefore : Blank beforeColon) (hAfter : Blank afterColon)
    (hText : IsJson .value text) (hRight : Blank right) :
    IsJson (.entries .object)
      (left ++ quoted name ++ beforeColon ++ ':' :: afterColon ++ text ++ right)
  | more {b : Bracket} {first rest : List Char} (hFirst : IsJson (.entries b) first)
    (hRest : IsJson (.entries b) rest) : IsJson (.entries b) (first ++ ',' :: rest)

end WasmMachine.Json
