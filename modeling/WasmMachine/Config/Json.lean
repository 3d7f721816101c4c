import WasmMachine.Bytes
import WasmMachine.Config
import WasmMachine.Json.Scanner

/-!
# Settings as JSON

Settings are read from an object whose members may come in any order, be missing, or be unknown,
or from an array of the settings in their order, of which the last may be missing. They are
written as an object with all members in order and without white space.
-/

namespace WasmMachine

namespace Config

/-- The settings by name. -/
inductive Field where
  | entry
  | debug
  | maxCallDepth
  | maxSteps
  | maxPages
  | maxTableSize
  deriving DecidableEq, Repr

/-- The settings in their order. -/
def Field.all : List Field :=
  [.entry, .debug, .maxCallDepth, .maxSteps, .maxPages, .maxTableSize]

/-- The name of a setting. -/
def Field.name : Field → String
  | .entry => "entry"
  | .debug => "debug"
  | .maxCallDepth => "max_call_depth"
  | .maxSteps => "max_steps"
  | .maxPages => "max_pages"
  | .maxTableSize => "max_table_size"

/-- The setting of a name. -/
def Field.ofName? (name : String) : Option Field := Field.all.find? fun f => f.name = name

/-! ## Reading -/

/-- Reads the value of a setting. -/
def readField (c : Config) (f : Field) (text : List Char) :
    Except Json.Error (Config × List Char) := do
  match f with
  | .entry =>
    let (entry, rest) ← Json.string text
    return ({ c with entry }, rest)
  | .debug =>
    let (debug, rest) ← Json.bool text
    return ({ c with debug }, rest)
  | .maxCallDepth =>
    let (n, rest) ← Json.natBelow UInt64.size text
    return ({ c with maxCallDepth := UInt64.ofNat n }, rest)
  | .maxSteps =>
    let (n, rest) ← Json.optional (Json.natBelow UInt64.size) text
    return ({ c with maxSteps := n.map UInt64.ofNat }, rest)
  | .maxPages =>
    let (n, rest) ← Json.natBelow UInt32.size text
    return ({ c with maxPages := UInt32.ofNat n }, rest)
  | .maxTableSize =>
    let (n, rest) ← Json.natBelow UInt32.size text
    return ({ c with maxTableSize := UInt32.ofNat n }, rest)

/-- Reads the colon after a name. -/
def colon (text : List Char) : Except Json.Error (List Char) :=
  match Json.skipSpace text with
  | [] => .error .truncated
  | ':' :: rest => .ok rest
  | _ => .error .malformed

/-- Reads a member after the opening quote of its name. A setting that was `seen` before is refused
before its value is looked at; the value of an unknown name is passed over. -/
def member (c : Config) (seen : List Field) (text : List Char) :
    Except Json.Error (Config × List Field × List Char) := do
  let (name, rest) ← Json.stringBody text []
  match Field.ofName? name with
  | some f =>
    if f ∈ seen then throw .shape
    else
      let (c, rest) ← readField c f (← colon rest)
      return (c, f :: seen, rest)
  | none =>
    let rest ← Json.skipValue (← colon rest)
    return (c, seen, rest)

/-- Goes to the opening quote of the next member: gives the text past the quote, or else the text
past the end of the object. -/
def nextMember (first : Bool) (text : List Char) :
    Except Json.Error (List Char ⊕ List Char) :=
  match Json.skipSpace text with
  | [] => .error .truncated
  | '\x7d' :: rest => .ok (.inr rest)
  | '"' :: rest => if first then .ok (.inl rest) else .error .malformed
  | ',' :: rest =>
    if first then .error .malformed
    else
      match Json.skipSpace rest with
      | [] => .error .truncated
      | '"' :: rest => .ok (.inl rest)
      | _ => .error .malformed
  | _ => .error .malformed

/-- Reads the members of an object up to its end. Every member takes a character at least. -/
def members : (fuel : Nat) → Config → (first : Bool) → (seen : List Field) → List Char →
    Except Json.Error (Config × List Char)
  | 0, _, _, _, _ => .error .truncated
  | fuel + 1, c, first, seen, text => do
    match ← nextMember first text with
    | .inr rest => return (c, rest)
    | .inl rest =>
      let (c, seen, rest) ← member c seen rest
      members fuel c false seen rest

/-- Goes to the next element of an array: gives its text, or else the text past the end. -/
def nextElement (first : Bool) (text : List Char) :
    Except Json.Error (List Char ⊕ List Char) :=
  match Json.skipSpace text with
  | [] => .error .truncated
  | ']' :: rest => .ok (.inr rest)
  | c :: rest =>
    if first then .ok (.inl (c :: rest))
    else if c ≠ ',' then .error .malformed
    else
      match Json.skipSpace rest with
      | [] => .error .truncated
      | ']' :: _ => .error .malformed
      | rest => .ok (.inl rest)

/-- The end of an array. -/
def arrayEnd (text : List Char) : Except Json.Error (List Char) :=
  match Json.skipSpace text with
  | [] => .error .truncated
  | ']' :: rest => .ok rest
  | _ => .error .malformed

/-- Reads an array of settings in order, up to its end. -/
def elements : List Field → Config → (first : Bool) → List Char →
    Except Json.Error (Config × List Char)
  | [], c, _, text => do return (c, ← arrayEnd text)
  | f :: rest, c, first, text => do
    match ← nextElement first text with
    | .inr text => return (c, text)
    | .inl text =>
      let (c, text) ← readField c f text
      elements rest c false text

/-- Reads settings at the start of a text. -/
def readValue (text : List Char) : Except Json.Error (Config × List Char) :=
  match Json.skipSpace text with
  | '[' :: rest => elements Field.all {} true rest
  | '\x7b' :: rest => members (rest.length + 1) {} true [] rest
  | rest => .error (Json.unexpected rest)

/-- Reads settings from a text that holds nothing else. -/
def ofJson (text : String) : Except Json.Error Config := do
  let (c, rest) ← readValue text.toList
  if (Json.skipSpace rest).isEmpty then return c else throw .malformed

/-! ## Writing -/

/-- A character inside a string: quotes, backslashes and control characters are escaped. -/
def escapeChar (c : Char) : List Char :=
  if c = '"' then ['\\', '"']
  else if c = '\\' then ['\\', '\\']
  else if c = '\n' then ['\\', 'n']
  else if c = '\r' then ['\\', 'r']
  else if c = '\t' then ['\\', 't']
  else if c.toNat = 8 then ['\\', 'b']
  else if c.toNat = 12 then ['\\', 'f']
  else if c.toNat < 0x20 then ['\\', 'u'] ++ hexDigitsPadded 4 c.toNat
  else [c]

/-- A string in quotes. -/
def quote (text : String) : String :=
  "\"" ++ String.ofList (text.toList.flatMap escapeChar) ++ "\""

/-- The value of a setting. -/
def fieldText (c : Config) : Field → String
  | .entry => quote c.entry
  | .debug => if c.debug then "true" else "false"
  | .maxCallDepth => toString c.maxCallDepth.toNat
  | .maxSteps =>
    match c.maxSteps with
    | some n => toString n.toNat
    | none => "null"
  | .maxPages => toString c.maxPages.toNat
  | .maxTableSize => toString c.maxTableSize.toNat

/-- Settings as an object. -/
def toJson (c : Config) : String :=
  "\x7b" ++ ",".intercalate (Field.all.map fun f => quote f.name ++ ":" ++ c.fieldText f) ++ "\x7d"

end Config

end WasmMachine
