import WasmMachine.Frame

/-!
# The journal

Loading, instantiation and execution leave records of what they did. An event holds what it
reports; its text and its level are functions on it. A journal keeps the events of its level,
in order.
-/

namespace WasmMachine

/-- How much is recorded. -/
inductive Level where
  /-- Nothing but the messages of the command line itself. -/
  | info
  /-- Also the phases of loading, instantiation and invocation. -/
  | debug
  /-- Also every dispatched instruction and every call. -/
  | trace
  deriving DecidableEq, Repr

/-- A place of a level in the order of detail. -/
def Level.rank : Level → Nat
  | .info => 0
  | .debug => 1
  | .trace => 2

/-- The name of a level in records. -/
def Level.text : Level → String
  | .info => "INFO"
  | .debug => "DEBUG"
  | .trace => "TRACE"

/-- A recorded event. -/
inductive Event where
  | customSection (name : String) (size : Nat)
  | sectionRead (id : UInt8) (len : Nat)
  | moduleLoaded (name : String) (types functions exports : Nat)
  | globalsReady (count : Nat)
  | functionsReady (count : Nat)
  | memoriesReady (memories segments : Nat)
  | entryFound (name : String) (index : UInt32)
  | entryMissing (name : String)
  | invoking (index : UInt32) (signature : FunctionType) (arguments : Nat)
  | returned (index : UInt32) (steps : Nat)
  | dispatched (place : CodePoint) (mnemonic : String) (frames : Nat)
  | called (index : UInt32) (signature : FunctionType) (depth : Nat)
  deriving DecidableEq, Repr

namespace Event

/-- The level of an event. -/
def level : Event → Level
  | .dispatched .. => .trace
  | .called .. => .trace
  | _ => .debug

/-- A text filled up with blanks to a width. -/
def padded (width : Nat) (text : String) : String :=
  text ++ String.ofList (List.replicate (width - text.length) ' ')

/-- The text of an event. -/
def text : Event → String
  | .customSection name size =>
    "custom section '" ++ name ++ "' (" ++ toString size ++ " bytes)"
  | .sectionRead id len => "section #" ++ toString id.toNat ++ " len = " ++ toString len
  | .moduleLoaded name types functions exports =>
    "loaded '" ++ name ++ "': " ++ toString types ++ " types, " ++ toString functions
      ++ " functions, " ++ toString exports ++ " exports"
  | .globalsReady count => "instantiated " ++ toString count ++ " globals"
  | .functionsReady count => "built " ++ toString count ++ " function descriptors"
  | .memoriesReady memories segments =>
    "allocated " ++ toString memories ++ " memories, copied " ++ toString segments
      ++ " data segments"
  | .entryFound name index => "entry '" ++ name ++ "' is func[" ++ toString index.toNat ++ "]"
  | .entryMissing name => "no function exported as '" ++ name ++ "'"
  | .invoking index signature arguments =>
    "invoking func[" ++ toString index.toNat ++ "] " ++ signature.text ++ " with "
      ++ toString arguments ++ " args"
  | .returned index steps =>
    "func[" ++ toString index.toNat ++ "] returned after " ++ toString steps ++ " steps"
  | .dispatched place mnemonic frames =>
    place.code.text ++ "+" ++ hexText 4 place.offset ++ " " ++ padded 20 mnemonic
      ++ " frames=" ++ toString frames
  | .called index signature depth =>
    "call func[" ++ toString index.toNat ++ "] " ++ signature.text ++ " depth="
      ++ toString depth

end Event

/-- The events recorded so far, at most as detailed as the level. -/
structure Journal where
  level : Level := .info
  events : Array Event := #[]
  deriving DecidableEq, Repr

namespace Journal

/-- Whether events of a level are recorded. -/
def records (j : Journal) (level : Level) : Bool := level.rank ≤ j.level.rank

/-- Records an event if its level is. -/
def note (j : Journal) (e : Event) : Journal :=
  if j.records e.level then { j with events := j.events.push e } else j

/-- Records events in order. -/
def noteAll (j : Journal) (es : List Event) : Journal := es.foldl note j

/-- The journal of the same level without events. -/
def cleared (j : Journal) : Journal := { j with events := #[] }

end Journal

end WasmMachine
