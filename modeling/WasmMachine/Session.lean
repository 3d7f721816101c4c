import WasmMachine.Machine.Step

/-!
# Sessions

A session runs functions of one instance, one after the other, with one machine: what an
invocation leaves in the store and in the memo tables is there for the next. The start function
runs before the requested function in the first invocation that gets past its argument check.

An invocation starts in a short driver sequence, `call` of the start function if it is due,
`call` of the requested function, `end`, under an outermost activation that keeps the results.
-/

namespace WasmMachine

/-- A session on an instance. -/
structure Session where
  program : Program
  config : Config
  machine : Machine
  /-- Whether the start function has been issued. -/
  started : Bool := false
  journal : Journal := {}
  /-- Whether decoded operands and block ends are remembered. -/
  memo : Bool := true

/-- What an invocation gives. -/
inductive Answer where
  | values (vs : Array Value)
  | failed (f : Fault)
  /-- The fuel was used up. -/
  | outOfFuel
  deriving DecidableEq, Repr

namespace Session

/-- A session on a new instance. -/
def ofInstance (i : Instance) (config : Config) (journal : Journal) : Session :=
  { program := i.program, config, machine := { store := i.store }, journal }

/-- A `call` instruction. -/
def callCode (index : UInt32) : List UInt8 := callByte :: Leb128.encodeU32 index

/-- The driver sequence of an invocation. -/
def driverCode (start : Option UInt32) (index : UInt32) : Bytes :=
  let startCall :=
    match start with
    | some start => callCode start
    | none => []
  (startCall ++ callCode index ++ [endByte]).toArray

/-- The stack of a new invocation: the outermost activation under the arguments. -/
def initialStack (signature : FunctionType) (arguments : List Value) : Stack :=
  Stack.empty.push (.activation {
    function := none
    locals := #[]
    returnTo := none
    signature := { parameters := [], results := signature.results } })
  |>.pushValues arguments

/-- The machine at the start of an invocation. -/
def ready (m : Machine) (stack : Stack) : Machine :=
  { m with
    stack
    pc := ⟨.driver, 0⟩
    halted := false
    immediates := m.immediates.invalidate .driver
    targets := m.targets.invalidate .driver }

/-- Checks the arguments of an invocation and gives the signature of the function. -/
def checkArguments (s : Session) (index : UInt32) (arguments : List Value) :
    Except Trap FunctionType := do
  let signature ← s.program.signature index
  let types := arguments.map Value.type
  if types = signature.parameters then return signature
  else throw (.missingFunctionParams signature (.arguments types))

/-- Runs a function whose arguments have been checked. The stack is empty afterwards, whatever the
outcome. -/
def runChecked (fuel : Nat) (index : UInt32) (signature : FunctionType) (arguments : List Value) :
    Session → Answer × Session
  | { program, config, machine, started, journal, memo } =>
    let driver := driverCode (if started then none else program.start) index
    let journal := journal.note (.invoking index signature arguments.length)
    let env : Env := { program, config, driver, memo }
    let result := run env fuel (ready machine (initialStack signature arguments)) journal
    let values := result.machine.stack.values
    let machine := { result.machine with stack := ∅ }
    let journal := result.journal
    match result.outcome with
    | .halted =>
      (.values values,
        { program, config, machine, started := true, memo
          journal := journal.note (.returned index machine.steps) })
    | .failed f => (.failed f, { program, config, machine, started := true, journal, memo })
    | .outOfFuel => (.outOfFuel, { program, config, machine, started := true, journal, memo })

/-- Calls a function with arguments. The start function runs first if it has not been issued. -/
def invoke (fuel : Nat) (index : UInt32) (arguments : List Value) (s : Session) :
    Answer × Session :=
  match s.checkArguments index arguments with
  | .error trap => (.failed ⟨trap, none⟩, s)
  | .ok signature => runChecked fuel index signature arguments s

/-- Calls a function without arguments: the given one, or else the configured entry. -/
def execute (fuel : Nat) (index : Option UInt32) (s : Session) : Answer × Session :=
  match index.or s.program.entry with
  | some index => s.invoke fuel index []
  | none => (.failed ⟨.entryNotFound s.config.entry, none⟩, s)

end Session

end WasmMachine
