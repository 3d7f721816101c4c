import WasmMachine.Machine.Basic

/-!
# Control instructions

Blocks, branches, calls and returns. A branch is resolved against the labels of the current
activation: a depth below their number leads to a label, a depth equal to it returns from the
function, and a greater one traps.
-/

namespace WasmMachine

open Stack

namespace Stack

/-- Takes one parameter of a call. -/
def popParam (signature : FunctionType) (expected : ValueType) : StackM Value := fun s =>
  match s.peek? with
  | none => .error (.missingFunctionParams signature .nothing) s
  | some v =>
    if v.type = expected then .ok v s.pop
    else .error (.missingFunctionParams signature (.value v.type)) s.pop

/-- Takes parameters of the given types, the last one first, and puts them before those that were
taken earlier. -/
def popParams (signature : FunctionType) : List ValueType → List Value → StackM (List Value)
  | [], found => pure found
  | expected :: rest, found => do
    let v ← popParam signature expected
    popParams signature rest (v :: found)

end Stack

namespace Exec

/-! ## Returns and branches -/

/-- Leaves the current activation with its results and goes on in the caller. Leaving the
outermost activation halts the machine. -/
def doReturn : Exec Unit := fun m =>
  match m.stack.activationPosition?, m.stack.activation? with
  | some position, some a =>
    match onStack (unwindTo position a.resultArity) m with
    | .error e m => .error e m
    | .ok (.activation { returnTo := some place, .. }) m => .ok () { m with pc := place }
    | .ok (.activation { returnTo := none, .. }) m => .ok () { m with halted := true }
    | .ok _ m => .error .noActivation m
  | _, _ => .error .noActivation m

/-- The position and the label that `depth` other labels stand above. -/
def findLabel (depth : Nat) : Exec (Nat × LabelFrame) := fun m =>
  match m.stack.labelPosition? depth, m.stack.label? depth with
  | some position, some label => .ok (position, label) m
  | _, _ => .error .stackExhausted m

/-- Goes to the target of a branch of the given depth. -/
def branch (depth : Nat) : Exec Unit := do
  let labels := (← get).stack.labelsAboveActivation
  if depth = labels then doReturn
  else if labels < depth then throw (.breakLevelExceeded depth labels)
  else
    let (position, label) ← findLabel depth
    let _ ← onStack (unwindTo position label.branchArity)
    jump label.continuation

/-- Closes the innermost block and goes on, or returns when no block is open. -/
def blockEnd : Exec Unit := do
  if (← get).stack.labelsAboveActivation = 0 then doReturn
  else
    let (position, label) ← findLabel 0
    let _ ← onStack (unwindTo position label.resultArity)

/-! ## Blocks -/

/-- Opens a block. -/
def block (env : Env) : Exec Unit := do
  let blockType ← readBlockType env
  let targets ← blockTargets env
  pushFrame (.label { kind := .block, blockType, continuation := targets.endPos + 1 })

/-- Opens a loop, whose label leads back to the opcode of the loop itself. -/
def loop (env : Env) : Exec Unit := do
  let blockType ← readBlockType env
  let continuation := (← get).opOffset
  pushFrame (.label { kind := .loop, blockType, continuation })

/-- Takes a condition and opens one arm of an `if`. Without an `else`, a condition of zero leads
straight to the end. -/
def ifThen (env : Env) : Exec Unit := do
  let blockType ← readBlockType env
  let condition ← onStack popI32
  let targets ← blockTargets env
  pushFrame (.label { kind := .ifThen, blockType, continuation := targets.endPos + 1 })
  if condition = 0 then
    match targets.elsePos with
    | some elsePos => jump (elsePos + 1)
    | none => jump targets.endPos

/-! ## Conditional branches -/

/-- Takes a condition and branches if it is not zero. -/
def branchIf (env : Env) : Exec Unit := do
  let depth ← readU32 env
  let condition ← onStack popI32
  if condition ≠ 0 then branch depth.toNat

/-- Reads `count` label depths and adds them to those found before. -/
def readDepths (env : Env) : (count : Nat) → (found : Array UInt32) → Exec (Array UInt32)
  | 0, found => pure found
  | count + 1, found => do
    let depth ← readU32 env
    readDepths env count (found.push depth)

/-- Takes an index, read as unsigned, and branches to the depth at its place in the table, or to
the last depth when the index is beyond the others. -/
def branchTable (env : Env) : Exec Unit := do
  let count ← readU32 env
  let depths ← readDepths env count.toNat #[]
  let default ← readU32 env
  let index ← onStack popI32
  branch (depths[index.toNat]?.getD default).toNat

/-! ## Calls -/

/-- Opens the activation of a defined function with the given arguments and goes to its body. -/
def enter (index : UInt32) (place : Nat) (f : Function) (arguments : List Value) : Exec Unit := do
  let returnTo := some (← get).pc
  pushFrame (.activation {
    function := some index
    locals := arguments.toArray ++ f.locals.extract arguments.length f.locals.size
    returnTo
    signature := f.signature })
  modify fun m =>
    { m with
      store := { m.store with callCounts := m.store.callCounts.modify place (· + 1) }
      pc := { code := .function place, offset := 0 } }

/-- Calls a function: its parameters are taken from the stack. An imported function has no code. -/
def callFunction (env : Env) (index : UInt32) : Exec Unit := do
  match ← ofExcept (env.program.callee index) with
  | .imported f => throw (.unresolvedImport f.module f.name)
  | .defined place f =>
    let depth := (← get).stack.count .activation
    if env.config.maxCallDepth.toNat < depth then throw (.callStackExhausted depth)
    else
      let arguments ← onStack (popParams f.signature f.signature.parameters.reverse [])
      enter index place f arguments

/-- Calls the function of the index in the code. -/
def call (env : Env) : Exec Unit := do
  let index ← readU32 env
  callFunction env index

/-- The function in a slot of the first table. -/
def readSlot (slot : UInt32) : Exec UInt32 := do
  let table ← ofExcept (← get).store.table
  match ← ofExcept (table.get slot) with
  | some function => return function
  | none => throw (.uninitializedElement slot)

/-- Takes a slot of the first table and calls the function in it, which must have the signature
that the code names. -/
def callIndirect (env : Env) : Exec Unit := do
  let typeIndex ← readU32 env
  let _table ← readU32 env
  match env.program.types[typeIndex.toNat]? with
  | none => throw (.typeIndexOutOfBounds typeIndex)
  | some expected =>
    let slot ← onStack popI32
    let function ← readSlot (UInt32.ofNat slot.toNat)
    let actual ← ofExcept (env.program.signature function)
    if actual ≠ expected then throw (.indirectCallTypeMismatch expected actual)
    else callFunction env function

end Exec

end WasmMachine
