import WasmMachine.Machine.Control
import WasmMachine.Machine.Data
import WasmMachine.Machine.Numeric

/-!
# Steps and runs

`step` fetches one opcode, counts it against the step limit and dispatches it. A failure is
located at the offset of the opcode that was fetched. `run` repeats steps until the machine
halts or fails; the fuel bounds the number of steps, and running out of it is an outcome of its
own.
-/

namespace WasmMachine

open Exec Stack

/-! ## Dispatch -/

/-- Executes a constant. -/
def execConst (env : Env) : ValueType → Exec Unit
  | .i32 => do
    let v ← readS32 env
    onStack (pushValue (.i32 v))
  | .i64 => do
    let v ← readS64 env
    onStack (pushValue (.i64 v))
  | .f32 => do
    let n ← readFixed env 4
    onStack (pushValue (.f32 (BitVec.ofNat 32 n)))
  | .f64 => do
    let n ← readFixed env 8
    onStack (pushValue (.f64 (BitVec.ofNat 64 n)))

/-- Executes an instruction whose opcode has been fetched: reads its operands and runs it. -/
def exec (env : Env) : Opcode → Exec Unit
  | .unreachable => throw .unreachable
  | .nop => pure ()
  | .block => block env
  | .loop => loop env
  | .ifThen => ifThen env
  | .elseArm => branch 0
  | .blockEnd => blockEnd
  | .branch => do
    let depth ← readU32 env
    branch depth.toNat
  | .branchIf => branchIf env
  | .branchTable => branchTable env
  | .ret => doReturn
  | .call => call env
  | .callIndirect => callIndirect env
  | .drop => onStack drop
  | .select => onStack select
  | .localGet => do
    let index ← readU32 env
    onStack (localGet index)
  | .localSet => do
    let index ← readU32 env
    onStack (localSet index)
  | .localTee => do
    let index ← readU32 env
    onStack (localTee index)
  | .globalGet => do
    let index ← readU32 env
    globalGet index
  | .globalSet => do
    let index ← readU32 env
    globalSet index
  | .load op => do
    let offset ← readMemArg env
    load op offset
  | .store op => do
    let offset ← readMemArg env
    store op offset
  | .memorySize => do
    let _memory ← readU32 env
    memorySize
  | .memoryGrow => do
    let _memory ← readU32 env
    memoryGrow
  | .const t => execConst env t
  | .numeric n => onStack n.run

/-- Executes the instruction of an opcode byte. -/
def dispatch (env : Env) (b : UInt8) : Exec Unit :=
  match Opcode.ofByte? b with
  | some op => exec env op
  | none => throw (.invalidOpcode b)

/-! ## One step -/

/-- The step limit, when a number of steps exceeds it. -/
def exceededLimit? (env : Env) (steps : Nat) : Option Nat :=
  match env.config.maxSteps with
  | some limit => if limit.toNat < steps then some limit.toNat else none
  | none => none

/-- The opcode byte at the program counter. -/
def fetch? (env : Env) (m : Machine) : Option UInt8 := (env.code m.pc.code)[m.pc.offset]?

/-- The machine with its program counter past the opcode byte. -/
def Machine.advance (m : Machine) : Machine :=
  { m with opOffset := m.pc.offset, pc := { m.pc with offset := m.pc.offset + 1 } }

/-- Fetches and executes one instruction. -/
def step (env : Env) : EStateM Fault Machine Unit := fun m =>
  let place := m.pc
  let located (trap : Trap) : Fault :=
    (Fault.mk trap none).located (env.program.modulePosition place)
  match fetch? env m with
  | none => .error (located (.illFormedStructure place.offset)) m
  | some b =>
    let m := { m with steps := m.steps + 1 }
    match exceededLimit? env m.steps with
    | some limit => .error (located (.stepLimitExceeded limit)) m
    | none =>
      match dispatch env b m.advance with
      | .ok _ m => .ok () m
      | .error trap m => .error (located trap) m

/-! ## Runs -/

/-- How a run ends. -/
inductive Outcome where
  | halted
  | failed (f : Fault)
  /-- The fuel was used up before the machine halted. -/
  | outOfFuel
  deriving DecidableEq, Repr

/-- The end of a run. -/
structure RunResult where
  outcome : Outcome
  machine : Machine
  journal : Journal

/-- Records the instruction that is about to be dispatched. -/
def Journal.noteDispatch (j : Journal) (env : Env) (m : Machine) : Journal :=
  match fetch? env m, exceededLimit? env (m.steps + 1) with
  | some b, none => j.note (.dispatched m.pc (Opcode.mnemonicOfByte b) m.stack.size)
  | _, _ => j

/-- Records the call that a step made: the number of activations has grown beyond `depth`. -/
def Journal.noteCall (j : Journal) (depth : Nat) (m : Machine) : Journal :=
  if depth < m.stack.count .activation then
    match m.stack.activation? with
    | some { function := some index, signature, .. } => j.note (.called index signature depth)
    | _ => j
  else j

/-- One step and its records, which are only made where they are kept. -/
def stepRecorded (env : Env) (m : Machine) (j : Journal) :
    EStateM.Result Fault Machine Unit × Journal :=
  if j.records .trace then
    let depth := m.stack.count .activation
    let j := j.noteDispatch env m
    match step env m with
    | .ok _ m => (.ok () m, j.noteCall depth m)
    | .error f m => (.error f m, j)
  else (step env m, j)

/-- Repeats steps until the machine halts, fails or has no fuel left. -/
def run (env : Env) : (fuel : Nat) → Machine → Journal → RunResult
  | 0, m, j => { outcome := if m.halted then .halted else .outOfFuel, machine := m, journal := j }
  | fuel + 1, m, j =>
    if m.halted then { outcome := .halted, machine := m, journal := j }
    else
      match stepRecorded env m j with
      | (.ok _ m, j) => run env fuel m j
      | (.error f m, j) => { outcome := .failed f, machine := m, journal := j }

end WasmMachine
