import WasmMachine.Machine.Step

/-!
# Decoded instructions

An instruction is an opcode with the operands that follow it in the code. Every handler of the
machine first reads its operands and then acts; `Instruction.exec` is the second half, and
`exec_eq` puts the two halves together again. `Opcode.decode` reads the operands from the code
bytes alone, without a machine.
-/

namespace WasmMachine

open Exec Stack

/-- The instructions that work on operands, locals and the store, and leave control alone. -/
inductive Simple where
  | unreachable
  | nop
  | drop
  | select
  | localGet (index : UInt32)
  | localSet (index : UInt32)
  | localTee (index : UInt32)
  | globalGet (index : UInt32)
  | globalSet (index : UInt32)
  | load (op : LoadOp) (offset : UInt32)
  | store (op : StoreOp) (offset : UInt32)
  | memorySize
  | memoryGrow
  | const (v : Value)
  | numeric (n : Numeric)

/-- An instruction with its operands. A byte of no opcode is an instruction that traps. -/
inductive Instruction where
  | simple (s : Simple)
  | block (t : BlockType)
  | loop (t : BlockType)
  | ifThen (t : BlockType)
  | elseArm
  | blockEnd
  | branch (depth : UInt32)
  | branchIf (depth : UInt32)
  | branchTable (depths : Array UInt32) (default : UInt32)
  | ret
  | call (index : UInt32)
  | callIndirect (typeIndex : UInt32)
  | invalid (b : UInt8)

/-! ## Execution after the operands -/

/-- Executes an instruction that leaves control alone. -/
def Simple.exec : Simple → Exec Unit
  | .unreachable => throw .unreachable
  | .nop => pure ()
  | .drop => onStack Stack.drop
  | .select => onStack Stack.select
  | .localGet index => onStack (Stack.localGet index)
  | .localSet index => onStack (Stack.localSet index)
  | .localTee index => onStack (Stack.localTee index)
  | .globalGet index => Exec.globalGet index
  | .globalSet index => Exec.globalSet index
  | .load op offset => Exec.load op offset
  | .store op offset => Exec.store op offset
  | .memorySize => Exec.memorySize
  | .memoryGrow => Exec.memoryGrow
  | .const v => onStack (pushValue v)
  | .numeric n => onStack n.run

/-- Opens a block whose type has been read. -/
def Exec.openBlock (env : Env) (blockType : BlockType) : Exec Unit := do
  let targets ← blockTargets env
  pushFrame (.label { kind := .block, blockType, continuation := targets.endPos + 1 })

/-- Opens a loop whose type has been read. -/
def Exec.openLoop (blockType : BlockType) : Exec Unit := do
  let continuation := (← get).opOffset
  pushFrame (.label { kind := .loop, blockType, continuation })

/-- Goes to the arm of an `if` that the condition selects. -/
def Exec.selectArm (condition : BitVec 32) (targets : BlockTargets) : Exec Unit :=
  if condition = 0 then
    match targets.elsePos with
    | some elsePos => jump (elsePos + 1)
    | none => jump targets.endPos
  else pure ()

/-- Opens an arm of an `if` whose type has been read. -/
def Exec.openArm (env : Env) (blockType : BlockType) : Exec Unit := do
  let condition ← onStack popI32
  let targets ← blockTargets env
  pushFrame (.label { kind := .ifThen, blockType, continuation := targets.endPos + 1 })
  selectArm condition targets

/-- Takes a condition and branches if it is not zero. -/
def Exec.branchUnlessZero (depth : UInt32) : Exec Unit := do
  let condition ← onStack popI32
  if condition ≠ 0 then Exec.branch depth.toNat

/-- Takes an index and branches to the depth at its place. -/
def Exec.branchIndexed (depths : Array UInt32) (default : UInt32) : Exec Unit := do
  let index ← onStack popI32
  Exec.branch (depths[index.toNat]?.getD default).toNat

/-- Takes a slot and calls the function in it, which must have the given type. -/
def Exec.callSlot (env : Env) (typeIndex : UInt32) : Exec Unit :=
  match env.program.types[typeIndex.toNat]? with
  | none => throw (.typeIndexOutOfBounds typeIndex)
  | some expected => do
    let slot ← onStack popI32
    let function ← readSlot (UInt32.ofNat slot.toNat)
    let actual ← ofExcept (env.program.signature function)
    if actual ≠ expected then throw (.indirectCallTypeMismatch expected actual)
    else callFunction env function

/-- Executes an instruction whose operands have been read. -/
def Instruction.exec (env : Env) : Instruction → Exec Unit
  | .simple s => s.exec
  | .block t => openBlock env t
  | .loop t => openLoop t
  | .ifThen t => openArm env t
  | .elseArm => Exec.branch 0
  | .blockEnd => Exec.blockEnd
  | .branch depth => Exec.branch depth.toNat
  | .branchIf depth => branchUnlessZero depth
  | .branchTable depths default => branchIndexed depths default
  | .ret => doReturn
  | .call index => callFunction env index
  | .callIndirect typeIndex => callSlot env typeIndex
  | .invalid b => throw (.invalidOpcode b)

/-! ## Operands read by the machine -/

/-- Reads the value of a constant at the program counter. -/
def Exec.readConst (env : Env) : ValueType → Exec Value
  | .i32 => return .i32 (← readS32 env)
  | .i64 => return .i64 (← readS64 env)
  | .f32 => return .f32 (BitVec.ofNat 32 (← readFixed env 4))
  | .f64 => return .f64 (BitVec.ofNat 64 (← readFixed env 8))

/-- Reads the operands of an opcode at the program counter. -/
def Opcode.read (env : Env) : Opcode → Exec Instruction
  | .unreachable => return .simple .unreachable
  | .nop => return .simple .nop
  | .block => return .block (← readBlockType env)
  | .loop => return .loop (← readBlockType env)
  | .ifThen => return .ifThen (← readBlockType env)
  | .elseArm => return .elseArm
  | .blockEnd => return .blockEnd
  | .branch => return .branch (← readU32 env)
  | .branchIf => return .branchIf (← readU32 env)
  | .branchTable => do
    let count ← readU32 env
    let depths ← readDepths env count.toNat #[]
    return .branchTable depths (← readU32 env)
  | .ret => return .ret
  | .call => return .call (← readU32 env)
  | .callIndirect => do
    let typeIndex ← readU32 env
    let _table ← readU32 env
    return .callIndirect typeIndex
  | .drop => return .simple .drop
  | .select => return .simple .select
  | .localGet => return .simple (.localGet (← readU32 env))
  | .localSet => return .simple (.localSet (← readU32 env))
  | .localTee => return .simple (.localTee (← readU32 env))
  | .globalGet => return .simple (.globalGet (← readU32 env))
  | .globalSet => return .simple (.globalSet (← readU32 env))
  | .load op => return .simple (.load op (← readMemArg env))
  | .store op => return .simple (.store op (← readMemArg env))
  | .memorySize => do
    let _memory ← readU32 env
    return .simple .memorySize
  | .memoryGrow => do
    let _memory ← readU32 env
    return .simple .memoryGrow
  | .const t => return .simple (.const (← readConst env t))
  | .numeric n => return .simple (.numeric n)

/-- Executing an opcode is reading its operands and then acting on them. -/
theorem exec_eq (env : Env) (op : Opcode) :
    exec env op = op.read env >>= Instruction.exec env := by
  cases op with
  | const t =>
    cases t <;>
      simp only [WasmMachine.exec, execConst, Opcode.read, readConst, bind_pure_comp,
        bind_map_left, Instruction.exec, Simple.exec]
  | ifThen =>
    simp only [WasmMachine.exec, Opcode.read, Exec.ifThen, bind_pure_comp, bind_map_left]
    rfl
  | callIndirect =>
    simp only [WasmMachine.exec, Opcode.read, Exec.callIndirect, bind_assoc, pure_bind]
    rfl
  | _ =>
    simp only [WasmMachine.exec, Opcode.read, Exec.block, Exec.loop, Exec.branchIf,
      Exec.branchTable, Exec.call, Instruction.exec, Simple.exec, openBlock, openLoop,
      branchUnlessZero, branchIndexed, bind_assoc, pure_bind, bind_pure_comp, bind_map_left]

end WasmMachine
