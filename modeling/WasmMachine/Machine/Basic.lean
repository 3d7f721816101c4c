import WasmMachine.Instance
import WasmMachine.Memo
import WasmMachine.Stack

/-!
# The machine

The state that instructions work on, and how an instruction reads its operands. Operands are
decoded from the code bytes at the program counter, through the memo tables unless these are
switched off. An instruction that fails keeps the state that it has reached.
-/

namespace WasmMachine

/-- What stays the same while an invocation runs. -/
structure Env where
  program : Program
  config : Config
  /-- The sequence of calls that starts the invocation. -/
  driver : Bytes
  /-- Whether decoded operands and block ends are remembered. -/
  memo : Bool := true

/-- The code of a buffer. -/
def Env.code (env : Env) (code : CodeRef) : Bytes := env.program.codeOf env.driver code

/-- The state of execution. -/
structure Machine where
  stack : Stack := ∅
  store : Store
  /-- The place of the next byte to decode. -/
  pc : CodePoint := ⟨.driver, 0⟩
  /-- The offset of the opcode that is being executed. -/
  opOffset : Nat := 0
  halted : Bool := true
  /-- The number of instructions that were dispatched. -/
  steps : Nat := 0
  immediates : ImmediateCache := {}
  targets : TargetCache := {}

/-- Instructions: they change the machine and may trap. -/
abbrev Exec := EStateM Trap Machine

namespace Exec

/-- Runs an operation on the stack. The stack is taken out of the machine meanwhile, so that it is
updated in place. -/
def onStack {α : Type} (op : StackM α) : Exec α := fun m =>
  let s := m.stack
  let m := { m with stack := ∅ }
  match op s with
  | .ok a s => .ok a { m with stack := s }
  | .error e s => .error e { m with stack := s }

/-- Continues at an offset of the current code buffer. -/
def jump (offset : Nat) : Exec Unit :=
  modify fun m => { m with pc := { m.pc with offset } }

/-- Puts a frame on the stack. -/
def pushFrame (f : Frame) : Exec Unit := onStack (modify (·.push f))

/-! ## Operands -/

/-- Reads a number at the program counter and steps over it. -/
def readNumber (env : Env) (decode : Bytes → Nat → Except VarintError (BitVec 64 × Nat)) :
    Exec (BitVec 64) := fun m =>
  match if env.memo then m.immediates.find? m.pc else none with
  | some (v, next) =>
    .ok v { m with
      immediates := m.immediates.countHit
      pc := { m.pc with offset := next } }
  | none =>
    match decode (env.code m.pc.code) m.pc.offset with
    | .error e => .error (.malformedImmediate e) m
    | .ok (v, next) =>
      .ok v { m with
        immediates := if env.memo then m.immediates.insert m.pc v next else m.immediates
        pc := { m.pc with offset := next } }

/-- Reads an unsigned number widened to 64 bits. -/
def wideU32 (code : Bytes) (pos : Nat) : Except VarintError (BitVec 64 × Nat) :=
  (Leb128.decodeU32 code pos).map fun (v, next) => (BitVec.ofNat 64 v.toNat, next)

/-- Reads a signed 32-bit number widened to 64 bits. -/
def wideS32 (code : Bytes) (pos : Nat) : Except VarintError (BitVec 64 × Nat) :=
  (Leb128.decodeS32 code pos).map fun (v, next) => (v.signExtend 64, next)

/-- Reads an unsigned 32-bit operand. -/
def readU32 (env : Env) : Exec UInt32 := do
  return UInt32.ofNat (← readNumber env wideU32).toNat

/-- Reads a signed 32-bit operand. -/
def readS32 (env : Env) : Exec (BitVec 32) := do
  return (← readNumber env wideS32).setWidth 32

/-- Reads a signed 64-bit operand. -/
def readS64 (env : Env) : Exec (BitVec 64) := readNumber env Leb128.decodeS64

/-- Reads a fixed number of bytes as a little-endian number. -/
def readFixed (env : Env) (width : Nat) : Exec Nat := fun m =>
  match (env.code m.pc.code).slice? m.pc.offset width with
  | none => .error (.malformedImmediate .unexpectedEof) m
  | some bytes =>
    .ok (littleEndian bytes.toList) { m with
      pc := { m.pc with offset := m.pc.offset + width } }

/-- Reads a block type. -/
def readBlockType (env : Env) : Exec BlockType := do
  let b ← readFixed env 1
  match BlockType.ofByte? (UInt8.ofNat b) with
  | some t => return t
  | none => throw (.illFormedStructure (← get).opOffset)

/-- Reads the alignment hint, which has no effect, and the offset of a memory access. -/
def readMemArg (env : Env) : Exec UInt32 := do
  let _align ← readU32 env
  readU32 env

/-- The delimiters of the block whose opcode is being executed; its body starts at the program
counter. -/
def blockTargets (env : Env) : Exec BlockTargets := fun m =>
  let place : CodePoint := { code := m.pc.code, offset := m.opOffset }
  match if env.memo then m.targets.find? place else none with
  | some targets => .ok targets m
  | none =>
    match resolve (env.code m.pc.code) m.pc.offset with
    | .error e => .error e m
    | .ok targets =>
      .ok targets { m with
        targets := if env.memo then m.targets.insert place targets else m.targets }

end Exec

end WasmMachine
