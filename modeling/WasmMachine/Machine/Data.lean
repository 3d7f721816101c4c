import WasmMachine.Machine.Basic

/-!
# Variables and memory

Instructions on locals, globals and the first memory, with their operands already decoded. The
address of a memory access is the address on the stack, read as unsigned, plus the offset in the
code; it is a natural number and never wraps.
-/

namespace WasmMachine

open Stack

namespace Stack

/-! ## Locals -/

/-- The value of a local of the topmost activation. -/
def readLocal (index : UInt32) : StackM Value := fun s =>
  match s.activation? with
  | none => .error .noActivation s
  | some a =>
    match a.locals[index.toNat]? with
    | none => .error (.localIndexOutOfBounds index) s
    | some v => .ok v s

/-- Pushes a local. -/
def localGet (index : UInt32) : StackM Unit := do
  pushValue (← readLocal index)

/-- Takes a value of the type of a local and assigns it. -/
def localSet (index : UInt32) : StackM Unit := do
  let old ← readLocal index
  let v ← popTyped old.type
  modify (·.setLocal index.toNat v)

/-- Assigns a local and leaves the value on the stack. -/
def localTee (index : UInt32) : StackM Unit := do
  localSet index
  localGet index

/-- Takes an address and adds an offset to it. -/
def popAddress (offset : UInt32) : StackM Nat := do
  return (← popI32).toNat + offset.toNat

end Stack

/-! ## Numbers in memory -/

/-- The value that a load makes of the number that it read. -/
def LoadOp.value (op : LoadOp) (n : Nat) : Value :=
  match op with
  | .full t => .ofNat t n
  | .packed t p .unsigned => .ofInt t (BitVec.ofNat (8 * p.bytes) n |>.setWidth t.width)
  | .packed t p .signed => .ofInt t (BitVec.ofNat (8 * p.bytes) n |>.signExtend t.width)

/-- The type of the value that a store takes. -/
def StoreOp.type : StoreOp → ValueType
  | .full t => t
  | .packed t _ => t.valueType

namespace Exec

/-! ## Globals -/

/-- A global. -/
def readGlobal (index : UInt32) : Exec Global := fun m =>
  match m.store.globals[index.toNat]? with
  | some g => .ok g m
  | none => .error (.globalIndexOutOfBounds index) m

/-- Pushes a global. -/
def globalGet (index : UInt32) : Exec Unit := do
  let g ← readGlobal index
  onStack (pushValue g.value)

/-- Takes a value of the type of a global, which must be mutable, and assigns it. -/
def globalSet (index : UInt32) : Exec Unit := do
  let g ← readGlobal index
  if !g.isMutable then throw (.immutableGlobal index)
  else
    let v ← onStack (popTyped g.value.type)
    modify fun m =>
      { m with
        store := { m.store with
          globals := m.store.globals.setIfInBounds index.toNat { g with value := v } } }

/-! ## Memory -/

/-- The first memory. -/
def readMemory : Exec Memory := fun m =>
  match m.store.memory with
  | .ok memory => .ok memory m
  | .error e => .error e m

/-- Fails unless there is a memory. -/
def requireMemory : Exec Unit := do let _ ← readMemory

/-- A memory of no size, which takes the place of one that is being changed. -/
def noBytes : Memory := { data := .empty, pages := 0, max := none, ceiling := 0 }

/-- Runs an operation on the first memory. The memory is taken out of the store meanwhile, so that
it is updated in place. -/
def onMemory {α : Type} (op : MemoryM α) : Exec α := fun m =>
  match m.store.memories[0]? with
  | none => .error .noMemory m
  | some memory =>
    let memories := m.store.memories.setIfInBounds 0 noBytes
    let m := { m with store := { m.store with memories := #[] } }
    match op memory with
    | .ok a memory =>
      .ok a { m with store := { m.store with memories := memories.setIfInBounds 0 memory } }
    | .error e memory =>
      .error e { m with store := { m.store with memories := memories.setIfInBounds 0 memory } }

/-- Loads from the first memory. -/
def load (op : LoadOp) (offset : UInt32) : Exec Unit := do
  requireMemory
  let address ← onStack (popAddress offset)
  let memory ← readMemory
  let n ← ofExcept (memory.load address op.bytes)
  onStack (pushValue (op.value n))

/-- Stores to the first memory. The value is taken before the address. -/
def store (op : StoreOp) (offset : UInt32) : Exec Unit := do
  requireMemory
  let v ← onStack (popTyped op.type)
  let address ← onStack (popAddress offset)
  onMemory (Memory.store address op.bytes v.toNat)

/-- Pushes the size of the first memory in pages. -/
def memorySize : Exec Unit := do
  let memory ← readMemory
  onStack (pushValue (.i32 (BitVec.ofNat 32 memory.pages)))

/-- Grows a memory and gives the previous size in pages, or minus one. -/
def growMemory (delta : UInt32) : MemoryM (BitVec 32) := fun memory =>
  match memory.grow delta with
  | (some previous, memory) => .ok (BitVec.ofNat 32 previous) memory
  | (none, memory) => .ok (-1) memory

/-- Takes a number of pages, read as unsigned, and grows the first memory by it. Pushes the
previous size in pages, or minus one if the memory could not grow. -/
def memoryGrow : Exec Unit := do
  requireMemory
  let delta ← onStack popI32
  let previous ← onMemory (growMemory (UInt32.ofNat delta.toNat))
  onStack (pushValue (.i32 previous))

end Exec

end WasmMachine
