import WasmMachine.Proofs.Guarded.Stack
import WasmMachine.Proofs.Instance.Phases
import WasmMachine.Proofs.Machine.Invocation
import WasmMachine.Proofs.Machine.Keeping
import WasmMachine.Proofs.Store.Buffers

/-!
# The machine with guards

The instructions once more, with guards where they look up an imported function, assign parameters,
count calls, or read, write and grow a memory. The stack part goes through the guarded stack. What
no instruction guards is taken over as it is.

The invariant that keeps all conditions true has three parts: the index of the stack is in step
with its frames, there is a call count for every defined function, and every memory has the size
that its pages say. Each instruction keeps it, also one that traps, and it holds for arbitrary code.

* `Machine.Sound`: the invariant.
* `Guarded.unbroken_exec`: one instruction.
* `Guarded.run_eq`: whole runs.
-/

namespace WasmMachine

open Stack

/-! ## Guarded instructions -/

namespace Guarded

open GuardedM

variable {α : Type}

/-! ### Memory -/

def readBytes (m : Memory) (address len : Nat) : Except (Stop Trap) (List UInt8) :=
  if m.fits address len then do
    Stop.require .memoryBytes (address + len ≤ m.data.size)
    return Memory.bytesFrom m.data address len
  else .error (.raised (m.outOfBounds address len))

def loadNumber (m : Memory) (address width : Nat) : Except (Stop Trap) Nat :=
  (readBytes m address width).map littleEndian

def writeBytes (address : Nat) (bytes : List UInt8) : GuardedM Trap Memory Unit := do
  let m ← get
  if m.fits address bytes.length then
    require .memoryBytes fun m => address + bytes.length ≤ m.data.size
    set { m with data := Memory.setBytes m.data address bytes }
  else throw (.raised (m.outOfBounds address bytes.length))

def growMemory (delta : UInt32) : GuardedM Trap Memory (BitVec 32) := do
  let m ← get
  let pages := m.pages + delta.toNat
  if m.limit < pages then return -1
  else
    require .memoryGrowth fun m => m.data.size ≤ pages * pageSize
    let missing := pages * pageSize - m.data.size
    set { m with data := m.data ++ Memory.zeros missing, pages }
    return BitVec.ofNat 32 m.pages

/-! ### Control -/

/-- Runs a guarded operation on the stack. -/
def onStack (op : GuardedM Trap Stack α) : GuardedM Trap Machine α := fun m =>
  match op m.stack with
  | .ok a s => .ok a { m with stack := s }
  | .error e s => .error e { m with stack := s }

/-- Runs a guarded operation on the first memory. -/
def onMemory (op : GuardedM Trap Memory α) : GuardedM Trap Machine α := fun m =>
  match m.store.memories[0]? with
  | none => .error (.raised .noMemory) m
  | some memory =>
    let put (memory : Memory) : Machine :=
      { m with store := { m.store with memories := m.store.memories.setIfInBounds 0 memory } }
    match op memory with
    | .ok a memory => .ok a (put memory)
    | .error e memory => .error e (put memory)

def doReturn : GuardedM Trap Machine Unit := do
  let found ← onStack activation?
  match (← get).stack.activationPosition?, found with
  | some position, some a =>
    match ← onStack (unwindTo position a.resultArity) with
    | .activation { returnTo := some place, .. } => modify fun m => { m with pc := place }
    | .activation { returnTo := none, .. } => modify fun m => { m with halted := true }
    | _ => throw (.raised .noActivation)
  | _, _ => throw (.raised .noActivation)

def findLabel (depth : Nat) : GuardedM Trap Machine (Nat × LabelFrame) := do
  let position ← onStack (labelPosition? depth)
  let label ← onStack (label? depth)
  match position, label with
  | some position, some label => return (position, label)
  | _, _ => throw (.raised .stackExhausted)

def branch (depth : Nat) : GuardedM Trap Machine Unit := do
  let labels := (← get).stack.labelsAboveActivation
  if depth = labels then doReturn
  else if labels < depth then throw (.raised (.breakLevelExceeded depth labels))
  else
    let (position, label) ← findLabel depth
    let _ ← onStack (unwindTo position label.branchArity)
    lift (Exec.jump label.continuation)

def blockEnd : GuardedM Trap Machine Unit := do
  if (← get).stack.labelsAboveActivation = 0 then doReturn
  else
    let (position, label) ← findLabel 0
    let _ ← onStack (unwindTo position label.resultArity)

def branchIf (env : Env) : GuardedM Trap Machine Unit := do
  let depth ← lift (Exec.readU32 env)
  let condition ← onStack (lift popI32)
  if condition ≠ 0 then branch depth.toNat

def branchTable (env : Env) : GuardedM Trap Machine Unit := do
  let count ← lift (Exec.readU32 env)
  let depths ← lift (Exec.readDepths env count.toNat #[])
  let default ← lift (Exec.readU32 env)
  let index ← onStack (lift popI32)
  branch (depths[index.toNat]?.getD default).toNat

/-! ### Calls -/

/-- The function of an index. -/
def callee (p : Program) (index : UInt32) : Except (Stop Trap) Callee :=
  if index.toNat < p.imported.size then
    match p.imported[index.toNat]? with
    | some f => .ok (.imported f)
    | none => .error (.broken .importedFunction)
  else
    let place := index.toNat - p.imported.size
    match p.functions[place]? with
    | some f => .ok (.defined place f)
    | none => .error (.raised (.functionIndexOutOfBounds index))

def signature (p : Program) (index : UInt32) : Except (Stop Trap) FunctionType :=
  (callee p index).map Callee.signature

def callFunction (env : Env) (index : UInt32) : GuardedM Trap Machine Unit := do
  match ← ofExcept (callee env.program index) with
  | .imported f => throw (.raised (.unresolvedImport f.module f.name))
  | .defined place f =>
    let depth := (← get).stack.count .activation
    if env.config.maxCallDepth.toNat < depth then throw (.raised (.callStackExhausted depth))
    else
      let arguments ← onStack (popParams f.locals f.signature f.signature.parameters.reverse [])
      require .calledFunction fun m =>
        place < env.program.functions.size ∧ place < m.store.callCounts.size
      lift (Exec.enter index place f arguments)

def call (env : Env) : GuardedM Trap Machine Unit := do
  let index ← lift (Exec.readU32 env)
  callFunction env index

def callIndirect (env : Env) : GuardedM Trap Machine Unit := do
  let typeIndex ← lift (Exec.readU32 env)
  let _table ← lift (Exec.readU32 env)
  match env.program.types[typeIndex.toNat]? with
  | none => throw (.raised (.typeIndexOutOfBounds typeIndex))
  | some expected =>
    let slot ← onStack (lift popI32)
    let function ← lift (Exec.readSlot (UInt32.ofNat slot.toNat))
    let actual ← ofExcept (signature env.program function)
    if actual ≠ expected then throw (.raised (.indirectCallTypeMismatch expected actual))
    else callFunction env function

/-! ### Dispatch -/

def load (op : LoadOp) (offset : UInt32) : GuardedM Trap Machine Unit := do
  lift Exec.requireMemory
  let address ← onStack (lift (popAddress offset))
  let memory ← lift Exec.readMemory
  let n ← ofExcept (loadNumber memory address op.bytes)
  onStack (lift (pushValue (op.value n)))

def store (op : StoreOp) (offset : UInt32) : GuardedM Trap Machine Unit := do
  lift Exec.requireMemory
  let v ← onStack (lift (popTyped op.type))
  let address ← onStack (lift (popAddress offset))
  onMemory (writeBytes address (toLittleEndian op.bytes v.toNat))

def memoryGrow : GuardedM Trap Machine Unit := do
  lift Exec.requireMemory
  let delta ← onStack (lift popI32)
  let previous ← onMemory (growMemory (UInt32.ofNat delta.toNat))
  onStack (lift (pushValue (.i32 previous)))

/-- Executes an instruction. Those that are not listed have no unchecked operations. -/
def exec (env : Env) : Opcode → GuardedM Trap Machine Unit
  | .elseArm => branch 0
  | .blockEnd => blockEnd
  | .branch => do
    let depth ← lift (Exec.readU32 env)
    branch depth.toNat
  | .branchIf => branchIf env
  | .branchTable => branchTable env
  | .ret => doReturn
  | .call => call env
  | .callIndirect => callIndirect env
  | .localGet => do
    let index ← lift (Exec.readU32 env)
    onStack (localGet index)
  | .localSet => do
    let index ← lift (Exec.readU32 env)
    onStack (localSet index)
  | .localTee => do
    let index ← lift (Exec.readU32 env)
    onStack (localTee index)
  | .load op => do
    let offset ← lift (Exec.readMemArg env)
    load op offset
  | .store op => do
    let offset ← lift (Exec.readMemArg env)
    store op offset
  | .memoryGrow => do
    let _memory ← lift (Exec.readU32 env)
    memoryGrow
  | .numeric n => onStack (numeric n)
  | op => lift (WasmMachine.exec env op)

def dispatch (env : Env) (b : UInt8) : GuardedM Trap Machine Unit :=
  match Opcode.ofByte? b with
  | some op => exec env op
  | none => throw (.raised (.invalidOpcode b))

/-! ### Runs -/

def step (env : Env) : GuardedM Fault Machine Unit := fun m =>
  let place := m.pc
  let located (trap : Trap) : Fault :=
    (Fault.mk trap none).located (env.program.modulePosition place)
  match fetch? env m with
  | none => .error (.raised (located (.illFormedStructure place.offset))) m
  | some b =>
    let m := { m with steps := m.steps + 1 }
    match exceededLimit? env m.steps with
    | some limit => .error (.raised (located (.stepLimitExceeded limit))) m
    | none =>
      match dispatch env b m.advance with
      | .ok _ m => .ok () m
      | .error (.raised trap) m => .error (.raised (located trap)) m
      | .error (.broken op) m => .error (.broken op) m

/-- One step and its records. -/
def stepRecorded (env : Env) (m : Machine) (j : Journal) :
    Except Unchecked (EStateM.Result Fault Machine Unit × Journal) :=
  let depth := m.stack.count .activation
  let dispatched := if j.records .trace then j.noteDispatch env m else j
  match step env m with
  | .ok _ m => .ok (.ok () m, if j.records .trace then dispatched.noteCall depth m else dispatched)
  | .error (.raised f) m => .ok (.error f m, dispatched)
  | .error (.broken op) _ => .error op

def run (env : Env) : (fuel : Nat) → Machine → Journal → Except Unchecked RunResult
  | 0, m, j =>
    .ok { outcome := if m.halted then .halted else .outOfFuel, machine := m, journal := j }
  | fuel + 1, m, j =>
    if m.halted then .ok { outcome := .halted, machine := m, journal := j }
    else
      match stepRecorded env m j with
      | .ok (.ok _ m, j) => run env fuel m j
      | .ok (.error f m, j) => .ok { outcome := .failed f, machine := m, journal := j }
      | .error op => .error op

end Guarded

/-! ## The invariant -/

/-- The memory has the size that its pages say. -/
def Memory.Sound (m : Memory) : Prop := m.data.size = m.pages * pageSize

/-- There is a call count for every defined function, and the memories are sound. -/
structure Store.Sound (p : Program) (s : Store) : Prop where
  counts : s.callCounts.size = p.functions.size
  memories : ∀ memory ∈ s.memories, memory.Sound

structure Machine.Sound (p : Program) (m : Machine) : Prop where
  stack : m.stack.Built
  store : m.store.Sound p

/-- Every function has a local for each of its parameters. -/
def Program.HoldsParameters (p : Program) : Prop :=
  ∀ f ∈ p.functions, f.signature.parameters.length ≤ f.locals.size

/-! ### Memories -/

namespace Guarded

theorem readBytes_eq (m : Memory) (address len : Nat) :
    readBytes m address len = Stop.ofExcept (m.readBytes address len) := by
  unfold readBytes Memory.readBytes
  by_cases hFits : m.fits address len = true
  · rw [if_pos hFits, if_pos hFits]
    exact Stop.require_bind (of_decide_eq_true hFits) _
  · rw [if_neg hFits, if_neg hFits]
    rfl

theorem loadNumber_eq (m : Memory) (address width : Nat) :
    loadNumber m address width = Stop.ofExcept (m.load address width) := by
  unfold loadNumber Memory.load
  rw [readBytes_eq]
  cases m.readBytes address width <;> rfl

theorem writeBytes_eq (m : Memory) (address : Nat) (bytes : List UInt8) :
    writeBytes address bytes m = GuardedM.lift (Memory.writeBytes address bytes) m := by
  unfold writeBytes GuardedM.lift Memory.writeBytes
  rw [GuardedM.get_bind]
  by_cases hFits : m.fits address bytes.length = true
  · simp only [if_pos hFits]
    exact GuardedM.bind_of_ok (GuardedM.require_eq_ok (of_decide_eq_true hFits))
  · simp only [if_neg hFits]
    rfl

theorem keeps_writeBytes (address : Nat) (bytes : List UInt8) :
    Keeps Memory.Sound (Memory.writeBytes address bytes) := by
  intro m hm
  unfold Memory.writeBytes
  split
  · exact (Memory.size_setBytes m.data address bytes).trans hm
  · exact hm

/-- A memory never has more bytes than its pages say, so growing adds bytes. -/
theorem unbroken_growMemory {m : Memory} (hm : m.Sound) (delta : UInt32) :
    Unbroken Memory.Sound (growMemory delta) (Exec.growMemory delta) m := by
  refine Unbroken.look (a := m) rfl ?_
  by_cases hLimit : m.limit < m.pages + delta.toNat
  · have hPlain : Exec.growMemory delta m = .ok (-1) m := by
      simp only [Exec.growMemory, Memory.grow, if_pos hLimit]
    simp only [if_pos hLimit]
    exact Unbroken.of_ok rfl hPlain hm
  · have hRoom : m.data.size ≤ (m.pages + delta.toNat) * pageSize := by
      rw [hm]
      exact Nat.mul_le_mul_right _ (Nat.le_add_right _ _)
    let grown : Memory := { m with
      data := m.data ++ Memory.zeros ((m.pages + delta.toNat) * pageSize - m.data.size)
      pages := m.pages + delta.toNat }
    have hPlain : Exec.growMemory delta m = .ok (BitVec.ofNat 32 m.pages) grown := by
      simp only [Exec.growMemory, Memory.grow, if_neg hLimit]
      rfl
    have hSound : grown.Sound := by
      change (m.data ++ Memory.zeros _).size = _
      rw [ByteArray.size_append, Memory.size_zeros]
      exact Nat.add_sub_cancel' hRoom
    simp only [if_neg hLimit]
    exact Unbroken.require hRoom (Unbroken.of_ok rfl hPlain hSound)

/-! ### Parts of instructions -/

instance (p : Program) : Machine.Parts (Machine.Sound p) Built (Store.Sound p) where
  iff _ := ⟨fun hm => ⟨hm.stack, hm.store⟩, fun hm => ⟨hm.1, hm.2⟩⟩

instance : OfActivations Built where
  values h := h.keeps
  label l hs := hs.push (.label l)

theorem keeps_enter {p : Program} (index : UInt32) (place : Nat) (f : Function)
    (arguments : List Value) :
    Keeps (Machine.Sound p) (Exec.enter index place f arguments) := by
  refine Keeps.get.bind fun m => (Keeps.pushFrame fun s hs => hs.push _).bind fun _ => ?_
  intro m hm
  exact ⟨hm.stack, ⟨(Array.size_modify ..).trans hm.store.counts, hm.store.memories⟩⟩

/-! ## Nothing is broken -/

section

variable {p : Program} {env : Env} {m : Machine} {α : Type}

theorem unbroken_onStack {g : GuardedM Trap Stack α} {x : StackM α} (hm : m.Sound p)
    (h : Unbroken Built g x m.stack) :
    Unbroken (Machine.Sound p) (onStack g) (Exec.onStack x) m := by
  obtain ⟨hEq, hKeeps⟩ := h
  unfold GuardedM.lift at hEq
  cases hRun : x m.stack with
  | ok a s =>
    rw [hRun] at hEq hKeeps
    have hPlain : Exec.onStack x m = .ok a { m with stack := s } := by
      simp only [Exec.onStack, hRun]
    exact Unbroken.of_ok (by simp only [onStack, hEq]) hPlain ⟨hKeeps, hm.store⟩
  | error e s =>
    rw [hRun] at hEq hKeeps
    have hPlain : Exec.onStack x m = .error e { m with stack := s } := by
      simp only [Exec.onStack, hRun]
    exact Unbroken.of_error (by simp only [onStack, hEq]) hPlain ⟨hKeeps, hm.store⟩

theorem unbroken_onValues {op : StackM α} (hm : m.Sound p) (h : ValuesOnly op) :
    Unbroken (Machine.Sound p) (onStack (GuardedM.lift op)) (Exec.onStack op) m :=
  unbroken_onStack hm (unbroken_valuesOnly h hm.stack)

/-- Looking at the stack leaves the machine as it is. -/
theorem onStack_eq_ok {g : GuardedM Trap Stack α} {a : α} (h : g m.stack = .ok a m.stack) :
    onStack g m = .ok a m := by
  unfold onStack
  rw [h]

theorem unbroken_onMemory {g : GuardedM Trap Memory α} {x : MemoryM α} (hm : m.Sound p)
    (h : ∀ memory, memory.Sound → Unbroken Memory.Sound g x memory) :
    Unbroken (Machine.Sound p) (onMemory g) (Exec.onMemory x) m := by
  cases hFirst : m.store.memories[0]? with
  | none =>
    have hPlain : Exec.onMemory x m = .error .noMemory m := by
      simp only [Exec.onMemory, hFirst]
    exact Unbroken.of_error (by simp only [onMemory, hFirst]) hPlain hm
  | some memory =>
    let put (memory : Memory) : Machine :=
      { m with store := { m.store with memories := m.store.memories.setIfInBounds 0 memory } }
    have hPut : ∀ changed, (m.store.memories.setIfInBounds 0 Exec.noBytes).setIfInBounds 0 changed =
        m.store.memories.setIfInBounds 0 changed := fun changed =>
      Array.setIfInBounds_setIfInBounds ..
    have hSound : ∀ changed : Memory, changed.Sound → Machine.Sound p (put changed) := by
      intro changed hChanged
      refine ⟨hm.stack, hm.store.counts, fun other hOther => ?_⟩
      rcases Array.mem_or_eq_of_mem_setIfInBounds hOther with hOld | rfl
      · exact hm.store.memories other hOld
      · exact hChanged
    obtain ⟨hEq, hKeeps⟩ := h memory (hm.store.memories memory (Array.mem_of_getElem? hFirst))
    unfold GuardedM.lift at hEq
    cases hRun : x memory with
    | ok a changed =>
      rw [hRun] at hEq hKeeps
      have hPlain : Exec.onMemory x m = .ok a (put changed) := by
        simp only [Exec.onMemory, hFirst, hRun, hPut, put]
      exact Unbroken.of_ok (by simp only [onMemory, hFirst, hEq, put]) hPlain
        (hSound changed hKeeps)
    | error e changed =>
      rw [hRun] at hEq hKeeps
      have hPlain : Exec.onMemory x m = .error e (put changed) := by
        simp only [Exec.onMemory, hFirst, hRun, hPut, put]
      exact Unbroken.of_error (by simp only [onMemory, hFirst, hEq, put]) hPlain
        (hSound changed hKeeps)

/-! ### Returns and branches -/

theorem unbroken_doReturn (hm : m.Sound p) :
    Unbroken (Machine.Sound p) doReturn Exec.doReturn m := by
  refine Unbroken.look (onStack_eq_ok (activation?_eq_ok hm.stack)) ?_
  refine Unbroken.look (a := m) rfl ?_
  cases hPosition : m.stack.activationPosition? with
  | none =>
    have hPlain : Exec.doReturn m = .error .noActivation m := by
      simp only [Exec.doReturn, hPosition]
    exact Unbroken.of_error rfl hPlain hm
  | some position =>
    cases hActivation : m.stack.activation? with
    | none =>
      have hPlain : Exec.doReturn m = .error .noActivation m := by
        simp only [Exec.doReturn, hPosition, hActivation]
      exact Unbroken.of_error rfl hPlain hm
    | some a =>
      have hInside := lt_size_of_activationPosition? hm.stack hPosition
      have hUnwind := unbroken_onStack hm (unbroken_unwindTo hm.stack hInside a.resultArity)
      refine Unbroken.congr (x := Exec.onStack (Stack.unwindTo position a.resultArity) >>=
        fun frame => match frame with
        | .activation { returnTo := some place, .. } => modify fun m => { m with pc := place }
        | .activation { returnTo := none, .. } => modify fun m => { m with halted := true }
        | _ => throw .noActivation) ?_ ?_
      · refine hUnwind.bind fun frame m' _ hm' => ?_
        cases frame with
        | value v => exact Unbroken.throw _ hm'
        | label l => exact Unbroken.throw _ hm'
        | activation b =>
          obtain ⟨function, locals, returnTo, signature⟩ := b
          cases returnTo <;> exact ⟨rfl, hm'.stack, hm'.store⟩
      · simp only [Exec.doReturn, hPosition, hActivation]
        change EStateM.bind _ _ m = _
        unfold EStateM.bind
        cases Exec.onStack (Stack.unwindTo position a.resultArity) m with
        | error e m' => rfl
        | ok frame m' =>
          cases frame with
          | value v => rfl
          | label l => rfl
          | activation b =>
            obtain ⟨function, locals, returnTo, signature⟩ := b
            cases returnTo <;> rfl

theorem unbroken_findLabel (hm : m.Sound p) (depth : Nat) :
    Unbroken (Machine.Sound p) (findLabel depth) (Exec.findLabel depth) m := by
  refine Unbroken.look (onStack_eq_ok (labelPosition?_eq_ok depth)) ?_
  refine Unbroken.look (onStack_eq_ok (label?_eq_ok hm.stack depth)) ?_
  cases hPosition : m.stack.labelPosition? depth with
  | none =>
    have hPlain : Exec.findLabel depth m = .error .stackExhausted m := by
      simp only [Exec.findLabel, hPosition]
    exact Unbroken.of_error rfl hPlain hm
  | some position =>
    cases hLabel : m.stack.label? depth with
    | none =>
      have hPlain : Exec.findLabel depth m = .error .stackExhausted m := by
        simp only [Exec.findLabel, hPosition, hLabel]
      exact Unbroken.of_error rfl hPlain hm
    | some label =>
      have hPlain : Exec.findLabel depth m = .ok (position, label) m := by
        simp only [Exec.findLabel, hPosition, hLabel]
      exact Unbroken.of_ok rfl hPlain hm

/-- A label that is found stands at the position of a frame. -/
theorem lt_size_of_findLabel {depth position : Nat} {label : LabelFrame} {m' : Machine}
    (hm : m.Sound p) (h : Exec.findLabel depth m = .ok (position, label) m') :
    position < m'.stack.size := by
  unfold Exec.findLabel at h
  split at h
  · rename_i hPosition _
    cases h
    exact lt_size_of_labelPosition? hm.stack hPosition
  · cases h

theorem unbroken_branch (hm : m.Sound p) (depth : Nat) :
    Unbroken (Machine.Sound p) (branch depth) (Exec.branch depth) m := by
  refine Unbroken.bind (g := get) ⟨rfl, hm⟩ fun m₁ m₂ hRun hm₂ => ?_
  refine Unbroken.ite (fun _ => unbroken_doReturn hm₂) fun _ => ?_
  refine Unbroken.ite (fun _ => Unbroken.throw _ hm₂) fun _ => ?_
  refine (unbroken_findLabel hm₂ depth).bind fun found m₃ hFound hm₃ => ?_
  have hInside := lt_size_of_findLabel hm₂ hFound
  refine (unbroken_onStack hm₃ (unbroken_unwindTo hm₃.stack hInside _)).bind fun _ m₄ _ hm₄ => ?_
  exact Unbroken.lift (Keeps.jump _) hm₄

theorem unbroken_blockEnd (hm : m.Sound p) :
    Unbroken (Machine.Sound p) blockEnd Exec.blockEnd m := by
  refine Unbroken.bind (g := get) ⟨rfl, hm⟩ fun m₁ m₂ hRun hm₂ => ?_
  refine Unbroken.ite (fun _ => unbroken_doReturn hm₂) fun _ => ?_
  refine (unbroken_findLabel hm₂ 0).bind fun found m₃ hFound hm₃ => ?_
  have hInside := lt_size_of_findLabel hm₂ hFound
  refine (unbroken_onStack hm₃ (unbroken_unwindTo hm₃.stack hInside _)).bind fun _ m₄ _ hm₄ => ?_
  exact Unbroken.pure () hm₄

theorem unbroken_branchIf (hm : m.Sound p) :
    Unbroken (Machine.Sound p) (branchIf env) (Exec.branchIf env) m := by
  refine (Unbroken.lift Keeps.readU32 hm).bind fun depth m₁ _ hm₁ => ?_
  refine (unbroken_onValues hm₁ (.popInt .i32)).bind fun condition m₂ _ hm₂ => ?_
  exact Unbroken.ite (fun _ => unbroken_branch hm₂ _) fun _ => Unbroken.pure () hm₂

theorem unbroken_branchTable (hm : m.Sound p) :
    Unbroken (Machine.Sound p) (branchTable env) (Exec.branchTable env) m := by
  refine (Unbroken.lift Keeps.readU32 hm).bind fun count m₁ _ hm₁ => ?_
  refine (Unbroken.lift (Keeps.readDepths _ _) hm₁).bind fun depths m₂ _ hm₂ => ?_
  refine (Unbroken.lift Keeps.readU32 hm₂).bind fun default m₃ _ hm₃ => ?_
  refine (unbroken_onValues hm₃ (.popInt .i32)).bind fun index m₄ _ hm₄ => ?_
  exact unbroken_branch hm₄ _

/-! ### Calls -/

theorem callee_eq (p : Program) (index : UInt32) :
    callee p index = Stop.ofExcept (p.callee index) := by
  unfold callee Program.callee
  by_cases hImported : index.toNat < p.imported.size
  · rw [if_pos hImported, Array.getElem?_eq_getElem hImported]
    rfl
  · rw [if_neg hImported, Array.getElem?_eq_none (Nat.le_of_not_lt hImported)]
    simp only
    cases p.functions[index.toNat - p.imported.size]? <;> rfl

theorem signature_eq (p : Program) (index : UInt32) :
    signature p index = Stop.ofExcept (p.signature index) := by
  unfold signature Program.signature
  rw [callee_eq]
  cases p.callee index <;> rfl

theorem unbroken_ofExcept (hm : m.Sound p) {x : Except (Stop Trap) α} {y : Except Trap α}
    (h : x = Stop.ofExcept y) :
    Unbroken (Machine.Sound p) (ofExcept x) (ofExcept y : Exec α) m := by
  rw [h]
  cases y with
  | ok a => exact Unbroken.pure a hm
  | error e => exact Unbroken.throw e hm

/-- The function that is called is one of the program, so it has a call count and a local for each
parameter. -/
theorem unbroken_callFunction (hParameters : env.program.HoldsParameters)
    (hm : m.Sound env.program) (index : UInt32) :
    Unbroken (Machine.Sound env.program) (callFunction env index) (Exec.callFunction env index)
      m := by
  refine (unbroken_ofExcept hm (callee_eq env.program index)).bind fun found m₁ hFound hm₁ => ?_
  have hCallee := eq_ok_of_run_ofExcept hFound
  cases found with
  | imported f => exact Unbroken.throw _ hm₁
  | defined place f =>
    have hFunction := Program.functions_of_callee hCallee
    refine Unbroken.bind (g := get) ⟨rfl, hm₁⟩ fun m₂ m₃ hGet hm₃ => ?_
    refine Unbroken.ite (fun _ => Unbroken.throw _ hm₃) fun _ => ?_
    have hRoom : f.signature.parameters.reverse.length ≤ f.locals.size := by
      rw [List.length_reverse]
      exact hParameters f (Array.mem_of_getElem? hFunction)
    refine (unbroken_onStack hm₃ (unbroken_popParams hRoom f.signature [] hm₃.stack)).bind
      fun arguments m₄ _ hm₄ => ?_
    have hPlace : place < env.program.functions.size :=
      (Array.getElem?_eq_some_iff.1 hFunction).1
    refine Unbroken.require ⟨hPlace, hm₄.store.counts.symm ▸ hPlace⟩ ?_
    exact Unbroken.lift (keeps_enter index place f arguments) hm₄

theorem unbroken_call (hParameters : env.program.HoldsParameters) (hm : m.Sound env.program) :
    Unbroken (Machine.Sound env.program) (call env) (Exec.call env) m :=
  (Unbroken.lift Keeps.readU32 hm).bind fun index _ _ hm₁ =>
    unbroken_callFunction hParameters hm₁ index

theorem unbroken_callIndirect (hParameters : env.program.HoldsParameters)
    (hm : m.Sound env.program) :
    Unbroken (Machine.Sound env.program) (callIndirect env) (Exec.callIndirect env) m := by
  refine (Unbroken.lift Keeps.readU32 hm).bind fun typeIndex m₁ _ hm₁ => ?_
  refine (Unbroken.lift Keeps.readU32 hm₁).bind fun _ m₂ _ hm₂ => ?_
  cases env.program.types[typeIndex.toNat]? with
  | none => exact Unbroken.throw _ hm₂
  | some expected =>
    refine (unbroken_onValues hm₂ (.popInt .i32)).bind fun slot m₃ _ hm₃ => ?_
    refine (Unbroken.lift (Keeps.readSlot _) hm₃).bind fun function m₄ _ hm₄ => ?_
    refine (unbroken_ofExcept hm₄ (signature_eq env.program function)).bind
      fun actual m₅ _ hm₅ => ?_
    exact Unbroken.ite (fun _ => Unbroken.throw _ hm₅) fun _ =>
      unbroken_callFunction hParameters hm₅ function

/-! ### Memory -/

theorem unbroken_load (hm : m.Sound p) (op : LoadOp) (offset : UInt32) :
    Unbroken (Machine.Sound p) (load op offset) (Exec.load op offset) m := by
  refine (Unbroken.lift Keeps.requireMemory hm).bind fun _ m₁ _ hm₁ => ?_
  refine (unbroken_onValues hm₁ (.popAddress offset)).bind fun address m₂ _ hm₂ => ?_
  refine (Unbroken.lift Keeps.readMemory hm₂).bind fun memory m₃ _ hm₃ => ?_
  refine (unbroken_ofExcept hm₃ (loadNumber_eq memory address op.bytes)).bind
    fun n m₄ _ hm₄ => ?_
  exact unbroken_onValues hm₄ (.pushValue _)

theorem unbroken_store (hm : m.Sound p) (op : StoreOp) (offset : UInt32) :
    Unbroken (Machine.Sound p) (store op offset) (Exec.store op offset) m := by
  refine (Unbroken.lift Keeps.requireMemory hm).bind fun _ m₁ _ hm₁ => ?_
  refine (unbroken_onValues hm₁ (.popTyped op.type)).bind fun v m₂ _ hm₂ => ?_
  refine (unbroken_onValues hm₂ (.popAddress offset)).bind fun address m₃ _ hm₃ => ?_
  exact unbroken_onMemory hm₃ fun memory hMemory =>
    ⟨writeBytes_eq memory _ _, keeps_writeBytes _ _ memory hMemory⟩

theorem unbroken_memoryGrow (hm : m.Sound p) :
    Unbroken (Machine.Sound p) memoryGrow Exec.memoryGrow m := by
  refine (Unbroken.lift Keeps.requireMemory hm).bind fun _ m₁ _ hm₁ => ?_
  refine (unbroken_onValues hm₁ (.popInt .i32)).bind fun delta m₂ _ hm₂ => ?_
  refine (unbroken_onMemory hm₂ fun memory hMemory => unbroken_growMemory hMemory _).bind
    fun previous m₃ _ hm₃ => ?_
  exact unbroken_onValues hm₃ (.pushValue _)

/-! ### Dispatch -/

theorem keeps_globalSet (index : UInt32) : Keeps (Machine.Sound p) (Exec.globalSet index) := by
  refine (Keeps.readGlobal index).bind fun g => ?_
  split
  · exact Keeps.throw _
  · refine (Keeps.onValues (ValuesOnly.popTyped _)).bind fun v => ?_
    exact fun m hm => ⟨hm.stack, hm.store.counts, hm.store.memories⟩

/-- One instruction, whatever the code. -/
theorem unbroken_exec (hParameters : env.program.HoldsParameters) (hm : m.Sound env.program)
    (op : Opcode) :
    Unbroken (Machine.Sound env.program) (exec env op) (WasmMachine.exec env op) m := by
  cases op with
  | unreachable => exact Unbroken.lift (Keeps.throw _) hm
  | nop => exact Unbroken.lift (Keeps.pure ()) hm
  | block => exact Unbroken.lift Keeps.block hm
  | loop => exact Unbroken.lift Keeps.loop hm
  | ifThen => exact Unbroken.lift Keeps.ifThen hm
  | elseArm => exact unbroken_branch hm 0
  | blockEnd => exact unbroken_blockEnd hm
  | branch =>
    exact (Unbroken.lift Keeps.readU32 hm).bind fun _ _ _ hm₁ => unbroken_branch hm₁ _
  | branchIf => exact unbroken_branchIf hm
  | branchTable => exact unbroken_branchTable hm
  | ret => exact unbroken_doReturn hm
  | call => exact unbroken_call hParameters hm
  | callIndirect => exact unbroken_callIndirect hParameters hm
  | drop => exact Unbroken.lift (Keeps.onValues .drop) hm
  | select => exact Unbroken.lift (Keeps.onValues .select) hm
  | localGet =>
    exact (Unbroken.lift Keeps.readU32 hm).bind fun index _ _ hm₁ =>
      unbroken_onStack hm₁ (unbroken_localGet hm₁.stack index)
  | localSet =>
    exact (Unbroken.lift Keeps.readU32 hm).bind fun index _ _ hm₁ =>
      unbroken_onStack hm₁ (unbroken_localSet hm₁.stack index)
  | localTee =>
    exact (Unbroken.lift Keeps.readU32 hm).bind fun index _ _ hm₁ =>
      unbroken_onStack hm₁ (unbroken_localTee hm₁.stack index)
  | globalGet =>
    exact Unbroken.lift (Keeps.readU32.bind fun index => Keeps.globalGet index) hm
  | globalSet => exact Unbroken.lift (Keeps.readU32.bind fun index => keeps_globalSet index) hm
  | load op =>
    exact (Unbroken.lift Keeps.readMemArg hm).bind fun _ _ _ hm₁ => unbroken_load hm₁ op _
  | store op =>
    exact (Unbroken.lift Keeps.readMemArg hm).bind fun _ _ _ hm₁ => unbroken_store hm₁ op _
  | memorySize =>
    exact Unbroken.lift (Keeps.readU32.bind fun _ => Keeps.memorySize) hm
  | memoryGrow =>
    exact (Unbroken.lift Keeps.readU32 hm).bind fun _ _ _ hm₁ => unbroken_memoryGrow hm₁
  | const t => exact Unbroken.lift (Keeps.execConst t) hm
  | numeric n => exact unbroken_onStack hm (unbroken_numeric hm.stack n)

theorem unbroken_dispatch (hParameters : env.program.HoldsParameters) (hm : m.Sound env.program)
    (b : UInt8) :
    Unbroken (Machine.Sound env.program) (dispatch env b) (WasmMachine.dispatch env b) m := by
  unfold dispatch WasmMachine.dispatch
  cases Opcode.ofByte? b with
  | some op => exact unbroken_exec hParameters hm op
  | none => exact Unbroken.throw _ hm

/-! ### Runs -/

theorem unbroken_step (hParameters : env.program.HoldsParameters) (hm : m.Sound env.program) :
    Unbroken (Machine.Sound env.program) (step env) (WasmMachine.step env) m := by
  let fault (trap : Trap) : Fault := (Fault.mk trap none).located (env.program.modulePosition m.pc)
  let counted : Machine := { m with steps := m.steps + 1 }
  have hCounted : counted.Sound env.program := ⟨hm.stack, hm.store⟩
  cases hByte : fetch? env m with
  | none =>
    have hPlain : WasmMachine.step env m = .error (fault (.illFormedStructure m.pc.offset)) m := by
      simp only [WasmMachine.step, hByte, fault]
    exact Unbroken.of_error (by simp only [step, hByte, fault]) hPlain hm
  | some b =>
    cases hLimit : exceededLimit? env (m.steps + 1) with
    | some limit =>
      have hPlain : WasmMachine.step env m = .error (fault (.stepLimitExceeded limit)) counted := by
        simp only [WasmMachine.step, hByte, hLimit, fault, counted]
      exact Unbroken.of_error (by simp only [step, hByte, hLimit, fault, counted]) hPlain hCounted
    | none =>
      have hNext : counted.advance.Sound env.program := ⟨hm.stack, hm.store⟩
      obtain ⟨hEq, hKeeps⟩ := unbroken_dispatch hParameters hNext b
      unfold GuardedM.lift at hEq
      cases hRun : WasmMachine.dispatch env b counted.advance with
      | ok u m' =>
        rw [hRun] at hEq hKeeps
        have hPlain : WasmMachine.step env m = .ok () m' := by
          simp only [WasmMachine.step, hByte, hLimit]
          rw [hRun]
        refine Unbroken.of_ok ?_ hPlain hKeeps
        simp only [step, hByte, hLimit]
        rw [hEq]
      | error trap m' =>
        rw [hRun] at hEq hKeeps
        have hPlain : WasmMachine.step env m = .error (fault trap) m' := by
          simp only [WasmMachine.step, hByte, hLimit]
          rw [hRun]
        refine Unbroken.of_error ?_ hPlain hKeeps
        simp only [step, hByte, hLimit]
        rw [hEq]

theorem stepRecorded_eq (hParameters : env.program.HoldsParameters) (hm : m.Sound env.program)
    (j : Journal) : stepRecorded env m j = .ok (WasmMachine.stepRecorded env m j) := by
  have hStep := (unbroken_step hParameters hm).eq
  unfold GuardedM.lift at hStep
  unfold stepRecorded WasmMachine.stepRecorded
  cases hRun : WasmMachine.step env m with
  | ok u m' =>
    rw [hRun] at hStep
    by_cases hTrace : j.records .trace = true
    · simp only [hStep, if_pos hTrace]
    · simp only [hStep, if_neg hTrace]
  | error f m' =>
    rw [hRun] at hStep
    by_cases hTrace : j.records .trace = true
    · simp only [hStep, if_pos hTrace]
    · simp only [hStep, if_neg hTrace]

/-- Whole runs: each step starts in a sound machine, and leaves one. -/
theorem run_eq (hParameters : env.program.HoldsParameters) (hm : m.Sound env.program)
    (fuel : Nat) (j : Journal) :
    run env fuel m j = .ok (WasmMachine.run env fuel m j) ∧
      (WasmMachine.run env fuel m j).machine.Sound env.program := by
  induction fuel generalizing m j with
  | zero => exact ⟨rfl, hm⟩
  | succ fuel ih =>
    unfold run WasmMachine.run
    by_cases hHalted : m.halted = true
    · rw [if_pos hHalted, if_pos hHalted]
      exact ⟨rfl, hm⟩
    · rw [if_neg hHalted, if_neg hHalted, stepRecorded_eq hParameters hm]
      have hNext := (unbroken_step hParameters hm).keeps
      rw [← stepRecorded_fst env m j] at hNext
      cases hRun : WasmMachine.stepRecorded env m j with
      | mk result j' =>
        rw [hRun] at hNext
        cases result with
        | ok u m' => exact ih hNext j'
        | error f m' => exact ⟨rfl, hNext⟩

end

end Guarded

end WasmMachine
