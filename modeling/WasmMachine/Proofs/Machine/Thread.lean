import WasmMachine.Proofs.Code.Boundary
import WasmMachine.Proofs.Machine.Region

/-!
# Threads

A thread is a running machine without what only makes it fast: activities in the place of indexed
frames, and no memo tables. `Thread.step` fetches, decodes and executes one instruction. A machine
whose tables agree with the code does step by step what its thread does, so facts about programs
are proved of threads.

* `Thread.WellPlaced`: all places of a thread are instruction boundaries of their code, and every
  activity but the outermost knows where its caller goes on.
* `Thread.WellPlaced.step`: steps of arbitrary code keep it.
-/

namespace WasmMachine

open Stack

/-- A running machine: the current activity, those of its callers, the store, and the place of the
next byte to decode. -/
structure Thread where
  activity : Activity
  callers : List Activity
  store : Store
  pc : CodePoint

/-- What a step leads to. -/
inductive Next where
  | running (t : Thread)
  /-- The outermost activation was left with these values, topmost first. -/
  | halted (values : List Value) (store : Store)

namespace Thread

/-! ## Changes of a thread -/

/-- The thread with other operands. -/
def withOperands (t : Thread) (operands : List Value) : Thread :=
  { t with activity := { t.activity with operands } }

/-- The thread at another offset of the same code. -/
def jump (t : Thread) (offset : Nat) : Thread := { t with pc := { t.pc with offset } }

/-- The thread with new contents of its current region. -/
def withRegion (t : Thread) (σ : Region) : Thread :=
  { t with activity := t.activity.withRegion σ, store := σ.store }

/-- The thread inside a new block, which starts without operands. -/
def enterBlock (t : Thread) (label : LabelFrame) : Thread :=
  { t with activity := { t.activity with
      operands := []
      blocks := ⟨label, t.activity.operands⟩ :: t.activity.blocks } }

/-- The thread outside of an open block, with the operands that were carried out of it. -/
def leaveBlock (t : Thread) (b : OpenBlock) (outside : List OpenBlock) (top : List Value) :
    Thread :=
  { t with activity := { t.activity with operands := top ++ b.outer, blocks := outside } }

/-- Leaves the current activation with its results. -/
def leave (t : Thread) : Except Trap Next :=
  match carried? t.activity.activation.resultArity t.activity.operands with
  | none =>
    .error (.arityMismatch t.activity.activation.resultArity
      (foundTypes t.activity.activation.resultArity t.activity.operands))
  | some top =>
    match t.activity.activation.returnTo, t.callers with
    | some place, caller :: rest =>
      .ok (.running
        { activity := { caller with operands := top ++ caller.operands }
          callers := rest
          store := t.store
          pc := place })
    | _, _ => .ok (.halted top t.store)

/-- Goes to the target of a branch. -/
def branch (t : Thread) (depth : Nat) : Except Trap Next :=
  match t.activity.blocks.drop depth with
  | b :: outside =>
    match carried? b.label.branchArity t.activity.operands with
    | none =>
      .error (.arityMismatch b.label.branchArity
        (foundTypes b.label.branchArity t.activity.operands))
    | some top => .ok (.running ((t.leaveBlock b outside top).jump b.label.continuation))
  | [] =>
    if depth = t.activity.blocks.length then t.leave
    else .error (.breakLevelExceeded depth t.activity.blocks.length)

/-- Closes the innermost block, or returns when no block is open. -/
def closeBlock (t : Thread) : Except Trap Next :=
  match t.activity.blocks with
  | b :: outside =>
    match carried? b.label.resultArity t.activity.operands with
    | none =>
      .error (.arityMismatch b.label.resultArity
        (foundTypes b.label.resultArity t.activity.operands))
    | some top => .ok (.running (t.leaveBlock b outside top))
  | [] => t.leave

/-! ## Calls -/

/-- The activity of a call: no operands, no blocks, and the arguments as the first locals. -/
def callActivity (t : Thread) (index : UInt32) (f : Function) (arguments : List Value) : Activity :=
  { operands := []
    blocks := []
    activation := {
      function := some index
      locals := arguments.toArray ++ f.locals.extract arguments.length f.locals.size
      returnTo := some t.pc
      signature := f.signature } }

/-- Enters a defined function with arguments that have been taken from the operands. -/
def enter (t : Thread) (index : UInt32) (place : Nat) (f : Function) (arguments : List Value) :
    Thread :=
  { activity := t.callActivity index f arguments
    callers := t.activity :: t.callers
    store := { t.store with callCounts := t.store.callCounts.modify place (· + 1) }
    pc := ⟨.function place, 0⟩ }

/-- Takes the arguments of a function from the operands. -/
def takeArguments (signature : FunctionType) (operands : List Value) :
    Except Trap (List Value × List Value) :=
  onOperands (popParams signature signature.parameters.reverse []) operands

/-- Calls the function of an index. -/
def call (env : Env) (index : UInt32) (t : Thread) : Except Trap Next :=
  match env.program.callee index with
  | .error e => .error e
  | .ok (.imported f) => .error (.unresolvedImport f.module f.name)
  | .ok (.defined place f) =>
    if env.config.maxCallDepth.toNat < t.callers.length + 1 then
      .error (.callStackExhausted (t.callers.length + 1))
    else
      match takeArguments f.signature t.activity.operands with
      | .error e => .error e
      | .ok (arguments, operands) =>
        .ok (.running ((t.withOperands operands).enter index place f arguments))

end Thread

/-- The function in a slot of the first table. -/
def Store.slotFunction (s : Store) (slot : UInt32) : Except Trap UInt32 := do
  let table ← s.table
  match ← table.get slot with
  | some function => return function
  | none => throw (.uninitializedElement slot)

/-- The function that an indirect call leads to, which must have the expected signature. -/
def indirectCallee (env : Env) (s : Store) (expected : FunctionType) (slot : BitVec 32) :
    Except Trap UInt32 := do
  let function ← s.slotFunction (UInt32.ofNat slot.toNat)
  let actual ← env.program.signature function
  if actual ≠ expected then throw (.indirectCallTypeMismatch expected actual) else return function

namespace Thread

/-- Calls the function in a slot, which must have the signature of the type index. -/
def callIndirect (env : Env) (typeIndex : UInt32) (t : Thread) : Except Trap Next :=
  match env.program.types[typeIndex.toNat]? with
  | none => .error (.typeIndexOutOfBounds typeIndex)
  | some expected =>
    match onOperands popI32 t.activity.operands with
    | .error e => .error e
    | .ok (slot, operands) =>
      match indirectCallee env t.store expected slot with
      | .error e => .error e
      | .ok function => (t.withOperands operands).call env function

/-! ## Steps -/

/-- Where the arm of an `if` starts that the condition selects; the other arm starts at `next`. -/
def armOffset (condition : BitVec 32) (targets : BlockTargets) (next : Nat) : Nat :=
  if condition = 0 then
    match targets.elsePos with
    | some elsePos => elsePos + 1
    | none => targets.endPos
  else next

/-- Executes an instruction whose opcode stands at `place`; the thread is past its operands. -/
def exec (env : Env) (place : Nat) : Instruction → Thread → Except Trap Next
  | .simple s, t =>
    match s.run (t.activity.currentRegion t.store) with
    | .error e => .error e
    | .ok (_, σ) => .ok (.running (t.withRegion σ))
  | .block blockType, t =>
    match resolve (env.code t.pc.code) t.pc.offset with
    | .error e => .error e
    | .ok targets => .ok (.running (t.enterBlock ⟨.block, blockType, targets.endPos + 1⟩))
  | .loop blockType, t => .ok (.running (t.enterBlock ⟨.loop, blockType, place⟩))
  | .ifThen blockType, t =>
    match onOperands popI32 t.activity.operands with
    | .error e => .error e
    | .ok (condition, operands) =>
      match resolve (env.code t.pc.code) t.pc.offset with
      | .error e => .error e
      | .ok targets =>
        .ok (.running (((t.withOperands operands).enterBlock
          ⟨.ifThen, blockType, targets.endPos + 1⟩).jump
            (armOffset condition targets t.pc.offset)))
  | .elseArm, t => t.branch 0
  | .blockEnd, t => t.closeBlock
  | .branch depth, t => t.branch depth.toNat
  | .branchIf depth, t =>
    match onOperands popI32 t.activity.operands with
    | .error e => .error e
    | .ok (condition, operands) =>
      if condition ≠ 0 then (t.withOperands operands).branch depth.toNat
      else .ok (.running (t.withOperands operands))
  | .branchTable depths default, t =>
    match onOperands popI32 t.activity.operands with
    | .error e => .error e
    | .ok (index, operands) =>
      (t.withOperands operands).branch (depths[index.toNat]?.getD default).toNat
  | .ret, t => t.leave
  | .call index, t => t.call env index
  | .callIndirect typeIndex, t => t.callIndirect env typeIndex
  | .invalid b, _ => .error (.invalidOpcode b)

/-- Fetches, decodes and executes one instruction. -/
def step (env : Env) (t : Thread) : Except Trap Next :=
  match (env.code t.pc.code)[t.pc.offset]? with
  | none => .error (.illFormedStructure t.pc.offset)
  | some b =>
    match decodeAt (env.code t.pc.code) t.pc.offset b with
    | .error e => .error e
    | .ok (i, next) => exec env t.pc.offset i (t.jump next)

end Thread

/-! ## Places -/

/-- The places that suspended code goes on at are instruction boundaries: the labels of the first
activity in the code `code`, and what it returns to in the code of its caller. Only the outermost
activity returns to nothing. -/
def Stacked (env : Env) : CodeRef → List Activity → Prop
  | _, [] => False
  | code, A :: rest =>
    (∀ b ∈ A.blocks, Boundary (env.code code) b.label.continuation) ∧
      match A.activation.returnTo with
      | none => rest = []
      | some place => Boundary (env.code place.code) place.offset ∧ Stacked env place.code rest

namespace Thread

/-- All places of a thread are instruction boundaries of their code. -/
structure WellPlaced (env : Env) (t : Thread) : Prop where
  stacked : Stacked env t.pc.code (t.activity :: t.callers)
  boundary : Boundary (env.code t.pc.code) t.pc.offset

/-- The thread at an instruction boundary of its code. -/
theorem WellPlaced.jump {env : Env} {t : Thread} (h : t.WellPlaced env) {offset : Nat}
    (hOffset : Boundary (env.code t.pc.code) offset) : (t.jump offset).WellPlaced env :=
  ⟨h.stacked, hOffset⟩

end Thread

/-- Operands and locals have no places, and neither has leaving a block. -/
theorem Stacked.change {env : Env} {code : CodeRef} {A B : Activity} {rest : List Activity}
    (h : Stacked env code (A :: rest)) (hReturn : B.activation.returnTo = A.activation.returnTo)
    (hBlocks : ∀ b ∈ B.blocks, Boundary (env.code code) b.label.continuation) :
    Stacked env code (B :: rest) := by
  refine ⟨hBlocks, ?_⟩
  rw [hReturn]
  exact h.2

namespace Thread

theorem WellPlaced.withOperands {env : Env} {t : Thread} (h : t.WellPlaced env)
    (operands : List Value) : (t.withOperands operands).WellPlaced env :=
  ⟨h.stacked.change rfl h.stacked.1, h.boundary⟩

theorem WellPlaced.enterBlock {env : Env} {t : Thread} (h : t.WellPlaced env) {label : LabelFrame}
    (hLabel : Boundary (env.code t.pc.code) label.continuation) :
    (t.enterBlock label).WellPlaced env := by
  refine ⟨h.stacked.change rfl ?_, h.boundary⟩
  intro b hb
  rcases List.mem_cons.1 hb with rfl | hOld
  · exact hLabel
  · exact h.stacked.1 b hOld

theorem WellPlaced.leaveBlock {env : Env} {t : Thread} (h : t.WellPlaced env) {b : OpenBlock}
    {outside : List OpenBlock} (hOutside : ∀ b ∈ outside, b ∈ t.activity.blocks)
    (top : List Value) : (t.leaveBlock b outside top).WellPlaced env :=
  ⟨h.stacked.change rfl fun b hb => h.stacked.1 b (hOutside b hb), h.boundary⟩

theorem WellPlaced.leave {env : Env} {t t' : Thread} (h : t.WellPlaced env)
    (hLeave : t.leave = .ok (.running t')) : t'.WellPlaced env := by
  unfold Thread.leave at hLeave
  split at hLeave
  · cases hLeave
  · split at hLeave
    · rename_i place caller rest hReturn hCallers
      cases hLeave
      have hStacked := h.stacked.2
      rw [hReturn, hCallers] at hStacked
      exact ⟨hStacked.2.change rfl hStacked.2.1, hStacked.1⟩
    · cases hLeave

theorem WellPlaced.branch {env : Env} {t t' : Thread} (h : t.WellPlaced env) {depth : Nat}
    (hBranch : t.branch depth = .ok (.running t')) : t'.WellPlaced env := by
  unfold Thread.branch at hBranch
  split at hBranch
  · rename_i b outside hDrop
    split at hBranch
    · cases hBranch
    · cases hBranch
      have hMem : ∀ c ∈ b :: outside, c ∈ t.activity.blocks := fun c hc =>
        List.mem_of_mem_drop (hDrop ▸ hc)
      refine (h.leaveBlock (fun c hc => hMem c (List.mem_cons_of_mem _ hc)) _).jump ?_
      exact h.stacked.1 b (hMem b List.mem_cons_self)
  · split at hBranch
    · exact h.leave hBranch
    · cases hBranch

theorem WellPlaced.closeBlock {env : Env} {t t' : Thread} (h : t.WellPlaced env)
    (hClose : t.closeBlock = .ok (.running t')) : t'.WellPlaced env := by
  unfold Thread.closeBlock at hClose
  split at hClose
  · rename_i b outside hBlocks
    split at hClose
    · cases hClose
    · cases hClose
      exact h.leaveBlock (fun c hc => hBlocks ▸ List.mem_cons_of_mem _ hc) _
  · exact h.leave hClose

theorem WellPlaced.call {env : Env} {t t' : Thread} (h : t.WellPlaced env) {index : UInt32}
    (hCall : t.call env index = .ok (.running t')) : t'.WellPlaced env := by
  unfold Thread.call at hCall
  split at hCall
  · cases hCall
  · cases hCall
  · split at hCall
    · cases hCall
    · split at hCall
      · cases hCall
      · rename_i operands _
        cases hCall
        refine ⟨⟨?_, h.boundary, (h.withOperands operands).stacked⟩, Boundary.start⟩
        intro b hb
        cases hb

theorem WellPlaced.callIndirect {env : Env} {t t' : Thread} (h : t.WellPlaced env)
    {typeIndex : UInt32} (hCall : t.callIndirect env typeIndex = .ok (.running t')) :
    t'.WellPlaced env := by
  unfold Thread.callIndirect at hCall
  split at hCall
  · cases hCall
  · split at hCall
    · cases hCall
    · split at hCall
      · cases hCall
      · exact (h.withOperands _).call hCall

/-- An instruction of a well-placed thread leads to a well-placed thread. -/
theorem WellPlaced.exec {env : Env} {place : Nat} {i : Instruction} {t t' : Thread}
    (h : t.WellPlaced env) (hPlace : Boundary (env.code t.pc.code) place)
    (hExec : Thread.exec env place i t = .ok (.running t')) : t'.WellPlaced env := by
  cases i with
  | simple s =>
    simp only [Thread.exec] at hExec
    split at hExec
    · cases hExec
    · cases hExec
      exact ⟨h.stacked.change rfl h.stacked.1, h.boundary⟩
  | block blockType =>
    simp only [Thread.exec] at hExec
    split at hExec
    · cases hExec
    · rename_i targets hResolve
      cases hExec
      exact h.enterBlock (resolve_boundary h.boundary hResolve).2.1
  | loop blockType =>
    cases hExec
    exact h.enterBlock hPlace
  | ifThen blockType =>
    simp only [Thread.exec] at hExec
    split at hExec
    · cases hExec
    · rename_i condition operands _
      split at hExec
      · cases hExec
      · rename_i targets hResolve
        cases hExec
        obtain ⟨hEnd, hPast, hElse⟩ := resolve_boundary h.boundary hResolve
        have hInside : ((t.withOperands operands).enterBlock
            ⟨.ifThen, blockType, targets.endPos + 1⟩).WellPlaced env :=
          (h.withOperands operands).enterBlock hPast
        refine hInside.jump ?_
        unfold armOffset
        split
        · split
          · rename_i elsePos hElsePos
            exact hElse elsePos hElsePos
          · exact hEnd
        · exact h.boundary
  | elseArm => exact h.branch hExec
  | blockEnd => exact h.closeBlock hExec
  | branch depth => exact h.branch hExec
  | branchIf depth =>
    simp only [Thread.exec] at hExec
    split at hExec
    · cases hExec
    · split at hExec
      · exact (h.withOperands _).branch hExec
      · cases hExec
        exact h.withOperands _
  | branchTable depths default =>
    simp only [Thread.exec] at hExec
    split at hExec
    · cases hExec
    · exact (h.withOperands _).branch hExec
  | ret => exact h.leave hExec
  | call index => exact h.call hExec
  | callIndirect typeIndex => exact h.callIndirect hExec
  | invalid b => cases hExec

/-- Steps of arbitrary code keep all places on instruction boundaries. -/
theorem WellPlaced.step {env : Env} {t t' : Thread} (h : t.WellPlaced env)
    (hStep : t.step env = .ok (.running t')) : t'.WellPlaced env := by
  unfold Thread.step at hStep
  split at hStep
  · cases hStep
  · rename_i b hByte
    split at hStep
    · cases hStep
    · rename_i i next hDecode
      have hNext := h.boundary.next hByte (skipOperands_of_decode hDecode)
      exact (h.jump hNext).exec h.boundary hStep

end Thread

end WasmMachine
