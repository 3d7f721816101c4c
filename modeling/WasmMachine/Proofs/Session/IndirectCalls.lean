import WasmMachine.Proofs.Instance.Constancy
import WasmMachine.Proofs.Instance.Description
import WasmMachine.Proofs.Machine.Failing
import WasmMachine.Proofs.Session.Arguments

/-!
# Function indices and indirect calls

A module has one space of function indices: the imported functions come first, in the order of the
imports, then the functions that it defines. An instance resolves every index to the function that
the description of the module names. An indirect call takes its index from the first table, and
calls that function like any other, if it has the type that the code names; types are compared as
they are, whatever their own indices.

* `Module.Resolves`: the function of an index is the one that the module describes.
* `Module.Selects`: the function that an indirect call leads to.
* `Session.indirect_calls_select`: an indirect call does what a call of this function does.
-/

namespace WasmMachine

open Stack

/-! ## Function indices -/

/-- An index leads in a program to the function that the module describes: an imported one with the
names and the type of the import at its place, or a defined one with the type and the body at its
place behind the imported ones. -/
structure Module.Resolves (m : Module) (p : Program) (index : UInt32) : Prop where
  signature : ∀ t, p.signature index = .ok t ↔ m.functionType? index = some t
  imported : (∃ f, p.callee index = .ok (.imported f)) ↔ index.toNat < m.importedFunctionCount
  import_made : ∀ f, p.callee index = .ok (.imported f) → ∃ i,
    m.imports[index.toNat]? = some i ∧ ImportMade m i f
  defined : (∃ place f, p.callee index = .ok (.defined place f)) ↔
    m.importedFunctionCount ≤ index.toNat ∧ index.toNat < m.functionCount
  function_made : ∀ place f, p.callee index = .ok (.defined place f) → f.index = index.toNat ∧
    ∃ typeIndex body, m.functions[place]? = some typeIndex ∧ m.code[place]? = some body ∧
      FunctionMade m place typeIndex body f
  missing : m.functionCount ≤ index.toNat →
    p.callee index = .error (.functionIndexOutOfBounds index)

theorem Module.resolves_of_instantiate {m : Module} {config : Config} {i : Instance}
    (hCount : m.functions.size = m.code.size) (h : instantiate m config = .ok i)
    (index : UInt32) : m.Resolves i.program index := by
  have hPhases := instantiated_of_eq_ok h
  have hDescribes := describes_of_instantiate hCount h
  have hImported : i.program.imported.size = m.importedFunctionCount := hPhases.importedCount
  have hTotal : i.program.functionCount = m.functionCount := by
    rw [Program.functionCount, hImported, hDescribes.functionCount, Module.functionCount]
  refine ⟨fun t => hPhases.signature_eq_ok_iff hCount.symm, ?_, ?_, ?_, ?_, ?_⟩
  · simp only [Program.callee_eq_imported_iff, ← hImported]
    constructor
    · rintro ⟨f, hf⟩
      exact (Array.getElem?_eq_some_iff.1 hf).1
    · intro hBound
      exact ⟨_, Array.getElem?_eq_getElem hBound⟩
  · intro f hCallee
    exact exists_left_of_forall₂ hDescribes.imported (Program.callee_eq_imported_iff.1 hCallee)
  · simp only [Program.callee_eq_defined_iff, hImported, Module.functionCount,
      ← hDescribes.functionCount]
    constructor
    · rintro ⟨place, f, hIndex, hf⟩
      obtain ⟨hBound, -⟩ := Array.getElem?_eq_some_iff.1 hf
      omega
    · rintro ⟨hLow, hHigh⟩
      exact ⟨index.toNat - m.importedFunctionCount, _, by omega,
        Array.getElem?_eq_getElem (by omega)⟩
  · intro place f hCallee
    obtain ⟨hIndex, hFunction⟩ := Program.callee_eq_defined_iff.1 hCallee
    obtain ⟨typeIndex, body, hType, hBody, hMade⟩ := hDescribes.functions place f hFunction
    rw [hImported] at hIndex
    exact ⟨hMade.index.trans hIndex.symm, typeIndex, body, hType, hBody, hMade⟩
  · intro hBound
    rw [← hTotal] at hBound
    exact Program.callee_of_le hBound

/-! ## Activations -/

/-- The activations on the stack, outermost first. -/
def Machine.activations (m : Machine) : List ActivationFrame :=
  m.frames.filterMap Frame.activation?

/-- The stack is that of a list of frames with these activations, outermost first. -/
def Stack.HasActivations (activations : List ActivationFrame) (s : Stack) : Prop :=
  ∃ fs, s = ofFrames fs ∧ fs.reverse.filterMap Frame.activation? = activations

/-- So is the stack of the machine. -/
def Machine.HasActivations (activations : List ActivationFrame) (m : Machine) : Prop :=
  m.stack.HasActivations activations

theorem filterMap_activation?_map_value (values : List Value) :
    (values.map Frame.value).filterMap Frame.activation? = [] := by
  rw [List.filterMap_map]
  exact List.filterMap_eq_nil_iff.2 fun _ _ => rfl

instance (activations : List ActivationFrame) :
    OfActivations (Stack.HasActivations activations) where
  values h := by
    refine h.keeps_frames fun operands left base hBase => ?_
    rw [List.reverse_append, ← List.map_reverse, List.filterMap_append,
      filterMap_activation?_map_value] at hBase ⊢
    exact hBase
  label l hs := by
    obtain ⟨fs, rfl, hActivations⟩ := hs
    refine ⟨.label l :: fs, rfl, ?_⟩
    rw [List.reverse_cons, List.filterMap_append, hActivations]
    exact List.append_nil _

instance (activations : List ActivationFrame) :
    Machine.Parts (Machine.HasActivations activations) (Stack.HasActivations activations)
      (fun _ => True) where
  iff _ := ⟨fun hm => ⟨hm, trivial⟩, fun hm => hm.1⟩

theorem Machine.HasActivations.eq {m : Machine} {activations : List ActivationFrame}
    (h : m.HasActivations activations) : m.activations = activations := by
  obtain ⟨fs, hStack, hActivations⟩ := h
  rw [Machine.activations, Machine.frames, hStack, frames_ofFrames]
  exact hActivations

theorem Machine.hasActivations_of_stack {m : Machine} {fs : List Frame}
    (h : m.stack = ofFrames fs) : m.HasActivations m.activations := by
  refine ⟨fs, h, ?_⟩
  rw [Machine.activations, Machine.frames, h, frames_ofFrames]

/-! ## Calls -/

namespace Machine

/-- The machine can call a function: no more than the admitted number of activations is on the
stack, and arguments of the types of its parameters stand on top. -/
structure Accepts (env : Env) (m : Machine) (f : Function) : Prop where
  depth : m.depth ≤ env.config.maxCallDepth.toNat
  arguments : ∃ (below : List Frame) (arguments : List Value),
    m.frames = below ++ arguments.map .value ∧ arguments.map Value.type = f.signature.parameters

/-- A call has pushed one activation, of the function of the index, which is to return to where the
caller was, and has gone to the start of its body. -/
def Enters (m : Machine) (index : UInt32) (place : Nat) (f : Function) (m' : Machine) : Prop :=
  m'.pc = ⟨.function place, 0⟩ ∧ ∃ a : ActivationFrame, a.function = some index ∧
    a.returnTo = some m.pc ∧ a.signature = f.signature ∧
    m'.activations = m.activations ++ [a]

end Machine

section Calls

variable {env : Env} {m m' : Machine} {fs : List Frame}

/-- The arguments of a call stand on top of the frames that are left. -/
theorem frames_of_popParams {signature : FunctionType} {arguments : List Value} {s : Stack}
    (h : popParams signature signature.parameters.reverse [] (ofFrames fs) = .ok arguments s) :
    ∃ below, fs = arguments.reverse.map .value ++ below ∧
      arguments.map Value.type = signature.parameters := by
  obtain ⟨operands, left, base, rfl, -, hTake⟩ :=
    (ValuesOnly.popParams signature _ []).exists_onOperands h
  obtain ⟨rfl, hTypes⟩ := popParams_eq_ok hTake
  exact ⟨left.map .value ++ base, by rw [List.map_append, List.append_assoc], hTypes⟩

/-- Arguments of the right types can be taken. -/
theorem exists_popParams {signature : FunctionType} {arguments : List Value} {below : List Frame}
    (hTypes : arguments.map Value.type = signature.parameters) :
    ∃ taken s, popParams signature signature.parameters.reverse []
      (ofFrames (arguments.reverse.map .value ++ below)) = .ok taken s := by
  obtain ⟨left, base, rfl, hBase⟩ := exists_operands below
  have hOperands : Value.types (arguments.reverse ++ left) =
      signature.parameters.reverse ++ Value.types left := by
    rw [Value.types, List.map_append, List.map_reverse, hTypes]
    rfl
  obtain ⟨⟨taken, rest⟩, hTake⟩ := popParams_of_types signature hOperands []
  have hApply := (ValuesOnly.popParams signature signature.parameters.reverse []).apply
    (arguments.reverse ++ left) hBase
  rw [hTake, List.map_append, List.append_assoc] at hApply
  exact ⟨taken, _, hApply⟩

theorem callFunction_defined {index : UInt32} {place : Nat} {f : Function}
    (hCallee : env.program.callee index = .ok (.defined place f)) :
    Exec.callFunction env index m =
      if env.config.maxCallDepth.toNat < m.depth then .error (.callStackExhausted m.depth) m
      else (Exec.onStack (popParams f.signature f.signature.parameters.reverse []) >>=
        Exec.enter index place f) m := by
  have hFound : (ofExcept (env.program.callee index) : Exec Callee) m =
      .ok (.defined place f) m := by
    rw [hCallee]
    rfl
  refine (run_bind_of_ok hFound _).trans ?_
  change (if env.config.maxCallDepth.toNat < m.depth then throw _ else _ : Exec Unit) m = _
  split <;> rfl

/-- A call that succeeds has taken the arguments of a defined function and entered it. -/
theorem callFunction_eq_ok_iff {index : UInt32} :
    Exec.callFunction env index m = .ok () m' ↔
      ∃ place f arguments s, env.program.callee index = .ok (.defined place f) ∧
        m.depth ≤ env.config.maxCallDepth.toNat ∧
        popParams f.signature f.signature.parameters.reverse [] m.stack = .ok arguments s ∧
        Exec.enter index place f arguments { m with stack := s } = .ok () m' := by
  constructor
  · intro h
    obtain ⟨callee, m₁, hFound, hRest⟩ := exists_of_run_bind_eq_ok h
    have hCallee := eq_ok_of_run_ofExcept hFound
    rw [hCallee] at hFound
    cases hFound
    cases callee with
    | imported f => cases hRest
    | defined place f =>
      rw [callFunction_defined hCallee] at h
      split at h
      · cases h
      · rename_i hDepth
        obtain ⟨arguments, m₂, hTake, hEnter⟩ := exists_of_run_bind_eq_ok h
        obtain ⟨s, hPop, rfl⟩ := Exec.onStack_eq_ok hTake
        exact ⟨place, f, arguments, s, hCallee, Nat.le_of_not_lt hDepth, hPop, hEnter⟩
  · rintro ⟨place, f, arguments, s, hCallee, hDepth, hPop, hEnter⟩
    have hTake : Exec.onStack (popParams f.signature f.signature.parameters.reverse []) m =
        .ok arguments { m with stack := s } := by
      unfold Exec.onStack
      simp only [hPop]
    rw [callFunction_defined hCallee, if_neg (Nat.not_lt.2 hDepth), run_bind_of_ok hTake]
    exact hEnter

/-- A call succeeds if its index is that of a defined function, and the machine can call this
function. -/
theorem exists_callFunction_iff {index : UInt32} (hStack : m.stack = ofFrames fs) :
    (∃ m', Exec.callFunction env index m = .ok () m') ↔
      ∃ place f, env.program.callee index = .ok (.defined place f) ∧ m.Accepts env f := by
  have hFrames : m.frames = fs.reverse := by rw [Machine.frames, hStack, frames_ofFrames]
  simp only [callFunction_eq_ok_iff, hStack]
  constructor
  · rintro ⟨m', place, f, arguments, s, hCallee, hDepth, hPop, -⟩
    obtain ⟨below, hBelow, hTypes⟩ := frames_of_popParams hPop
    refine ⟨place, f, hCallee, hDepth, below.reverse, arguments, ?_, hTypes⟩
    rw [hFrames, hBelow, List.reverse_append, ← List.map_reverse, List.reverse_reverse]
  · rintro ⟨place, f, hCallee, hDepth, below, arguments, hTop, hTypes⟩
    have hTaken : fs = arguments.reverse.map .value ++ below.reverse := by
      rw [← List.reverse_reverse fs, ← hFrames, hTop, List.reverse_append, List.map_reverse]
    obtain ⟨taken, s, hPop⟩ := exists_popParams hTypes
    rw [← hTaken] at hPop
    exact ⟨_, place, f, taken, s, hCallee, hDepth, hPop, rfl⟩

/-- A call pushes the activation of its function and no other. -/
theorem enters_of_callFunction {index : UInt32} {place : Nat} {f : Function}
    (hStack : m.stack = ofFrames fs) (hCallee : env.program.callee index = .ok (.defined place f))
    (h : Exec.callFunction env index m = .ok () m') : m.Enters index place f m' := by
  obtain ⟨place', f', arguments, s, hCallee', -, hPop, hEnter⟩ := callFunction_eq_ok_iff.1 h
  cases hCallee.symm.trans hCallee'
  cases hEnter
  have hKept := OfActivations.values (.popParams f.signature f.signature.parameters.reverse [])
    m.stack (Machine.hasActivations_of_stack hStack)
  rw [hPop] at hKept
  obtain ⟨below, rfl, hActivations⟩ := hKept
  refine ⟨rfl, ⟨some index, arguments.toArray ++ f.locals.extract arguments.length f.locals.size,
    some m.pc, f.signature⟩, rfl, rfl, rfl, ?_⟩
  refine Machine.HasActivations.eq ⟨.activation _ :: below, rfl, ?_⟩
  rw [List.reverse_cons, List.filterMap_append, hActivations]
  rfl

/-! ## Indirect calls -/

theorem Store.slotFunction_eq_ok_iff {s : Store} {slot function : UInt32} :
    s.slotFunction slot = .ok function ↔
      ∃ table, s.tables[0]? = some table ∧ table.slots[slot.toNat]? = some (some function) := by
  unfold Store.slotFunction Store.table Table.get
  cases s.tables[0]? with
  | none => simp [bind, Except.bind]
  | some table =>
    simp only [bind, Except.bind, Option.some.injEq, exists_eq_left']
    cases table.slots[slot.toNat]? with
    | none => simp
    | some entry => cases entry <;> simp [pure, Except.pure, throw, throwThe, MonadExceptOf.throw]

/-- An indirect call takes a slot off the stack, and does what a call of the function in it does if
the function has the type that is asked for. -/
theorem callSlot_push {typeIndex : UInt32} {s : Stack} {slot : BitVec 32}
    (hStack : m.stack = s.push (.value (.i32 slot))) {t : FunctionType} {function : UInt32}
    (hType : env.program.types[typeIndex.toNat]? = some t)
    (hSlot : m.store.slotFunction (UInt32.ofNat slot.toNat) = .ok function)
    (hSignature : env.program.signature function = .ok t) :
    Exec.callSlot env typeIndex m = Exec.callFunction env function { m with stack := s } := by
  have hTake : Exec.onStack popI32 m = .ok slot { m with stack := s } := by
    unfold Exec.onStack
    simp only [hStack, popI32_push]
  have hRead : Exec.readSlot (UInt32.ofNat slot.toNat) { m with stack := s } =
      .ok function { m with stack := s } := by
    rw [readSlot_eq]
    simp only [hSlot]
  have hFound : (ofExcept (env.program.signature function) : Exec FunctionType)
      { m with stack := s } = .ok t { m with stack := s } := by
    rw [hSignature]
    rfl
  unfold Exec.callSlot
  rw [hType]
  simp only
  rw [run_bind_of_ok hTake, run_bind_of_ok hRead, run_bind_of_ok hFound, if_neg (by simp)]

/-- An indirect call that succeeds has found a slot on the stack, and a function of the type that is
asked for in it. -/
theorem exists_of_callSlot_eq_ok {typeIndex : UInt32} (hStack : m.stack = ofFrames fs)
    (h : Exec.callSlot env typeIndex m = .ok () m') :
    ∃ (slot : BitVec 32) (rest : List Frame) (t : FunctionType) (function : UInt32),
      fs = .value (.i32 slot) :: rest ∧
        env.program.types[typeIndex.toNat]? = some t ∧
        m.store.slotFunction (UInt32.ofNat slot.toNat) = .ok function ∧
        env.program.signature function = .ok t := by
  unfold Exec.callSlot at h
  cases hType : env.program.types[typeIndex.toNat]? with
  | none =>
    rw [hType] at h
    cases h
  | some t =>
    rw [hType] at h
    obtain ⟨slot, m₁, hTake, hRest⟩ := exists_of_run_bind_eq_ok h
    obtain ⟨s, hPop, rfl⟩ := Exec.onStack_eq_ok hTake
    rw [hStack] at hPop
    obtain ⟨operands, left, base, rfl, -, hAlone⟩ := (ValuesOnly.popInt .i32).exists_onOperands hPop
    obtain rfl := popI32_eq_ok hAlone
    obtain ⟨function, m₂, hRead, hRest⟩ := exists_of_run_bind_eq_ok hRest
    rw [readSlot_eq] at hRead
    split at hRead
    · rename_i found hSlot
      cases hRead
      obtain ⟨actual, m₃, hFound, hRest⟩ := exists_of_run_bind_eq_ok hRest
      have hSignature := eq_ok_of_run_ofExcept hFound
      split at hRest
      · cases hRest
      · rename_i hSame
        rw [Decidable.not_not] at hSame
        subst hSame
        exact ⟨slot, left.map .value ++ base, actual, function, rfl, rfl, hSlot, hSignature⟩
    · cases hRead

theorem exists_callSlot_iff {typeIndex : UInt32} {slot : BitVec 32}
    (hStack : m.stack = ofFrames (.value (.i32 slot) :: fs)) :
    (∃ m', Exec.callSlot env typeIndex m = .ok () m') ↔
      ∃ t function, env.program.types[typeIndex.toNat]? = some t ∧
        m.store.slotFunction (UInt32.ofNat slot.toNat) = .ok function ∧
        env.program.signature function = .ok t ∧
        ∃ m', Exec.callFunction env function { m with stack := ofFrames fs } = .ok () m' := by
  constructor
  · rintro ⟨m', hRun⟩
    obtain ⟨found, rest, t, function, hFrames, hType, hSlot, hSignature⟩ :=
      exists_of_callSlot_eq_ok hStack hRun
    cases hFrames
    rw [callSlot_push hStack hType hSlot hSignature] at hRun
    exact ⟨t, function, hType, hSlot, hSignature, m', hRun⟩
  · rintro ⟨t, function, hType, hSlot, hSignature, m', hRun⟩
    rw [← callSlot_push hStack hType hSlot hSignature] at hRun
    exact ⟨m', hRun⟩

end Calls

namespace Machine

/-- The instruction at hand is an indirect call that names a type, and a slot stands on top of the
other frames. -/
structure IndirectCall (env : Env) (m : Machine) (typeIndex : UInt32) (slot : BitVec 32)
    (kept : List Frame) (next : Nat) : Prop where
  decodes : m.Decodes env (.callIndirect typeIndex) next
  frames : m.frames = kept ++ [.value (.i32 slot)]

/-- The machine has counted the instruction at hand, has read its operands, up to the offset `next`,
and has taken a value, which stood on top of the frames `kept`. Nothing else is different, but that
numbers may have been remembered. -/
structure TookOperand (env : Env) (m : Machine) (kept : List Frame) (next : Nat) (m' : Machine) :
    Prop where
  frames : m'.frames = kept
  stack : m'.stack = m.stack.pop
  pc : m'.pc = ⟨m.pc.code, next⟩
  opOffset : m'.opOffset = m.pc.offset
  steps : m'.steps = m.steps + 1
  store : m'.store = m.store
  halted : m'.halted = m.halted
  targets : m'.targets = m.targets
  immediates : m'.immediates.Agrees env

section

variable {env : Env} {m m' : Machine} {t : Thread} {steps : Nat}

/-- A fetched instruction that can be decoded is executed past its operands. -/
theorem Runs.dispatch_of_decodes (h : m.Runs env t steps) (hPlaced : t.WellPlaced env) {b : UInt8}
    (hFetch : fetch? env m = some b) {op : Opcode} (hOp : Opcode.ofByte? b = some op)
    {i : Instruction} {next : Nat} (hDecodes : m.Decodes env i next) :
    ∃ c : ImmediateCache, c.Agrees env ∧
      dispatch env b m.advance = i.exec env ((m.advance.withImmediates c).withOffset next) := by
  obtain ⟨b', hByte, hDecode⟩ := hDecodes
  rw [hFetch] at hByte
  cases hByte
  simp only [decodeAt, hOp] at hDecode
  have hReads := h.reads_fetched hPlaced hFetch hOp
  unfold Reads at hReads
  rw [show m.advance.pc.offset = m.pc.offset + 1 from rfl, hDecode] at hReads
  obtain ⟨c, hAgrees, hRead⟩ := hReads
  refine ⟨c, hAgrees, ?_⟩
  unfold dispatch
  simp only [hOp, exec_eq]
  exact run_bind_of_ok hRead _

/-- A fetched instruction that succeeds can be decoded. -/
theorem Runs.exists_decode (h : m.Runs env t steps) (hPlaced : t.WellPlaced env) {b : UInt8}
    (hFetch : fetch? env m = some b) {op : Opcode} (hOp : Opcode.ofByte? b = some op)
    (hRun : dispatch env b m.advance = .ok () m') :
    ∃ i next, op.decode (env.code m.pc.code) m.pc.offset (m.pc.offset + 1) = .ok (i, next) := by
  have hReads := h.reads_fetched hPlaced hFetch hOp
  unfold dispatch at hRun
  simp only [hOp, exec_eq] at hRun
  obtain ⟨i, m₁, hRead, -⟩ := exists_of_run_bind_eq_ok hRun
  unfold Reads at hReads
  split at hReads
  · rename_i j next hDecode
    exact ⟨j, next, hDecode⟩
  · obtain ⟨c, next, -, hError⟩ := hReads
    rw [hRead] at hError
    cases hError

/-- An indirect call that succeeds has found what it needs in the code and on the stack. -/
theorem Runs.exists_indirectCall (h : m.Runs env t steps) (hPlaced : t.WellPlaced env) {b : UInt8}
    (hFetch : fetch? env m = some b) (hOp : Opcode.ofByte? b = some .callIndirect)
    (hRun : dispatch env b m.advance = .ok () m') :
    ∃ typeIndex slot kept next, m.IndirectCall env typeIndex slot kept next := by
  obtain ⟨i, next, hDecode⟩ := h.exists_decode hPlaced hFetch hOp hRun
  have hDecodes : m.Decodes env i next := by
    refine ⟨b, hFetch, ?_⟩
    simp only [decodeAt, hOp]
    exact hDecode
  obtain ⟨c, -, hExec⟩ := h.dispatch_of_decodes hPlaced hFetch hOp hDecodes
  obtain ⟨typeIndex, _, _, hRest⟩ := Decoder.bind_eq_ok hDecode
  obtain ⟨_, _, rfl⟩ := Decoder.map_eq_ok hRest
  have hStack : ((m.advance.withImmediates c).withOffset next).stack = ofFrames m.frames.reverse :=
    h.stack_eq
  rw [hExec] at hRun
  obtain ⟨slot, rest, _, _, hFrames, -⟩ := exists_of_callSlot_eq_ok hStack hRun
  refine ⟨typeIndex, slot, rest.reverse, next, hDecodes, ?_⟩
  rw [List.reverse_eq_iff.1 hFrames, List.reverse_cons]

end

end Machine

/-! ## Invocations -/

/-- The function that an indirect call leads to: the one in the slot of the first table. It is a
defined function, and the module declares it with a type that is equal to the one of the given
index. -/
structure Module.Selects (m : Module) (p : Program) (store : Store) (typeIndex : UInt32)
    (slot : BitVec 32) (index : UInt32) (place : Nat) (f : Function) : Prop where
  slot : ∃ table, store.tables[0]? = some table ∧ table.slots[slot.toNat]? = some (some index)
  type : ∃ t, m.types[typeIndex.toNat]? = some t ∧ m.functionType? index = some t
  defined : p.callee index = .ok (.defined place f)

/-- The instance finds the selected function as the description of the module does. -/
theorem Module.selects_iff {m : Module} {p : Program} (hTypes : p.types = m.types)
    (hResolves : ∀ index, m.Resolves p index) {store : Store} {typeIndex : UInt32}
    {slot : BitVec 32} {index : UInt32} {place : Nat} {f : Function} :
    m.Selects p store typeIndex slot index place f ↔
      store.slotFunction (UInt32.ofNat slot.toNat) = .ok index ∧
      (∃ t, p.types[typeIndex.toNat]? = some t ∧ p.signature index = .ok t) ∧
      p.callee index = .ok (.defined place f) := by
  have hSlot : (UInt32.ofNat slot.toNat).toNat = slot.toNat := by
    rw [UInt32.toNat_ofNat']
    exact Nat.mod_eq_of_lt slot.isLt
  simp only [Store.slotFunction_eq_ok_iff, hSlot, hTypes, (hResolves index).signature]
  constructor
  · intro h
    exact ⟨h.slot, h.type, h.defined⟩
  · rintro ⟨hFound, hType, hDefined⟩
    exact ⟨hFound, hType, hDefined⟩

/-- What an indirect call at hand does, when the type and the slot are read and taken. -/
theorem Machine.Runs.indirectCall_selects {env : Env} {machine : Machine} {t : Thread} {steps : Nat}
    (hRuns : machine.Runs env t steps) (hPlaced : t.WellPlaced env) {opcode : UInt8}
    (hFetch : fetch? env machine = some opcode) (hOp : Opcode.ofByte? opcode = some .callIndirect)
    {m : Module} (hTypes : env.program.types = m.types)
    (hResolves : ∀ index, m.Resolves env.program index) {typeIndex : UInt32} {slot : BitVec 32}
    {kept : List Frame} {next : Nat} (hCall : machine.IndirectCall env typeIndex slot kept next) :
    let fetched := { machine with steps := machine.steps + 1 }.advance
    ∃ before, machine.TookOperand env kept next before ∧
      ((∃ m', dispatch env opcode fetched = .ok () m') ↔ ∃ function place f,
        m.Selects env.program machine.store typeIndex slot function place f ∧
          before.Accepts env f) ∧
      ∀ function place f, m.Selects env.program machine.store typeIndex slot function place f →
        dispatch env opcode fetched = (Instruction.call function).exec env before ∧
        ∀ m', dispatch env opcode fetched = .ok () m' → before.Enters function place f m' := by
  intro fetched
  obtain ⟨c, hAgrees, hDispatch⟩ :=
    hRuns.counted.dispatch_of_decodes hPlaced hFetch hOp hCall.decodes
  have hTop : machine.stack = ofFrames (.value (.i32 slot) :: kept.reverse) := by
    rw [hRuns.stack_eq, hCall.frames, List.reverse_append]
    rfl
  have hPop : machine.stack.pop = ofFrames kept.reverse := by rw [hTop, pop_ofFrames_cons]
  let read := (fetched.withImmediates c).withOffset next
  let before := { read with stack := ofFrames kept.reverse }
  have hRead : read.stack = ofFrames (.value (.i32 slot) :: kept.reverse) := hTop
  change dispatch env opcode fetched = Exec.callSlot env typeIndex read at hDispatch
  refine ⟨before, ⟨?_, hPop.symm, rfl, rfl, rfl, rfl, rfl, rfl, hAgrees⟩, ?_, ?_⟩
  · change (ofFrames kept.reverse).frames.toList = kept
    rw [frames_ofFrames, List.reverse_reverse]
  · rw [hDispatch, exists_callSlot_iff hRead]
    simp only [Module.selects_iff hTypes hResolves]
    constructor
    · rintro ⟨signature, function, hType, hSlot, hSignature, hRun⟩
      obtain ⟨place, f, hCallee, hAccepts⟩ := (exists_callFunction_iff rfl).1 hRun
      exact ⟨function, place, f, ⟨hSlot, ⟨signature, hType, hSignature⟩, hCallee⟩, hAccepts⟩
    · rintro ⟨function, place, f, ⟨hSlot, ⟨signature, hType, hSignature⟩, hCallee⟩, hAccepts⟩
      exact ⟨signature, function, hType, hSlot, hSignature,
        (exists_callFunction_iff rfl).2 ⟨place, f, hCallee, hAccepts⟩⟩
  · intro function place f hSelected
    obtain ⟨hSlot, ⟨signature, hType, hSignature⟩, hCallee⟩ :=
      (Module.selects_iff hTypes hResolves).1 hSelected
    have hSame : dispatch env opcode fetched = Exec.callFunction env function before :=
      hDispatch.trans (callSlot_push hRead hType hSlot hSignature)
    refine ⟨hSame, fun m' hRun => ?_⟩
    exact enters_of_callFunction rfl hCallee (hSame.symm.trans hRun)

namespace Session

/-- For every module that is loaded and instantiated: each index leads to the function that the
module describes. And in every state in which an invocation has fetched an indirect call, whatever
earlier requests have done: if the call fails, no activation has been pushed; it succeeds only with
a slot on the stack, and then if and only if the slot selects a function that can be called when the
slot has been taken. What it does then is what a direct call of this function does from there: it
pushes one activation, which will return past the indirect call. -/
theorem indirect_calls_select (name : String) (bytes : Bytes) (m : Module) (config : Config)
    (i : Instance) (hLoad : Module.load name bytes = .ok m)
    (hInstance : instantiate m config = .ok i) (settings : Config) (journal : Journal)
    (requests : List (Nat × Request)) (index : UInt32) (arguments : List Value) :
    let s := ((ofInstance i settings journal).serve requests).2
    let env := s.environment index
    (∀ function, m.Resolves i.program function) ∧
    ∀ machine, s.Visits index arguments machine → ∀ opcode, fetch? env machine = some opcode →
      Opcode.ofByte? opcode = some .callIndirect →
        let fetched := { machine with steps := machine.steps + 1 }.advance
        (∀ e m', dispatch env opcode fetched = .error e m' →
          m'.activations = machine.activations) ∧
        (∀ m', dispatch env opcode fetched = .ok () m' →
          ∃ typeIndex slot kept next, machine.IndirectCall env typeIndex slot kept next) ∧
        ∀ typeIndex slot kept next, machine.IndirectCall env typeIndex slot kept next →
          ∃ before, machine.TookOperand env kept next before ∧
            ((∃ m', dispatch env opcode fetched = .ok () m') ↔ ∃ function place f,
              m.Selects i.program machine.store typeIndex slot function place f ∧
                before.Accepts env f) ∧
            ∀ function place f,
              m.Selects i.program machine.store typeIndex slot function place f →
                dispatch env opcode fetched = (Instruction.call function).exec env before ∧
                ∀ m', dispatch env opcode fetched = .ok () m' →
                  before.Enters function place f m' := by
  intro s env
  obtain ⟨hCount, -⟩ := exists_layout_of_load hLoad
  have hResolves := Module.resolves_of_instantiate hCount hInstance
  refine ⟨hResolves, fun machine hVisits opcode hFetch hOp => ?_⟩
  intro fetched
  have hProgram : env.program = i.program :=
    ((ofInstance i settings journal).serve_program requests).1
  have hConsistent := (consistent_ofInstance i settings journal).serve requests
  obtain ⟨t, steps, hRuns, hPlaced⟩ := hConsistent.runs_of_visits hVisits
  have hCounted := hRuns.counted
  refine ⟨?_, fun m' hRun => ?_, fun typeIndex slot kept next hCall => ?_⟩
  · intro e m' hError
    have hBefore : fetched.HasActivations machine.activations :=
      Machine.hasActivations_of_stack hRuns.stack_eq
    unfold dispatch at hError
    simp only [hOp] at hError
    exact (KeepsOnError.callIndirect fetched hBefore e m' hError).eq
  · obtain ⟨typeIndex, slot, kept, next, hCall⟩ :=
      hCounted.exists_indirectCall hPlaced hFetch hOp hRun
    exact ⟨typeIndex, slot, kept, next, hCall.decodes, hCall.frames⟩
  · rw [← hProgram] at hResolves ⊢
    have hTypes : env.program.types = m.types := by
      rw [hProgram, (describes_of_instantiate hCount hInstance).types]
    exact hRuns.indirectCall_selects hPlaced hFetch hOp hTypes hResolves hCall

/-- A module with an imported function, a caller, and a function in the only slot of its table. Its
two types are equal: the caller names the second one, and the function in the slot has the first. -/
def indirectBytes : Bytes := #[
  0x00, 0x61, 0x73, 0x6d, 0x01, 0x00, 0x00, 0x00,
  0x01, 0x07, 0x02, 0x60, 0x00, 0x00, 0x60, 0x00, 0x00,
  0x02, 0x07, 0x01, 0x01, 0x6d, 0x01, 0x66, 0x00, 0x00,
  0x03, 0x03, 0x02, 0x00, 0x00,
  0x04, 0x04, 0x01, 0x70, 0x00, 0x01,
  0x09, 0x07, 0x01, 0x00, 0x41, 0x00, 0x0b, 0x01, 0x02,
  0x0a, 0x0c, 0x02, 0x07, 0x00, 0x41, 0x00, 0x11, 0x01, 0x00, 0x0b, 0x02, 0x00, 0x0b]

def indirectModule : Module where
  name := "indirect"
  types := #[⟨[], []⟩, ⟨[], []⟩]
  imports := #[⟨"m", "f", .function 0⟩]
  functions := #[0, 0]
  tables := #[⟨1, none⟩]
  elements := #[⟨0, #[0x41, 0x00, endByte], #[2]⟩]
  code := #[⟨#[], #[0x41, 0x00, 0x11, 0x01, 0x00, endByte], 51⟩, ⟨#[], #[endByte], 59⟩]

/-- The function in the slot. -/
def indirectFunction : Function where
  index := 2
  typeIndex := 0
  signature := ⟨[], []⟩
  code := #[endByte]
  position := 59
  locals := #[]

def indirectInstance : Instance where
  program :=
    { types := #[⟨[], []⟩, ⟨[], []⟩]
      imported := #[⟨"m", "f", ⟨[], []⟩⟩]
      functions := #[
        { index := 1
          typeIndex := 0
          signature := ⟨[], []⟩
          code := #[0x41, 0x00, 0x11, 0x01, 0x00, endByte]
          position := 51
          locals := #[] },
        indirectFunction]
      start := none
      entry := none }
  store :=
    { globals := #[]
      memories := #[]
      tables := #[⟨#[some 2], ⟨1, none⟩⟩]
      callCounts := #[0, 0] }

theorem load_indirectBytes : Module.load "indirect" indirectBytes = .ok indirectModule := by
  decide +kernel

set_option maxRecDepth 4000 in
theorem instantiate_indirectModule : instantiate indirectModule {} = .ok indirectInstance := by
  with_unfolding_all rfl

/-- What the caller runs in. -/
def indirectEnv : Env := ⟨indirectInstance.program, {}, #[callByte, 1, endByte], true⟩

theorem environment_indirectInstance :
    (ofInstance indirectInstance {} {}).environment 1 = indirectEnv := by
  simp [environment, ofInstance, driverCode, callCode, encodeU32_one, indirectInstance, indirectEnv]

/-- The caller, with some operands. -/
def indirectCaller (operands : List Value) (offset : Nat) : Thread where
  activity := ⟨operands, [],
    { function := some 1, locals := #[], returnTo := some ⟨.driver, 2⟩, signature := ⟨[], []⟩ }⟩
  callers := [⟨[], [], driverActivation ⟨[], []⟩⟩]
  store := { indirectInstance.store with callCounts := #[1, 0] }
  pc := ⟨.function 0, offset⟩

set_option maxRecDepth 4000 in
theorem step_indirectCaller : (indirectCaller [] 0).step indirectEnv =
    .ok (.running (indirectCaller [.i32 0] 2)) := rfl

/-- The slot selects the function with the index 2, though its type has another index. -/
theorem selects_indirectModule :
    indirectModule.Selects indirectInstance.program (indirectCaller [.i32 0] 2).store 1 0 2 1
      indirectFunction :=
  ⟨⟨_, rfl, rfl⟩, ⟨⟨[], []⟩, rfl, rfl⟩, rfl⟩

/-- The caller enters the function in the slot, and will go on behind the indirect call. -/
theorem indirect_calls_select_equal_types :
    let s := ofInstance indirectInstance {} {}
    Module.load "indirect" indirectBytes = .ok indirectModule ∧
      instantiate indirectModule {} = .ok indirectInstance ∧
      indirectModule.Resolves indirectInstance.program 2 ∧
      ∃ (machine before m' : Machine), s.Visits 1 [] machine ∧ before.pc = ⟨.function 0, 5⟩ ∧
        dispatch (s.environment 1) 0x11 { machine with steps := machine.steps + 1 }.advance =
          .ok () m' ∧
        before.Enters 2 1 indirectFunction m' := by
  intro s
  have hEnv : s.environment 1 = indirectEnv := environment_indirectInstance
  have hEnter : (Thread.start ⟨[], []⟩ [] indirectInstance.store).step indirectEnv =
      .ok (.running (indirectCaller [] 0)) := rfl
  have hGoes := Thread.Goes.step hEnter (.single step_indirectCaller)
  rw [← hEnv] at hGoes
  obtain ⟨machine, hSteps, hRuns, hPlaced⟩ :=
    ((consistent_ofInstance indirectInstance {} {}).opening_runs 1 ⟨[], []⟩ []).steps_of_goes
      (Thread.start_wellPlaced _ _ _ _) rfl hGoes
  have hVisits : s.Visits 1 [] machine := ⟨_, rfl, hSteps⟩
  have hFetch : fetch? (s.environment 1) machine = some 0x11 := by
    rw [fetch?, hRuns.pc, hEnv]
    rfl
  have hCall : machine.IndirectCall (s.environment 1) 1 0
      [.activation (driverActivation ⟨[], []⟩),
        .activation (indirectCaller [.i32 0] 2).activity.activation] 5 := by
    refine ⟨⟨0x11, hFetch, ?_⟩, hRuns.frames_eq⟩
    rw [hRuns.pc, hEnv]
    rfl
  obtain ⟨hResolves, hCalls⟩ := indirect_calls_select "indirect" indirectBytes indirectModule {}
    indirectInstance load_indirectBytes instantiate_indirectModule {} {} [] 1 []
  obtain ⟨-, -, hSelects⟩ := hCalls machine hVisits 0x11 hFetch rfl
  obtain ⟨before, hTook, hIff, hEnters⟩ := hSelects 1 0 _ 5 hCall
  have hStore : machine.store = (indirectCaller [.i32 0] 2).store := hRuns.store
  have hSelected := selects_indirectModule
  rw [← hStore] at hSelected
  have hAccepts : before.Accepts (s.environment 1) indirectFunction := by
    refine ⟨?_, before.frames, [], (List.append_nil _).symm, rfl⟩
    have hDepth : before.depth = 2 := by
      rw [Machine.depth, hTook.stack, hRuns.stack]
      rfl
    rw [hDepth, hEnv]
    decide
  obtain ⟨m', hRun⟩ := hIff.2 ⟨2, 1, indirectFunction, hSelected, hAccepts⟩
  refine ⟨load_indirectBytes, instantiate_indirectModule, hResolves 2, machine, before, m', hVisits,
    ?_, hRun, (hEnters 2 1 indirectFunction hSelected).2 m' hRun⟩
  rw [hTook.pc, hRuns.pc]
  rfl

end Session

end WasmMachine
