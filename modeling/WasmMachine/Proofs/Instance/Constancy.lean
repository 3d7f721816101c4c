import WasmMachine.Proofs.Machine.Isolation
import WasmMachine.Proofs.Machine.Keeping
import WasmMachine.Proofs.Machine.OperandLaws
import WasmMachine.Proofs.Typing.Instances

/-!
# What execution does not change

Whatever code runs, and also where an instruction fails halfway: globals keep their types and
immutable ones their values, tables stay as they are, and every activation of a defined function
has the locals that the function declares. A local or a global is only assigned a value of the type
of the old one, and a call puts its arguments, which have the types of the parameters, in the place
of the first locals.

* `Machine.Steady`: the invariant.
* `keeps_exec`: every instruction keeps it.
* `Session.state_keeps_types`: it holds in all states of a session on an instance of a module.
-/

namespace WasmMachine

open Stack

/-! ## The invariant -/

/-- The locals of an activation of a defined function have the types of those of the function. -/
def Program.Declares (p : Program) (a : ActivationFrame) : Prop :=
  ∀ index, a.function = some index → ∃ place f, p.callee index = .ok (.defined place f) ∧
    a.locals.map Value.type = f.locals.map Value.type

/-- The store differs from another one at most in the values of mutable globals, in the memories
and in the call counts. -/
structure Store.SameConstants (before after : Store) : Prop where
  globals : after.globals.map Global.type = before.globals.map Global.type
  immutable : ∀ (k : Nat) (g : Global), before.globals[k]? = some g → g.isMutable = false →
    after.globals[k]? = some g
  tables : after.tables = before.tables

/-- The machine has kept the constants of a store, and its activations have the locals that the
program declares. -/
structure Machine.Steady (p : Program) (before : Store) (m : Machine) : Prop where
  stack : m.stack.AllActivations p.Declares
  store : before.SameConstants m.store

/-- The first locals of every function are its parameters. -/
def Program.ParametersFirst (p : Program) : Prop :=
  ∀ f ∈ p.functions, f.signature.parameters <+: f.locals.toList.map Value.type

theorem Store.SameConstants.refl (s : Store) : s.SameConstants s := ⟨rfl, fun _ _ h _ => h, rfl⟩

instance (p : Program) (before : Store) :
    Machine.Parts (Machine.Steady p before) (AllActivations p.Declares) before.SameConstants where
  iff _ := ⟨fun hm => ⟨hm.stack, hm.store⟩, fun hm => ⟨hm.1, hm.2⟩⟩

instance (P : ActivationFrame → Prop) : OfActivations (AllActivations P) where
  values h := h.keeps_all
  label _ hs := hs.push fun _ hEq => nomatch hEq

/-! ## Locals -/

theorem Program.declares_assign (p : Program) : OnTypesOfLocals p.Declares := by
  intro a index old v ha hOld hType function hFunction
  obtain ⟨place, f, hCallee, hTypes⟩ := ha function hFunction
  refine ⟨place, f, hCallee, ?_⟩
  change (a.locals.setIfInBounds index v).map Value.type = _
  have hHere : (a.locals.map Value.type)[index]? = some old.type := by
    rw [Array.getElem?_map, hOld]
    rfl
  rw [RegionTyped.map_setIfInBounds Value.type hHere hType]
  exact hTypes

/-- The arguments of a call, in the place of the first locals, have their types. -/
theorem map_type_arguments {f : Function} {arguments : List Value}
    (hFirst : f.signature.parameters <+: f.locals.toList.map Value.type)
    (hTypes : arguments.map Value.type = f.signature.parameters) :
    (arguments.toArray ++ f.locals.extract arguments.length f.locals.size).map Value.type =
      f.locals.map Value.type := by
  obtain ⟨declared, hDeclared⟩ := hFirst
  have hLocals : f.locals.map Value.type = f.signature.parameters.toArray ++ declared.toArray := by
    apply Array.toList_inj.1
    rw [Array.toList_map, ← hDeclared, Array.toList_append]
  exact Function.types_locals hLocals hTypes

/-- The arguments that a call takes have the types of its parameters. -/
theorem popParams_types {signature : FunctionType} {types : List ValueType}
    {found arguments : List Value} {s s' : Stack}
    (h : popParams signature types found s = .ok arguments s') :
    arguments.map Value.type = types.reverse ++ found.map Value.type := by
  induction types generalizing found s with
  | nil =>
    cases h
    rfl
  | cons expected rest ih =>
    obtain ⟨v, s₁, hParam, hRest⟩ := exists_of_run_bind_eq_ok h
    have hType : v.type = expected := by
      unfold popParam at hParam
      split at hParam
      · cases hParam
      · split at hParam
        · rename_i hEq
          cases hParam
          exact hEq
        · cases hParam
    rw [ih hRest, List.map_cons, hType, List.reverse_cons, List.append_assoc]
    rfl

/-! ## Globals -/

/-- Assigning a mutable global a value of its type keeps the constants. -/
theorem Store.SameConstants.assignGlobal {before after : Store} {index : Nat} {g : Global}
    {v : Value} (h : before.SameConstants after) (hGlobal : after.globals[index]? = some g)
    (hMutable : g.isMutable = true) (hType : v.type = g.value.type) :
    before.SameConstants
      { after with globals := after.globals.setIfInBounds index { g with value := v } } := by
  have hSame : Global.type { g with value := v } = g.type := by rw [Global.type, hType, Global.type]
  have hHere : (after.globals.map Global.type)[index]? = some g.type := by
    rw [Array.getElem?_map, hGlobal]
    rfl
  refine ⟨(RegionTyped.map_setIfInBounds Global.type hHere hSame).trans h.globals, ?_, h.tables⟩
  intro k g₀ hInitial hImmutable
  have hKept := h.immutable k g₀ hInitial hImmutable
  by_cases hk : index = k
  · -- The global at the index would be immutable.
    subst hk
    rw [hGlobal] at hKept
    cases hKept
    rw [hMutable] at hImmutable
    cases hImmutable
  · rw [Array.getElem?_setIfInBounds_ne hk]
    exact hKept

/-! ## Instructions -/

section

variable {p : Program} {before : Store} {env : Env} {α : Type}

theorem Exec.readGlobal_eq_ok {index : UInt32} {m m' : Machine} {g : Global}
    (h : Exec.readGlobal index m = .ok g m') :
    m' = m ∧ m.store.globals[index.toNat]? = some g := by
  unfold Exec.readGlobal at h
  split at h
  · rename_i hGlobal
    cases h
    exact ⟨rfl, hGlobal⟩
  · cases h

theorem Exec.onStack_eq_ok {op : StackM α} {m m' : Machine} {a : α}
    (h : Exec.onStack op m = .ok a m') :
    ∃ s, op m.stack = .ok a s ∧ m' = { m with stack := s } := by
  unfold Exec.onStack at h
  simp only at h
  split at h
  · rename_i s hRun
    cases h
    exact ⟨s, hRun, rfl⟩
  · cases h

theorem keeps_globalSet (index : UInt32) :
    Keeps (Machine.Steady p before) (Exec.globalSet index) := by
  intro m hm
  refine Keeps.bind_at (Keeps.readGlobal index m hm) fun g m₁ hRead hm₁ => ?_
  obtain ⟨rfl, hGlobal⟩ := Exec.readGlobal_eq_ok hRead
  cases hMutable : g.isMutable with
  | false => exact hm₁
  | true =>
    refine Keeps.bind_at (Keeps.onValues (.popTyped g.value.type) m₁ hm₁) fun v m₂ hPop hm₂ => ?_
    obtain ⟨s, hTyped, rfl⟩ := Exec.onStack_eq_ok hPop
    obtain ⟨hType, -⟩ := hm₁.stack.of_popTyped hTyped
    have hStore := hm₁.store.assignGlobal hGlobal hMutable hType
    rw [hMutable] at hStore
    exact ⟨hm₂.stack, hStore⟩

theorem keeps_onMemory (op : MemoryM α) : Keeps (Machine.Steady p before) (Exec.onMemory op) := by
  intro m hm
  unfold Exec.onMemory
  split
  · exact hm
  · simp only
    split <;> exact ⟨hm.stack, hm.store.globals, hm.store.immutable, hm.store.tables⟩

/-- The new activation of a call has the locals that its function declares. -/
theorem keeps_enter {index : UInt32} {place : Nat} {f : Function} {arguments : List Value}
    (hCallee : p.callee index = .ok (.defined place f))
    (hLocals : (arguments.toArray ++ f.locals.extract arguments.length f.locals.size).map
      Value.type = f.locals.map Value.type) :
    Keeps (Machine.Steady p before) (Exec.enter index place f arguments) := by
  refine Keeps.get.bind fun m => (Keeps.pushFrame fun s hs => hs.push ?_).bind fun _ => ?_
  · intro m hm
    exact ⟨hm.stack, hm.store.globals, hm.store.immutable, hm.store.tables⟩
  · intro a hEq function hFunction
    cases hEq
    cases hFunction
    exact ⟨place, f, hCallee, hLocals⟩

theorem keeps_callFunction (hFirst : env.program.ParametersFirst) (index : UInt32) :
    Keeps (Machine.Steady env.program before) (Exec.callFunction env index) := by
  intro m hm
  refine Keeps.bind_at (Keeps.ofExcept (env.program.callee index) m hm)
    fun found m₁ hFound hm₁ => ?_
  have hCallee := eq_ok_of_run_ofExcept hFound
  cases found with
  | imported f => exact hm₁
  | defined place f =>
    have hParameters := hFirst f (Array.mem_of_getElem? (Program.functions_of_callee hCallee))
    refine (Keeps.get.bind fun m₂ => Keeps.ite (Keeps.throw _) ?_ : Keeps _ _) m₁ hm₁
    intro m₃ hm₃
    refine Keeps.bind_at (Keeps.onValues (.popParams _ _ _) m₃ hm₃) fun arguments m₄ hPop hm₄ => ?_
    obtain ⟨s, hParams, -⟩ := Exec.onStack_eq_ok hPop
    have hTypes := popParams_types hParams
    rw [List.reverse_reverse, List.map_nil, List.append_nil] at hTypes
    exact keeps_enter hCallee (map_type_arguments hParameters hTypes) m₄ hm₄

theorem keeps_call (hFirst : env.program.ParametersFirst) :
    Keeps (Machine.Steady env.program before) (Exec.call env) :=
  Keeps.readU32.bind fun index => keeps_callFunction hFirst index

theorem keeps_callIndirect (hFirst : env.program.ParametersFirst) :
    Keeps (Machine.Steady env.program before) (Exec.callIndirect env) := by
  refine Keeps.readU32.bind fun typeIndex => Keeps.readU32.bind fun _ => ?_
  cases env.program.types[typeIndex.toNat]? with
  | none => exact Keeps.throw _
  | some expected =>
    refine (Keeps.onValues (.popInt .i32)).bind fun slot => ?_
    exact (Keeps.readSlot _).bind fun function => (Keeps.ofExcept _).bind fun actual =>
      Keeps.ite (Keeps.throw _) (keeps_callFunction hFirst function)

theorem keeps_store (op : StoreOp) (offset : UInt32) :
    Keeps (Machine.Steady p before) (Exec.store op offset) :=
  Keeps.requireMemory.bind fun _ => (Keeps.onValues (.popTyped _)).bind fun _ =>
    (Keeps.onValues (.popAddress offset)).bind fun _ => keeps_onMemory _

theorem keeps_memoryGrow : Keeps (Machine.Steady p before) Exec.memoryGrow :=
  Keeps.requireMemory.bind fun _ => (Keeps.onValues (.popInt .i32)).bind fun _ =>
    (keeps_onMemory _).bind fun _ => Keeps.onValues (.pushValue _)

/-- Every instruction, whatever the code, and whether it fails or not. -/
theorem keeps_exec (hFirst : env.program.ParametersFirst) (op : Opcode) :
    Keeps (Machine.Steady env.program before) (exec env op) := by
  have hAssign := Program.declares_assign env.program
  cases op with
  | unreachable => exact Keeps.throw _
  | nop => exact Keeps.pure ()
  | block => exact Keeps.block
  | loop => exact Keeps.loop
  | ifThen => exact Keeps.ifThen
  | elseArm => exact Keeps.branch keeps_unwindTo 0
  | blockEnd => exact Keeps.blockEnd keeps_unwindTo
  | branch => exact Keeps.readU32.bind fun _ => Keeps.branch keeps_unwindTo _
  | branchIf => exact Keeps.branchIf keeps_unwindTo
  | branchTable => exact Keeps.branchTable keeps_unwindTo
  | ret => exact Keeps.doReturn keeps_unwindTo
  | call => exact keeps_call hFirst
  | callIndirect => exact keeps_callIndirect hFirst
  | drop => exact Keeps.onValues .drop
  | select => exact Keeps.onValues .select
  | localGet => exact Keeps.readU32.bind fun index => Keeps.onStack (keeps_localGet index)
  | localSet => exact Keeps.readU32.bind fun index => Keeps.onStack (keeps_localSet hAssign index)
  | localTee => exact Keeps.readU32.bind fun index => Keeps.onStack (keeps_localTee hAssign index)
  | globalGet => exact Keeps.readU32.bind fun index => Keeps.globalGet index
  | globalSet => exact Keeps.readU32.bind fun index => keeps_globalSet index
  | load op => exact Keeps.readMemArg.bind fun offset => Keeps.load op offset
  | store op => exact Keeps.readMemArg.bind fun offset => keeps_store op offset
  | memorySize => exact Keeps.readU32.bind fun _ => Keeps.memorySize
  | memoryGrow => exact Keeps.readU32.bind fun _ => keeps_memoryGrow
  | const t => exact Keeps.execConst t
  | numeric n => exact Keeps.onValues (.numeric n)

/-! ## Runs -/

theorem keeps_step (hFirst : env.program.ParametersFirst) :
    Keeps (Machine.Steady env.program before) (step env) := by
  intro m hm
  unfold step
  simp only
  split
  · exact hm
  · rename_i b _
    split
    · exact ⟨hm.stack, hm.store⟩
    · have hNext : Keeps (Machine.Steady env.program before) (dispatch env b) := by
        unfold dispatch
        cases Opcode.ofByte? b with
        | some op => exact keeps_exec hFirst op
        | none => exact Keeps.throw _
      have hAfter := hNext (Machine.advance { m with steps := m.steps + 1 }) ⟨hm.stack, hm.store⟩
      split <;> rename_i hRun <;> rw [hRun] at hAfter <;> exact hAfter

theorem Machine.Steady.run (hFirst : env.program.ParametersFirst) {m : Machine}
    (hm : m.Steady env.program before) (fuel : Nat) (j : Journal) :
    (run env fuel m j).machine.Steady env.program before := by
  induction fuel generalizing m j with
  | zero => exact hm
  | succ fuel ih =>
    cases hHalted : m.halted with
    | true =>
      rw [run_halted hHalted]
      exact hm
    | false =>
      rw [run_step hHalted]
      have hNext := keeps_step hFirst m hm
      cases hStep : step env m with
      | ok u m' =>
        rw [hStep] at hNext
        exact ih hNext _
      | error f m' =>
        rw [hStep] at hNext
        exact hNext

end

/-! ## Sessions -/

namespace Session

variable {p : Program} {before : Store} {s : Session}

/-- An invocation starts with the outermost activation, which is not one of a function. -/
theorem steady_opening (h : s.machine.Steady p before) (signature : FunctionType)
    (arguments : List Value) : (s.opening signature arguments).Steady p before := by
  refine ⟨(AllActivations.empty.push ?_).pushValues arguments, h.store⟩
  intro a hEq function hFunction
  cases hEq
  cases hFunction

theorem steady_answer (hFirst : s.program.ParametersFirst) (h : s.machine.Steady s.program before)
    (fuel : Nat) (request : Request) :
    (s.answer fuel request).2.machine.Steady s.program before := by
  have hInvoke : ∀ index arguments,
      (s.invoke fuel index arguments).2.machine.Steady s.program before := by
    intro index arguments
    unfold invoke
    split
    · exact h
    · rename_i signature _
      have hEnv : (s.environment index).program.ParametersFirst := hFirst
      have hEnd := Machine.Steady.run hEnv (steady_opening h signature arguments) fuel
        (s.journal.note (.invoking index signature arguments.length))
      rw [runChecked_eq]
      unfold close
      split <;> exact ⟨.empty, hEnd.store⟩
  cases request with
  | invoke index arguments => exact hInvoke index arguments
  | execute index =>
    change (s.execute fuel index).2.machine.Steady s.program before
    unfold execute
    split
    · exact hInvoke _ []
    · exact h

theorem steady_serve (hFirst : s.program.ParametersFirst) (h : s.machine.Steady s.program before)
    (requests : List (Nat × Request)) :
    (s.serve requests).2.machine.Steady s.program before := by
  induction requests generalizing s with
  | nil => exact h
  | cons first rest ih =>
    obtain ⟨fuel, request⟩ := first
    have hProgram : (s.answer fuel request).2.program = s.program :=
      (s.serve_program [(fuel, request)]).1
    have hNext := steady_answer hFirst h fuel request
    rw [← hProgram] at hFirst hNext ⊢
    exact ih hFirst hNext

end Session

/-! ## Instances of a module -/

/-- What a module declares, and what its instance was made with, is still so in a machine. -/
structure Machine.Unchanged (m : Module) (i : Instance) (machine : Machine) : Prop where
  globals : machine.store.globals.map Global.type = m.globals.map (·.type)
  immutable : ∀ (k : Nat) (g : Global), i.store.globals[k]? = some g → g.isMutable = false →
    machine.store.globals[k]? = some g
  tables : machine.store.tables = i.store.tables
  slots : ∀ table ∈ machine.store.tables, ∀ function, some function ∈ table.slots →
    function.toNat < i.program.functionCount
  locals : ∀ a index, .activation a ∈ machine.frames → a.function = some index →
    ∃ place f typeIndex body, i.program.callee index = .ok (.defined place f) ∧
      m.functions[place]? = some typeIndex ∧ m.types[typeIndex.toNat]? = some f.signature ∧
      m.code[place]? = some body ∧
      a.locals.toList.map Value.type = f.signature.parameters ++ body.locals.toList

namespace Instantiated

variable {m : Module} {config : Config} {i : Instance}

theorem map_type_locals {f : Function} {body : FunctionBody}
    (h : f.locals = f.signature.parameters.toArray.map Value.zero ++ body.locals.map Value.zero) :
    f.locals.map Value.type = f.signature.parameters.toArray ++ body.locals := by
  rw [h, Array.map_append, Value.map_type_zero, Value.map_type_zero]

theorem parametersFirst (h : Instantiated m config i) : i.program.ParametersFirst := by
  intro f hMem
  obtain ⟨place, hPlace⟩ := Array.mem_iff_getElem?.1 hMem
  obtain ⟨typeIndex, body, -, -, -, -, hLocals⟩ := function_of_createFunctions h.functions hPlace
  refine ⟨body.locals.toList, ?_⟩
  have hTypes := congrArg Array.toList (map_type_locals hLocals)
  rw [Array.toList_map, Array.toList_append] at hTypes
  exact hTypes.symm

theorem unchanged (h : Instantiated m config i) {machine : Machine}
    (hSteady : machine.Steady i.program i.store) : machine.Unchanged m i where
  globals := hSteady.store.globals.trans (createGlobals_types h.globals)
  immutable := hSteady.store.immutable
  tables := hSteady.store.tables
  slots := by
    rw [hSteady.store.tables]
    exact (tablesHold_of_createTables h.tables).2
  locals := by
    intro a index hMem hFunction
    obtain ⟨place, f, hCallee, hTypes⟩ := hSteady.stack.of_mem hMem index hFunction
    obtain ⟨typeIndex, body, hType, hBody, hSignature, -, hLocals⟩ :=
      function_of_createFunctions h.functions (Program.functions_of_callee hCallee)
    refine ⟨place, f, typeIndex, body, hCallee, hType, hSignature, hBody, ?_⟩
    rw [map_type_locals hLocals] at hTypes
    rw [← Array.toList_map, hTypes, Array.toList_append]

end Instantiated

namespace Session

/-- In a session on an instance of a module, after any requests and on any code: the program is
that of the instance, and between requests, in every machine that an invocation visits and after
the next step, also if that fails: globals have the declared types, immutable ones their first
values, tables are as they were made, and every activation of a function has its parameters and
declared locals, all of the declared types. -/
theorem state_keeps_types (m : Module) (config : Config) (i : Instance)
    (hInstance : instantiate m config = .ok i) (settings : Config) (journal : Journal)
    (requests : List (Nat × Request)) :
    let s := ((ofInstance i settings journal).serve requests).2
    s.program = i.program ∧ s.machine.Unchanged m i ∧
      ∀ index arguments machine, s.Visits index arguments machine →
        machine.Unchanged m i ∧
          (finalState (step (s.environment index) machine)).Unchanged m i := by
  intro s
  have hInstantiated := instantiated_of_eq_ok hInstance
  have hFirst := hInstantiated.parametersFirst
  have hProgram : s.program = i.program :=
    ((ofInstance i settings journal).serve_program requests).1
  have hNew : (ofInstance i settings journal).machine.Steady i.program i.store :=
    ⟨.empty, .refl i.store⟩
  have hServed : s.machine.Steady i.program i.store :=
    steady_serve (s := ofInstance i settings journal) hFirst hNew requests
  refine ⟨hProgram, hInstantiated.unchanged hServed, ?_⟩
  rintro index arguments machine ⟨signature, -, hSteps⟩
  have hEnv : (s.environment index).program = i.program := hProgram
  have hKeeps : Keeps (Machine.Steady i.program i.store) (step (s.environment index)) := by
    rw [← hEnv] at hFirst ⊢
    exact keeps_step hFirst
  have hVisited : machine.Steady i.program i.store := by
    induction hSteps with
    | refl _ => exact steady_opening hServed signature arguments
    | @tail m' m'' _ last _ ih =>
      have hNext := hKeeps m' ih
      rw [last] at hNext
      exact hNext
  exact ⟨hInstantiated.unchanged hVisited, hInstantiated.unchanged (hKeeps machine hVisited)⟩

/-- A module with a constant that its function tries to assign. -/
def constantModule : Module where
  name := "constant"
  types := #[⟨[], []⟩]
  functions := #[0]
  tables := #[{ min := 2, max := none }]
  globals := #[
    { type := { type := .f32, isMutable := false }, init := #[0x43, 0, 0, 128, 63, endByte] }]
  code := #[{ locals := #[.i64], code := #[0x23, 0x00, 0x24, 0x00, endByte], position := 0 }]

def constantInstance : Instance where
  program :=
    { types := #[⟨[], []⟩]
      imported := #[]
      functions := #[
        { index := 0
          typeIndex := 0
          signature := ⟨[], []⟩
          code := #[0x23, 0x00, 0x24, 0x00, endByte]
          position := 0
          locals := #[.i64 0] }]
      start := none
      entry := none }
  store :=
    { globals := #[{ value := .f32 0x3f800000, isMutable := false }]
      memories := #[]
      tables := #[{ slots := #[none, none], limits := { min := 2, max := none } }]
      callCounts := #[0] }

theorem instantiate_constantModule :
    instantiate constantModule {} = .ok constantInstance := by
  have hConstant : constant? #[0x43, 0, 0, 128, 63, endByte] = some (.f32 0x3f800000, 5) := by
    decide +kernel
  have hGlobal : Instantiation.createGlobal
      { type := { type := .f32, isMutable := false }, init := #[0x43, 0, 0, 128, 63, endByte] } =
        .ok { value := .f32 0x3f800000, isMutable := false } := by
    unfold Instantiation.createGlobal evaluateConst
    rw [hConstant]
    rfl
  have hGlobals : constantModule.globals.mapM Instantiation.createGlobal =
      .ok constantInstance.store.globals := by
    simp [constantModule, constantInstance, hGlobal]
  unfold instantiate instantiateRecorded Instantiation.run
  rw [hGlobals]
  with_unfolding_all rfl

/-- After the invocation the global holds its first value. -/
theorem state_keeps_types_constant :
    ((ofInstance constantInstance {} {}).serve [(4, .invoke 0 [])]).2.machine.store.globals[0]? =
      some { value := .f32 0x3f800000, isMutable := false } :=
  (state_keeps_types constantModule {} constantInstance instantiate_constantModule {} {}
    [(4, .invoke 0 [])]).2.1.immutable 0 _ rfl rfl

end Session

end WasmMachine
