import WasmMachine.Proofs.Binary.Layout
import WasmMachine.Proofs.Machine.Callers
import WasmMachine.Proofs.Machine.Isolation
import WasmMachine.Proofs.Typing.Instances

/-!
# Where faults are reported

The fault of an invocation carries the offset, in the bytes of the module, of the opcode whose
dispatch failed. The loader has remembered where each body stands, the place of the opcode is noted
before the instruction can move on into another body, and places stay inside the bodies. Which body
that is depends on the functions that are active: it is the one of the topmost activation, so a
fault after a call belongs to the callee, and one after a return to the caller.

* `Machine.Refuses`: why a step that has fetched an opcode fails.
* `Machine.Blames`: a fault names a byte of a module.
* `Session.fault_names_opcode`: the faults of all invocations do.
-/

namespace WasmMachine

/-! ## Failing steps -/

/-- A fetched opcode leads to a trap: it is beyond the limit on steps, or its dispatch fails. -/
def Machine.Refuses (env : Env) (m : Machine) (opcode : UInt8) (e : Trap) (m' : Machine) : Prop :=
  match exceededLimit? env (m.steps + 1) with
  | some limit => e = .stepLimitExceeded limit
  | none => dispatch env opcode { m with steps := m.steps + 1 }.advance = .error e m'

/-- A step fails where it finds no opcode, or with the trap of the opcode that it has fetched. The
offset is that of the place before the step. -/
theorem step_eq_error {env : Env} {m m' : Machine} {f : Fault} (h : step env m = .error f m') :
    f.offset = some (env.program.modulePosition m.pc) ∧
      match fetch? env m with
      | none => f.trap = .illFormedStructure m.pc.offset
      | some opcode => m.Refuses env opcode f.trap m' := by
  unfold step at h
  cases hFetch : fetch? env m with
  | none =>
    rw [hFetch] at h
    cases h
    exact ⟨rfl, rfl⟩
  | some opcode =>
    simp only [hFetch] at h
    unfold Machine.Refuses
    simp only
    cases hLimit : exceededLimit? env (m.steps + 1) with
    | some limit =>
      simp only [hLimit] at h
      cases h
      exact ⟨rfl, rfl⟩
    | none =>
      simp only [hLimit] at h
      split at h
      · cases h
      · rename_i hDispatch
        cases h
        exact ⟨rfl, hDispatch⟩

/-- A run that fails has come to a step that fails, and ends in the machine which that step
leaves. -/
theorem exists_failing_step {env : Env} {start m : Machine} {fuel : Nat} {j : Journal} {f : Fault}
    (hSteps : Machine.StepsThrough env (fun m => m.halted = false) start m)
    (hRunning : m.halted = false) (h : (run env fuel m j).outcome = .failed f) :
    ∃ last, Machine.StepsThrough env (fun m => m.halted = false) start last ∧
      step env last = .error f (run env fuel m j).machine := by
  induction fuel generalizing m j with
  | zero =>
    rw [run, hRunning] at h
    cases h
  | succ fuel ih =>
    rw [run_step hRunning] at h
    cases hStep : step env m with
    | error f' m' =>
      rw [hStep] at h
      rw [run_step hRunning, hStep]
      cases h
      exact ⟨m, hSteps, hStep⟩
    | ok u m' =>
      rw [hStep] at h
      rw [run_step hRunning, hStep]
      cases hHalted : m'.halted with
      | true =>
        simp only [run_halted hHalted] at h
        cases h
      | false => exact ih (hSteps.tail hStep hHalted) hHalted h

/-! ## Bodies in the bytes of a module -/

/-- A fault names a byte of a module: that of the opcode of the body of function `k` at which the
machine was, or the end of the body. -/
structure Machine.Blames (bytes : Bytes) (m : Module) (env : Env) (machine : Machine) (k : Nat)
    (body : FunctionBody) (f : Fault) (machine' : Machine) : Prop where
  declared : m.code[k]? = some body
  offset : f.offset = some (body.position + machine.pc.offset)
  cause : (machine.pc.offset < body.code.size ∧
      ∃ opcode, bytes[body.position + machine.pc.offset]? = some opcode ∧
        fetch? env machine = some opcode ∧ machine.Refuses env opcode f.trap machine') ∨
    machine.pc.offset = body.code.size ∧ f.trap = .illFormedStructure machine.pc.offset

/-- The bytes of a loaded module at the place of a body are its code. -/
theorem getElem?_body {name : String} {bytes : Bytes} {m : Module}
    (h : Module.load name bytes = .ok m) {k : Nat} {body : FunctionBody}
    (hBody : m.code[k]? = some body) {offset : Nat} (hOffset : offset < body.code.size) :
    bytes[body.position + offset]? = body.code[offset]? := by
  obtain ⟨-, sections, hLayout⟩ := exists_layout_of_load h
  obtain ⟨s, -, hHolds, -⟩ := hLayout.exists_holds (Array.mem_of_getElem? hBody)
  have hSize := congrArg Array.size hHolds.code
  rw [Array.size_extract] at hSize
  have hByte : (bytes.extract body.position (body.position + body.code.size))[offset]? =
      bytes[body.position + offset]? := by
    rw [Array.getElem?_extract, if_pos (by omega)]
  rw [← hByte, hHolds.code]

/-- The functions of an instance have the code and the position of the bodies of its module. -/
theorem Instantiated.exists_body {m : Module} {config : Config} {i : Instance}
    (h : Instantiated m config i) {k : Nat} {f : Function}
    (hf : i.program.functions[k]? = some f) :
    ∃ body, m.code[k]? = some body ∧ f.code = body.code ∧ f.position = body.position := by
  obtain ⟨typeIndex, body, -, hBody, hCreate⟩ := exists_createFunction h.functions hf
  obtain ⟨signature, -, hPure⟩ := exists_of_bind_eq_ok hCreate
  cases hPure
  exact ⟨body, hBody, rfl, rfl⟩

/-- A step that fails in a body of a loaded module blames a byte of it. -/
theorem blames_of_step {name : String} {bytes : Bytes} {m : Module} {config : Config}
    {i : Instance} (hLoad : Module.load name bytes = .ok m)
    (hInstance : Instantiated m config i) {env : Env} (hProgram : env.program = i.program)
    {machine machine' : Machine} {k : Nat} {function : Function} {f : Fault}
    (hCode : machine.pc.code = .function k)
    (hFunction : i.program.functions[k]? = some function)
    (hBoundary : Boundary (env.code machine.pc.code) machine.pc.offset)
    (h : step env machine = .error f machine') :
    ∃ body, machine.Blames bytes m env k body f machine' := by
  obtain ⟨body, hBody, hSame, hPosition⟩ := hInstance.exists_body hFunction
  obtain ⟨hOffset, hCause⟩ := step_eq_error h
  have hEnv : env.code machine.pc.code = body.code := by
    rw [hCode, Env.code, Program.codeOf, hProgram, hFunction, ← hSame]
  have hPlace : env.program.modulePosition machine.pc = body.position + machine.pc.offset := by
    rw [Program.modulePosition, hCode, hProgram]
    simp only [hFunction, hPosition]
  rw [hEnv] at hBoundary
  refine ⟨body, hBody, by rw [hOffset, hPlace], ?_⟩
  have hLe := hBoundary.le_size
  rw [fetch?, hEnv] at hCause
  by_cases hEnd : machine.pc.offset = body.code.size
  · rw [Array.getElem?_eq_none (by omega)] at hCause
    exact .inr ⟨hEnd, hCause⟩
  · have hInside : machine.pc.offset < body.code.size := by omega
    have hByte : body.code[machine.pc.offset]? = some body.code[machine.pc.offset] :=
      Array.getElem?_eq_getElem hInside
    rw [hByte] at hCause
    refine .inl ⟨hInside, _, (getElem?_body hLoad hBody hInside).trans hByte, ?_, hCause⟩
    rw [fetch?, hEnv, hByte]

/-! ## Invocations -/

namespace Session

/-- An invocation fails for its arguments and changes nothing, or at a step that fails, and the
session keeps the machine which that step leaves, without its stack. -/
theorem failed_invoke {s : Session} {fuel : Nat} {index : UInt32} {arguments : List Value}
    {f : Fault} (h : (s.invoke fuel index arguments).1 = .failed f) :
    s.checkArguments index arguments = .error f.trap ∧ f.offset = none ∧
        (s.invoke fuel index arguments).2 = s ∨
      ∃ machine machine', s.Visits index arguments machine ∧
        step (s.environment index) machine = .error f machine' ∧
        (s.invoke fuel index arguments).2.machine = { machine' with stack := ∅ } := by
  unfold invoke at h ⊢
  cases hCheck : s.checkArguments index arguments with
  | error e =>
    rw [hCheck] at h
    cases h
    exact .inl ⟨rfl, rfl, rfl⟩
  | ok signature =>
    rw [hCheck] at h
    simp only [runChecked_eq] at h ⊢
    unfold close at h ⊢
    cases hOutcome : (s.result fuel index signature arguments).outcome with
    | failed f' =>
      simp only [hOutcome] at h ⊢
      cases h
      obtain ⟨last, hSteps, hError⟩ := exists_failing_step (.refl rfl) rfl hOutcome
      exact .inr ⟨last, _, ⟨signature, hCheck, hSteps⟩, hError, rfl⟩
    | halted =>
      simp only [hOutcome] at h
      cases h
    | outOfFuel =>
      simp only [hOutcome] at h
      cases h

/-- An invocation fails for its arguments, or at a step that fails. -/
theorem exists_failing_step_of_invoke {s : Session} {fuel : Nat} {index : UInt32}
    {arguments : List Value} {f : Fault} (h : (s.invoke fuel index arguments).1 = .failed f) :
    s.checkArguments index arguments = .error f.trap ∧ f.offset = none ∨
      ∃ machine machine', s.Visits index arguments machine ∧
        step (s.environment index) machine = .error f machine' := by
  rcases failed_invoke h with ⟨hCheck, hOffset, -⟩ | ⟨machine, machine', hVisits, hStep, -⟩
  · exact .inl ⟨hCheck, hOffset⟩
  · exact .inr ⟨machine, machine', hVisits, hStep⟩

/-- For every module that is loaded and instantiated, whatever earlier requests have done: an
invocation fails for its arguments, without an offset, or at a step. In every state that it reaches,
the code is that of the topmost activation; and a step that fails in the body of a function is
reported at the byte of the module that holds the opcode, or at the end of the body. -/
theorem fault_names_opcode (name : String) (bytes : Bytes) (m : Module) (config : Config)
    (i : Instance) (hLoad : Module.load name bytes = .ok m)
    (hInstance : instantiate m config = .ok i) (settings : Config) (journal : Journal)
    (requests : List (Nat × Request)) (index : UInt32) (arguments : List Value) :
    let s := ((ofInstance i settings journal).serve requests).2
    let env := s.environment index
    (∀ fuel f, (s.invoke fuel index arguments).1 = .failed f →
      s.checkArguments index arguments = .error f.trap ∧ f.offset = none ∨
        ∃ machine machine', s.Visits index arguments machine ∧
          step env machine = .error f machine') ∧
    ∀ machine, s.Visits index arguments machine →
      (∃ a, machine.stack.activation? = some a ∧ i.program.Runs a machine.pc.code) ∧
      ∀ f machine', step env machine = .error f machine' →
        match machine.pc.code with
        | .driver => f.offset = some machine.pc.offset
        | .function k => ∃ body, machine.Blames bytes m env k body f machine' := by
  intro s env
  refine ⟨fun fuel f => exists_failing_step_of_invoke, ?_⟩
  rintro machine ⟨signature, -, hSteps⟩
  have hProgram : env.program = i.program :=
    ((ofInstance i settings journal).serve_program requests).1
  have hConsistent := (consistent_ofInstance i settings journal).serve requests
  obtain ⟨t, steps, hRuns, hPlaced, hCalled⟩ := hSteps.thread CalledFrom.step
    (hConsistent.opening_runs index signature arguments) (Thread.start_wellPlaced _ _ _ _)
    (show CalledFrom env.program .driver [_] from ⟨rfl, rfl⟩)
  have hActive : i.program.Runs t.activity.activation machine.pc.code := by
    rw [hRuns.pc, ← hProgram]
    exact hCalled.runs
  refine ⟨⟨_, hRuns.activation_eq, hActive⟩, ?_⟩
  intro f machine' hStep
  have hBoundary : Boundary (env.code machine.pc.code) machine.pc.offset := by
    rw [hRuns.pc]
    exact hPlaced.boundary
  split
  · rename_i hCode
    rw [(step_eq_error hStep).1, Program.modulePosition, hCode]
  · rename_i k hCode
    obtain ⟨function, hFunction⟩ : ∃ function, i.program.functions[k]? = some function := by
      unfold Program.Runs at hActive
      split at hActive
      · rw [hCode] at hActive
        cases hActive
      · obtain ⟨place, function, hCallee, hPlace⟩ := hActive
        rw [hCode] at hPlace
        cases hPlace
        exact ⟨function, Program.functions_of_callee hCallee⟩
    exact blames_of_step hLoad (instantiated_of_eq_ok hInstance) hProgram hCode hFunction
      hBoundary hStep

/-- A module of one function, which traps at once. -/
def trapBytes : Bytes := #[
  0x00, 0x61, 0x73, 0x6d, 0x01, 0x00, 0x00, 0x00,
  0x01, 0x04, 0x01, 0x60, 0x00, 0x00,
  0x03, 0x02, 0x01, 0x00,
  0x0a, 0x05, 0x01, 0x03, 0x00, 0x00, 0x0b]

def trapModule : Module where
  name := "trap"
  types := #[⟨[], []⟩]
  functions := #[0]
  code := #[⟨#[], #[0x00, endByte], 23⟩]

def trapInstance : Instance where
  program :=
    { types := #[⟨[], []⟩]
      imported := #[]
      functions := #[{
        index := 0
        typeIndex := 0
        signature := ⟨[], []⟩
        code := #[0x00, endByte]
        position := 23
        locals := #[] }]
      start := none
      entry := none }
  store := { globals := #[], memories := #[], tables := #[], callCounts := #[0] }

/-- The first step of the invocation enters the function, and the second one fails in it. -/
theorem steps_trapInstance :
    let s := ofInstance trapInstance {} {}
    ∃ machine machine', s.Visits 0 [] machine ∧ machine.pc = ⟨.function 0, 0⟩ ∧
      step (s.environment 0) machine = .error ⟨.unreachable, some 23⟩ machine' ∧
      (s.invoke 2 0 []).1 = .failed ⟨.unreachable, some 23⟩ := by
  intro s
  have hRuns := (consistent_ofInstance trapInstance {} {}).opening_runs 0 ⟨[], []⟩ []
  have hPlaced := Thread.start_wellPlaced (s.environment 0) ⟨[], []⟩ [] s.machine.store
  obtain ⟨t, hCall, hPlace, hTrap⟩ : ∃ t,
      (Thread.start ⟨[], []⟩ [] s.machine.store).tick (s.environment 0) 0 =
        (.ok (.running t), 1) ∧
      t.pc = ⟨.function 0, 0⟩ ∧
      t.tick (s.environment 0) 1 = (.error ⟨.unreachable, some 23⟩, 2) := by
    rw [environment_zero rfl]
    exact ⟨_, rfl, rfl, rfl⟩
  have hFirst := step_follows hRuns hPlaced
  change Arrives _ _ ((Thread.start _ _ _).tick (s.environment 0) 0) _ at hFirst
  rw [hCall] at hFirst
  obtain ⟨machine, hEnter, hRuns'⟩ := hFirst
  have hSecond := step_follows hRuns' (hPlaced.step (Thread.tick_running hCall))
  rw [hTrap] at hSecond
  obtain ⟨machine', hError, -⟩ := hSecond
  have hCheck : s.checkArguments 0 [] = .ok ⟨[], []⟩ := rfl
  refine ⟨machine, machine', ⟨_, hCheck, .tail (.refl rfl) hEnter hRuns'.halted⟩,
    hRuns'.pc.trans hPlace, hError, ?_⟩
  have hFailed : (s.result 2 0 ⟨[], []⟩ []).outcome = .failed ⟨.unreachable, some 23⟩ := by
    rw [result, run_step hRuns.halted, hEnter]
    simp only
    rw [run_step hRuns'.halted, hError]
  unfold invoke
  rw [hCheck]
  simp only [runChecked_eq, close, hFailed]

/-- The fault of the trapping module is at byte 23, which holds the opcode. -/
theorem fault_names_opcode_trap :
    let s := ofInstance trapInstance {} {}
    Module.load "trap" trapBytes = .ok trapModule ∧
      instantiate trapModule {} = .ok trapInstance ∧
      (s.invoke 2 0 []).1 = .failed ⟨.unreachable, some 23⟩ ∧
      (∃ machine machine', s.Visits 0 [] machine ∧
        step (s.environment 0) machine = .error ⟨.unreachable, some 23⟩ machine') ∧
      ∃ (machine machine' : Machine) (body : FunctionBody),
        machine.Blames trapBytes trapModule (s.environment 0) 0 body ⟨.unreachable, some 23⟩
          machine' := by
  intro s
  have hLoad : Module.load "trap" trapBytes = .ok trapModule := by decide +kernel
  have hInstance : instantiate trapModule {} = .ok trapInstance := by with_unfolding_all rfl
  obtain ⟨machine, machine', hVisits, hPc, hStep, hInvoke⟩ := steps_trapInstance
  have hFaults := fault_names_opcode "trap" trapBytes trapModule {} trapInstance hLoad hInstance
    {} {} [] 0 []
  have hBlames := (hFaults.2 machine hVisits).2 _ machine' hStep
  rw [hPc] at hBlames
  obtain ⟨body, hBody⟩ := hBlames
  refine ⟨hLoad, hInstance, hInvoke, ?_, machine, machine', body, hBody⟩
  exact (hFaults.1 2 _ hInvoke).resolve_left fun hArguments => nomatch hArguments.2

end Session

end WasmMachine
