import WasmMachine.Proofs.Machine.Failing
import WasmMachine.Proofs.Session.Arguments
import WasmMachine.Proofs.Session.Locations

/-!
# Failing instructions

An instruction changes the store last: a global is assigned, bytes are written and a call is counted
only when all operands have been decoded, taken and checked. So an instruction that fails, wherever
it fails, leaves the globals, the memories, the tables and the counts of calls as they were, and an
invocation that ends in a trap leaves them as its last completed instruction did.

* `LeavesStore`: an operation that fails has changed nothing in the store.
* `leavesStore_exec`: so do all instructions.
* `Session.failure_keeps_store`: what is left of an invocation that ends in a trap.
-/

namespace WasmMachine

open Stack

/-- The store of the machine is the given one. -/
def Machine.HasStore (store : Store) (m : Machine) : Prop := m.store = store

instance (store : Store) : Machine.Parts (Machine.HasStore store) (fun _ => True) (· = store) where
  iff _ := ⟨fun hm => ⟨trivial, hm⟩, fun hm => hm.2⟩

instance : OfActivations (fun _ => True) where
  values _ _ _ := trivial
  label _ _ := trivial

/-- Where the operation fails, the store is as it was. -/
def LeavesStore {α : Type} (x : Exec α) : Prop :=
  ∀ store, KeepsOnError (Machine.HasStore store) x

section

variable {env : Env}

/-! ## Instructions that change the store -/

theorem leavesStore_globalSet (index : UInt32) : LeavesStore (Exec.globalSet index) := by
  intro store
  refine .bind (Keeps.readGlobal index) fun g => .ite (.throw _) ?_
  refine .bind (Keeps.onValues (.popTyped _)) fun v => ?_
  exact .of_succeeds fun m => ⟨_, _, rfl⟩

/-- A memory that an operation leaves as it is where it fails is put back. -/
theorem leavesStore_onMemory {α : Type} {op : MemoryM α}
    (hOp : ∀ memory e memory', op memory = .error e memory' → memory' = memory) :
    LeavesStore (Exec.onMemory op) := by
  intro store m hm e m' hRun
  cases hMemory : m.store.memories[0]? with
  | none =>
    rw [Exec.onMemory, hMemory] at hRun
    cases hRun
    exact hm
  | some memory =>
    cases hResult : op memory with
    | ok a after =>
      rw [Exec.onMemory_of_ok hMemory hResult] at hRun
      cases hRun
    | error e' after =>
      rw [Exec.onMemory_of_error hMemory hResult, hOp _ _ _ hResult,
        Machine.withMemory_self hMemory] at hRun
      cases hRun
      exact hm

theorem leavesStore_store (op : StoreOp) (offset : UInt32) :
    LeavesStore (Exec.store op offset) := by
  intro store
  refine .bind Keeps.requireMemory fun _ => .bind (Keeps.onValues (.popTyped _)) fun v => ?_
  refine .bind (Keeps.onValues (.popAddress offset)) fun address => ?_
  refine leavesStore_onMemory (fun memory e memory' hFailed => ?_) store
  unfold Memory.store Memory.writeBytes at hFailed
  split at hFailed <;> cases hFailed
  rfl

theorem leavesStore_memoryGrow : LeavesStore Exec.memoryGrow := by
  intro store
  refine .bind Keeps.requireMemory fun _ => .bind (Keeps.onValues (.popInt .i32)) fun delta => ?_
  refine .bind_succeeds (leavesStore_onMemory (fun memory e memory' hFailed => ?_) store)
    fun previous m => ⟨_, _, rfl⟩
  unfold Exec.growMemory at hFailed
  split at hFailed <;> cases hFailed

/-! ## All instructions -/

/-- Whatever the code and the operands, an instruction that fails has not changed the store. -/
theorem leavesStore_exec (op : Opcode) : LeavesStore (exec env op) := by
  intro store
  have hUnwind : ∀ position arity, Keeps (fun _ => True) (unwindTo position arity) :=
    fun _ _ _ _ => trivial
  have hStack : ∀ {α : Type} (op : StackM α), Keeps (Machine.HasStore store) (Exec.onStack op) :=
    fun _ => Keeps.onStack fun _ _ => trivial
  cases op with
  | unreachable => exact .throw _
  | nop => exact .of_keeps (Keeps.pure ())
  | block => exact .of_keeps Keeps.block
  | loop => exact .of_keeps Keeps.loop
  | ifThen => exact .of_keeps Keeps.ifThen
  | elseArm => exact .of_keeps (Keeps.branch hUnwind 0)
  | blockEnd => exact .of_keeps (Keeps.blockEnd hUnwind)
  | branch => exact .bind Keeps.readU32 fun _ => .of_keeps (Keeps.branch hUnwind _)
  | branchIf => exact .of_keeps (Keeps.branchIf hUnwind)
  | branchTable => exact .of_keeps (Keeps.branchTable hUnwind)
  | ret => exact .of_keeps (Keeps.doReturn hUnwind)
  | call => exact .call
  | callIndirect => exact .callIndirect
  | drop => exact .of_keeps (hStack _)
  | select => exact .of_keeps (hStack _)
  | localGet => exact .bind Keeps.readU32 fun _ => .of_keeps (hStack _)
  | localSet => exact .bind Keeps.readU32 fun _ => .of_keeps (hStack _)
  | localTee => exact .bind Keeps.readU32 fun _ => .of_keeps (hStack _)
  | globalGet => exact .bind Keeps.readU32 fun index => .of_keeps (Keeps.globalGet index)
  | globalSet => exact .bind Keeps.readU32 fun index => leavesStore_globalSet index store
  | load op => exact .bind Keeps.readMemArg fun offset => .of_keeps (Keeps.load op offset)
  | store op => exact .bind Keeps.readMemArg fun offset => leavesStore_store op offset store
  | memorySize => exact .bind Keeps.readU32 fun _ => .of_keeps Keeps.memorySize
  | memoryGrow => exact .bind Keeps.readU32 fun _ => leavesStore_memoryGrow store
  | const t => exact .of_keeps (Keeps.execConst t)
  | numeric n => exact .of_keeps (hStack _)

theorem store_of_dispatch_eq_error {b : UInt8} {m m' : Machine} {e : Trap}
    (h : dispatch env b m = .error e m') : m'.store = m.store := by
  unfold dispatch at h
  cases hOpcode : Opcode.ofByte? b with
  | some op =>
    rw [hOpcode] at h
    exact leavesStore_exec op m.store m rfl e m' h
  | none =>
    rw [hOpcode] at h
    cases h
    rfl

/-- A step that fails leaves the store, also where the code or the step limit has ended. -/
theorem store_of_step_eq_error {m m' : Machine} {fault : Fault}
    (h : step env m = .error fault m') : m'.store = m.store := by
  unfold step at h
  simp only at h
  split at h
  · cases h
    rfl
  · rename_i opcode _
    split at h
    · cases h
      rfl
    · split at h
      · cases h
      · rename_i hDispatch
        cases h
        exact (store_of_dispatch_eq_error hDispatch).trans rfl

end

/-! ## Sessions -/

namespace Session

/-- Between requests no frame is left on the stack. -/
theorem stack_serve {s : Session} (h : s.machine.stack = ∅) (requests : List (Nat × Request)) :
    (s.serve requests).2.machine.stack = ∅ := by
  have hInvoke : ∀ (s : Session) fuel index arguments, s.machine.stack = ∅ →
      (s.invoke fuel index arguments).2.machine.stack = ∅ := by
    intro s fuel index arguments hEmpty
    unfold invoke
    split
    · exact hEmpty
    · rw [runChecked_eq]
      unfold close
      split <;> rfl
  induction requests generalizing s with
  | nil => exact h
  | cons first rest ih =>
    obtain ⟨fuel, request⟩ := first
    refine ih (s := (s.answer fuel request).2) ?_
    cases request with
    | invoke index arguments => exact hInvoke s fuel index arguments h
    | execute index =>
      change (s.execute fuel index).2.machine.stack = ∅
      unfold execute
      split
      · exact hInvoke s fuel _ [] h
      · exact h

/-- An instruction that fails, in whatever machine and on whatever code, has changed neither a
global nor a memory, a table or a count of calls. So an invocation that ends in a trap leaves the
store that its last completed instruction left; no frame is left on the stack, and the next
invocation starts with this store and with nothing but its arguments. -/
theorem failure_keeps_store (i : Instance) (config : Config) (journal : Journal)
    (requests : List (Nat × Request)) (fuel : Nat) (index : UInt32) (arguments : List Value) :
    let s := ((ofInstance i config journal).serve requests).2
    (∀ env opcode machine trap machine',
      dispatch env opcode machine = .error trap machine' → machine'.store = machine.store) ∧
    s.machine.stack = ∅ ∧
    ∀ f s', s.invoke fuel index arguments = (.failed f, s') →
      (s.checkArguments index arguments = .error f.trap ∧ s' = s ∨
        ∃ machine machine', s.Visits index arguments machine ∧
          step (s.environment index) machine = .error f machine' ∧
          s'.machine.store = machine.store) ∧
      s'.machine.stack = ∅ ∧
      ∀ signature others,
        (s'.opening signature others).store = s'.machine.store ∧
        (s'.opening signature others).frames =
          .activation (driverActivation signature) :: others.map Frame.value := by
  intro s
  have hEmpty : s.machine.stack = ∅ := stack_serve rfl requests
  refine ⟨fun env opcode machine trap machine' => store_of_dispatch_eq_error, hEmpty, ?_⟩
  intro f s' hInvoke
  have hFailed : (s.invoke fuel index arguments).1 = .failed f := congrArg Prod.fst hInvoke
  have hAfter : (s.invoke fuel index arguments).2 = s' := congrArg Prod.snd hInvoke
  refine ⟨?_, ?_, fun signature others => ⟨rfl, frames_opening signature others⟩⟩
  · rcases failed_invoke hFailed with
      ⟨hCheck, -, hSame⟩ | ⟨machine, machine', hVisits, hStep, hLast⟩
    · exact .inl ⟨hCheck, hAfter.symm.trans hSame⟩
    · refine .inr ⟨machine, machine', hVisits, hStep, ?_⟩
      have hStore : machine'.store = machine.store := store_of_step_eq_error hStep
      rw [← hAfter, hLast]
      exact hStore
  · have hServed := stack_serve hEmpty [(fuel, .invoke index arguments)]
    change (s.invoke fuel index arguments).2.machine.stack = ∅ at hServed
    rwa [hAfter] at hServed

/-- The function that traps at once has been called, and this is what its invocation leaves. -/
theorem failure_keeps_store_trap :
    let s := ofInstance trapInstance {} {}
    ∃ machine machine', s.Visits 0 [] machine ∧
      step (s.environment 0) machine = .error ⟨.unreachable, some 23⟩ machine' ∧
      (s.invoke 2 0 []).2.machine.store = machine.store := by
  intro s
  obtain ⟨-, -, -, -, -, hInvoke⟩ := steps_trapInstance
  have hFailure := (failure_keeps_store trapInstance {} {} [] 2 0 []).2.2 _ _
    (Prod.ext hInvoke rfl : s.invoke 2 0 [] = (.failed ⟨.unreachable, some 23⟩, _))
  refine hFailure.1.resolve_left fun hArguments => ?_
  have hCheck : s.checkArguments 0 [] = .ok ⟨[], []⟩ := rfl
  exact nomatch hCheck.symm.trans hArguments.1

end Session

end WasmMachine
