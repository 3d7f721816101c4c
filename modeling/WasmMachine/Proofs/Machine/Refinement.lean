import WasmMachine.Proofs.Machine.OperandLaws
import WasmMachine.Proofs.Machine.Operands
import WasmMachine.Proofs.Machine.Thread

/-!
# The machine refines its thread

A machine whose memo tables agree with the code does in one step what its thread does in one step:
it goes on, halts or traps together with the thread, and its tables still agree with the code. This
holds with the tables switched on or off, and for arbitrary code.

* `Machine.Runs`: the machine is at an instruction of a thread.
* `step_follows`: a step of the machine follows a step of its thread.
-/

namespace WasmMachine

open Exec Stack

/-! ## What a machine has in common with a thread -/

/-- The store and the number of dispatched instructions of a machine, whose memo tables agree with
the code. -/
structure Machine.Holds (env : Env) (m : Machine) (store : Store) (steps : Nat) : Prop where
  store : m.store = store
  steps : m.steps = steps
  immediates : m.immediates.Agrees env
  targets : m.targets.Agrees env

/-- The machine is in the middle of a thread. -/
structure Machine.Runs (env : Env) (m : Machine) (t : Thread) (steps : Nat) : Prop extends
    Machine.Holds env m t.store steps where
  stack : m.stack = ofActivities (t.activity :: t.callers)
  pc : m.pc = t.pc
  halted : m.halted = false

/-- The machine has halted with these values, topmost first. -/
structure Machine.Rests (env : Env) (m : Machine) (values : List Value) (store : Store)
    (steps : Nat) : Prop extends Machine.Holds env m store steps where
  stack : m.stack = ofFrames (values.map .value)
  halted : m.halted = true

/-- The machine does what a thread with the same store does. A trap leaves the store as it was. -/
def Follows (env : Env) (x : Exec Unit) (r : Except Trap Next) (m : Machine) : Prop :=
  match r with
  | .ok (.running t) => ∃ m', x m = .ok () m' ∧ m'.Runs env t m.steps
  | .ok (.halted values store) => ∃ m', x m = .ok () m' ∧ m'.Rests env values store m.steps
  | .error e => ∃ m', x m = .error e m' ∧ m'.Holds env m.store m.steps

namespace Machine.Runs

variable {env : Env} {m : Machine} {t : Thread} {steps : Nat}

/-- The machine with another stack. -/
theorem withActivities (h : m.Runs env t steps) (A : Activity) (callers : List Activity) :
    Machine.Runs env { m with stack := ofActivities (A :: callers) }
      { t with activity := A, callers := callers } steps :=
  ⟨⟨h.store, h.steps, h.immediates, h.targets⟩, rfl, h.pc, h.halted⟩

/-- The machine at another place. -/
theorem withPc (h : m.Runs env t steps) (pc : CodePoint) :
    Machine.Runs env { m with pc := pc } { t with pc := pc } steps :=
  ⟨⟨h.store, h.steps, h.immediates, h.targets⟩, h.stack, rfl, h.halted⟩

theorem jump (h : m.Runs env t steps) (offset : Nat) :
    Machine.Runs env (m.withOffset offset) (t.jump offset) steps := by
  have hPlace := h.withPc { t.pc with offset }
  rw [← h.pc] at hPlace
  have hSame : t.jump offset = { t with pc := { m.pc with offset } } := by
    rw [h.pc]
    rfl
  rw [hSame]
  exact hPlace

/-- The machine with another table of block delimiters. -/
theorem withTargets (h : m.Runs env t steps) {c : TargetCache} (hAgrees : c.Agrees env) :
    Machine.Runs env { m with targets := c } t steps :=
  ⟨⟨h.store, h.steps, h.immediates, hAgrees⟩, h.stack, h.pc, h.halted⟩

/-- The machine with one more instruction counted. -/
theorem counted (h : m.Runs env t steps) :
    Machine.Runs env { m with steps := m.steps + 1 } t (m.steps + 1) :=
  ⟨⟨h.store, rfl, h.immediates, h.targets⟩, h.stack, h.pc, h.halted⟩

/-- A trap that leaves all but the stack in place. -/
theorem holds (h : m.Runs env t steps) (s : Stack) :
    Machine.Holds env { m with stack := s } m.store m.steps :=
  ⟨rfl, rfl, h.immediates, h.targets⟩

end Machine.Runs

/-! ## Sequences -/

namespace Follows

variable {α : Type} {env : Env} {m : Machine} {t : Thread}

/-- A first part that gives a machine with the same store. -/
theorem bind {x : Exec α} {f : α → Exec Unit} {r : Except Trap Next} {a : α} {m' : Machine}
    (hx : x m = .ok a m') (hSteps : m'.steps = m.steps) (hStore : m'.store = m.store)
    (hf : Follows env (f a) r m') : Follows env (x >>= f) r m := by
  have hEq : (x >>= f) m = f a m' := by
    change EStateM.bind x f m = _
    simp only [EStateM.bind, hx]
  unfold Follows at hf ⊢
  rw [hEq, ← hSteps, ← hStore]
  exact hf

/-- A first part that traps. -/
theorem trap {x : Exec α} {f : α → Exec Unit} {e : Trap} {m' : Machine} (hx : x m = .error e m')
    (hHolds : m'.Holds env m.store m.steps) : Follows env (x >>= f) (.error e) m := by
  refine ⟨m', ?_, hHolds⟩
  change EStateM.bind x f m = _
  simp only [EStateM.bind, hx]

theorem throw (hRuns : m.Runs env t m.steps) (e : Trap) :
    Follows env (MonadExcept.throw e) (.error e) m :=
  ⟨m, rfl, rfl, rfl, hRuns.immediates, hRuns.targets⟩

/-- A first part that changes nothing. -/
theorem pass {x : Exec α} {f : α → Exec Unit} {r : Except Trap Next} {a : α}
    (hx : x m = .ok a m) (hf : Follows env (f a) r m) : Follows env (x >>= f) r m :=
  bind hx rfl rfl hf

/-- A first part that works on the operands. -/
theorem operands {op : StackM α} {f : α → Exec Unit} {r : Except Trap Next}
    (hRuns : m.Runs env t m.steps) (hOp : ValuesOnly op)
    (hTrap : ∀ e, onOperands op t.activity.operands = .error e → r = .error e)
    (hf : ∀ a left, onOperands op t.activity.operands = .ok (a, left) →
      ∀ m' : Machine, m'.Runs env (t.withOperands left) m'.steps → m'.opOffset = m.opOffset →
        Follows env (f a) r m') :
    Follows env (onStack op >>= f) r m := by
  have hLift := Lifts.onStack hOp m t.activity t.callers hRuns.stack
  unfold RegionM.operands at hLift
  rw [Activity.currentRegion] at hLift
  cases hRun : onOperands op t.activity.operands with
  | error e =>
    rw [hRun] at hLift
    obtain ⟨s, hs⟩ := hLift
    rw [hTrap e hRun]
    exact trap hs (hRuns.holds s)
  | ok p =>
    obtain ⟨a, left⟩ := p
    rw [hRun] at hLift
    refine bind hLift rfl rfl (hf a left hRun _ ?_ rfl)
    exact hRuns.withActivities _ _

end Follows

/-! ## Control -/

section Control

variable {env : Env} {m : Machine} {t : Thread}

theorem doReturn_follows (hRuns : m.Runs env t m.steps)
    (hStacked : Stacked env t.pc.code (t.activity :: t.callers)) :
    Follows env doReturn t.leave m := by
  have hUnwind := unwindTo_activation t.activity t.callers t.activity.activation.resultArity
  unfold Thread.leave
  cases hCarried : carried? t.activity.activation.resultArity t.activity.operands with
  | none =>
    rw [hCarried] at hUnwind
    refine ⟨_, ?_, hRuns.holds (ofActivities (t.activity :: t.callers))⟩
    simp only [doReturn, onStack, hRuns.stack, activationPosition?_ofActivities,
      activation?_ofActivities, hUnwind]
  | some top =>
    rw [hCarried] at hUnwind
    have hReturn := hStacked.2
    have hRun : doReturn m = .ok () (t.activity.activation.returnTo.elim
        { m with
          stack := ofFrames (top.map .value ++ t.callers.flatMap Activity.frames)
          halted := true }
        fun place => { m with
          stack := ofFrames (top.map .value ++ t.callers.flatMap Activity.frames)
          pc := place }) := by
      simp only [doReturn, onStack, hRuns.stack, activationPosition?_ofActivities,
        activation?_ofActivities, hUnwind]
      obtain ⟨function, locals, returnTo, signature⟩ := t.activity.activation
      cases returnTo <;> rfl
    cases hPlace : t.activity.activation.returnTo with
    | none =>
      rw [hPlace] at hReturn hRun
      refine ⟨_, hRun, ⟨hRuns.store, rfl, hRuns.immediates, hRuns.targets⟩, ?_, rfl⟩
      simp only [hReturn, List.flatMap_nil, List.append_nil, Option.elim_none]
    | some place =>
      rw [hPlace] at hReturn hRun
      cases hCallers : t.callers with
      | nil =>
        rw [hCallers] at hReturn
        exact hReturn.2.elim
      | cons caller rest =>
        refine ⟨_, hRun, ⟨hRuns.store, rfl, hRuns.immediates, hRuns.targets⟩, ?_, rfl,
          hRuns.halted⟩
        simp only [hCallers]
        exact ofFrames_values top caller rest

/-- The label of an open block, and its position. -/
theorem findLabel_eq (hRuns : m.Runs env t m.steps) {inner outside : List OpenBlock}
    {b : OpenBlock} (hBlocks : t.activity.blocks = inner ++ b :: outside) :
    findLabel inner.length m =
      .ok (blockPosition b outside t.activity.activation t.callers, b.label) m := by
  have hActivity : t.activity = ⟨t.activity.operands, inner ++ b :: outside,
      t.activity.activation⟩ := by
    rw [← hBlocks]
  have hStack := hRuns.stack
  rw [hActivity] at hStack
  simp only [findLabel, hStack, labelPosition?_ofActivities, label?_ofActivities]

/-- Leaving open blocks. -/
theorem unwind_block_follows (hRuns : m.Runs env t m.steps) {inner outside : List OpenBlock}
    {b : OpenBlock} (hBlocks : t.activity.blocks = inner ++ b :: outside)
    (arity : List ValueType) {f : Exec Unit} {g : Thread → Except Trap Next}
    (hf : ∀ top, ∀ m' : Machine, m'.Runs env (t.leaveBlock b outside top) m'.steps →
      Follows env f (g (t.leaveBlock b outside top)) m') :
    Follows env
      (onStack (unwindTo (blockPosition b outside t.activity.activation t.callers) arity) >>=
        fun _ => f)
      (match carried? arity t.activity.operands with
        | none => .error (.arityMismatch arity (foundTypes arity t.activity.operands))
        | some top => g (t.leaveBlock b outside top)) m := by
  have hUnwind := unwindTo_block t.activity.operands inner b outside t.activity.activation
    t.callers arity
  have hStack := hRuns.stack
  have hActivity : t.activity = ⟨t.activity.operands, inner ++ b :: outside,
      t.activity.activation⟩ := by
    rw [← hBlocks]
  rw [hActivity] at hStack
  rw [← hStack] at hUnwind
  cases hCarried : carried? arity t.activity.operands with
  | none =>
    rw [hCarried] at hUnwind
    refine Follows.trap ?_ (hRuns.holds m.stack)
    simp only [onStack, hUnwind]
  | some top =>
    rw [hCarried] at hUnwind
    have hRun : onStack (unwindTo (blockPosition b outside t.activity.activation t.callers) arity)
        m = .ok (.label b.label) { m with
          stack := ofActivities (⟨top ++ b.outer, outside, t.activity.activation⟩ :: t.callers) }
        := by
      simp only [onStack, hUnwind]
    exact Follows.bind hRun rfl rfl (hf top _ (hRuns.withActivities _ _))

theorem branch_follows (hRuns : m.Runs env t m.steps)
    (hStacked : Stacked env t.pc.code (t.activity :: t.callers)) (depth : Nat) :
    Follows env (branch depth) (t.branch depth) m := by
  unfold branch Thread.branch
  refine Follows.pass (a := m) rfl ?_
  simp only [hRuns.stack, labelsAboveActivation_ofActivities]
  rcases Nat.lt_trichotomy depth t.activity.blocks.length with hLt | hEq | hGt
  · rw [if_neg (by omega), if_neg (by omega)]
    obtain ⟨b, outside, hDrop⟩ := List.exists_cons_of_length_pos
      (l := t.activity.blocks.drop depth) (by rw [List.length_drop]; omega)
    have hBlocks : t.activity.blocks = t.activity.blocks.take depth ++ b :: outside := by
      rw [← hDrop, List.take_append_drop]
    have hLength : (t.activity.blocks.take depth).length = depth := by
      rw [List.length_take]
      omega
    have hFind := findLabel_eq hRuns hBlocks
    rw [hLength] at hFind
    rw [hDrop]
    refine Follows.pass hFind ?_
    refine unwind_block_follows hRuns hBlocks b.label.branchArity
      (g := fun t => .ok (.running (t.jump b.label.continuation))) ?_
    intro top m' hRuns'
    exact ⟨_, rfl, hRuns'.jump _⟩
  · rw [if_pos hEq, List.drop_of_length_le (by omega)]
    simp only [hEq, if_true]
    exact doReturn_follows hRuns hStacked
  · rw [if_neg (by omega), if_pos hGt, List.drop_of_length_le (by omega)]
    simp only [if_neg (show ¬ depth = t.activity.blocks.length by omega)]
    exact Follows.throw hRuns _

theorem blockEnd_follows (hRuns : m.Runs env t m.steps)
    (hStacked : Stacked env t.pc.code (t.activity :: t.callers)) :
    Follows env blockEnd t.closeBlock m := by
  unfold blockEnd Thread.closeBlock
  refine Follows.pass (a := m) rfl ?_
  simp only [hRuns.stack, labelsAboveActivation_ofActivities]
  cases hBlocks : t.activity.blocks with
  | nil => exact doReturn_follows hRuns hStacked
  | cons b outside =>
    have hSplit : t.activity.blocks = [] ++ b :: outside := hBlocks
    rw [if_neg (by simp)]
    refine Follows.pass (findLabel_eq hRuns hSplit) ?_
    refine unwind_block_follows hRuns hSplit b.label.resultArity
      (g := fun t => .ok (.running t)) ?_
    intro top m' hRuns'
    exact ⟨m', rfl, hRuns'⟩

/-- The delimiters of the block at hand, whether they are remembered or not. -/
theorem blockTargets_follows (hRuns : m.Runs env t m.steps) (hBody : m.pc.offset = m.opOffset + 2)
    {f : BlockTargets → Exec Unit} {r : Except Trap Next}
    (hTrap : ∀ e, resolve (env.code t.pc.code) t.pc.offset = .error e → r = .error e)
    (hf : ∀ targets, resolve (env.code t.pc.code) t.pc.offset = .ok targets →
      ∀ m' : Machine, m'.Runs env t m'.steps → Follows env (f targets) r m') :
    Follows env (blockTargets env >>= f) r m := by
  rw [← hRuns.pc] at hTrap hf
  cases hFind : (if env.memo then m.targets.find? ⟨m.pc.code, m.opOffset⟩ else none) with
  | some targets =>
    have hMemo : m.targets.find? ⟨m.pc.code, m.opOffset⟩ = some targets := by
      split at hFind
      · exact hFind
      · cases hFind
    have hBlock : blockTargets env m = .ok targets m := by
      simp only [blockTargets, hFind]
    have hResolve := hRuns.targets _ targets hMemo
    change resolve (env.code m.pc.code) (m.opOffset + 2) = _ at hResolve
    rw [← hBody] at hResolve
    exact Follows.pass hBlock (hf targets hResolve m hRuns)
  | none =>
    cases hResolve : resolve (env.code m.pc.code) m.pc.offset with
    | error e =>
      have hBlock : blockTargets env m = .error e m := by
        simp only [blockTargets, hFind, hResolve]
      rw [hTrap e hResolve]
      exact Follows.trap hBlock (hRuns.holds m.stack)
    | ok targets =>
      have hBlock : blockTargets env m = .ok targets { m with
          targets := if env.memo then m.targets.insert ⟨m.pc.code, m.opOffset⟩ targets
            else m.targets } := by
        simp only [blockTargets, hFind, hResolve]
      refine Follows.bind hBlock rfl rfl (hf targets hResolve _ (hRuns.withTargets ?_))
      split
      · refine hRuns.targets.insert ?_
        change resolve (env.code m.pc.code) (m.opOffset + 2) = _
        rw [← hBody, hResolve]
      · exact hRuns.targets

theorem pushLabel_runs (hRuns : m.Runs env t m.steps) (label : LabelFrame) :
    ∃ m', pushFrame (.label label) m = .ok () m' ∧ m'.Runs env (t.enterBlock label) m'.steps ∧
      m'.steps = m.steps ∧ m'.store = m.store := by
  refine ⟨_, rfl, ?_, rfl, rfl⟩
  refine ⟨⟨hRuns.store, rfl, hRuns.immediates, hRuns.targets⟩, ?_, hRuns.pc, hRuns.halted⟩
  change m.stack.push (.label label) = _
  rw [hRuns.stack]
  rfl

theorem pushLabel_follows (hRuns : m.Runs env t m.steps) (label : LabelFrame) :
    Follows env (pushFrame (.label label)) (.ok (.running (t.enterBlock label))) m := by
  obtain ⟨m', hPush, hRuns', hSteps, -⟩ := pushLabel_runs hRuns label
  exact ⟨m', hPush, hSteps ▸ hRuns'⟩

theorem openArm_follows (hRuns : m.Runs env t m.steps) (hBody : m.pc.offset = m.opOffset + 2)
    (blockType : BlockType) (place : Nat) :
    Follows env (openArm env blockType) (Thread.exec env place (.ifThen blockType) t) m := by
  refine Follows.operands hRuns (.popInt .i32) ?_ ?_
  · intro e hRun
    simp only [Thread.exec, hRun]
  intro condition left hRun m' hRuns' hPlace
  have hPc : m'.pc.offset = m'.opOffset + 2 := by
    rw [hRuns'.pc, hPlace, ← hBody, hRuns.pc]
    rfl
  simp only [Thread.exec, hRun]
  refine blockTargets_follows hRuns' hPc ?_ ?_
  · intro e hResolve
    change resolve (env.code t.pc.code) t.pc.offset = _ at hResolve
    simp only [hResolve]
  · intro targets hResolve m'' hRuns''
    change resolve (env.code t.pc.code) t.pc.offset = _ at hResolve
    simp only [hResolve]
    obtain ⟨m₃, hPush, hRuns₃, hSteps, hStore⟩ :=
      pushLabel_runs hRuns'' ⟨.ifThen, blockType, targets.endPos + 1⟩
    refine Follows.bind hPush hSteps hStore ?_
    unfold selectArm Thread.armOffset
    by_cases hZero : condition = 0
    · rw [if_pos hZero, if_pos hZero]
      cases targets.elsePos with
      | some elsePos => exact ⟨_, rfl, hRuns₃.jump _⟩
      | none => exact ⟨_, rfl, hRuns₃.jump _⟩
    · rw [if_neg hZero, if_neg hZero]
      exact ⟨m₃, rfl, hRuns₃⟩

theorem callFunction_follows (hRuns : m.Runs env t m.steps) (index : UInt32) :
    Follows env (callFunction env index) (t.call env index) m := by
  unfold callFunction Thread.call
  cases hCallee : env.program.callee index with
  | error e => exact Follows.trap rfl (hRuns.holds m.stack)
  | ok callee =>
    refine Follows.pass rfl ?_
    cases callee with
    | imported f => exact Follows.throw hRuns _
    | defined place f =>
      have hDepth : m.stack.count .activation = t.callers.length + 1 := by
        rw [hRuns.stack, count_activation_ofActivities, List.length_cons]
      refine Follows.pass rfl ?_
      simp only [hDepth]
      split
      · exact Follows.throw hRuns _
      · refine Follows.operands hRuns (ValuesOnly.popParams _ _ _) ?_ ?_
        · intro e hRun
          simp only [Thread.takeArguments, hRun]
        intro arguments left hRun m' hRuns' _
        simp only [Thread.takeArguments, hRun]
        refine ⟨_, rfl, ⟨?_, rfl, hRuns'.immediates, hRuns'.targets⟩, ?_, rfl, hRuns'.halted⟩
        · change { m'.store with callCounts := m'.store.callCounts.modify place (· + 1) } = _
          rw [hRuns'.store]
          rfl
        · change m'.stack.push _ = _
          rw [hRuns'.stack, hRuns'.pc]
          rfl

theorem readSlot_eq (m : Machine) (slot : UInt32) :
    readSlot slot m =
      match m.store.slotFunction slot with
      | .ok function => .ok function m
      | .error e => .error e m := by
  unfold readSlot
  change EStateM.bind (ofExcept m.store.table) _ m = _
  simp only [Store.slotFunction, bind, Except.bind, EStateM.bind]
  cases m.store.table with
  | error e => rfl
  | ok table =>
    simp only [ofExcept, pure, EStateM.pure]
    cases table.get slot with
    | error e => rfl
    | ok entry => cases entry <;> rfl

theorem callSlot_follows (hRuns : m.Runs env t m.steps) (typeIndex : UInt32) :
    Follows env (callSlot env typeIndex) (t.callIndirect env typeIndex) m := by
  unfold callSlot Thread.callIndirect
  cases env.program.types[typeIndex.toNat]? with
  | none => exact Follows.throw hRuns _
  | some expected =>
    refine Follows.operands hRuns (.popInt .i32) ?_ ?_
    · intro e hRun
      simp only [hRun]
    intro slot left hRun m' hRuns' _
    have hStore : m'.store = t.store := hRuns'.store
    have hSlot := readSlot_eq m' (UInt32.ofNat slot.toNat)
    simp only [hRun, indirectCallee]
    rw [hStore] at hSlot
    cases hFunction : t.store.slotFunction (UInt32.ofNat slot.toNat) with
    | error e =>
      rw [hFunction] at hSlot
      exact Follows.trap hSlot (hRuns'.holds m'.stack)
    | ok function =>
      rw [hFunction] at hSlot
      refine Follows.pass hSlot ?_
      simp only [bind, Except.bind]
      cases hSignature : env.program.signature function with
      | error e => exact Follows.trap rfl (hRuns'.holds m'.stack)
      | ok actual =>
        refine Follows.pass rfl ?_
        by_cases hSame : actual ≠ expected
        · simp only [if_pos hSame]
          exact Follows.throw hRuns' _
        · simp only [if_neg hSame]
          exact callFunction_follows hRuns' function

/-- Executing a decoded instruction follows the thread. The body of a block starts past its
type. -/
theorem Instruction.exec_follows (hRuns : m.Runs env t m.steps)
    (hStacked : Stacked env t.pc.code (t.activity :: t.callers)) (i : Instruction)
    (hBody : ∀ blockType, i = .block blockType ∨ i = .ifThen blockType →
      m.pc.offset = m.opOffset + 2) :
    Follows env (i.exec env) (Thread.exec env m.opOffset i t) m := by
  cases i with
  | simple s =>
    have hLift := s.exec_lifts m t.activity t.callers hRuns.stack
    simp only [Thread.exec]
    rw [← hRuns.store]
    cases hRun : s.run (t.activity.currentRegion m.store) with
    | error e =>
      rw [hRun] at hLift
      obtain ⟨stack, hs⟩ := hLift
      exact ⟨_, hs, hRuns.holds stack⟩
    | ok p =>
      obtain ⟨u, σ⟩ := p
      rw [hRun] at hLift
      exact ⟨_, hLift, ⟨rfl, rfl, hRuns.immediates, hRuns.targets⟩, rfl, hRuns.pc, hRuns.halted⟩
  | block blockType =>
    refine blockTargets_follows hRuns (hBody blockType (.inl rfl)) ?_ ?_
    · intro e hResolve
      simp only [Thread.exec, hResolve]
    · intro targets hResolve m' hRuns'
      simp only [Thread.exec, hResolve]
      exact pushLabel_follows hRuns' _
  | loop blockType => exact Follows.pass rfl (pushLabel_follows hRuns _)
  | ifThen blockType => exact openArm_follows hRuns (hBody blockType (.inr rfl)) blockType _
  | elseArm => exact branch_follows hRuns hStacked 0
  | blockEnd => exact blockEnd_follows hRuns hStacked
  | branch depth => exact branch_follows hRuns hStacked depth.toNat
  | branchIf depth =>
    refine Follows.operands hRuns (.popInt .i32) ?_ ?_
    · intro e hRun
      simp only [Thread.exec, hRun]
    intro condition left hRun m' hRuns' _
    simp only [Thread.exec, hRun]
    split
    · exact branch_follows hRuns' hStacked depth.toNat
    · exact ⟨m', rfl, hRuns'⟩
  | branchTable depths default =>
    refine Follows.operands hRuns (.popInt .i32) ?_ ?_
    · intro e hRun
      simp only [Thread.exec, hRun]
    intro index left hRun m' hRuns' _
    simp only [Thread.exec, hRun]
    exact branch_follows hRuns' hStacked _
  | ret => exact doReturn_follows hRuns hStacked
  | call index => exact callFunction_follows hRuns index
  | callIndirect typeIndex => exact callSlot_follows hRuns typeIndex
  | invalid b => exact Follows.throw hRuns _

/-! ## Steps -/

/-- The operands of a fetched opcode are read as they stand in the code, though its numbers may have
been remembered. -/
theorem Machine.Runs.reads_fetched {steps : Nat} (hRuns : m.Runs env t steps)
    (hPlaced : t.WellPlaced env) {b : UInt8} (hFetch : fetch? env m = some b) {op : Opcode}
    (hOp : Opcode.ofByte? b = some op) :
    Reads env (op.read env) (op.decode (env.code m.pc.code) m.pc.offset) m.advance := by
  have hFetched : Fetched env m.advance op := by
    refine ⟨?_, b, hFetch, hOp⟩
    change Boundary (env.code m.pc.code) m.pc.offset
    rw [hRuns.pc]
    exact hPlaced.boundary
  exact Reads.opcode hFetched rfl hRuns.immediates

/-- Reading the operands and acting on them follows the thread. -/
theorem dispatch_follows (hRuns : m.Runs env t m.steps) (hPlaced : t.WellPlaced env) {b : UInt8}
    (hByte : (env.code t.pc.code)[t.pc.offset]? = some b) :
    Follows env (dispatch env b) (t.step env) m.advance := by
  have hAdvance : m.advance.Runs env (t.jump (t.pc.offset + 1)) m.steps := by
    refine ⟨⟨hRuns.store, rfl, hRuns.immediates, hRuns.targets⟩, hRuns.stack, ?_, hRuns.halted⟩
    change { m.pc with offset := m.pc.offset + 1 } = { t.pc with offset := t.pc.offset + 1 }
    rw [hRuns.pc]
  have hPlace : m.pc = t.pc := hRuns.pc
  unfold dispatch Thread.step
  simp only [hByte, decodeAt]
  cases hOp : Opcode.ofByte? b with
  | none => exact Follows.throw hAdvance _
  | some op =>
    have hFetch : fetch? env m = some b := by
      rw [fetch?, hPlace]
      exact hByte
    have hReads := hRuns.reads_fetched hPlaced hFetch hOp
    have hNext : m.advance.pc = { t.pc with offset := t.pc.offset + 1 } := by
      rw [← hPlace]
      rfl
    unfold Reads at hReads
    rw [hPlace, hNext] at hReads
    simp only [exec_eq]
    cases hDecode : op.decode (env.code t.pc.code) t.pc.offset (t.pc.offset + 1) with
    | error e =>
      rw [hDecode] at hReads
      obtain ⟨c, next, hAgrees, hRead⟩ := hReads
      exact Follows.trap hRead ⟨rfl, rfl, hAgrees, hRuns.targets⟩
    | ok p =>
      obtain ⟨i, next⟩ := p
      rw [hDecode] at hReads
      obtain ⟨c, hAgrees, hRead⟩ := hReads
      have hRuns' : Machine.Runs env ((m.advance.withImmediates c).withOffset next)
          (t.jump next) m.steps := by
        refine ⟨⟨hRuns.store, rfl, hAgrees, hRuns.targets⟩, hRuns.stack, ?_, hRuns.halted⟩
        change { m.pc with offset := next } = { t.pc with offset := next }
        rw [hPlace]
      refine Follows.bind hRead rfl rfl ?_
      have hBody : ∀ blockType, i = .block blockType ∨ i = .ifThen blockType →
          next = m.pc.offset + 2 := by
        intro blockType hBlock
        rw [hPlace]
        exact past_blockType hDecode hBlock
      have hExec := Instruction.exec_follows hRuns' hPlaced.stacked i hBody
      change Follows env _ (Thread.exec env m.pc.offset i (t.jump next)) _ at hExec
      rw [hPlace] at hExec
      exact hExec

end Control

/-- One step under the step limit, with the number of instructions that were dispatched. A fault
is located at the instruction. -/
def Thread.tick (env : Env) (steps : Nat) (t : Thread) : Except Fault Next × Nat :=
  let place := some (env.program.modulePosition t.pc)
  match (env.code t.pc.code)[t.pc.offset]? with
  | none => (.error ⟨.illFormedStructure t.pc.offset, place⟩, steps)
  | some _ =>
    match exceededLimit? env (steps + 1) with
    | some limit => (.error ⟨.stepLimitExceeded limit, place⟩, steps + 1)
    | none =>
      match t.step env with
      | .ok next => (.ok next, steps + 1)
      | .error e => (.error ⟨e, place⟩, steps + 1)

/-- A machine goes where a thread went with the given number of steps. -/
def Arrives (env : Env) (store : Store) (r : Except Fault Next × Nat)
    (result : EStateM.Result Fault Machine Unit) : Prop :=
  match r with
  | (.ok (.running t), steps) => ∃ m, result = .ok () m ∧ m.Runs env t steps
  | (.ok (.halted values store'), steps) => ∃ m, result = .ok () m ∧ m.Rests env values store' steps
  | (.error f, steps) => ∃ m, result = .error f m ∧ m.Holds env store steps

/-- A step of the machine follows a step of its thread. -/
theorem step_follows {env : Env} {m : Machine} {t : Thread} {steps : Nat}
    (hRuns : m.Runs env t steps) (hPlaced : t.WellPlaced env) :
    Arrives env t.store (t.tick env steps) (step env m) := by
  obtain rfl : m.steps = steps := hRuns.steps
  have hPc : t.pc = m.pc := hRuns.pc.symm
  unfold step Thread.tick fetch?
  simp only [hPc]
  cases hByte : (env.code m.pc.code)[m.pc.offset]? with
  | none => exact ⟨m, rfl, hRuns.toHolds⟩
  | some b =>
    simp only
    cases hLimit : exceededLimit? env (m.steps + 1) with
    | some limit => exact ⟨_, rfl, hRuns.store, rfl, hRuns.immediates, hRuns.targets⟩
    | none =>
      rw [← hPc] at hByte
      have hDispatch := dispatch_follows hRuns.counted hPlaced hByte
      rcases hStep : t.step env with e | next
      · rw [hStep] at hDispatch
        obtain ⟨m', hRun, hHolds⟩ := hDispatch
        refine ⟨m', ?_, ?_⟩
        · simp only [hRun]
          rfl
        · rw [← hRuns.store]
          exact hHolds
      · rw [hStep] at hDispatch
        cases next with
        | running t' =>
          obtain ⟨m', hRun, hAfter⟩ := hDispatch
          exact ⟨m', by simp only [hRun], hAfter⟩
        | halted values store =>
          obtain ⟨m', hRun, hAfter⟩ := hDispatch
          exact ⟨m', by simp only [hRun], hAfter⟩

end WasmMachine
