import WasmMachine.Proofs.Instance.Phases
import WasmMachine.Proofs.Machine.OperandLaws
import WasmMachine.Proofs.Structured.Evaluator
import WasmMachine.Proofs.Structured.Runs

/-!
# The machine follows the evaluator

A thread at the start of an encoded sequence does what the evaluator does with the tree. The open
blocks of its activity are the constructs around the sequence, so the exits of the evaluator are
places of the thread: the delimiter of the sequence, or the place that a branch leads to.

* `Site`: the part of a thread that a sequence does not change, and the scope it stands for.
* `Site.Agrees`: what an exit says about a thread.
* `eval_agrees`: the evaluator agrees with the thread, for every fuel.
-/

namespace WasmMachine

open Stack

/-- The surroundings of a sequence on the stack: its code, the constructs around it, the activation
and its callers. -/
structure Site where
  code : CodeRef
  blocks : List OpenBlock
  activation : ActivationFrame
  callers : List Activity

namespace Site

/-- The thread at an offset with the given region. -/
def thread (S : Site) (offset : Nat) (σ : Region) : Thread :=
  { activity := ⟨σ.operands, S.blocks, { S.activation with locals := σ.locals }⟩
    callers := S.callers
    store := σ.store
    pc := ⟨S.code, offset⟩ }

/-- The surroundings of the body of an open block. -/
def inside (S : Site) (b : OpenBlock) : Site := { S with blocks := b :: S.blocks }

/-- The surroundings of the body of a function that is called with `left` below its arguments, and
that returns to the offset `next`. -/
def called (S : Site) (index : UInt32) (place : Nat) (f : Function) (left : List Value)
    (locals : Array Value) (next : Nat) : Site :=
  { code := .function place
    blocks := []
    activation := {
      function := some index
      locals := #[]
      returnTo := some ⟨S.code, next⟩
      signature := f.signature }
    callers := ⟨left, S.blocks, { S.activation with locals }⟩ :: S.callers }

/-- What the evaluator knows of the surroundings. -/
def scope (S : Site) : Scope :=
  { code := S.code
    labels := S.blocks.map (·.label.branchArity) ++ [S.activation.resultArity]
    depth := S.callers.length + 1 }

/-- Where the activation returns to with its results, topmost first. -/
def leave (S : Site) (top : List Value) (store : Store) : Next :=
  match S.activation.returnTo, S.callers with
  | some place, caller :: rest =>
    .running
      { activity := { caller with operands := top ++ caller.operands }
        callers := rest
        store := store
        pc := place }
  | _, _ => .halted top store

/-- Where a branch leads to with the values that it carries. -/
def target (S : Site) (depth : Nat) (top : List Value) (σ : Region) : Next :=
  match S.blocks.drop depth with
  | b :: outside =>
    .running ({ S with blocks := outside }.thread b.label.continuation
      { σ with operands := top ++ b.outer })
  | [] => S.leave top σ.store

/-! ## Steps of the thread -/

/-- A step of the thread, by the action that the evaluator takes. -/
def Performs (S : Site) (env : Env) (next : Nat) (σ : Region) (step : Except Trap Next) :
    Except Trap Action → Prop
  | .error e => step = .error e
  | .ok (.next τ) => step = .ok (.running (S.thread next τ))
  | .ok (.branch depth top) => depth ≤ S.blocks.length ∧ step = .ok (S.target depth top σ)
  | .ok (.enter index place f arguments left) =>
    env.program.callee index = .ok (.defined place f) ∧
      step = .ok (.running
        ((S.called index place f left σ.locals next).thread 0 (σ.called place f arguments)))

theorem branch_performs (S : Site) (env : Env) (next depth : Nat) (σ : Region) :
    S.Performs env next σ ((S.thread next σ).branch depth) (S.scope.branch depth σ.operands) := by
  unfold Scope.branch Thread.branch
  have hLabels : S.scope.labels = S.blocks.map (·.label.branchArity) ++
    [S.activation.resultArity] := rfl
  have hBlocks : (S.thread next σ).activity.blocks = S.blocks := rfl
  have hOperands : (S.thread next σ).activity.operands = σ.operands := rfl
  rw [hLabels, hBlocks, hOperands]
  rcases Nat.lt_trichotomy depth S.blocks.length with hLt | hEq | hGt
  · have hDrop := List.drop_eq_getElem_cons hLt
    rw [List.getElem?_append_left (by simpa using hLt), List.getElem?_map,
      List.getElem?_eq_getElem hLt, hDrop]
    simp only [Option.map_some]
    cases carried? S.blocks[depth].label.branchArity σ.operands with
    | none => rfl
    | some top =>
      refine ⟨Nat.le_of_lt hLt, ?_⟩
      rw [target, hDrop]
      rfl
  · have hLast : (S.blocks.map (·.label.branchArity) ++ [S.activation.resultArity])[depth]? =
        some S.activation.resultArity := by
      rw [hEq]
      simp
    have hDrop : S.blocks.drop depth = [] := List.drop_of_length_le (by omega)
    rw [hLast, hDrop]
    simp only [if_pos hEq, Thread.leave, thread, ActivationFrame.resultArity]
    cases carried? S.activation.signature.results σ.operands with
    | none => rfl
    | some top =>
      refine ⟨Nat.le_of_eq hEq, ?_⟩
      rw [target, hDrop]
      simp only [leave]
      cases S.activation.returnTo with
      | none => rfl
      | some place => cases S.callers <;> rfl
  · rw [List.getElem?_eq_none (by simp; omega), List.drop_of_length_le (by omega)]
    simp only [if_neg (show ¬ depth = S.blocks.length by omega)]
    simp [Performs]

/-- Leaving the function is the outermost branch. -/
theorem leave_performs (S : Site) (env : Env) (next : Nat) (σ : Region) :
    S.Performs env next σ (S.thread next σ).leave
      (S.scope.branch (S.scope.labels.length - 1) σ.operands) := by
  have hLength : S.scope.labels.length - 1 = S.blocks.length := by simp [scope]
  have hBranch := S.branch_performs env next S.blocks.length σ
  have hLeave : (S.thread next σ).branch S.blocks.length = (S.thread next σ).leave := by
    have hDrop : (S.thread next σ).activity.blocks.drop S.blocks.length = [] :=
      List.drop_of_length_le (Nat.le_refl _)
    unfold Thread.branch
    rw [hDrop]
    exact if_pos rfl
  rw [hLeave] at hBranch
  rw [hLength]
  exact hBranch

theorem call_performs (S : Site) (env : Env) (next : Nat) (index : UInt32) (σ : Region) :
    S.Performs env next σ ((S.thread next σ).call env index)
      (S.scope.call env index σ.operands) := by
  unfold Scope.call Thread.call
  cases hCallee : env.program.callee index with
  | error e => rfl
  | ok callee =>
    cases callee with
    | imported f => rfl
    | defined place f =>
      have hDepth : S.scope.depth = S.callers.length + 1 := rfl
      have hCallers : (S.thread next σ).callers.length + 1 = S.callers.length + 1 := rfl
      have hOperands : (S.thread next σ).activity.operands = σ.operands := rfl
      simp only [hDepth, hCallers, hOperands]
      by_cases hDeep : env.config.maxCallDepth.toNat < S.callers.length + 1
      · simp only [if_pos hDeep]
        rfl
      · simp only [if_neg hDeep]
        cases Thread.takeArguments f.signature σ.operands with
        | error e => rfl
        | ok p => exact ⟨hCallee, rfl⟩

/-- An instruction without a body does to the thread what its action says. -/
theorem act_performs (S : Site) (env : Env) (place next : Nat) (i : Leaf) (σ : Region) :
    S.Performs env next σ (Thread.exec env place i.instruction (S.thread next σ))
      (i.act env S.scope σ) := by
  have hOperands : (S.thread next σ).activity.operands = σ.operands := rfl
  cases i with
  | simple s =>
    have hRegion : (S.thread next σ).activity.currentRegion (S.thread next σ).store = σ := rfl
    simp only [Leaf.instruction, Thread.exec, Leaf.act, hRegion]
    cases s.run σ with
    | error e => rfl
    | ok p => rfl
  | branch depth => exact S.branch_performs env next depth.toNat σ
  | branchIf depth =>
    simp only [Leaf.instruction, Thread.exec, Leaf.act, hOperands]
    cases onOperands popI32 σ.operands with
    | error e => rfl
    | ok p =>
      simp only
      split
      · exact S.branch_performs env next depth.toNat { σ with operands := p.2 }
      · rfl
  | branchTable depths default =>
    simp only [Leaf.instruction, Thread.exec, Leaf.act, hOperands]
    cases onOperands popI32 σ.operands with
    | error e => rfl
    | ok p => exact S.branch_performs env next _ { σ with operands := p.2 }
  | ret => exact S.leave_performs env next σ
  | call index => exact S.call_performs env next index σ
  | callIndirect typeIndex =>
    have hStore : (S.thread next σ).store = σ.store := rfl
    simp only [Leaf.instruction, Thread.exec, Thread.callIndirect, Leaf.act, hOperands, hStore]
    cases env.program.types[typeIndex.toNat]? with
    | none => rfl
    | some expected =>
      simp only
      cases onOperands popI32 σ.operands with
      | error e => rfl
      | ok p =>
        simp only
        cases indirectCallee env σ.store expected p.1 with
        | error e => rfl
        | ok function => exact S.call_performs env next function { σ with operands := p.2 }
  | invalid b => rfl

/-- The instruction of a sequence is the one that the thread executes. -/
theorem step_eq (S : Site) {env : Env} {place next : Nat} {i : Instruction} (σ : Region)
    (h : DecodesTo (env.code S.code) place i next) :
    (S.thread place σ).step env = Thread.exec env place i (S.thread next σ) := by
  obtain ⟨b, hByte, hDecode⟩ := h
  have hFetch : (env.code (S.thread place σ).pc.code)[(S.thread place σ).pc.offset]? = some b :=
    hByte
  have hRead : decodeAt (env.code (S.thread place σ).pc.code) (S.thread place σ).pc.offset b =
      .ok (i, next) := hDecode
  unfold Thread.step
  simp only [hFetch, hRead]
  rfl

/-- A delimiter hands up the results or traps. -/
def Closes (S : Site) (env : Env) (results : List ValueType) (closing : Nat)
    (after : List Value → Region → Next) : Prop :=
  ∀ τ, (S.thread closing τ).step env =
    match carried? results τ.operands with
    | some top => .ok (after top τ)
    | none => .error (.arityMismatch results (foundTypes results τ.operands))

theorem closes_end (S : Site) {env : Env} {b : OpenBlock} {closing : Nat}
    (h : (env.code S.code)[closing]? = some endByte) :
    (S.inside b).Closes env b.label.resultArity closing fun top τ =>
      .running (S.thread (closing + 1) { τ with operands := top ++ b.outer }) := by
  intro τ
  rw [step_eq (S.inside b) τ (decodesTo_end h)]
  change ((S.inside b).thread (closing + 1) τ).closeBlock = _
  simp only [Thread.closeBlock, thread, inside]
  cases carried? b.label.resultArity τ.operands <;> rfl

theorem closes_else (S : Site) {env : Env} {b : OpenBlock} {closing : Nat}
    (h : (env.code S.code)[closing]? = some elseByte) :
    (S.inside b).Closes env b.label.branchArity closing fun top τ =>
      .running (S.thread b.label.continuation { τ with operands := top ++ b.outer }) := by
  intro τ
  rw [step_eq (S.inside b) τ (decodesTo_else h)]
  change ((S.inside b).thread (closing + 1) τ).branch 0 = _
  simp only [Thread.branch, thread, inside, List.drop_zero]
  cases carried? b.label.branchArity τ.operands <;> rfl

theorem closes_function (S : Site) {env : Env} {closing : Nat} (hBlocks : S.blocks = [])
    (h : (env.code S.code)[closing]? = some endByte) :
    S.Closes env S.activation.resultArity closing fun top τ => S.leave top τ.store := by
  intro τ
  have hClose : (S.thread (closing + 1) τ).closeBlock = (S.thread (closing + 1) τ).leave := by
    unfold Thread.closeBlock
    simp only [thread, hBlocks]
  rw [step_eq S τ (decodesTo_end h)]
  change (S.thread (closing + 1) τ).closeBlock = _
  rw [hClose]
  unfold Thread.leave leave
  simp only [thread, ActivationFrame.resultArity]
  cases carried? S.activation.signature.results τ.operands with
  | none => rfl
  | some top =>
    cases S.activation.returnTo with
    | none => rfl
    | some place => cases S.callers <;> rfl

/-! ## Exits -/

/-- What the exit of an evaluation says about a thread. If the evaluation ran out of fuel, the
thread runs on for as many steps. -/
def Agrees (S : Site) (env : Env) (fuel : Nat) (t : Thread) (closing : Nat) : Exit → Prop
  | .done τ => ∃ n, Thread.Goes env n t (.running (S.thread closing τ))
  | .branch depth top τ => depth ≤ S.blocks.length ∧ ∃ n, Thread.Goes env n t (S.target depth top τ)
  | .trap f store => Thread.Fails env t f store
  | .outOfFuel => Thread.Lasts env fuel t

/-- Steps before an evaluation. -/
theorem Agrees.prepend {S : Site} {env : Env} {fuel more n : Nat} {t t' : Thread} {closing : Nat}
    {x : Exit} (h : S.Agrees env fuel t' closing x) (hGoes : Thread.Goes env n t (.running t'))
    (hFuel : more ≤ n + fuel) : S.Agrees env more t closing x := by
  cases x with
  | done τ =>
    obtain ⟨k, hRest⟩ := h
    exact ⟨n + k, hGoes.trans hRest⟩
  | branch depth top τ =>
    obtain ⟨hDepth, k, hRest⟩ := h
    exact ⟨hDepth, n + k, hGoes.trans hRest⟩
  | trap f store => exact hGoes.fails h
  | outOfFuel => exact (hGoes.lasts h).mono hFuel

/-- A step before an evaluation. -/
theorem Agrees.step {S : Site} {env : Env} {fuel : Nat} {t t' : Thread} {closing : Nat}
    {x : Exit} (h : S.Agrees env fuel t' closing x) (hStep : t.step env = .ok (.running t')) :
    S.Agrees env (fuel + 1) t closing x :=
  h.prepend (.single hStep) (by omega)

/-- A construct and its body: `C` are the surroundings of the body, `S` those of the construct. If
the exit of the body agrees with the thread, so does what the construct makes of it. -/
theorem Agrees.leave {S C : Site} {env : Env} {fuel : Nat} {t : Thread} {results : List ValueType}
    {closing end' : Nat} {x : Exit} {ended branched : List Value → Region → Exit}
    {after back : List Value → Region → Thread}
    (hBody : C.Agrees env fuel t closing x)
    (hCloses : C.Closes env results closing fun top τ => .running (after top τ))
    (hBack : ∀ top τ, C.target 0 top τ = .running (back top τ))
    (hOuter : ∀ depth top τ, depth + 1 ≤ C.blocks.length →
      depth ≤ S.blocks.length ∧ C.target (depth + 1) top τ = S.target depth top τ)
    (hEnded : ∀ top τ, S.Agrees env fuel (after top τ) end' (ended top τ))
    (hBranched : ∀ top τ, S.Agrees env fuel (back top τ) end' (branched top τ))
    {Γ : Scope} (hCode : Γ.code = C.code) :
    S.Agrees env fuel t end' (x.leave env Γ results closing ended branched) := by
  cases x with
  | done τ =>
    obtain ⟨n, hGoes⟩ := hBody
    have hStep := hCloses τ
    simp only [Exit.leave]
    cases hCarried : carried? results τ.operands with
    | some top =>
      rw [hCarried] at hStep
      exact (hEnded top τ).prepend (hGoes.trans (.single hStep)) (by omega)
    | none =>
      rw [hCarried] at hStep
      have hFails := Thread.Fails.here hStep
      rw [Scope.trap, hCode]
      exact hGoes.fails hFails
  | branch depth top τ =>
    obtain ⟨hDepth, n, hGoes⟩ := hBody
    cases depth with
    | zero =>
      rw [hBack] at hGoes
      exact (hBranched top τ).prepend hGoes (by omega)
    | succ depth =>
      obtain ⟨hLe, hTarget⟩ := hOuter depth top τ hDepth
      rw [hTarget] at hGoes
      exact ⟨hLe, n, hGoes⟩
  | trap f store => exact hBody
  | outOfFuel => exact hBody

/-- The case of a block, a loop or a conditional. -/
theorem Agrees.leave_block {S : Site} {env : Env} {fuel : Nat} {t : Thread}
    {b : OpenBlock} {results : List ValueType} {closing end' offset : Nat} {x : Exit}
    {ended branched : List Value → Region → Exit}
    (hBody : (S.inside b).Agrees env fuel t closing x)
    (hCloses : (S.inside b).Closes env results closing fun top τ =>
      .running (S.thread offset { τ with operands := top ++ b.outer }))
    (hEnded : ∀ top τ, S.Agrees env fuel
      (S.thread offset { τ with operands := top ++ b.outer }) end' (ended top τ))
    (hBranched : ∀ top τ, S.Agrees env fuel
      (S.thread b.label.continuation { τ with operands := top ++ b.outer }) end'
      (branched top τ)) :
    S.Agrees env fuel t end' (x.leave env S.scope results closing ended branched) :=
  Agrees.leave hBody hCloses (fun _ _ => rfl)
    (fun _ _ _ hDepth => ⟨Nat.le_of_succ_le_succ hDepth, rfl⟩) hEnded hBranched rfl

end Site

/-! ## The simulation -/

/-- All functions of the program are encodings of the given bodies. -/
def Program.Encoded (p : Program) (bodies : Nat → Sequence) : Prop :=
  ∀ place f, p.functions[place]? = some f → Encodes f.code endByte 0 (bodies place)

theorem Program.Encoded.called {env : Env} {bodies : Nat → Sequence}
    (h : env.program.Encoded bodies) {index : UInt32} {place : Nat} {f : Function}
    (hCallee : env.program.callee index = .ok (.defined place f)) :
    Encodes (env.code (.function place)) endByte 0 (bodies place) := by
  have hFunction := Program.functions_of_callee hCallee
  have hCode : env.code (.function place) = f.code := by
    rw [Env.code, Program.codeOf, hFunction]
  rw [hCode]
  exact h place f hFunction

theorem Site.step_block (S : Site) {env : Env} {place next : Nat} {t : BlockType} {body : Sequence}
    (σ : Region) (h : DecodesTo (env.code S.code) place (.block t) next)
    (hBody : Encodes (env.code S.code) endByte next body) :
    (S.thread place σ).step env = .ok (.running
      ((S.inside ⟨⟨.block, t, body.closing + 1⟩, σ.operands⟩).thread next
        { σ with operands := [] })) := by
  have hTargets : resolve (env.code (S.thread next σ).pc.code) (S.thread next σ).pc.offset = _ :=
    hBody.resolve_end
  rw [S.step_eq σ h]
  simp only [Thread.exec, hTargets]
  rfl

theorem Site.step_loop (S : Site) {env : Env} {place next : Nat} {t : BlockType} (σ : Region)
    (h : DecodesTo (env.code S.code) place (.loop t) next) :
    (S.thread place σ).step env = .ok (.running
      ((S.inside ⟨⟨.loop, t, place⟩, σ.operands⟩).thread next { σ with operands := [] })) :=
  S.step_eq σ h

/-- Taking the condition of an `if` and opening its chosen arm. -/
theorem Site.step_ifThen (S : Site) {env : Env} {place next : Nat} {t : BlockType} (σ : Region)
    {targets : BlockTargets} (h : DecodesTo (env.code S.code) place (.ifThen t) next)
    (hResolve : resolve (env.code S.code) next = .ok targets) :
    (S.thread place σ).step env =
      match onOperands popI32 σ.operands with
      | .error e => .error e
      | .ok (condition, outer) =>
        .ok (.running ((S.inside ⟨⟨.ifThen, t, targets.endPos + 1⟩, outer⟩).thread
          (Thread.armOffset condition targets next) { σ with operands := [] })) := by
  have hOperands : (S.thread next σ).activity.operands = σ.operands := rfl
  have hTargets : resolve (env.code (S.thread next σ).pc.code) (S.thread next σ).pc.offset =
      .ok targets := hResolve
  rw [S.step_eq σ h]
  simp only [Thread.exec, hOperands, hTargets]
  cases onOperands popI32 σ.operands with
  | error e => rfl
  | ok p => rfl

/-- An `if` agrees when the arm that its condition chooses does. -/
theorem Site.agrees_ifThen {S : Site} {env : Env} {fuel place next closing : Nat} {t : BlockType}
    {σ : Region} {targets : BlockTargets} {arm : BitVec 32 → List Value → Exit}
    (h : DecodesTo (env.code S.code) place (.ifThen t) next)
    (hResolve : resolve (env.code S.code) next = .ok targets)
    (hArm : ∀ condition outer, S.Agrees env fuel
      ((S.inside ⟨⟨.ifThen, t, targets.endPos + 1⟩, outer⟩).thread
        (Thread.armOffset condition targets next) { σ with operands := [] })
      closing (arm condition outer)) :
    S.Agrees env (fuel + 1) (S.thread place σ) closing
      (match onOperands popI32 σ.operands with
        | .error e => S.scope.trap env place e σ.store
        | .ok (condition, outer) => arm condition outer) := by
  have hStep := S.step_ifThen σ h hResolve
  cases hPop : onOperands popI32 σ.operands with
  | error e =>
    rw [hPop] at hStep
    exact .here hStep
  | ok p =>
    rw [hPop] at hStep
    exact (hArm p.1 p.2).step hStep

/-- The evaluator agrees with the thread at an encoded sequence, for every fuel: by induction on
the fuel, of which each recursive evaluation takes one and makes at least one step. -/
theorem eval_agrees {env : Env} {bodies : Nat → Sequence} (hEncoded : env.program.Encoded bodies)
    (fuel : Nat) {S : Site} {d : UInt8} {start : Nat} {s : Sequence}
    (h : Encodes (env.code S.code) d start s) (σ : Region) :
    S.Agrees env fuel (S.thread start σ) s.closing
      (Sequence.eval env bodies fuel S.scope s σ) := by
  induction fuel generalizing S d start s σ with
  | zero => exact ⟨_, .here _⟩
  | succ fuel ih =>
    cases h with
    | stop byte => exact ⟨0, .here _⟩
    | @leaf _ _ next i rest head tail =>
      have hStep := S.step_eq σ head
      have hPerforms := S.act_performs env start next i σ
      rw [← hStep] at hPerforms
      rw [Sequence.eval]
      rcases hAct : i.act env S.scope σ with
        e | (τ | ⟨depth, top⟩ | ⟨index, place, f, arguments, left⟩)
      · rw [hAct] at hPerforms
        exact .here hPerforms
      · rw [hAct] at hPerforms
        exact (ih tail τ).step hPerforms
      · rw [hAct] at hPerforms
        exact ⟨hPerforms.1, 1, .single hPerforms.2⟩
      · rw [hAct] at hPerforms
        obtain ⟨hCallee, hCall⟩ := hPerforms
        have hCode := hEncoded.called hCallee
        have hBody := ih (S := S.called index place f left σ.locals next) hCode
          (σ.called place f arguments)
        have hEnded : ∀ top (τ : Region), S.Agrees env fuel (S.thread next
            { τ with operands := top ++ left, locals := σ.locals }) rest.closing
            (Sequence.eval env bodies fuel S.scope rest
              { τ with operands := top ++ left, locals := σ.locals }) :=
          fun top τ => ih tail _
        refine Site.Agrees.step ?_ hCall
        exact hBody.leave (Site.closes_function _ rfl hCode.delimiter) (fun _ _ => rfl)
          (fun _ _ _ hDepth => absurd hDepth (Nat.not_succ_le_zero _)) hEnded hEnded rfl
    | @block _ _ next t body rest head inside tail =>
      rw [Sequence.eval]
      refine Site.Agrees.step ?_ (S.step_block σ head inside)
      have hBody := ih (S := S.inside ⟨⟨.block, t, body.closing + 1⟩, σ.operands⟩) inside
        { σ with operands := [] }
      exact hBody.leave_block (S.closes_end inside.delimiter) (fun _ _ => ih tail _)
        fun _ _ => ih tail _
    | @loop _ _ next t body rest head inside tail =>
      rw [Sequence.eval]
      refine Site.Agrees.step ?_ (S.step_loop σ head)
      have hBody := ih (S := S.inside ⟨⟨.loop, t, start⟩, σ.operands⟩) inside
        { σ with operands := [] }
      exact hBody.leave_block (S.closes_end inside.delimiter) (fun _ _ => ih tail _)
        fun _ _ => ih (.loop head inside tail) _
    | @ifThen _ _ next t arm rest head inside tail =>
      rw [Sequence.eval]
      refine Site.agrees_ifThen head inside.resolve_end ?_
      intro condition outer
      by_cases hZero : condition = 0
      · rw [if_neg (not_not_intro hZero), Thread.armOffset, if_pos hZero]
        have hArm : (S.inside ⟨⟨.ifThen, t, arm.closing + 1⟩, outer⟩).Agrees env fuel _
            arm.closing (.done { σ with operands := [] }) := ⟨0, .here _⟩
        exact hArm.leave_block (S.closes_end inside.delimiter) (fun _ _ => ih tail _)
          fun _ _ => ih tail _
      · rw [if_pos hZero, Thread.armOffset, if_neg hZero]
        have hArm := ih (S := S.inside ⟨⟨.ifThen, t, arm.closing + 1⟩, outer⟩) inside
          { σ with operands := [] }
        exact hArm.leave_block (S.closes_end inside.delimiter) (fun _ _ => ih tail _)
          fun _ _ => ih tail _
    | @ifElse _ _ next t arm other rest head first second tail =>
      rw [Sequence.eval]
      refine Site.agrees_ifThen head (first.resolve_else second) ?_
      intro condition outer
      by_cases hZero : condition = 0
      · rw [if_neg (not_not_intro hZero), Thread.armOffset, if_pos hZero]
        have hArm := ih (S := S.inside ⟨⟨.ifThen, t, other.closing + 1⟩, outer⟩) second
          { σ with operands := [] }
        exact hArm.leave_block (S.closes_end second.delimiter) (fun _ _ => ih tail _)
          fun _ _ => ih tail _
      · rw [if_pos hZero, Thread.armOffset, if_neg hZero]
        have hArm := ih (S := S.inside ⟨⟨.ifThen, t, other.closing + 1⟩, outer⟩) first
          { σ with operands := [] }
        exact hArm.leave_block (S.closes_else first.delimiter) (fun _ _ => ih tail _)
          fun _ _ => ih tail _

end WasmMachine
