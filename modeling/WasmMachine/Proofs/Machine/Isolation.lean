import WasmMachine.Proofs.Machine.Effect
import WasmMachine.Proofs.Machine.Invocation

/-!
# Call frames are isolated

All callers share one stack with the running function, and its code is arbitrary. Still a step
touches nothing below the topmost activation, and of that activation at most one local; a call
takes its arguments and no more; a return leaves the frames below and the results. Hence a caller
finds its frames as it left them, with the results in the place of the arguments.

* `Machine.StepEffect`: what one step does to the frames, by the instruction that it executes.
* `Machine.Resumes`: a caller after its call, compared with before.
* `step_stepEffect`, `resumes_of_call`: both hold of all machines that have a thread.
-/

namespace WasmMachine

open Stack

/-! ## Frames of a machine -/

namespace Machine

/-- The frames of the stack, bottom first. -/
def frames (m : Machine) : List Frame := m.stack.frames.toList

/-- The number of activations on the stack. -/
def depth (m : Machine) : Nat := m.stack.count .activation

/-- The instruction at the program counter and the offset past it. -/
def Decodes (env : Env) (m : Machine) (i : Instruction) (next : Nat) : Prop :=
  ∃ b, fetch? env m = some b ∧ decodeAt (env.code m.pc.code) m.pc.offset b = .ok (i, next)

theorem Decodes.unique {env : Env} {m : Machine} {i i' : Instruction} {next next' : Nat}
    (h : m.Decodes env i next) (h' : m.Decodes env i' next') : i = i' ∧ next = next' := by
  obtain ⟨b, hFetch, hDecode⟩ := h
  obtain ⟨b', hFetch', hDecode'⟩ := h'
  cases hFetch.symm.trans hFetch'
  cases hDecode.symm.trans hDecode'
  exact ⟨rfl, rfl⟩

/-- A call is about to be made: the function of the index takes its arguments, of the types of its
parameters, from above the frames `kept`; an indirect call also takes the slot above them. -/
structure CallSite (env : Env) (m : Machine) (kept : List Frame) (index : UInt32) (place : Nat)
    (f : Function) (arguments : List Value) (next : Nat) : Prop where
  callee : env.program.callee index = .ok (.defined place f)
  types : arguments.map Value.type = f.signature.parameters
  frames : ∃ i, m.Decodes env i next ∧
    (i = .call index ∧ m.frames = kept ++ arguments.map Frame.value ∨
      ∃ (typeIndex : UInt32) (slot : BitVec 32), i = .callIndirect typeIndex ∧
        m.frames = kept ++ (arguments ++ [Value.i32 slot]).map Frame.value)

/-- The step stayed in the activation at position `p`: the frames below are unchanged, and the
activation differs at most in one local, whose type is the same. -/
def StaysAbove (p : Nat) (m m' : Machine) : Prop :=
  m'.frames.take p = m.frames.take p ∧ m'.stack.activationPosition? = some p ∧
    ∃ a a', m.frames[p]? = some (.activation a) ∧ m'.frames[p]? = some (.activation a') ∧
      a.SameUpToLocal a'

/-- The step removed exactly the operands of a call and pushed one activation, which will return
past the call. -/
def Calls (env : Env) (p : Nat) (m m' : Machine) : Prop :=
  ∃ (kept : List Frame) (index : UInt32) (place : Nat) (f : Function) (arguments : List Value)
      (next : Nat),
    m.CallSite env kept index place f arguments next ∧
    p < kept.length ∧ m'.pc = ⟨.function place, 0⟩ ∧
    m'.frames = kept ++ [.activation
      { function := some index
        locals := arguments.toArray ++ f.locals.extract arguments.length f.locals.size
        returnTo := some ⟨m.pc.code, next⟩
        signature := f.signature }]

/-- The step left exactly the frames below the activation at position `p`, followed by values of
its result types, which were on top once the instruction had taken its own operands. It went on
where the activation returns to, or halted. -/
def Returns (p : Nat) (i : Instruction) (m m' : Machine) : Prop :=
  ∃ (a : ActivationFrame) (values taken : List Value), m.frames[p]? = some (.activation a) ∧
    values.map Value.type = a.resultArity ∧
    taken.length = i.selectors ∧ (values ++ taken).map Frame.value <:+ m.frames ∧
    m'.frames = m.frames.take p ++ values.map Frame.value ∧
    match a.returnTo with
    | some place => m'.pc = place ∧ m'.halted = false
    | none => m'.halted = true

/-- What a step does to the frames, where the topmost activation is at position `p`. Whether it
calls, returns or does neither, the instruction tells, together with the frame on top and the number
of labels above that activation. -/
def StepEffect (env : Env) (m m' : Machine) : Prop :=
  ∃ p i next, m.stack.activationPosition? = some p ∧ m.Decodes env i next ∧
    match i.transfer m.stack.peek? m.stack.labelsAboveActivation with
    | .inside => m'.depth = m.depth ∧ StaysAbove p m m'
    | .call => m'.depth = m.depth + 1 ∧ Calls env p m m'
    | .ret => m'.depth + 1 = m.depth ∧ Returns p i m m'

/-- The machine is where the caller `m` goes on after its call: the frames are those of `m` with
the operands of the call replaced by the results, and the place is just past the call. In
particular, the labels and the activation of the caller are those of `m`. -/
def Resumes (env : Env) (m m' : Machine) : Prop :=
  ∃ (kept : List Frame) (index : UInt32) (place : Nat) (f : Function) (arguments : List Value)
      (next : Nat) (results : List Value),
    m.CallSite env kept index place f arguments next ∧
    results.map Value.type = f.signature.results ∧
    m'.frames = kept ++ results.map Frame.value ∧
    m'.pc = ⟨m.pc.code, next⟩ ∧ m'.halted = false ∧
    m'.stack.labelsAboveActivation = m.stack.labelsAboveActivation ∧
    m'.stack.activation? = m.stack.activation? ∧
    m'.stack.activationPosition? = m.stack.activationPosition?

end Machine

/-! ## Frames of a thread -/

/-- The frames of some activities, bottom first. -/
def framesOf (activities : List Activity) : List Frame :=
  (activities.flatMap Activity.frames).reverse

theorem framesOf_cons (A : Activity) (rest : List Activity) :
    framesOf (A :: rest) =
      framesOf rest ++ .activation A.activation :: A.region.reverse := by
  simp [framesOf, Activity.frames]

/-- Operands are the topmost frames. -/
theorem framesOf_operands (A : Activity) (top left : List Value) (rest : List Activity) :
    framesOf ({ A with operands := top ++ left } :: rest) =
      framesOf ({ A with operands := left } :: rest) ++ top.reverse.map .value := by
  simp [framesOf_cons, Activity.region]

namespace Machine.Runs

variable {env : Env} {m : Machine} {t : Thread} {steps : Nat}

theorem frames_eq (h : m.Runs env t steps) :
    m.frames = framesOf (t.activity :: t.callers) := by
  rw [Machine.frames, h.stack, ofActivities, frames_ofFrames, framesOf]

theorem stack_eq (h : m.Runs env t steps) : m.stack = ofFrames m.frames.reverse := by
  rw [h.frames_eq, framesOf, List.reverse_reverse]
  exact h.stack

theorem depth_eq (h : m.Runs env t steps) : m.depth = t.callers.length + 1 := by
  rw [Machine.depth, h.stack, count_activation_ofActivities, List.length_cons]

theorem position_eq (h : m.Runs env t steps) :
    m.stack.activationPosition? = some (framesOf t.callers).length := by
  rw [h.stack, activationPosition?_ofActivities, framesOf, List.length_reverse]

theorem labels_eq (h : m.Runs env t steps) :
    m.stack.labelsAboveActivation = t.activity.blocks.length := by
  rw [h.stack, labelsAboveActivation_ofActivities]

theorem peek_eq (h : m.Runs env t steps) : m.stack.peek? = t.activity.operands.head? := by
  rw [h.stack, peek?_ofActivities]

theorem activation_eq (h : m.Runs env t steps) :
    m.stack.activation? = some t.activity.activation := by
  rw [h.stack, activation?_ofActivities]

theorem frames_take (h : m.Runs env t steps) :
    m.frames.take (framesOf t.callers).length = framesOf t.callers := by
  rw [h.frames_eq, framesOf_cons, List.take_left']
  rfl

theorem frames_activation (h : m.Runs env t steps) :
    m.frames[(framesOf t.callers).length]? = some (.activation t.activity.activation) := by
  rw [h.frames_eq, framesOf_cons]
  simp

theorem transfer_eq (h : m.Runs env t steps) (i : Instruction) :
    i.transfer m.stack.peek? m.stack.labelsAboveActivation = t.transfer i := by
  rw [h.peek_eq, h.labels_eq, Thread.transfer]

theorem decodes (h : m.Runs env t steps) {b : UInt8} {i : Instruction} {next : Nat}
    (hByte : (env.code t.pc.code)[t.pc.offset]? = some b)
    (hDecode : decodeAt (env.code t.pc.code) t.pc.offset b = .ok (i, next)) :
    m.Decodes env i next := by
  refine ⟨b, ?_, ?_⟩
  · rw [fetch?, h.pc]
    exact hByte
  · rw [h.pc]
    exact hDecode

/-- A call that stands at the place of a thread. -/
theorem callSite (h : m.Runs env t steps) {left : List Value} {index : UInt32} {place : Nat}
    {f : Function} {arguments : List Value} {next : Nat}
    (hSite : t.CallSite env left index place f arguments next) :
    m.CallSite env (framesOf ((t.withOperands left).activity :: t.callers)) index place f
      arguments next := by
  obtain ⟨b, i, hByte, hDecode, hOperands⟩ := hSite.operands
  refine ⟨hSite.callee, hSite.types, i, h.decodes hByte hDecode, ?_⟩
  rcases hOperands with ⟨hCall, hTop⟩ | ⟨typeIndex, slot, hCall, hTop⟩
  · refine .inl ⟨hCall, ?_⟩
    have hFrames := framesOf_operands t.activity arguments.reverse left t.callers
    rw [← hTop, List.reverse_reverse] at hFrames
    exact h.frames_eq.trans hFrames
  · refine .inr ⟨typeIndex, slot, hCall, ?_⟩
    have hFrames := framesOf_operands t.activity (.i32 slot :: arguments.reverse) left t.callers
    rw [List.cons_append, ← hTop, List.reverse_cons, List.reverse_reverse] at hFrames
    exact h.frames_eq.trans hFrames

/-- What is common to all ways of leaving an activation. -/
theorem returns (h : m.Runs env t steps) {m' : Machine} {i : Instruction} {top : List Value}
    (hSite : t.ReturnSite i top)
    (hFrames : m'.frames = framesOf t.callers ++ top.reverse.map .value)
    (hPlace : match t.activity.activation.returnTo with
      | some place => m'.pc = place ∧ m'.halted = false
      | none => m'.halted = true) :
    m.Returns (framesOf t.callers).length i m' := by
  obtain ⟨taken, left, hTaken, hOperands⟩ := hSite.operands
  refine ⟨_, top.reverse, taken.reverse, h.frames_activation, ?_, ?_, ?_, ?_, hPlace⟩
  · rw [List.map_reverse, hSite.types]
  · rw [List.length_reverse, hTaken]
  · have hTop := framesOf_operands t.activity (taken ++ top) left t.callers
    rw [← hOperands, List.reverse_append] at hTop
    exact ⟨_, (h.frames_eq.trans hTop).symm⟩
  · rw [h.frames_take, hFrames]

end Machine.Runs

theorem Machine.Rests.depth_eq {env : Env} {m : Machine} {values : List Value} {store : Store}
    {steps : Nat} (h : m.Rests env values store steps) : m.depth = 0 := by
  rw [Machine.depth, h.stack, count_activation_ofFrames, List.countP_eq_zero]
  intro f hf
  obtain ⟨v, -, rfl⟩ := List.mem_map.1 hf
  exact Bool.false_ne_true

theorem Machine.Rests.frames_eq {env : Env} {m : Machine} {values : List Value} {store : Store}
    {steps : Nat} (h : m.Rests env values store steps) :
    m.frames = values.reverse.map .value := by
  rw [Machine.frames, h.stack, frames_ofFrames]
  simp

/-! ## One step -/

/-- Where a successful step of a machine leads, as a step of its thread. -/
theorem step_thread {env : Env} {m m' : Machine} {t : Thread} {steps : Nat}
    (hRuns : m.Runs env t steps) (hPlaced : t.WellPlaced env) (h : step env m = .ok () m') :
    ∃ next, t.step env = .ok next ∧
      match next with
      | .running t' => m'.Runs env t' (steps + 1) ∧ t'.WellPlaced env
      | .halted values store => m'.Rests env values store (steps + 1) := by
  have hFollows := step_follows hRuns hPlaced
  unfold Thread.tick at hFollows
  split at hFollows
  · obtain ⟨_, hError, -⟩ := hFollows
    rw [h] at hError
    cases hError
  · simp only at hFollows
    split at hFollows
    · obtain ⟨_, hError, -⟩ := hFollows
      rw [h] at hError
      cases hError
    · split at hFollows
      · rename_i next hStep
        refine ⟨next, hStep, ?_⟩
        cases next with
        | running t' =>
          obtain ⟨m₁, hOk, hRuns'⟩ := hFollows
          rw [h] at hOk
          cases hOk
          exact ⟨hRuns', hPlaced.step hStep⟩
        | halted values store =>
          obtain ⟨m₁, hOk, hRests⟩ := hFollows
          rw [h] at hOk
          cases hOk
          exact hRests
      · obtain ⟨_, hError, -⟩ := hFollows
        rw [h] at hError
        cases hError

/-- A step has the effect on frames that its instruction says, whatever the code. -/
theorem step_stepEffect {env : Env} {m m' : Machine} {t : Thread} {steps : Nat}
    (hRuns : m.Runs env t steps) (hPlaced : t.WellPlaced env) (h : step env m = .ok () m') :
    m.StepEffect env m' := by
  obtain ⟨next, hStep, hNext⟩ := step_thread hRuns hPlaced h
  obtain ⟨b, i, past, hByte, hDecode, hEffect⟩ := Thread.step_effect hPlaced hStep
  refine ⟨_, i, past, hRuns.position_eq, hRuns.decodes hByte hDecode, ?_⟩
  rw [hRuns.transfer_eq, hRuns.depth_eq]
  cases hEffect with
  | inside stays A store offset same =>
    have hRuns' := hNext.1
    rw [stays]
    refine ⟨hRuns'.depth_eq, hRuns'.frames_take.trans hRuns.frames_take.symm,
      hRuns'.position_eq, _, _, hRuns.frames_activation, hRuns'.frames_activation, same⟩
  | @call left index place f arguments offset enters site =>
    have hRuns' := hNext.1
    rw [enters]
    refine ⟨hRuns'.depth_eq, _, index, place, f, arguments, offset, hRuns.callSite site, ?_,
      hRuns'.pc, ?_⟩
    · rw [framesOf_cons]
      simp
    · rw [hRuns'.frames_eq, framesOf_cons, hRuns.pc]
      rfl
  | @ret top place caller rest site returns hCallers =>
    have hRuns' := hNext.1
    rw [site.leaves]
    refine ⟨?_, hRuns.returns site ?_ ?_⟩
    · rw [hRuns'.depth_eq, hCallers, List.length_cons]
    · rw [hRuns'.frames_eq, hCallers]
      exact framesOf_operands caller top caller.operands rest
    · rw [returns]
      exact ⟨hRuns'.pc, hRuns'.halted⟩
  | @halt top site returns hCallers =>
    rw [site.leaves]
    refine ⟨?_, hRuns.returns site ?_ ?_⟩
    · rw [Machine.Rests.depth_eq hNext, hCallers, List.length_nil]
    · rw [Machine.Rests.frames_eq hNext, hCallers]
      rfl
    · rw [returns]
      exact hNext.halted

/-! ## Runs -/

/-- Successful steps from one machine to another, with a property of all machines on the way. -/
inductive Machine.StepsThrough (env : Env) (P : Machine → Prop) : Machine → Machine → Prop
  | refl {m : Machine} (holds : P m) : StepsThrough env P m m
  | tail {m m' m'' : Machine} (steps : StepsThrough env P m m') (last : step env m' = .ok () m'')
      (holds : P m'') : StepsThrough env P m m''

/-- All machines of a run have threads. -/
theorem Machine.StepsThrough.runs {env : Env} {P : Machine → Prop} {m m' : Machine} {t : Thread}
    {steps : Nat} (h : Machine.StepsThrough env P m m') (hP : ∀ m, P m → m.halted = false)
    (hRuns : m.Runs env t steps) (hPlaced : t.WellPlaced env) :
    ∃ t' steps', m'.Runs env t' steps' ∧ t'.WellPlaced env := by
  induction h with
  | refl holds => exact ⟨t, steps, hRuns, hPlaced⟩
  | tail _ last holds ih =>
    obtain ⟨t', steps', hRuns', hPlaced'⟩ := ih
    obtain ⟨next, -, hNext⟩ := step_thread hRuns' hPlaced' last
    cases next with
    | running t'' => exact ⟨t'', _, hNext⟩
    | halted values store =>
      have hHalted := hNext.halted
      rw [hP _ holds] at hHalted
      cases hHalted

/-- What every step of a thread keeps holds of the threads of all machines of a run. -/
theorem Machine.StepsThrough.thread {env : Env} {m m' : Machine} {t : Thread} {steps : Nat}
    {P : Thread → Prop}
    (hP : ∀ {t t' : Thread}, t.WellPlaced env → P t → t.step env = .ok (.running t') → P t')
    (h : Machine.StepsThrough env (fun m => m.halted = false) m m')
    (hRuns : m.Runs env t steps) (hPlaced : t.WellPlaced env) (hThread : P t) :
    ∃ t' steps', m'.Runs env t' steps' ∧ t'.WellPlaced env ∧ P t' := by
  induction h with
  | refl _ => exact ⟨t, steps, hRuns, hPlaced, hThread⟩
  | tail _ last holds ih =>
    obtain ⟨t', steps', hRuns', hPlaced', hThread'⟩ := ih
    obtain ⟨next, hStep, hNext⟩ := step_thread hRuns' hPlaced' last
    cases next with
    | running t'' => exact ⟨t'', _, hNext.1, hNext.2, hP hPlaced' hThread' hStep⟩
    | halted values store =>
      have hHalted := hNext.halted
      rw [holds] at hHalted
      cases hHalted

/-- The run of a call stays above its caller until it comes back to it. -/
theorem Machine.StepsThrough.nested {env : Env} {m m' : Machine} {t : Thread} {steps : Nat}
    {A : Activity} {callers : List Activity} {place : CodePoint} {signature : FunctionType}
    (h : Machine.StepsThrough env (fun s => s.halted = false ∧ callers.length + 1 < s.depth) m m')
    (hRuns : m.Runs env t steps) (hPlaced : t.WellPlaced env)
    (hNested : Nested A callers place signature (t.activity :: t.callers)) :
    ∃ t' steps', m'.Runs env t' steps' ∧ t'.WellPlaced env ∧
      Nested A callers place signature (t'.activity :: t'.callers) := by
  induction h with
  | refl holds => exact ⟨t, steps, hRuns, hPlaced, hNested⟩
  | tail _ last holds ih =>
    obtain ⟨t', steps', hRuns', hPlaced', hNested'⟩ := ih
    obtain ⟨next, hStep, hNext⟩ := step_thread hRuns' hPlaced' last
    rcases hNested'.step hPlaced' hStep with ⟨t'', rfl, hInner⟩ | ⟨top, -, rfl⟩
    · exact ⟨t'', _, hNext.1, hNext.2, hInner⟩
    · have hDepth := hNext.1.depth_eq
      simp only at hDepth
      omega

open Machine in
/-- From a call to its return, the frames of the caller do not change. -/
theorem resumes_of_call {env : Env} {m m₁ m₂ m' : Machine} {t : Thread} {steps : Nat}
    (hRuns : m.Runs env t steps) (hPlaced : t.WellPlaced env)
    (hCall : step env m = .ok () m₁) (hDeeper : m.depth < m₁.depth)
    (hInside : StepsThrough env (fun s => s.halted = false ∧ m.depth < s.depth) m₁ m₂)
    (hReturn : step env m₂ = .ok () m') (hBack : m'.depth ≤ m.depth) : Resumes env m m' := by
  obtain ⟨next, hStep, hNext⟩ := step_thread hRuns hPlaced hCall
  rw [hRuns.depth_eq] at hDeeper hInside hBack
  obtain ⟨b, i, past, -, -, hEffect⟩ := Thread.step_effect hPlaced hStep
  cases hEffect with
  | inside stays A store offset same =>
    have hDepth : m₁.depth = t.callers.length + 1 := hNext.1.depth_eq
    omega
  | @ret top place caller rest site returns hCallers =>
    have hDepth : m₁.depth = rest.length + 1 := hNext.1.depth_eq
    have hLength : t.callers.length = rest.length + 1 := by rw [hCallers, List.length_cons]
    omega
  | @halt top site returns hCallers =>
    have hDepth : m₁.depth = 0 := Machine.Rests.depth_eq hNext
    omega
  | @call left index place f arguments offset enters site =>
    have hStart : Nested (t.withOperands left).activity t.callers ⟨t.pc.code, offset⟩ f.signature
        ((t.jump offset).callActivity index f arguments :: (t.withOperands left).activity ::
          t.callers) :=
      ⟨[], _, rfl, rfl, rfl⟩
    obtain ⟨t₂, steps₂, hRuns₂, hPlaced₂, hNested₂⟩ :=
      hInside.nested hNext.1 hNext.2 hStart
    obtain ⟨last, hLast, hEnd⟩ := step_thread hRuns₂ hPlaced₂ hReturn
    rcases hNested₂.step hPlaced₂ hLast with ⟨t', rfl, inner, C, hEq, -⟩ | ⟨top, hTypes, rfl⟩
    · have hDepth := hEnd.1.depth_eq
      have hLength := congrArg List.length hEq
      simp only [List.length_cons, List.length_append] at hLength
      omega
    · have hRuns' := hEnd.1
      refine ⟨_, index, place, f, arguments, offset, top.reverse, hRuns.callSite site, ?_, ?_, ?_,
        hRuns'.halted, ?_, ?_, ?_⟩
      · rw [List.map_reverse, hTypes]
      · rw [hRuns'.frames_eq]
        exact framesOf_operands (t.withOperands left).activity top left t.callers
      · rw [hRuns'.pc, hRuns.pc]
      · rw [hRuns'.labels_eq, hRuns.labels_eq]
        rfl
      · rw [hRuns'.activation_eq, hRuns.activation_eq]
        rfl
      · rw [hRuns'.position_eq, hRuns.position_eq]

/-! ## Invocations -/

namespace Session

/-- An invocation of a session gets to a machine that has not halted. -/
def Visits (s : Session) (index : UInt32) (arguments : List Value) (m : Machine) : Prop :=
  ∃ signature, s.checkArguments index arguments = .ok signature ∧
    Machine.StepsThrough (s.environment index) (fun m => m.halted = false)
      (s.opening signature arguments) m

/-- All machines that an invocation gets to have threads. -/
theorem Consistent.runs_of_visits {s : Session} (h : s.Consistent) {index : UInt32}
    {arguments : List Value} {m : Machine} (hVisits : s.Visits index arguments m) :
    ∃ t steps, m.Runs (s.environment index) t steps ∧ t.WellPlaced (s.environment index) := by
  obtain ⟨signature, -, hSteps⟩ := hVisits
  exact hSteps.runs (fun _ hRunning => hRunning) (h.opening_runs index signature arguments)
    (Thread.start_wellPlaced _ _ _ _)

/-- What the call of the first function runs in, when no start function is due. -/
theorem environment_zero {i : Instance} (h : i.program.start = none) {config : Config}
    {journal : Journal} :
    (ofInstance i config journal).environment 0 =
      ⟨i.program, config, #[callByte, 0, endByte], true⟩ := by
  have hZero : Leb128.encodeU32 0 = [0] := by
    rw [Leb128.encodeU32, Leb128.encodeUnsigned]
    rfl
  simp [environment, ofInstance, driverCode, callCode, hZero, h]

end Session

end WasmMachine
