import WasmMachine.Proofs.Machine.Isolation
import WasmMachine.Proofs.Structured.Labels

/-!
# Stages of an invocation

The driver sequence of an invocation makes its calls one after the other: the start function if it
is due, then the requested function. Whatever code the functions have, an invocation is either
between two of these calls, with nothing but the outermost activation and operands on the stack, or
within one of them. It passes through these stages in order and can only end after the last one.

* `Machine.CallReturns`: a whole call, from the instruction of the caller to its return.
* `Session.Between`, `Session.Within`: the stages, with the steps that lead from one to the next.
* `Session.Consistent.stage`: every machine that an invocation visits is in one of them.
-/

namespace WasmMachine

open Stack

/-! ## Whole calls -/

theorem Program.signature_of_callee {p : Program} {index : UInt32} {place : Nat} {f : Function}
    (h : p.callee index = .ok (.defined place f)) : p.signature index = .ok f.signature := by
  rw [Program.signature, h]
  rfl

theorem map_value_injective : Function.Injective (List.map Frame.value) :=
  List.map_injective_iff.2 fun _ _ hEq => Frame.value.inj hEq

/-- Frames that end with values, when all of them but the first are values. -/
theorem values_of_append {a : ActivationFrame} {kept : List Frame} {values taken : List Value}
    (h : Frame.activation a :: values.map .value = kept ++ taken.map .value) :
    ∃ left, kept = .activation a :: left.map .value ∧ values = left ++ taken := by
  cases kept with
  | nil =>
    cases taken with
    | nil => cases h
    | cons v rest => cases h
  | cons f frames =>
    obtain ⟨hHead, hTail⟩ := List.cons.inj h
    cases hHead
    obtain ⟨left, right, hValues, hLeft, hRight⟩ := List.map_eq_append_iff.1 hTail
    exact ⟨left, by rw [hLeft], by rw [hValues, map_value_injective hRight]⟩

namespace Machine

/-- From `m` to `m'` a call of the function of the index runs as a whole: it takes its arguments
from above the frames `kept`, the machine is deeper than its caller until the call returns, and
then the caller goes on past the call with the results above `kept`. -/
structure CallReturns (env : Env) (index : UInt32) (kept : List Frame) (results : List Value)
    (m m' : Machine) : Prop where
  site : ∃ place f arguments next, m.CallSite env kept index place f arguments next ∧
    results.map Value.type = f.signature.results ∧ m'.pc = ⟨m.pc.code, next⟩
  inside : ∃ m₁ m₂, step env m = .ok () m₁ ∧
    StepsThrough env (fun s => s.halted = false ∧ m.depth < s.depth) m₁ m₂ ∧
    step env m₂ = .ok () m'
  frames : m'.frames = kept ++ results.map .value

/-- Calls of the given functions that run one after the other, each from where the last one
returned. -/
inductive CallsReturn (env : Env) : List UInt32 → Machine → Machine → Prop
  | nil {m : Machine} : CallsReturn env [] m m
  | cons {index : UInt32} {rest : List UInt32} {kept : List Frame} {results : List Value}
      {m m' m'' : Machine} (first : CallReturns env index kept results m m')
      (others : CallsReturn env rest m' m'') : CallsReturn env (index :: rest) m m''

theorem CallsReturn.append {env : Env} {calls more : List UInt32} {m m' m'' : Machine}
    (h : CallsReturn env calls m m') (hMore : CallsReturn env more m' m'') :
    CallsReturn env (calls ++ more) m m'' := by
  induction h with
  | nil => exact hMore
  | cons first _ ih => exact .cons first (ih hMore)

theorem CallsReturn.split {env : Env} {calls more : List UInt32} {m m'' : Machine}
    (h : CallsReturn env (calls ++ more) m m'') :
    ∃ m', CallsReturn env calls m m' ∧ CallsReturn env more m' m'' := by
  induction calls generalizing m with
  | nil => exact ⟨m, .nil, h⟩
  | cons index rest ih =>
    cases h with
    | cons first others =>
      obtain ⟨m', hRest, hMore⟩ := ih others
      exact ⟨m', .cons first hRest, hMore⟩

/-- The call at a machine is the one that its instruction says. -/
theorem CallSite.of_decodes {env : Env} {m : Machine} {kept : List Frame} {index index' : UInt32}
    {place next next' : Nat} {f : Function} {arguments : List Value}
    (h : m.CallSite env kept index place f arguments next)
    (hDecodes : m.Decodes env (.call index') next') :
    index = index' ∧ next = next' ∧ m.frames = kept ++ arguments.map .value := by
  obtain ⟨i, hFound, hFrames⟩ := h.frames
  obtain ⟨rfl, rfl⟩ := hFound.unique hDecodes
  rcases hFrames with ⟨hCall, hFrames⟩ | ⟨_, _, hIndirect, -⟩
  · cases hCall
    exact ⟨rfl, rfl, hFrames⟩
  · cases hIndirect

/-! ## Runs step by step -/

theorem StepsThrough.first {env : Env} {P : Machine → Prop} {m m' : Machine}
    (h : StepsThrough env P m m') : P m := by
  induction h with
  | refl holds => exact holds
  | tail _ _ _ ih => exact ih

theorem StepsThrough.mono {env : Env} {P Q : Machine → Prop} {m m' : Machine}
    (h : StepsThrough env P m m') (hImp : ∀ m, P m → Q m) : StepsThrough env Q m m' := by
  induction h with
  | refl holds => exact .refl (hImp _ holds)
  | tail _ last holds ih => exact .tail ih last (hImp _ holds)

theorem StepsThrough.trans {env : Env} {P : Machine → Prop} {m m' m'' : Machine}
    (h : StepsThrough env P m m') (hMore : StepsThrough env P m' m'') :
    StepsThrough env P m m'' := by
  induction hMore with
  | refl _ => exact h
  | tail _ last holds ih => exact .tail ih last holds

theorem StepsThrough.head {env : Env} {P : Machine → Prop} {m m' m'' : Machine} (holds : P m)
    (hStep : step env m = .ok () m') (h : StepsThrough env P m' m'') :
    StepsThrough env P m m'' :=
  ((StepsThrough.refl holds).tail hStep h.first).trans h

/-- Without a step limit, the machine goes where its thread goes. -/
theorem Runs.steps_of_goes {env : Env} {m : Machine} {t t' : Thread} {steps n : Nat}
    (hRuns : m.Runs env t steps) (hPlaced : t.WellPlaced env)
    (hLimit : env.config.maxSteps = none) (h : t.Goes env n (.running t')) :
    ∃ m', StepsThrough env (fun s => s.halted = false) m m' ∧ m'.Runs env t' (steps + n) ∧
      t'.WellPlaced env := by
  generalize hEnd : Next.running t' = next at h
  induction h generalizing m steps with
  | here t =>
    cases hEnd
    exact ⟨m, .refl hRuns.halted, hRuns, hPlaced⟩
  | @step n t₀ t₁ next first _ ih =>
    obtain ⟨m₁, hStep, hRuns₁⟩ := hRuns.step_running hPlaced hLimit first
    obtain ⟨m', hSteps, hRuns', hPlaced'⟩ := ih hRuns₁ (hPlaced.step first) hEnd
    refine ⟨m', hSteps.head hRuns.halted hStep, ?_, hPlaced'⟩
    rwa [Nat.add_right_comm] at hRuns'
  | halt last => cases hEnd

end Machine

/-- A run that halts has a last step. -/
theorem exists_last_of_run {env : Env} {fuel : Nat} {m : Machine} {j : Journal}
    (hRunning : m.halted = false) (h : (run env fuel m j).outcome = .halted) :
    ∃ m', Machine.StepsThrough env (fun s => s.halted = false) m m' ∧
      step env m' = .ok () (run env fuel m j).machine ∧
      (run env fuel m j).machine.halted = true := by
  induction fuel generalizing m j with
  | zero =>
    rw [run, hRunning] at h
    cases h
  | succ fuel ih =>
    rw [run_step hRunning] at h ⊢
    cases hStep : step env m with
    | error f m' =>
      rw [hStep] at h
      cases h
    | ok u m' =>
      rw [hStep] at h
      simp only at h ⊢
      cases hHalted : m'.halted with
      | true =>
        rw [run_halted hHalted]
        exact ⟨m, .refl hRunning, hStep, hHalted⟩
      | false =>
        obtain ⟨last, hSteps, hLast, hEnd⟩ := ih hHalted h
        exact ⟨last, hSteps.head hRunning hStep, hLast, hEnd⟩

/-! ## The driver sequence -/

namespace Session

/-- The start function, if the next invocation that passes its argument check calls it. -/
def due (s : Session) : Option UInt32 := if s.started then none else s.program.start

/-- The functions that the driver sequence of an invocation calls, in order. -/
def calls (s : Session) (index : UInt32) : List UInt32 := s.due.toList ++ [index]

/-- The number of bytes of the calls of some functions. -/
def callsLength (calls : List UInt32) : Nat := (calls.flatMap callCode).length

theorem callsLength_append (calls more : List UInt32) :
    callsLength (calls ++ more) = callsLength calls + callsLength more := by
  rw [callsLength, callsLength, callsLength, List.flatMap_append, List.length_append]

theorem callsLength_singleton (index : UInt32) :
    callsLength [index] = (callCode index).length := by
  rw [callsLength, List.flatMap_singleton]

theorem callsLength_pos (index : UInt32) (rest : List UInt32) :
    0 < callsLength (index :: rest) := by
  rw [callsLength, List.flatMap_cons, callCode]
  simp

/-- Parts of the driver sequence that start with it are told apart by their lengths. -/
theorem eq_of_callsLength_eq {done rest done' rest' : List UInt32}
    (h : done ++ rest = done' ++ rest') (hLength : callsLength done = callsLength done') :
    done = done' := by
  rcases List.append_eq_append_iff.1 h with ⟨between, rfl, -⟩ | ⟨between, rfl, -⟩
  · cases between with
    | nil => rw [List.append_nil]
    | cons index more =>
      have hPos := callsLength_pos index more
      rw [callsLength_append] at hLength
      omega
  · cases between with
    | nil => rw [List.append_nil]
    | cons index more =>
      have hPos := callsLength_pos index more
      rw [callsLength_append] at hLength
      omega

theorem standsAt_calls (s : Session) (index : UInt32) :
    StandsAt ((s.environment index).code .driver) 0
      ((s.calls index).flatMap callCode ++ [endByte]) := by
  refine ⟨[], ?_⟩
  change (driverCode s.due index).toList.drop 0 = _
  unfold calls
  cases s.due with
  | none => simp [driverCode]
  | some start => simp [driverCode]

theorem standsAt_rest {s : Session} {index : UInt32} {done rest : List UInt32}
    (h : s.calls index = done ++ rest) :
    StandsAt ((s.environment index).code .driver) (callsLength done)
      (rest.flatMap callCode ++ [endByte]) := by
  have hAll := s.standsAt_calls index
  rw [h, List.flatMap_append, List.append_assoc] at hAll
  have hRest := hAll.append_right
  rw [Nat.zero_add] at hRest
  exact hRest

theorem decodesTo_next {s : Session} {index next : UInt32} {done rest : List UInt32}
    (h : s.calls index = done ++ next :: rest) :
    DecodesTo ((s.environment index).code .driver) (callsLength done) (.call next)
      (callsLength (done ++ [next])) := by
  have hRest := standsAt_rest h
  rw [List.flatMap_cons, List.append_assoc] at hRest
  rw [callsLength_append, callsLength_singleton]
  exact decodesTo_call hRest.append_left

theorem decodesTo_last {s : Session} {index : UInt32} {done : List UInt32}
    (h : s.calls index = done) :
    DecodesTo ((s.environment index).code .driver) (callsLength done) .blockEnd
      (callsLength done + 1) := by
  have hRest := standsAt_rest (h.trans (List.append_nil done).symm)
  exact decodesTo_end hRest.head

/-- The activation under which the driver sequence runs: it keeps the results. -/
def driverActivation (signature : FunctionType) : ActivationFrame where
  function := none
  locals := #[]
  returnTo := none
  signature := { parameters := [], results := signature.results }

end Session

/-! ## Threads in the driver sequence -/

namespace Thread

theorem step_of_decodesTo {env : Env} {t : Thread} {i : Instruction} {next : Nat}
    (h : DecodesTo (env.code t.pc.code) t.pc.offset i next) :
    t.step env = exec env t.pc.offset i (t.jump next) := by
  obtain ⟨b, hByte, hDecode⟩ := h
  simp only [step, hByte, hDecode]

/-- A call that succeeds enters a defined function with the operands on top. -/
theorem call_eq_ok {env : Env} {index : UInt32} {t : Thread} {next : Next}
    (h : t.call env index = .ok next) :
    ∃ place f arguments left, env.program.callee index = .ok (.defined place f) ∧
      arguments.map Value.type = f.signature.parameters ∧
      t.activity.operands = arguments.reverse ++ left ∧
      next = .running ((t.withOperands left).enter index place f arguments) := by
  unfold call at h
  split at h
  · cases h
  · cases h
  · rename_i place f hCallee
    split at h
    · cases h
    · split at h
      · cases h
      · rename_i arguments left hTake
        cases h
        obtain ⟨hOperands, hTypes⟩ := popParams_eq_ok hTake
        exact ⟨place, f, arguments, left, hCallee, hTypes, hOperands, rfl⟩

/-- The thread executes the driver sequence at an offset: there are no callers and no open
blocks. -/
structure InDriver (signature : FunctionType) (offset : Nat) (t : Thread) : Prop where
  activation : t.activity.activation = Session.driverActivation signature
  blocks : t.activity.blocks = []
  callers : t.callers = []
  pc : t.pc = ⟨.driver, offset⟩

variable {env : Env} {t : Thread} {signature : FunctionType} {offset : Nat}

theorem InDriver.step_call (h : t.InDriver signature offset) {index : UInt32} {past : Nat}
    (hCode : DecodesTo (env.code .driver) offset (.call index) past) {next : Next}
    (hStep : t.step env = .ok next) :
    ∃ left place f arguments, t.CallSite env left index place f arguments past ∧
      t.activity.operands = arguments.reverse ++ left ∧
      next = .running (((t.jump past).withOperands left).enter index place f arguments) := by
  have hDecodes : DecodesTo (env.code t.pc.code) t.pc.offset (.call index) past := by
    rw [h.pc]
    exact hCode
  rw [step_of_decodesTo hDecodes] at hStep
  obtain ⟨place, f, arguments, left, hCallee, hTypes, hOperands, rfl⟩ := call_eq_ok hStep
  obtain ⟨b, hByte, hDecode⟩ := hDecodes
  exact ⟨left, place, f, arguments,
    ⟨hCallee, hTypes, b, _, hByte, hDecode, .inl ⟨rfl, hOperands⟩⟩, hOperands, rfl⟩

/-- The end of the driver sequence leaves the outermost activation with the operands on top. -/
theorem InDriver.step_end (h : t.InDriver signature offset)
    (hCode : DecodesTo (env.code .driver) offset .blockEnd (offset + 1)) {next : Next}
    (hStep : t.step env = .ok next) :
    next = .halted (t.activity.operands.take signature.results.length) t.store := by
  have hDecodes : DecodesTo (env.code t.pc.code) t.pc.offset .blockEnd (offset + 1) := by
    rw [h.pc]
    exact hCode
  rw [step_of_decodesTo hDecodes] at hStep
  change (t.jump (offset + 1)).closeBlock = _ at hStep
  have hBlocks : (t.jump (offset + 1)).activity.blocks = [] := h.blocks
  have hActivation : (t.jump (offset + 1)).activity.activation =
      Session.driverActivation signature := h.activation
  unfold closeBlock at hStep
  rw [hBlocks] at hStep
  simp only [leave, hActivation] at hStep
  split at hStep
  · cases hStep
  · rename_i top hTop
    obtain ⟨rfl, -⟩ := carried?_eq_some hTop
    cases hStep
    rfl

end Thread

/-! ## Stages -/

namespace Session

variable {s : Session} {index next : UInt32} {signature : FunctionType} {arguments : List Value}
  {done rest : List UInt32} {m m' : Machine}

/-- The driver has made the calls `done`, all of which have returned, and `rest` is still to be
done. -/
structure Between (s : Session) (index : UInt32) (signature : FunctionType)
    (arguments : List Value) (done rest : List UInt32) (m : Machine) : Prop where
  calls : s.calls index = done ++ rest
  returned : Machine.CallsReturn (s.environment index) done (s.opening signature arguments) m
  thread : ∃ t steps, m.Runs (s.environment index) t steps ∧ t.WellPlaced (s.environment index) ∧
    t.InDriver signature (callsLength done)

/-- The driver has made the calls `done` and is waiting for `next` to return. -/
structure Within (s : Session) (index : UInt32) (signature : FunctionType)
    (arguments : List Value) (done : List UInt32) (next : UInt32) (rest : List UInt32)
    (m : Machine) : Prop where
  inside : ∃ m₀ m₁, s.Between index signature arguments done (next :: rest) m₀ ∧
    step (s.environment index) m₀ = .ok () m₁ ∧
    Machine.StepsThrough (s.environment index) (fun s => s.halted = false ∧ m₀.depth < s.depth)
      m₁ m

theorem Between.depth_eq (h : s.Between index signature arguments done rest m) : m.depth = 1 := by
  obtain ⟨t, steps, hRuns, -, hDriver⟩ := h.thread
  rw [hRuns.depth_eq, hDriver.callers]
  rfl

theorem Between.pc_eq (h : s.Between index signature arguments done rest m) :
    m.pc = ⟨.driver, callsLength done⟩ := by
  obtain ⟨t, steps, hRuns, -, hDriver⟩ := h.thread
  rw [hRuns.pc, hDriver.pc]

theorem Between.decodes_next (h : s.Between index signature arguments done (next :: rest) m) :
    m.Decodes (s.environment index) (.call next) (callsLength (done ++ [next])) := by
  obtain ⟨b, hByte, hDecode⟩ := decodesTo_next h.calls
  refine ⟨b, ?_, ?_⟩
  · rw [fetch?, h.pc_eq]
    exact hByte
  · rw [h.pc_eq]
    exact hDecode

theorem Within.lt_depth (h : s.Within index signature arguments done next rest m) :
    1 < m.depth := by
  obtain ⟨m₀, m₁, hBetween, -, hSteps⟩ := h.inside
  have hDepth := hBetween.depth_eq
  cases hSteps with
  | refl holds => omega
  | tail _ _ holds => omega

/-- An invocation starts before all calls. -/
theorem Consistent.between_opening (h : s.Consistent) (index : UInt32) (signature : FunctionType)
    (arguments : List Value) :
    s.Between index signature arguments [] (s.calls index) (s.opening signature arguments) where
  calls := rfl
  returned := .nil
  thread := ⟨_, _, h.opening_runs index signature arguments, Thread.start_wellPlaced _ _ _ _,
    rfl, rfl, rfl, rfl⟩

/-- A step before a call enters the function, with the operands on top as its arguments. -/
theorem Between.step_call (h : s.Between index signature arguments done (next :: rest) m)
    (hStep : step (s.environment index) m = .ok () m') :
    s.Within index signature arguments done next rest m' ∧ m'.depth = 2 ∧
      ∃ (kept : List Frame) (place : Nat) (f : Function) (taken : List Value),
        s.program.callee next = .ok (.defined place f) ∧
        taken.map Value.type = f.signature.parameters ∧
        m.frames = kept ++ taken.map .value ∧
        m'.stack.activation? = some
          { function := some next
            locals := taken.toArray ++ f.locals.extract taken.length f.locals.size
            returnTo := some ⟨.driver, callsLength (done ++ [next])⟩
            signature := f.signature } := by
  obtain ⟨t, steps, hRuns, hPlaced, hDriver⟩ := h.thread
  obtain ⟨found, hFound, hNext⟩ := step_thread hRuns hPlaced hStep
  obtain ⟨left, place, f, taken, hSite, hOperands, rfl⟩ :=
    hDriver.step_call (decodesTo_next h.calls) hFound
  obtain ⟨hRuns', -⟩ := hNext
  have hBefore := h.depth_eq
  have hDepth : m'.depth = 2 := by
    rw [hRuns'.depth_eq]
    change (t.callers.length + 1) + 1 = 2
    rw [hDriver.callers]
    rfl
  have hFrames := framesOf_operands t.activity taken.reverse left t.callers
  rw [← hOperands, List.reverse_reverse] at hFrames
  refine ⟨⟨m, m', h, hStep, .refl ⟨hRuns'.halted, by omega⟩⟩, hDepth,
    framesOf ((t.withOperands left).activity :: t.callers), place, f, taken, hSite.callee,
    hSite.types, hRuns.frames_eq.trans hFrames, ?_⟩
  rw [hRuns'.activation_eq]
  change some (ActivationFrame.mk _ _ (some ⟨t.pc.code, _⟩) _) = _
  rw [hDriver.pc]

/-- After the last call, a step leaves the outermost activation, which halts the machine. It keeps
the operands on top. -/
theorem Between.step_end (h : s.Between index signature arguments done [] m)
    (hStep : step (s.environment index) m = .ok () m') :
    m'.halted = true ∧ m'.depth = 0 ∧ ∃ operands : List Value,
      m.frames = .activation (driverActivation signature) :: operands.map .value ∧
      m'.stack = ofFrames ((operands.reverse.take signature.results.length).map .value) := by
  obtain ⟨t, steps, hRuns, hPlaced, hDriver⟩ := h.thread
  obtain ⟨found, hFound, hNext⟩ := step_thread hRuns hPlaced hStep
  have hLast := decodesTo_last (h.calls.trans (List.append_nil done))
  obtain rfl := hDriver.step_end hLast hFound
  refine ⟨hNext.halted, Machine.Rests.depth_eq hNext, t.activity.operands.reverse, ?_, ?_⟩
  · rw [hRuns.frames_eq, framesOf_cons, hDriver.callers, hDriver.activation, Activity.region,
      hDriver.blocks]
    simp [framesOf]
  · rw [List.reverse_reverse]
    exact hNext.stack

/-- A step within a call stays within it, or the call returns. -/
theorem Within.step (h : s.Within index signature arguments done next rest m)
    (hStep : step (s.environment index) m = .ok () m') :
    s.Within index signature arguments done next rest m' ∨
      s.Between index signature arguments (done ++ [next]) rest m' := by
  obtain ⟨m₀, m₁, hBetween, hCall, hInside⟩ := h.inside
  obtain ⟨t₀, steps₀, hRuns₀, hPlaced₀, hDriver₀⟩ := hBetween.thread
  have hDepth₀ := hBetween.depth_eq
  have hDeeper : m₀.depth < m₁.depth := hInside.first.2
  obtain ⟨t, steps, hRuns, hPlaced⟩ : ∃ t steps, m.Runs (s.environment index) t steps ∧
      t.WellPlaced (s.environment index) := by
    obtain ⟨found, hFound, hNext⟩ := step_thread hRuns₀ hPlaced₀ hCall
    obtain ⟨_, _, _, _, -, -, rfl⟩ :=
      hDriver₀.step_call (decodesTo_next hBetween.calls) hFound
    exact hInside.runs (fun _ hs => hs.1) hNext.1 hNext.2
  obtain ⟨found, hFound, hNext⟩ := step_thread hRuns hPlaced hStep
  by_cases hBack : m'.depth ≤ m₀.depth
  · right
    obtain ⟨kept, callee, place, f, taken, past, results, hSite, hTypes, hFrames, hPc, hHalted,
      hLabels, hActivation, -⟩ := resumes_of_call hRuns₀ hPlaced₀ hCall hDeeper hInside hStep hBack
    -- The call that came back is the one that stands in the driver sequence.
    obtain ⟨rfl, rfl, -⟩ := hSite.of_decodes hBetween.decodes_next
    have hReturns : Machine.CallReturns (s.environment index) callee kept results m₀ m' :=
      ⟨⟨place, f, taken, _, hSite, hTypes, hPc⟩, ⟨m₁, m, hCall, hInside, hStep⟩, hFrames⟩
    refine ⟨?_, hBetween.returned.append (.cons hReturns .nil), ?_⟩
    · rw [hBetween.calls, List.append_assoc, List.singleton_append]
    · cases found with
      | halted values store =>
        have hEnd := hNext.halted
        rw [hHalted] at hEnd
        cases hEnd
      | running t' =>
        obtain ⟨hRuns', hPlaced'⟩ := hNext
        refine ⟨t', _, hRuns', hPlaced', ?_, ?_, ?_, ?_⟩
        · rw [hRuns'.activation_eq, hRuns₀.activation_eq, hDriver₀.activation] at hActivation
          exact Option.some.inj hActivation
        · rw [hRuns'.labels_eq, hRuns₀.labels_eq, hDriver₀.blocks] at hLabels
          exact List.length_eq_zero_iff.1 hLabels
        · have hDepth := hRuns'.depth_eq
          exact List.length_eq_zero_iff.1 (by omega)
        · rw [← hRuns'.pc, hPc, hBetween.pc_eq]
  · left
    have hHalted : m'.halted = false := by
      cases found with
      | running t' => exact hNext.1.halted
      | halted values store =>
        have hDepth := Machine.Rests.depth_eq hNext
        omega
    exact ⟨m₀, m₁, hBetween, hCall, hInside.tail hStep ⟨hHalted, by omega⟩⟩

/-- Every machine that an invocation visits is between two calls of the driver sequence or within
one of them. -/
theorem Consistent.stage (h : s.Consistent)
    (hSteps : Machine.StepsThrough (s.environment index) (fun m => m.halted = false)
      (s.opening signature arguments) m) :
    (∃ done rest, s.Between index signature arguments done rest m) ∨
      ∃ done next rest, s.Within index signature arguments done next rest m := by
  induction hSteps with
  | refl _ => exact .inl ⟨[], _, h.between_opening index signature arguments⟩
  | tail _ last holds ih =>
    rcases ih with ⟨done, rest, hBetween⟩ | ⟨done, next, rest, hWithin⟩
    · cases rest with
      | nil =>
        have hHalted := (hBetween.step_end last).1
        rw [holds] at hHalted
        cases hHalted
      | cons next rest => exact .inr ⟨done, next, rest, (hBetween.step_call last).1⟩
    · rcases hWithin.step last with hWithin' | hBetween
      · exact .inr ⟨done, next, rest, hWithin'⟩
      · exact .inl ⟨_, rest, hBetween⟩

end Session

end WasmMachine
