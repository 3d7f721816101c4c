import WasmMachine.Proofs.Session.Stages
import WasmMachine.Proofs.Typing.Soundness

/-!
# Arguments of an invocation

The arguments of an invocation are pushed before the driver sequence runs, so they are on the stack
while the start function runs. The function it calls takes operands like any other: those that the
start function takes are the last arguments, and those that it returns come to stand above the
arguments that are left. The requested function takes what is on top then. Where the start function
returns nothing, that can only be the arguments, since otherwise too few are left.

* `Session.AfterStart`: what the call of the start function makes of the arguments.
* `Session.entered_with_arguments`: what the requested function is entered with.
* `Session.arguments_not_passed`: a start function that returns a value gets it passed instead.
-/

namespace WasmMachine

open Stack

namespace Session

/-- The driver is about to call the requested function. -/
def AtRequest (s : Session) (m : Machine) : Prop :=
  m.depth = 1 ∧ m.pc = ⟨.driver, callsLength s.due.toList⟩

/-- The driver has come to the request with some operands. If no start function is due, it is there
from the beginning and has the arguments. Otherwise the call of the start function has taken the
last of the arguments and has returned, and its results stand in their place. -/
def AfterStart (s : Session) (index : UInt32) (signature : FunctionType)
    (arguments operands : List Value) (m : Machine) : Prop :=
  match s.due with
  | none => m = s.opening signature arguments ∧ operands = arguments
  | some start => ∃ (called : FunctionType) (kept taken results : List Value),
    s.program.signature start = .ok called ∧
    arguments = kept ++ taken ∧ taken.map Value.type = called.parameters ∧
    Machine.CallReturns (s.environment index) start
      (.activation (driverActivation signature) :: kept.map .value) results
      (s.opening signature arguments) m ∧
    results.map Value.type = called.results ∧ operands = kept ++ results

/-- The start function, if it is due, returns no values. -/
def StartReturnsNothing (s : Session) : Prop :=
  ∀ start signature, s.due = some start → s.program.signature start = .ok signature →
    signature.results = []

variable {s : Session} {index : UInt32} {signature : FunctionType} {arguments : List Value}
  {m m' : Machine}

/-- Before the request all calls that were due have returned. -/
theorem Consistent.between_of_atRequest (h : s.Consistent)
    (hSteps : Machine.StepsThrough (s.environment index) (fun m => m.halted = false)
      (s.opening signature arguments) m) (hRequest : s.AtRequest m) :
    s.Between index signature arguments s.due.toList [index] m := by
  obtain ⟨hDepth, hPc⟩ := hRequest
  rcases h.stage hSteps with ⟨done, rest, hBetween⟩ | ⟨done, next, rest, hWithin⟩
  · have hOffset : callsLength done = callsLength s.due.toList := by
      rw [hBetween.pc_eq] at hPc
      exact congrArg CodePoint.offset hPc
    have hCalls : done ++ rest = s.due.toList ++ [index] := hBetween.calls.symm
    obtain rfl := eq_of_callsLength_eq hCalls hOffset
    obtain rfl := List.append_cancel_left hCalls
    exact hBetween
  · have hDeep := hWithin.lt_depth
    omega

theorem frames_opening (signature : FunctionType) (arguments : List Value) :
    (s.opening signature arguments).frames =
      .activation (driverActivation signature) :: arguments.map .value := by
  change (initialStack signature arguments).frames.toList = _
  rw [initialStack_eq signature arguments s.machine.store, ofActivities, frames_ofFrames]
  simp [Thread.start, Activity.frames, Activity.region, driverActivation]

theorem afterStart_of_returned (hConsistent : s.Consistent)
    (h : Machine.CallsReturn (s.environment index) s.due.toList (s.opening signature arguments) m) :
    ∃ operands, m.frames = .activation (driverActivation signature) :: operands.map .value ∧
      s.AfterStart index signature arguments operands m := by
  unfold AfterStart
  cases hDue : s.due with
  | none =>
    rw [hDue] at h
    cases h
    exact ⟨arguments, frames_opening signature arguments, rfl, rfl⟩
  | some start =>
    rw [hDue] at h
    cases h with
    | @cons _ _ kept results _ _ _ first others =>
      cases others
      obtain ⟨place, f, taken, past, hSite, hResults, -⟩ := first.site
      have hOpening := hConsistent.between_opening index signature arguments
      rw [calls, hDue] at hOpening
      obtain ⟨-, -, hFrames⟩ := hSite.of_decodes hOpening.decodes_next
      rw [frames_opening] at hFrames
      obtain ⟨left, rfl, hArguments⟩ := values_of_append hFrames
      refine ⟨left ++ results, ?_, f.signature, left, taken, results,
        Program.signature_of_callee hSite.callee, hArguments, hSite.types, first, hResults, rfl⟩
      rw [first.frames, List.map_append, List.cons_append]

/-- The operands that a call takes, of those that were left to the driver. -/
theorem AfterStart.eq_of_suffix {operands left taken : List Value}
    (h : s.AfterStart index signature arguments operands m) (hNothing : s.StartReturnsNothing)
    (hOperands : operands = left ++ taken) (hLength : taken.length = arguments.length) :
    taken = arguments := by
  unfold AfterStart at h
  cases hDue : s.due with
  | none =>
    rw [hDue] at h
    rw [← h.2, hOperands, List.length_append] at hLength
    have hNil : left = [] := List.length_eq_zero_iff.1 (by omega)
    rw [← h.2, hOperands, hNil, List.nil_append]
  | some start =>
    rw [hDue] at h
    obtain ⟨found, kept, gone, results, hFound, hArguments, -, -, hResults, hLeft⟩ := h
    have hEmpty : results = [] := by
      rw [hNothing start found hDue hFound] at hResults
      exact List.map_eq_nil_iff.1 hResults
    rw [hEmpty, List.append_nil, hOperands] at hLeft
    -- Nothing was returned, so the call finds enough operands only if none were taken.
    have hCount := congrArg List.length hLeft
    rw [List.length_append] at hCount
    rw [hArguments, List.length_append] at hLength
    have hNil : left = [] := List.length_eq_zero_iff.1 (by omega)
    have hGone : gone = [] := List.length_eq_zero_iff.1 (by omega)
    rw [hArguments, hGone, List.append_nil, ← hLeft, hNil, List.nil_append]

/-- In every invocation in which the call of the requested function takes effect, whatever the start
function is and earlier requests have done: as many of its first locals as there are arguments are
the operands on top that the driver has at that call. These operands are what the call of the start
function has left of the arguments, followed by what it has returned. They are the arguments, if the
start function is not due or returns nothing. -/
theorem entered_with_arguments (i : Instance) (config : Config) (journal : Journal)
    (requests : List (Nat × Request)) (index : UInt32) (arguments : List Value) (m m' : Machine)
    (hVisits : ((ofInstance i config journal).serve requests).2.Visits index arguments m)
    (hRequest : ((ofInstance i config journal).serve requests).2.AtRequest m)
    (hStep : step (((ofInstance i config journal).serve requests).2.environment index) m =
      .ok () m') :
    let s := ((ofInstance i config journal).serve requests).2
    ∃ (signature : FunctionType) (a : ActivationFrame) (operands : List Value),
      s.program.signature index = .ok signature ∧
      m.frames = .activation (driverActivation signature) :: operands.map .value ∧
      s.AfterStart index signature arguments operands m ∧
      m'.stack.activation? = some a ∧ a.function = some index ∧
      m'.depth = m.depth + 1 ∧
      arguments.length ≤ operands.length ∧
      a.locals.toList.take arguments.length =
        operands.drop (operands.length - arguments.length) ∧
      (s.StartReturnsNothing → a.locals.toList.take arguments.length = arguments) := by
  intro s
  obtain ⟨signature, hCheck, hSteps⟩ := hVisits
  obtain ⟨hSignature, hTypes⟩ := checkArguments_eq_ok.1 hCheck
  have hConsistent := (consistent_ofInstance i config journal).serve requests
  have hBetween := hConsistent.between_of_atRequest hSteps hRequest
  obtain ⟨operands, hFrames, hAfter⟩ := afterStart_of_returned hConsistent hBetween.returned
  obtain ⟨-, hDeeper, kept, place, f, taken, hCallee, hTaken, hTop, hActivation⟩ :=
    hBetween.step_call hStep
  have hDepth := hBetween.depth_eq
  rw [hFrames] at hTop
  obtain ⟨left, -, hOperands⟩ := values_of_append hTop
  have hLength : taken.length = arguments.length := by
    have hSame : signature = f.signature :=
      Except.ok.inj (hSignature.symm.trans (Program.signature_of_callee hCallee))
    have hCount := congrArg List.length (hTaken.trans (hSame ▸ hTypes.symm))
    rw [List.length_map, List.length_map] at hCount
    exact hCount
  have hLocals : (taken.toArray ++ f.locals.extract taken.length f.locals.size).toList.take
      arguments.length = taken := by
    rw [Array.toList_append, ← hLength]
    exact List.take_left
  refine ⟨signature, _, operands, hSignature, hFrames, hAfter, hActivation, rfl, by omega, ?_, ?_,
    ?_⟩
  · rw [hOperands, List.length_append]
    omega
  · have hDrop : operands.length - arguments.length = left.length := by
      rw [hOperands, List.length_append]
      omega
    rw [hLocals, hDrop, hOperands]
    exact List.drop_left.symm
  · intro hNothing
    rw [hLocals]
    exact hAfter.eq_of_suffix hNothing hOperands hLength

/-! ## An echo after a start function -/

/-- Code that gives back the first local. -/
def localCode : Bytes := #[0x20, 0x00, endByte]

/-- A module whose start function has one local and the given results and code. Its other function
gives its argument back. -/
def echoModule (results : List ValueType) (code : Bytes) : Module where
  name := "echo"
  types := #[⟨[], results⟩, ⟨[.i32], [.i32]⟩]
  functions := #[0, 1]
  start := some 0
  code := #[{ locals := #[.i32], code, position := 0 },
    { locals := #[], code := localCode, position := 0 }]

def echoInstance (results : List ValueType) (code : Bytes) : Instance where
  program :=
    { types := #[⟨[], results⟩, ⟨[.i32], [.i32]⟩]
      imported := #[]
      functions := #[
        { index := 0
          typeIndex := 0
          signature := ⟨[], results⟩
          code
          position := 0
          locals := #[.i32 0] },
        { index := 1
          typeIndex := 1
          signature := ⟨[.i32], [.i32]⟩
          code := localCode
          position := 0
          locals := #[.i32 0] }]
      start := some 0
      entry := none }
  store := { globals := #[], memories := #[], tables := #[], callCounts := #[0, 0] }

theorem instantiate_echoModule (results : List ValueType) (code : Bytes) :
    instantiate (echoModule results code) {} = .ok (echoInstance results code) := by
  with_unfolding_all rfl

theorem encodeU32_zero : Leb128.encodeU32 0 = [0] := by
  rw [Leb128.encodeU32, Leb128.encodeUnsigned]
  rfl

theorem encodeU32_one : Leb128.encodeU32 1 = [1] := by
  rw [Leb128.encodeU32, Leb128.encodeUnsigned]
  rfl

/-- What the echo runs in. -/
def echoEnv (results : List ValueType) (code : Bytes) : Env :=
  ⟨(echoInstance results code).program, {}, #[callByte, 0, callByte, 1, endByte], true⟩

theorem environment_echoInstance (results : List ValueType) (code : Bytes) :
    (ofInstance (echoInstance results code) {} {}).environment 1 = echoEnv results code := by
  simp [environment, ofInstance, driverCode, callCode, encodeU32_zero, encodeU32_one, echoInstance,
    echoEnv]

/-- The driver at the request, with the given operands. -/
def echoRequest (operands : List Value) : Thread where
  activity := ⟨operands, [], driverActivation ⟨[.i32], [.i32]⟩⟩
  callers := []
  store := { globals := #[], memories := #[], tables := #[], callCounts := #[1, 0] }
  pc := ⟨.driver, 2⟩

/-- An invocation that comes to the request with some operands calls the echo. -/
theorem echo_request {results : List ValueType} {code : Bytes} {n : Nat} {operands : List Value}
    {t : Thread}
    (hGoes : (Thread.start ⟨[.i32], [.i32]⟩ [.i32 5] (echoInstance results code).store).Goes
      (echoEnv results code) n (.running (echoRequest operands)))
    (hCall : (echoRequest operands).step (echoEnv results code) = .ok (.running t)) :
    ∃ m m', (ofInstance (echoInstance results code) {} {}).Visits 1 [.i32 5] m ∧
      (ofInstance (echoInstance results code) {} {}).AtRequest m ∧
      step ((ofInstance (echoInstance results code) {} {}).environment 1) m = .ok () m' ∧
      m.frames = .activation (driverActivation ⟨[.i32], [.i32]⟩) :: operands.reverse.map .value ∧
      m'.stack.activation? = some t.activity.activation := by
  rw [← environment_echoInstance] at hGoes hCall
  have hRuns := (consistent_ofInstance (echoInstance results code) {} {}).opening_runs 1
    ⟨[.i32], [.i32]⟩ [.i32 5]
  obtain ⟨m, hSteps, hRuns', hPlaced⟩ :=
    hRuns.steps_of_goes (Thread.start_wellPlaced _ _ _ _) rfl hGoes
  obtain ⟨m', hStep, hEntered⟩ := hRuns'.step_running hPlaced rfl hCall
  refine ⟨m, m', ⟨_, rfl, hSteps⟩, ⟨hRuns'.depth_eq, ?_⟩, hStep, ?_, hEntered.activation_eq⟩
  · rw [hRuns'.pc]
    simp [echoRequest, due, ofInstance, echoInstance, callsLength, callCode, encodeU32_zero]
  · rw [hRuns'.frames_eq, framesOf_cons]
    simp [echoRequest, framesOf, Activity.region]

/-- The echo's start function, entered with the argument below it. -/
def echoStart (results : List ValueType) (operands : List Value) (offset : Nat) : Thread where
  activity := ⟨operands, [],
    { function := some 0, locals := #[.i32 0], returnTo := some ⟨.driver, 2⟩,
      signature := ⟨[], results⟩ }⟩
  callers := [⟨[.i32 5], [], driverActivation ⟨[.i32], [.i32]⟩⟩]
  store := { globals := #[], memories := #[], tables := #[], callCounts := #[1, 0] }
  pc := ⟨.function 0, offset⟩

/-- The driver calls the start function first. -/
theorem start_echo (results : List ValueType) (code : Bytes) :
    (Thread.start ⟨[.i32], [.i32]⟩ [.i32 5] (echoInstance results code).store).step
      (echoEnv results code) = .ok (.running (echoStart results [] 0)) := rfl

/-- The echo, entered with its argument and with some operands below it. -/
def echoEntered (left : List Value) (v : Value) : Thread where
  activity := ⟨[], [],
    { function := some 1, locals := #[v], returnTo := some ⟨.driver, 4⟩,
      signature := ⟨[.i32], [.i32]⟩ }⟩
  callers := [⟨left, [], driverActivation ⟨[.i32], [.i32]⟩⟩]
  store := { globals := #[], memories := #[], tables := #[], callCounts := #[1, 1] }
  pc := ⟨.function 1, 0⟩

/-- A start function that gives back its local leaves that zero above the argument. -/
theorem request_after_local :
    (Thread.start ⟨[.i32], [.i32]⟩ [.i32 5] (echoInstance [.i32] localCode).store).Goes
      (echoEnv [.i32] localCode) 3 (.running (echoRequest [.i32 0, .i32 5])) := by
  have hLocal : (echoStart [.i32] [] 0).step (echoEnv [.i32] localCode) =
      .ok (.running (echoStart [.i32] [.i32 0] 2)) := rfl
  have hReturn : (echoStart [.i32] [.i32 0] 2).step (echoEnv [.i32] localCode) =
      .ok (.running (echoRequest [.i32 0, .i32 5])) := rfl
  exact .step (start_echo _ _) (.step hLocal (.single hReturn))

theorem entered_after_local :
    (echoRequest [.i32 0, .i32 5]).step (echoEnv [.i32] localCode) =
      .ok (.running (echoEntered [.i32 5] (.i32 0))) := rfl

/-- The echo is entered with the argument after a start function that returns nothing. One that
gives back its local leaves that above the argument, and the echo is entered with it. -/
theorem entered_with_arguments_echo :
    (∃ m m' a, (ofInstance (echoInstance [] #[endByte]) {} {}).Visits 1 [.i32 5] m ∧
      step ((ofInstance (echoInstance [] #[endByte]) {} {}).environment 1) m = .ok () m' ∧
      m'.stack.activation? = some a ∧ a.function = some 1 ∧
      a.locals.toList.take 1 = [.i32 5]) ∧
    ∃ m m' a, (ofInstance (echoInstance [.i32] localCode) {} {}).Visits 1 [.i32 5] m ∧
      Machine.CallReturns ((ofInstance (echoInstance [.i32] localCode) {} {}).environment 1) 0
        [.activation (driverActivation ⟨[.i32], [.i32]⟩), .value (.i32 5)] [.i32 0]
        ((ofInstance (echoInstance [.i32] localCode) {} {}).opening ⟨[.i32], [.i32]⟩ [.i32 5]) m ∧
      step ((ofInstance (echoInstance [.i32] localCode) {} {}).environment 1) m = .ok () m' ∧
      m'.stack.activation? = some a ∧ a.function = some 1 ∧
      a.locals.toList.take 1 = [.i32 0] := by
  constructor
  · have hReturn : (echoStart [] [] 0).step (echoEnv [] #[endByte]) =
        .ok (.running (echoRequest [.i32 5])) := rfl
    have hCall : (echoRequest [.i32 5]).step (echoEnv [] #[endByte]) =
        .ok (.running (echoEntered [] (.i32 5))) := rfl
    obtain ⟨m, m', hVisits, hRequest, hStep, -⟩ :=
      echo_request (.step (start_echo _ _) (.single hReturn)) hCall
    obtain ⟨-, a, -, -, -, -, hActivation, hFunction, -, -, -, hArguments⟩ :=
      entered_with_arguments (echoInstance [] #[endByte]) {} {} [] 1 [.i32 5] m m' hVisits hRequest
        hStep
    refine ⟨m, m', a, hVisits, hStep, hActivation, hFunction, hArguments ?_⟩
    intro start signature hDue hSignature
    cases hDue
    cases hSignature
    rfl
  · obtain ⟨m, m', hVisits, hRequest, hStep, hTop, -⟩ :=
      echo_request request_after_local entered_after_local
    obtain ⟨signature, a, operands, hSignature, hFrames, hAfter, hActivation, hFunction, -, -,
      hLocals, -⟩ := entered_with_arguments (echoInstance [.i32] localCode) {} {} [] 1 [.i32 5] m m'
        hVisits hRequest hStep
    cases hSignature
    obtain rfl : operands = [.i32 5, .i32 0] :=
      map_value_injective (List.cons.inj (hFrames.symm.trans hTop)).2
    obtain ⟨called, kept, taken, results, hCalled, hArguments, hTaken, hReturns, -, hLeft⟩ := hAfter
    cases hCalled
    obtain rfl : taken = [] := List.map_eq_nil_iff.1 hTaken
    rw [List.append_nil] at hArguments
    subst hArguments
    obtain rfl : [.i32 0] = results := (List.cons.inj hLeft).2
    exact ⟨m, m', a, hVisits, hReturns, hStep, hActivation, hFunction, hLocals⟩

/-- The requested function of every invocation gets the arguments as its first locals. -/
def PassesArguments (i : Instance) : Prop :=
  ∀ (config : Config) (journal : Journal) (requests : List (Nat × Request)) (index : UInt32)
    (arguments : List Value) (m m' : Machine),
    let s := ((ofInstance i config journal).serve requests).2
    s.Visits index arguments m → s.AtRequest m → step (s.environment index) m = .ok () m' →
      ∃ a, m'.stack.activation? = some a ∧ a.function = some index ∧
        a.locals.toList.take arguments.length = arguments

/-- Not so where the start function gives back its local: the function that is called with five
gets that zero, and the five stays below. -/
theorem arguments_not_passed :
    instantiate (echoModule [.i32] localCode) {} = .ok (echoInstance [.i32] localCode) ∧
      ¬ PassesArguments (echoInstance [.i32] localCode) := by
  refine ⟨instantiate_echoModule _ _, fun hPasses => ?_⟩
  obtain ⟨m, m', hVisits, hRequest, hStep, -, hEntered⟩ :=
    echo_request request_after_local entered_after_local
  obtain ⟨a, hActivation, -, hArguments⟩ := hPasses {} {} [] 1 [.i32 5] m m' hVisits hRequest hStep
  rw [hEntered] at hActivation
  cases hActivation
  revert hArguments
  decide

end Session

end WasmMachine
