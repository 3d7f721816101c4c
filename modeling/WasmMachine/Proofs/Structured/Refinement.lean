import WasmMachine.Proofs.Structured.Driver
import WasmMachine.Proofs.Structured.Simulation

/-!
# Invocations refine the evaluator

An invocation of a function whose program consists of encoded trees does what the evaluator does
with the trees: it terminates if and only if the evaluation does, with the same values or the same
fault at the same offset, and with the same store.

* `Session.evaluate`: an invocation by the evaluator.
* `Session.invoke_iff_evaluate`: the machine and the evaluator agree.
-/

namespace WasmMachine

open Stack

/-! ## Ends of threads -/

/-- A thread runs to its end with an answer and a store. -/
inductive Thread.Answers (env : Env) (t : Thread) : Answer → Store → Prop
  | values {n : Nat} {values : List Value} {store : Store}
      (goes : Thread.Goes env n t (.halted values store)) :
      Answers env t (.values values.reverse.toArray) store
  | failed {f : Fault} {store : Store} (fails : Thread.Fails env t f store) :
      Answers env t (.failed f) store

namespace Session

/-- What an invocation makes of the exit of its driver sequence, which closes at `closing`. -/
def answerOf (env : Env) (Γ : Scope) (results : List ValueType) (closing : Nat) (before : Store) :
    Exit → Answer × Store
  | .done σ =>
    match carried? results σ.operands with
    | some top => (.values top.reverse.toArray, σ.store)
    | none =>
      (.failed ⟨.arityMismatch results (foundTypes results σ.operands),
        some (env.program.modulePosition ⟨Γ.code, closing⟩)⟩, σ.store)
  | .branch _ top σ => (.values top.reverse.toArray, σ.store)
  | .trap f store => (.failed f, store)
  | .outOfFuel => (.outOfFuel, before)

/-- The outermost scope of an invocation. -/
def outermost (signature : FunctionType) : Scope :=
  { code := .driver, labels := [signature.results], depth := 1 }

/-- An invocation by the evaluator: the driver sequence is evaluated on the arguments. -/
def evaluate (s : Session) (bodies : Nat → Sequence) (fuel : Nat) (index : UInt32)
    (arguments : List Value) : Answer × Store :=
  match s.checkArguments index arguments with
  | .error e => (.failed ⟨e, none⟩, s.machine.store)
  | .ok signature =>
    let body := driver (if s.started then none else s.program.start) index
    let exit := Sequence.eval (s.environment index) bodies fuel (outermost signature) body
      { operands := arguments.reverse, locals := #[], store := s.machine.store }
    answerOf (s.environment index) (outermost signature) signature.results body.closing
      s.machine.store exit

/-- The surroundings of the driver sequence. -/
def outermostSite (signature : FunctionType) : Site :=
  { code := .driver
    blocks := []
    activation := (Thread.start signature [] ⟨#[], #[], #[], #[]⟩).activity.activation
    callers := [] }

/-- The answer of the evaluator is that of the thread, unless the fuel was used up. -/
theorem answers_of_agrees {env : Env} {signature : FunctionType} {fuel closing : Nat} {t : Thread}
    {x : Exit} (before : Store) (hByte : (env.code .driver)[closing]? = some endByte)
    (h : (outermostSite signature).Agrees env fuel t closing x) :
    x = .outOfFuel ∧ t.Lasts env fuel ∨
      t.Answers env (answerOf env (outermost signature) signature.results closing before x).1
        (answerOf env (outermost signature) signature.results closing before x).2 := by
  cases x with
  | done τ =>
    right
    obtain ⟨n, hGoes⟩ := h
    have hStep := (outermostSite signature).closes_function rfl hByte τ
    change (_ = match carried? signature.results τ.operands with
      | some top => _
      | none => _) at hStep
    cases hCarried : carried? signature.results τ.operands with
    | some top =>
      rw [hCarried] at hStep
      simp only [answerOf, hCarried]
      exact .values (hGoes.trans (.single hStep))
    | none =>
      rw [hCarried] at hStep
      simp only [answerOf, hCarried]
      exact .failed (hGoes.fails (.here hStep))
  | branch depth top τ =>
    right
    obtain ⟨hDepth, n, hGoes⟩ := h
    obtain rfl : depth = 0 := Nat.le_zero.1 hDepth
    exact .values hGoes
  | trap f store => exact .inr (.failed h)
  | outOfFuel => exact .inl ⟨rfl, h⟩

/-! ## Invocations -/

/-- The answer and the store that a run of a thread leaves. -/
def endOf : Thread.End → Answer × Store
  | .halted values store => (.values values.reverse.toArray, store)
  | .failed f store => (.failed f, store)
  | .outOfFuel t => (.outOfFuel, t.store)

theorem values_ofFrames_toArray (values : List Value) :
    (ofFrames (values.map .value)).values = values.reverse.toArray := by
  have hReverse := reverse_values_ofFrames values
  rw [List.reverse_eq_iff] at hReverse
  rw [← hReverse, Array.toArray_toList]

/-- An invocation gives what the run of its thread gives. -/
theorem Consistent.invoke_eq {s : Session} (h : s.Consistent) {index : UInt32}
    {arguments : List Value} {signature : FunctionType}
    (hCheck : s.checkArguments index arguments = .ok signature) (fuel : Nat) :
    ((s.invoke fuel index arguments).1, (s.invoke fuel index arguments).2.machine.store) =
      endOf ((Thread.start signature arguments s.machine.store).run (s.environment index) fuel
        s.machine.steps).1 := by
  have hEnds := h.result_ends fuel index signature arguments
  unfold Session.invoke
  rw [hCheck]
  simp only [runChecked_eq]
  rcases hRun : (Thread.start signature arguments s.machine.store).run (s.environment index) fuel
    s.machine.steps with ⟨⟨values, store⟩ | ⟨f, store⟩ | t, steps⟩
  · rw [hRun] at hEnds
    obtain ⟨hOutcome, hRests⟩ := hEnds
    unfold Session.close
    rw [hOutcome]
    simp only [endOf, hRests.stack, hRests.store, values_ofFrames_toArray]
  · rw [hRun] at hEnds
    obtain ⟨hOutcome, hHolds⟩ := hEnds
    unfold Session.close
    rw [hOutcome]
    simp only [endOf, hHolds.store]
  · rw [hRun] at hEnds
    obtain ⟨hOutcome, hRuns⟩ := hEnds
    unfold Session.close
    rw [hOutcome]
    simp only [endOf, hRuns.store]

/-- A thread that answers makes the invocation answer, with enough fuel. -/
theorem run_of_answers {env : Env} (hLimit : env.config.maxSteps = none) {t : Thread}
    {answer : Answer} {store : Store} (h : t.Answers env answer store) :
    ∃ n, ∀ fuel steps, n ≤ fuel → endOf (t.run env fuel steps).1 = (answer, store) := by
  cases h with
  | @values n values store goes =>
    refine ⟨n, fun fuel steps hFuel => ?_⟩
    rw [goes.run_halted hLimit hFuel]
    rfl
  | failed fails =>
    obtain ⟨n, hn⟩ := fails.run_failed hLimit
    refine ⟨n, fun fuel steps hFuel => ?_⟩
    rw [hn fuel steps hFuel]
    rfl

/-- The evaluator uses up its fuel only where the thread runs on for as many steps, and gives else
the answer of the thread. -/
theorem evaluate_answers {s : Session} {bodies : Nat → Sequence}
    (hEncoded : s.program.Encoded bodies) {index : UInt32} {arguments : List Value}
    {signature : FunctionType} (hCheck : s.checkArguments index arguments = .ok signature)
    (fuel : Nat) :
    (s.evaluate bodies fuel index arguments).1 = .outOfFuel ∧
        (Thread.start signature arguments s.machine.store).Lasts (s.environment index) fuel ∨
      (Thread.start signature arguments s.machine.store).Answers (s.environment index)
        (s.evaluate bodies fuel index arguments).1 (s.evaluate bodies fuel index arguments).2 := by
  have hDriver : Encodes ((s.environment index).code (outermostSite signature).code) endByte 0
      (driver (if s.started then none else s.program.start) index) := encodes_driver _ _
  have hEncoded' : (s.environment index).program.Encoded bodies := hEncoded
  have hAgrees := eval_agrees hEncoded' fuel hDriver
    { operands := arguments.reverse, locals := #[], store := s.machine.store }
  unfold evaluate
  rw [hCheck]
  rcases answers_of_agrees s.machine.store hDriver.delimiter hAgrees with ⟨hOut, hLasts⟩ | hAnswers
  · have hScope : outermost signature = (outermostSite signature).scope := rfl
    refine .inl ⟨?_, hLasts⟩
    simp only [hScope, hOut, answerOf]
  · exact .inr hAnswers

/-- A run of the thread of an invocation ends if and only if the evaluation does, and they have the
same answer. A run that ended outlasts no evaluation, so the evaluation with the same fuel ends. -/
theorem run_iff_evaluate {s : Session} {bodies : Nat → Sequence}
    (hEncoded : s.program.Encoded bodies) (hLimit : s.config.maxSteps = none) {index : UInt32}
    {arguments : List Value} {signature : FunctionType}
    (hCheck : s.checkArguments index arguments = .ok signature) {answer : Answer}
    (hAnswer : answer ≠ .outOfFuel) (store : Store) :
    (∃ fuel, endOf ((Thread.start signature arguments s.machine.store).run (s.environment index)
        fuel s.machine.steps).1 = (answer, store)) ↔
      ∃ fuel, s.evaluate bodies fuel index arguments = (answer, store) := by
  constructor
  · rintro ⟨fuel, hRun⟩
    refine ⟨fuel, ?_⟩
    have hEnded : ∀ t', ((Thread.start signature arguments s.machine.store).run
        (s.environment index) fuel s.machine.steps).1 ≠ .outOfFuel t' := by
      intro t' hOut
      rw [hOut] at hRun
      cases hRun
      exact hAnswer rfl
    rcases evaluate_answers hEncoded hCheck fuel with ⟨-, hLasts⟩ | hAnswers
    · obtain ⟨t', hOut⟩ := hLasts.run_outOfFuel hLimit s.machine.steps
      exact absurd hOut (hEnded t')
    · obtain ⟨n, hn⟩ := run_of_answers hLimit hAnswers
      rw [← Thread.run_mono (Nat.le_max_left fuel n) hEnded,
        hn (max fuel n) _ (Nat.le_max_right fuel n)] at hRun
      exact hRun
  · rintro ⟨fuel, hResult⟩
    rcases evaluate_answers hEncoded hCheck fuel with ⟨hOut, -⟩ | hAnswers
    · rw [hResult] at hOut
      exact absurd hOut hAnswer
    · obtain ⟨n, hn⟩ := run_of_answers hLimit hAnswers
      refine ⟨n, ?_⟩
      rw [hn n _ (Nat.le_refl n), hResult]

/-- The machine and the evaluator agree on an invocation of a session. -/
theorem Consistent.invoke_iff {s : Session} (h : s.Consistent) {bodies : Nat → Sequence}
    (hEncoded : s.program.Encoded bodies) (hLimit : s.config.maxSteps = none) (index : UInt32)
    (arguments : List Value) {answer : Answer} (hAnswer : answer ≠ .outOfFuel) (store : Store) :
    (∃ fuel, (s.invoke fuel index arguments).1 = answer ∧
        (s.invoke fuel index arguments).2.machine.store = store) ↔
      ∃ fuel, s.evaluate bodies fuel index arguments = (answer, store) := by
  cases hCheck : s.checkArguments index arguments with
  | error e =>
    have hInvoke : ∀ fuel, s.invoke fuel index arguments = (.failed ⟨e, none⟩, s) := by
      intro fuel
      unfold Session.invoke
      rw [hCheck]
    have hEvaluate : ∀ fuel, s.evaluate bodies fuel index arguments =
        (.failed ⟨e, none⟩, s.machine.store) := by
      intro fuel
      unfold Session.evaluate
      rw [hCheck]
    simp only [hInvoke, hEvaluate, Prod.mk.injEq]
  | ok signature =>
    have hPair : ∀ fuel, ((s.invoke fuel index arguments).1 = answer ∧
        (s.invoke fuel index arguments).2.machine.store = store) ↔
        endOf ((Thread.start signature arguments s.machine.store).run (s.environment index) fuel
          s.machine.steps).1 = (answer, store) := by
      intro fuel
      rw [← h.invoke_eq hCheck, Prod.mk.injEq]
    simp only [hPair]
    exact run_iff_evaluate hEncoded hLimit hCheck hAnswer store

/-- An invocation whose program consists of encoded trees terminates if and only if the evaluation
of the trees does, with the same answer, which is the values or the fault with its offset, and the
same store. This holds after any requests, for every function and all arguments, when no step limit
is set. -/
theorem invoke_iff_evaluate (i : Instance) (bodies : Nat → Sequence)
    (hEncoded : i.program.Encoded bodies) (config : Config) (hLimit : config.maxSteps = none)
    (journal : Journal) (requests : List (Nat × Request)) (index : UInt32)
    (arguments : List Value) (answer : Answer) (hAnswer : answer ≠ .outOfFuel) (store : Store) :
    let s := ((ofInstance i config journal).serve requests).2
    (∃ fuel, (s.invoke fuel index arguments).1 = answer ∧
        (s.invoke fuel index arguments).2.machine.store = store) ↔
      ∃ fuel, s.evaluate bodies fuel index arguments = (answer, store) := by
  intro s
  obtain ⟨hProgram, hConfig⟩ := (ofInstance i config journal).serve_program requests
  refine ((consistent_ofInstance i config journal).serve requests).invoke_iff ?_ ?_ index arguments
    hAnswer store
  · rw [hProgram]
    exact hEncoded
  · rw [hConfig]
    exact hLimit

/-- A body that doubles its argument, unless it is zero: it branches with the double out of a
conditional and the block around it. -/
def doublingBody : Sequence :=
  .block 0 (.value .i32)
    (.leaf 2 (.simple (.localGet 0))
      (.ifElse 4 (.value .i32)
        (.leaf 6 (.simple (.localGet 0))
          (.leaf 8 (.simple (.localGet 0))
            (.leaf 10 (.simple (.numeric (.binaryInt .i32 .add)))
              (.leaf 11 (.branch 1) (.stop 13)))))
        (.leaf 14 (.simple (.localGet 0)) (.stop 16))
        (.stop 17)))
    (.stop 18)

/-- The code of `doublingBody`. -/
def doublingCode : Bytes :=
  #[0x02, 0x7f, 0x20, 0x00, 0x04, 0x7f, 0x20, 0x00, 0x20, 0x00, 0x6a, 0x0c, 0x01, 0x05, 0x20, 0x00,
    0x0b, 0x0b, 0x0b]

/-- An instance whose only function has the body `doublingBody`. -/
def doublingInstance : Instance where
  program :=
    { types := #[⟨[.i32], [.i32]⟩]
      imported := #[]
      functions := #[{
        index := 0
        typeIndex := 0
        signature := ⟨[.i32], [.i32]⟩
        code := doublingCode
        position := 0
        locals := #[.i32 0] }]
      start := none
      entry := none }
  store := { globals := #[], memories := #[], tables := #[], callCounts := #[0] }

theorem encoded_doublingInstance : doublingInstance.program.Encoded fun _ => doublingBody := by
  intro place f hFunction
  have hCode : f.code = doublingCode := by
    cases place with
    | zero => cases hFunction; rfl
    | succ place => cases hFunction
  rw [hCode]
  refine .block ⟨_, rfl, rfl⟩ (.leaf ⟨_, rfl, rfl⟩ (.ifElse ⟨_, rfl, rfl⟩ ?_ ?_ (.stop rfl)))
    (.stop rfl)
  · refine .leaf ⟨_, rfl, rfl⟩ (.leaf ⟨_, rfl, rfl⟩ (.leaf ?_ (.leaf ?_ (.stop rfl))))
    · exact decodesTo_of_opcode (.numeric (.binaryInt .i32 .add)) rfl (by decide +kernel) rfl
    · exact decodesTo_of_opcode .branch rfl rfl rfl
  · exact .leaf ⟨_, rfl, rfl⟩ (.stop rfl)

/-- The value that the branch carries is what the invocation gives. -/
theorem invoke_iff_evaluate_doubling :
    ∃ fuel,
      ((ofInstance doublingInstance {} {}).invoke fuel 0 [.i32 7]).1 = .values #[.i32 14] ∧
      ((ofInstance doublingInstance {} {}).invoke fuel 0 [.i32 7]).2.machine.store =
        { doublingInstance.store with callCounts := #[1] } :=
  (invoke_iff_evaluate doublingInstance (fun _ => doublingBody) encoded_doublingInstance {} rfl
    {} [] 0 [.i32 7] (.values #[.i32 14]) Answer.noConfusion
    { doublingInstance.store with callCounts := #[1] }).2 ⟨10, rfl⟩

end Session

end WasmMachine
