import WasmMachine.Proofs.Session.Arguments
import WasmMachine.Proofs.Structured.Refinement

/-!
# Results of an invocation

An invocation returns every value that is on the stack when the machine halts. Whatever code runs,
the machine halts only when the outermost activation is left at the end of the driver sequence, and
that keeps as many operands as the requested function has results. These are what the call of the
function, the last one of the driver sequence, has put on top: operands below them, which earlier
calls may have left, go with the activation.

* `Session.Between.step_end_results`: leaving the outermost activation keeps the results of the
  last call.
* `Session.results_of_invocation`: the values that an invocation returns.
-/

namespace WasmMachine

open Stack

namespace Session

variable {s : Session} {index next : UInt32} {signature : FunctionType} {arguments : List Value}
  {done rest : List UInt32} {m m' : Machine}

theorem Between.running (h : s.Between index signature arguments done rest m) :
    m.halted = false := by
  obtain ⟨t, steps, hRuns, -⟩ := h.thread
  exact hRuns.halted

theorem Within.running (h : s.Within index signature arguments done next rest m) :
    m.halted = false := by
  obtain ⟨m₀, m₁, -, -, hSteps⟩ := h.inside
  cases hSteps with
  | refl holds => exact holds.1
  | tail _ _ holds => exact holds.1

/-- Only the step after the last call halts. -/
theorem Consistent.between_of_halted (h : s.Consistent)
    (hSteps : Machine.StepsThrough (s.environment index) (fun m => m.halted = false)
      (s.opening signature arguments) m)
    (hStep : step (s.environment index) m = .ok () m') (hHalted : m'.halted = true) :
    s.Between index signature arguments (s.calls index) [] m := by
  have hNotRunning : m'.halted ≠ false := by
    rw [hHalted]
    exact Bool.true_eq_false.mp
  -- From every other stage a step leads to a stage, and in those the machine runs.
  rcases h.stage hSteps with ⟨done, rest, hBetween⟩ | ⟨done, next, rest, hWithin⟩
  · cases rest with
    | nil =>
      have hDone : s.calls index = done := hBetween.calls.trans (List.append_nil done)
      rw [hDone]
      exact hBetween
    | cons next rest => exact absurd (hBetween.step_call hStep).1.running hNotRunning
  · rcases hWithin.step hStep with hWithin' | hBetween
    · exact absurd hWithin'.running hNotRunning
    · exact absurd hBetween.running hNotRunning

/-- The step after the last call keeps the results of that call, and nothing from below them. -/
theorem Between.step_end_results {kept : List Frame} {results : List Value} {m₁ : Machine}
    (h : s.Between index signature arguments (s.calls index) [] m)
    (hSignature : s.program.signature index = .ok signature)
    (hCall : Machine.CallReturns (s.environment index) index kept results m₁ m)
    (hStep : step (s.environment index) m = .ok () m') :
    results.map Value.type = signature.results ∧
      (∃ left : List Value, kept = .activation (driverActivation signature) :: left.map .value) ∧
      m'.stack = ofFrames (results.reverse.map .value) := by
  obtain ⟨place, f, taken, past, hSite, hTypes, -⟩ := hCall.site
  have hSame : signature = f.signature :=
    Except.ok.inj (hSignature.symm.trans (Program.signature_of_callee hSite.callee))
  rw [← hSame] at hTypes
  obtain ⟨-, -, operands, hFrames, hStack⟩ := h.step_end hStep
  rw [hCall.frames] at hFrames
  obtain ⟨left, hKept, hOperands⟩ := values_of_append hFrames.symm
  have hTop : operands.reverse.take signature.results.length = results.reverse := by
    rw [hOperands, List.reverse_append, ← hTypes, List.length_map, ← List.length_reverse]
    exact List.take_left
  rw [hTop] at hStack
  exact ⟨hTypes, ⟨left, hKept⟩, hStack⟩

/-- A halting run of an invocation: the calls of the driver sequence return one after the other,
and then the outermost activation is left. -/
theorem Consistent.result_halted (h : s.Consistent) {fuel : Nat}
    (hSignature : s.program.signature index = .ok signature)
    (hHalted : (s.result fuel index signature arguments).outcome = .halted) :
    ∃ (m₁ m₂ : Machine) (left results : List Value),
      results.map Value.type = signature.results ∧
      Machine.CallsReturn (s.environment index) s.due.toList (s.opening signature arguments) m₁ ∧
      Machine.CallReturns (s.environment index) index
        (.activation (driverActivation signature) :: left.map .value) results m₁ m₂ ∧
      step (s.environment index) m₂ = .ok () (s.result fuel index signature arguments).machine ∧
      (s.result fuel index signature arguments).machine.halted = true ∧
      (s.result fuel index signature arguments).machine.stack =
        ofFrames (results.reverse.map .value) := by
  obtain ⟨m₂, hSteps, hLast, hEnd⟩ := exists_last_of_run rfl hHalted
  have hBetween := h.between_of_halted hSteps hLast hEnd
  obtain ⟨m₁, hDue, hRequest⟩ := hBetween.returned.split
  cases hRequest with
  | @cons _ _ kept results _ _ _ hCall hNil =>
    cases hNil
    obtain ⟨hTypes, ⟨left, rfl⟩, hStack⟩ :=
      hBetween.step_end_results hSignature hCall hLast
    exact ⟨m₁, m₂, left, results, hTypes, hDue, hCall, hLast, hEnd, hStack⟩

/-- Whatever code runs and whatever earlier requests have done, when an invocation returns values:
the call of the start function, if it was due, and then the call of the requested function have
returned; the values are the results of the latter, of the types in its signature; nothing but them
was left by the step that left the outermost activation, and the stack is empty afterwards. -/
theorem results_of_invocation (i : Instance) (config : Config) (journal : Journal)
    (requests : List (Nat × Request)) (fuel : Nat) (index : UInt32) (arguments : List Value)
    (values : Array Value)
    (hValues : (((ofInstance i config journal).serve requests).2.invoke fuel index arguments).1 =
      .values values) :
    let s := ((ofInstance i config journal).serve requests).2
    let env := s.environment index
    ∃ (signature : FunctionType) (m₁ m₂ m₃ : Machine) (left : List Value),
      s.program.signature index = .ok signature ∧
      values.toList.map Value.type = signature.results ∧
      (s.opening signature arguments).frames =
        .activation (driverActivation signature) :: arguments.map .value ∧
      Machine.CallsReturn env s.due.toList (s.opening signature arguments) m₁ ∧
      Machine.CallReturns env index
        (.activation (driverActivation signature) :: left.map .value) values.toList m₁ m₂ ∧
      step env m₂ = .ok () m₃ ∧ m₃.halted = true ∧
      m₃.frames = values.toList.map .value ∧
      (s.invoke fuel index arguments).2.machine = { m₃ with stack := ∅ } := by
  intro s env
  have hConsistent := (consistent_ofInstance i config journal).serve requests
  change (s.invoke fuel index arguments).1 = .values values at hValues
  unfold invoke at hValues ⊢
  cases hCheck : s.checkArguments index arguments with
  | error trap =>
    rw [hCheck] at hValues
    cases hValues
  | ok signature =>
    rw [hCheck] at hValues
    simp only [runChecked_eq] at hValues ⊢
    have hSignature := (checkArguments_eq_ok.1 hCheck).1
    unfold close at hValues ⊢
    cases hOutcome : (s.result fuel index signature arguments).outcome with
    | failed f =>
      rw [hOutcome] at hValues
      cases hValues
    | outOfFuel =>
      rw [hOutcome] at hValues
      cases hValues
    | halted =>
      rw [hOutcome] at hValues
      obtain ⟨m₁, m₂, left, results, hTypes, hDue, hCall, hLast, hEnd, hStack⟩ :=
        hConsistent.result_halted hSignature hOutcome
      have hResults : values.toList = results := by
        rw [← Answer.values.inj hValues, hStack, values_ofFrames_toArray, List.reverse_reverse]
      subst hResults
      refine ⟨signature, m₁, m₂, _, left, hSignature, hTypes, frames_opening signature arguments,
        hDue, hCall, hLast, hEnd, ?_, rfl⟩
      rw [Machine.frames, hStack, frames_ofFrames, List.map_reverse, List.reverse_reverse]

/-- The driver when the echo has returned. -/
def echoReturned : Thread where
  activity := ⟨[.i32 0, .i32 5], [], driverActivation ⟨[.i32], [.i32]⟩⟩
  callers := []
  store := { globals := #[], memories := #[], tables := #[], callCounts := #[1, 1] }
  pc := ⟨.driver, 4⟩

/-- The echo returns the zero that it got, and not the five that lies below. -/
theorem invoke_echo :
    ((ofInstance (echoInstance [.i32] localCode) {} {}).invoke 7 1 [.i32 5]).1 =
      .values #[.i32 0] := by
  have hLocal : (echoEntered [.i32 5] (.i32 0)).step (echoEnv [.i32] localCode) =
      .ok (.running ((echoEntered [.i32 5] (.i32 0)).withOperands [.i32 0] |>.jump 2)) := rfl
  have hReturn : ((echoEntered [.i32 5] (.i32 0)).withOperands [.i32 0] |>.jump 2).step
      (echoEnv [.i32] localCode) = .ok (.running echoReturned) := rfl
  have hEnd : echoReturned.step (echoEnv [.i32] localCode) =
      .ok (.halted [.i32 0] echoReturned.store) := rfl
  have hGoes := request_after_local.trans (.step entered_after_local (.step hLocal (.step hReturn
    (.halt hEnd))))
  rw [← environment_echoInstance] at hGoes
  have hCheck : (ofInstance (echoInstance [.i32] localCode) {} {}).checkArguments 1 [.i32 5] =
      .ok ⟨[.i32], [.i32]⟩ := rfl
  have hPair := (consistent_ofInstance (echoInstance [.i32] localCode) {} {}).invoke_eq hCheck 7
  have hRun := hPair.trans (congrArg endOf (hGoes.run_halted rfl (Nat.le_refl 7) 0))
  exact congrArg Prod.fst hRun

theorem results_of_invocation_echo :
    let s := ofInstance (echoInstance [.i32] localCode) {} {}
    ∃ (m₁ m₂ : Machine) (left : List Value),
      Machine.CallReturns (s.environment 1) 1
        (.activation (driverActivation ⟨[.i32], [.i32]⟩) :: left.map .value) [.i32 0] m₁ m₂ ∧
      (s.invoke 7 1 [.i32 5]).2.machine.stack = ∅ := by
  intro s
  obtain ⟨signature, m₁, m₂, m₃, left, hSignature, -, -, -, hCall, -, -, -, hMachine⟩ :=
    results_of_invocation (echoInstance [.i32] localCode) {} {} [] 7 1 [.i32 5] _ invoke_echo
  cases hSignature
  refine ⟨m₁, m₂, left, hCall, ?_⟩
  exact congrArg Machine.stack hMachine

end Session

end WasmMachine
