import WasmMachine.Proofs.Session.Stages

/-!
# Call frames of an invocation

Nothing is known of the code that an invocation runs, but every machine that it gets to has a
thread. So each of its steps does to the frames what the instruction says, and every call that comes
back leaves to its caller the frames that it had.

* `Session.frames_isolated`: the frames of callers in all states that invocations reach.
* `Session.frames_isolated_difference`: a call of two arguments, made above other operands.
-/

namespace WasmMachine

open Stack

namespace Session

open Machine in
/-- In every state that an invocation reaches, whatever the functions and earlier invocations have
done: a successful step calls if its instruction is a call, returns if it is a return, the end of
the function or a branch out of it, and otherwise stays above the topmost activation, changing at
most one of its locals. A caller whose call comes back, after any steps in between, finds its frames
as before with the results in the place of the operands of the call, and goes on past the call. -/
theorem frames_isolated (i : Instance) (config : Config) (journal : Journal)
    (requests : List (Nat × Request)) (index : UInt32) (arguments : List Value) (m : Machine)
    (hVisits : ((ofInstance i config journal).serve requests).2.Visits index arguments m) :
    let env := ((ofInstance i config journal).serve requests).2.environment index
    (∀ m', step env m = .ok () m' → StepEffect env m m') ∧
      ∀ m₁ m₂ m', step env m = .ok () m₁ → m.depth < m₁.depth →
        StepsThrough env (fun s => s.halted = false ∧ m.depth < s.depth) m₁ m₂ →
        step env m₂ = .ok () m' → m'.depth ≤ m.depth → Resumes env m m' := by
  intro env
  obtain ⟨t, steps, hRuns, hPlaced⟩ :=
    ((consistent_ofInstance i config journal).serve requests).runs_of_visits hVisits
  refine ⟨fun m' h => step_stepEffect hRuns hPlaced h, ?_⟩
  intro m₁ m₂ m' hCall hDeeper hInside hReturn hBack
  exact resumes_of_call hRuns hPlaced hCall hDeeper hInside hReturn hBack

/-- An instance whose first function calls the second one, in a block and above other operands. The
second function takes its second argument from its first one. -/
def differenceInstance : Instance where
  program :=
    { types := #[⟨[.i32, .i32], [.i32]⟩]
      imported := #[]
      functions := #[
        { index := 0
          typeIndex := 0
          signature := ⟨[.i32, .i32], [.i32]⟩
          code := #[0x20, 0, 0x03, 0x7f, 0x20, 0, 0x20, 1, 0x20, 0, callByte, 1, 0x6b, endByte,
            0x6b, endByte]
          position := 0
          locals := #[.i32 0, .i32 0] },
        { index := 1
          typeIndex := 0
          signature := ⟨[.i32, .i32], [.i32]⟩
          code := #[0x20, 0, 0x20, 1, 0x6b, endByte]
          position := 0
          locals := #[.i32 0, .i32 0] }]
      start := none
      entry := none }
  store := { globals := #[], memories := #[], tables := #[], callCounts := #[0, 0] }

def differenceEnv : Env := ⟨differenceInstance.program, {}, #[callByte, 0, endByte], true⟩

/-- The calling function with the arguments three and five, in its block, with three below it. -/
def differenceCaller (operands : List Value) : Activity where
  operands := operands
  blocks := [⟨⟨.loop, .value .i32, 2⟩, [.i32 3]⟩]
  activation :=
    { function := some 0
      locals := #[.i32 3, .i32 5]
      returnTo := some ⟨.driver, 2⟩
      signature := ⟨[.i32, .i32], [.i32]⟩ }

/-- The calling function at an offset. -/
def differenceCalling (operands : List Value) (counts : Array Nat) (offset : Nat) : Thread where
  activity := differenceCaller operands
  callers := [⟨[], [], driverActivation ⟨[.i32, .i32], [.i32]⟩⟩]
  store := { globals := #[], memories := #[], tables := #[], callCounts := counts }
  pc := ⟨.function 0, offset⟩

/-- The called function at an offset. -/
def differenceCalled (operands : List Value) (offset : Nat) : Thread where
  activity :=
    { operands := operands
      blocks := []
      activation :=
        { function := some 1
          locals := #[.i32 5, .i32 3]
          returnTo := some ⟨.function 0, 12⟩
          signature := ⟨[.i32, .i32], [.i32]⟩ } }
  callers := [differenceCaller [.i32 3], ⟨[], [], driverActivation ⟨[.i32, .i32], [.i32]⟩⟩]
  store := { globals := #[], memories := #[], tables := #[], callCounts := #[1, 1] }
  pc := ⟨.function 1, offset⟩

theorem difference_goes :
    (Thread.start ⟨[.i32, .i32], [.i32]⟩ [.i32 3, .i32 5] differenceInstance.store).Goes
      differenceEnv 6 (.running (differenceCalling [.i32 3, .i32 5, .i32 3] #[1, 0] 10)) :=
  .step rfl (.step rfl (.step rfl (.step rfl (.step rfl (.step rfl (.here _))))))

theorem environment_differenceInstance :
    (ofInstance differenceInstance {} {}).environment 0 = differenceEnv := environment_zero rfl

theorem difference_minus :
    (differenceCalled [.i32 3, .i32 5] 4).step differenceEnv =
      .ok (.running (differenceCalled [.i32 2] 5)) := by
  have hDecodes : DecodesTo (differenceEnv.code (.function 1)) 4
      (.simple (.numeric (.binaryInt .i32 .sub))) 5 :=
    decodesTo_of_opcode (.numeric (.binaryInt .i32 .sub)) rfl (by decide +kernel) rfl
  rw [Thread.step_of_decodesTo hDecodes]
  rfl

open Machine in
/-- The called function takes three steps to the difference. -/
theorem difference_inside {env : Env} (hEnv : env = differenceEnv) {P : Machine → Prop}
    {m : Machine} {steps : Nat} (hRuns : m.Runs env (differenceCalled [] 0) steps)
    (hPlaced : (differenceCalled [] 0).WellPlaced env)
    (holds : ∀ {s : Machine} {operands : List Value} {offset steps : Nat},
      s.Runs env (differenceCalled operands offset) steps → P s) :
    ∃ m', StepsThrough env P m m' ∧ m'.Runs env (differenceCalled [.i32 2] 5) (steps + 3) ∧
      (differenceCalled [.i32 2] 5).WellPlaced env := by
  subst hEnv
  have hFirst : (differenceCalled [] 0).step differenceEnv =
      .ok (.running (differenceCalled [.i32 5] 2)) := rfl
  have hSecond : (differenceCalled [.i32 5] 2).step differenceEnv =
      .ok (.running (differenceCalled [.i32 3, .i32 5] 4)) := rfl
  have hPlaced₁ := hPlaced.step hFirst
  have hPlaced₂ := hPlaced₁.step hSecond
  obtain ⟨m₁, hStep₁, hRuns₁⟩ := hRuns.step_running hPlaced rfl hFirst
  obtain ⟨m₂, hStep₂, hRuns₂⟩ := hRuns₁.step_running hPlaced₁ rfl hSecond
  obtain ⟨m₃, hStep₃, hRuns₃⟩ := hRuns₂.step_running hPlaced₂ rfl difference_minus
  refine ⟨m₃, ?_, hRuns₃, hPlaced₂.step difference_minus⟩
  exact (((StepsThrough.refl (holds hRuns)).tail hStep₁ (holds hRuns₁)).tail hStep₂
    (holds hRuns₂)).tail hStep₃ (holds hRuns₃)

open Machine in
/-- The call takes five and three, and its return puts the difference in their place. All that is
below stays: the activations of the driver and the caller, its label, and a three on each side of
that. -/
theorem frames_isolated_difference :
    let env := (ofInstance differenceInstance {} {}).environment 0
    let kept := framesOf
      [differenceCaller [.i32 3], ⟨[], [], driverActivation ⟨[.i32, .i32], [.i32]⟩⟩]
    ∃ m m₁ m₂ m', (ofInstance differenceInstance {} {}).Visits 0 [.i32 3, .i32 5] m ∧
      step env m = .ok () m₁ ∧ step env m₂ = .ok () m' ∧
      Calls env 1 m m₁ ∧ Returns 5 .blockEnd m₂ m' ∧ Resumes env m m' ∧
      m.frames = kept ++ [.value (.i32 5), .value (.i32 3)] ∧
      m'.frames = kept ++ [.value (.i32 2)] := by
  intro env kept
  have hConsistent := consistent_ofInstance differenceInstance {} {}
  have hEnv : env = differenceEnv := environment_differenceInstance
  have hGoes := difference_goes
  have hEnter : (differenceCalling [.i32 3, .i32 5, .i32 3] #[1, 0] 10).step differenceEnv =
      .ok (.running (differenceCalled [] 0)) := rfl
  have hLeave : (differenceCalled [.i32 2] 5).step differenceEnv =
      .ok (.running (differenceCalling [.i32 2, .i32 3] #[1, 1] 12)) := rfl
  rw [← hEnv] at hGoes hEnter hLeave
  obtain ⟨m, hSteps, hRuns, hPlaced⟩ := (hConsistent.opening_runs 0 _ _).steps_of_goes
    (Thread.start_wellPlaced _ _ _ _) rfl hGoes
  obtain ⟨m₁, hCall, hRuns₁⟩ := hRuns.step_running hPlaced rfl hEnter
  have hDeep : ∀ {s : Machine} {operands : List Value} {offset steps : Nat},
      s.Runs env (differenceCalled operands offset) steps →
        s.halted = false ∧ m.depth < s.depth := by
    intro s operands offset steps hInner
    have hCaller : m.depth = 2 := hRuns.depth_eq
    have hCallee : s.depth = 3 := hInner.depth_eq
    exact ⟨hInner.halted, by omega⟩
  obtain ⟨m₂, hInside, hRuns₂, hPlaced₂⟩ :=
    difference_inside hEnv hRuns₁ (hPlaced.step hEnter) hDeep
  obtain ⟨m', hReturn, hRuns'⟩ := hRuns₂.step_running hPlaced₂ rfl hLeave
  have hBack : m'.depth ≤ m.depth := by
    rw [hRuns'.depth_eq, hRuns.depth_eq]
    exact Nat.le_refl _
  have hVisits : (ofInstance differenceInstance {} {}).Visits 0 [.i32 3, .i32 5] m :=
    ⟨_, rfl, hSteps⟩
  have hVisits₂ : (ofInstance differenceInstance {} {}).Visits 0 [.i32 3, .i32 5] m₂ :=
    ⟨_, rfl, (hSteps.tail hCall hRuns₁.halted).trans (hInside.mono fun _ h => h.1)⟩
  have hIsolated := frames_isolated differenceInstance {} {} [] 0 [.i32 3, .i32 5]
  refine ⟨m, m₁, m₂, m', hVisits, hCall, hReturn, ?_, ?_, ?_, hRuns.frames_eq, hRuns'.frames_eq⟩
  · obtain ⟨p, i, next, hPosition, hDecodes, hEffect⟩ := (hIsolated m hVisits).1 m₁ hCall
    cases hPosition.symm.trans hRuns.position_eq
    obtain ⟨rfl, -⟩ := hDecodes.unique (hRuns.decodes (b := callByte) rfl rfl)
    exact hEffect.2
  · obtain ⟨p, i, next, hPosition, hDecodes, hEffect⟩ := (hIsolated m₂ hVisits₂).1 m' hReturn
    cases hPosition.symm.trans hRuns₂.position_eq
    obtain ⟨rfl, -⟩ := hDecodes.unique (hRuns₂.decodes (b := endByte) rfl rfl)
    rw [hRuns₂.transfer_eq] at hEffect
    exact hEffect.2
  · exact (hIsolated m hVisits).2 m₁ m₂ m' hCall (hDeep hRuns₁).2 hInside hReturn hBack

end Session

end WasmMachine
