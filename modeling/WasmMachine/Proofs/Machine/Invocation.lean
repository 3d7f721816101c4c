import WasmMachine.Proofs.Machine.Refinement
import WasmMachine.Session

/-!
# Invocations

An invocation starts a thread in its driver sequence and runs it to its end. The memo tables of a
session agree with the code before, during and after every invocation: bodies never change, and
what was remembered of the last driver sequence is dropped before the next one starts.

* `run_follows`: a run of the machine ends where the run of its thread ends.
* `Session.Consistent`: the tables of a session agree with the code.
* `Session.Consistent.serve`: they do so after any sequence of requests, whatever their outcome.
-/

namespace WasmMachine

open Stack

/-! ## Runs of threads -/

namespace Thread

/-- Where a run of a thread ends. -/
inductive End where
  | halted (values : List Value) (store : Store)
  | failed (f : Fault) (store : Store)
  | outOfFuel (t : Thread)

/-- Repeats steps until the thread halts, fails or has no fuel left, and counts them. -/
def run (env : Env) : (fuel : Nat) → (steps : Nat) → Thread → End × Nat
  | 0, steps, t => (.outOfFuel t, steps)
  | fuel + 1, steps, t =>
    match t.tick env steps with
    | (.ok (.running t'), steps) => run env fuel steps t'
    | (.ok (.halted values store), steps) => (.halted values store, steps)
    | (.error f, steps) => (.failed f t.store, steps)

theorem tick_running {env : Env} {steps steps' : Nat} {t t' : Thread}
    (h : t.tick env steps = (.ok (.running t'), steps')) : t.step env = .ok (.running t') := by
  unfold tick at h
  split at h
  · cases h
  · split at h
    · cases h
    · split at h
      · rename_i hStep
        cases h
        exact hStep
      · cases h

end Thread

/-- A run of the machine ends like a run of its thread. -/
def Ends (env : Env) (e : Thread.End × Nat) (r : RunResult) : Prop :=
  match e with
  | (.halted values store, steps) =>
    r.outcome = .halted ∧ r.machine.Rests env values store steps
  | (.failed f store, steps) => r.outcome = .failed f ∧ r.machine.Holds env store steps
  | (.outOfFuel t, steps) => r.outcome = .outOfFuel ∧ r.machine.Runs env t steps

/-- The machine that a recorded step gives does not depend on the records. -/
theorem stepRecorded_fst (env : Env) (m : Machine) (j : Journal) :
    (stepRecorded env m j).1 = step env m := by
  unfold stepRecorded
  split
  · simp only
    split
    · rename_i h
      rw [h]
    · rename_i h
      rw [h]
  · rfl

theorem run_halted {env : Env} {m : Machine} (h : m.halted = true) (fuel : Nat) (j : Journal) :
    run env fuel m j = ⟨.halted, m, j⟩ := by
  cases fuel with
  | zero => rw [run, if_pos h]
  | succ fuel => rw [run, if_pos h]

/-- A run of a machine that has not halted, by the outcome of its first step. -/
theorem run_step {env : Env} {m : Machine} (h : m.halted = false) (fuel : Nat) (j : Journal) :
    run env (fuel + 1) m j =
      match step env m with
      | .ok _ m' => run env fuel m' (stepRecorded env m j).2
      | .error f m' => ⟨.failed f, m', (stepRecorded env m j).2⟩ := by
  rw [run, h, ← stepRecorded_fst env m j]
  cases stepRecorded env m j with
  | mk result journal => cases result <;> rfl

/-- A run of the machine ends where the run of its thread ends. -/
theorem run_follows {env : Env} {m : Machine} {t : Thread} {steps : Nat}
    (hRuns : m.Runs env t steps) (hPlaced : t.WellPlaced env) (fuel : Nat) (j : Journal) :
    Ends env (t.run env fuel steps) (run env fuel m j) := by
  induction fuel generalizing m t steps j with
  | zero =>
    rw [run, hRuns.halted]
    exact ⟨rfl, hRuns⟩
  | succ fuel ih =>
    have hStep := step_follows hRuns hPlaced
    rw [run_step hRuns.halted, Thread.run]
    rcases hTick : t.tick env steps with ⟨f | (t' | ⟨values, store⟩), steps'⟩
    · rw [hTick] at hStep
      obtain ⟨m', hm', hHolds⟩ := hStep
      rw [hm']
      exact ⟨rfl, hHolds⟩
    · rw [hTick] at hStep
      obtain ⟨m', hm', hRuns'⟩ := hStep
      rw [hm']
      exact ih hRuns' (hPlaced.step (Thread.tick_running hTick)) _
    · rw [hTick] at hStep
      obtain ⟨m', hm', hRests⟩ := hStep
      rw [hm']
      simp only [run_halted hRests.halted]
      exact ⟨rfl, hRests⟩

/-- More fuel does not change a run that has ended. -/
theorem Thread.run_mono {env : Env} {fuel more : Nat} (hLe : fuel ≤ more) {t : Thread}
    {steps : Nat} (h : ∀ t', (t.run env fuel steps).1 ≠ .outOfFuel t') :
    t.run env more steps = t.run env fuel steps := by
  induction fuel generalizing more t steps with
  | zero => exact absurd rfl (h t)
  | succ fuel ih =>
    obtain ⟨more, rfl⟩ : ∃ k, more = k + 1 := ⟨more - 1, by omega⟩
    rw [Thread.run] at h
    rw [Thread.run, Thread.run]
    rcases hTick : t.tick env steps with ⟨f | (t' | ⟨values, store⟩), steps'⟩
    · rfl
    · rw [hTick] at h
      exact ih (by omega) h
    · rfl

/-- However a run ends, the tables agree with the code. -/
theorem Ends.holds {env : Env} {e : Thread.End × Nat} {r : RunResult} (h : Ends env e r) :
    ∃ store steps, r.machine.Holds env store steps := by
  obtain ⟨finish, steps⟩ := e
  cases finish with
  | halted values store => exact ⟨_, _, h.2.toHolds⟩
  | failed f store => exact ⟨_, _, h.2⟩
  | outOfFuel t => exact ⟨_, _, h.2.toHolds⟩

/-! ## Between invocations -/

theorem ImmediateCache.find?_invalidate {c : ImmediateCache} {code : CodeRef} {place : CodePoint}
    {entry : BitVec 64 × Nat} (h : (c.invalidate code).find? place = some entry) :
    place.code ≠ code ∧ c.find? place = some entry := by
  simp only [ImmediateCache.invalidate, ImmediateCache.find?, Std.HashMap.getElem?_filter',
    Option.filter_eq_some_iff, decide_eq_true_eq] at h
  exact ⟨h.2, h.1⟩

theorem TargetCache.find?_invalidate {c : TargetCache} {code : CodeRef} {place : CodePoint}
    {targets : BlockTargets} (h : (c.invalidate code).find? place = some targets) :
    place.code ≠ code ∧ c.find? place = some targets := by
  simp only [TargetCache.invalidate, TargetCache.find?, Std.HashMap.getElem?_filter',
    Option.filter_eq_some_iff, decide_eq_true_eq] at h
  exact ⟨h.2, h.1⟩

/-- Code other than the driver sequence belongs to the program. -/
theorem Env.code_eq_of_program {env env' : Env} (hProgram : env'.program = env.program)
    {code : CodeRef} (hCode : code ≠ .driver) : env'.code code = env.code code := by
  cases code with
  | driver => exact absurd rfl hCode
  | function place => rw [Env.code, Env.code, Program.codeOf, Program.codeOf, hProgram]

theorem ImmediateCache.Agrees.invalidate {env env' : Env} {c : ImmediateCache}
    (h : c.Agrees env) (hProgram : env'.program = env.program) :
    (c.invalidate .driver).Agrees env' := by
  intro place v next hFind
  obtain ⟨hCode, hOld⟩ := ImmediateCache.find?_invalidate hFind
  rw [Env.code_eq_of_program hProgram hCode]
  exact h place v next hOld

theorem TargetCache.Agrees.invalidate {env env' : Env} {c : TargetCache}
    (h : c.Agrees env) (hProgram : env'.program = env.program) :
    (c.invalidate .driver).Agrees env' := by
  intro place targets hFind
  obtain ⟨hCode, hOld⟩ := TargetCache.find?_invalidate hFind
  rw [Env.code_eq_of_program hProgram hCode]
  exact h place targets hOld

/-- The thread at the start of an invocation: the arguments stand in the outermost activation. -/
def Thread.start (signature : FunctionType) (arguments : List Value) (store : Store) : Thread :=
  { activity := {
      operands := arguments.reverse
      blocks := []
      activation := {
        function := none
        locals := #[]
        returnTo := none
        signature := { parameters := [], results := signature.results } } }
    callers := []
    store
    pc := ⟨.driver, 0⟩ }

theorem Thread.start_wellPlaced (env : Env) (signature : FunctionType) (arguments : List Value)
    (store : Store) : (Thread.start signature arguments store).WellPlaced env := by
  refine ⟨⟨?_, rfl⟩, Boundary.start⟩
  intro b hb
  cases hb

theorem initialStack_eq (signature : FunctionType) (arguments : List Value) (store : Store) :
    Session.initialStack signature arguments =
      ofActivities [(Thread.start signature arguments store).activity] := by
  have hPush := pushValues_ofFrames arguments
    [.activation (Thread.start signature arguments store).activity.activation]
  simp only [ofActivities, Activity.frames, Activity.region, Thread.start, List.flatMap_cons,
    List.flatMap_nil, List.append_nil]
  exact hPush

namespace Session

/-- What an invocation of a function runs in. -/
def environment (s : Session) (index : UInt32) : Env :=
  { program := s.program
    config := s.config
    driver := driverCode (if s.started then none else s.program.start) index
    memo := s.memo }

/-- The machine at the start of an invocation. -/
def opening (s : Session) (signature : FunctionType) (arguments : List Value) : Machine :=
  ready s.machine (initialStack signature arguments)

/-- The run of an invocation. -/
def result (s : Session) (fuel : Nat) (index : UInt32) (signature : FunctionType)
    (arguments : List Value) : RunResult :=
  run (s.environment index) fuel (s.opening signature arguments)
    (s.journal.note (.invoking index signature arguments.length))

/-- What a session makes of the end of a run. -/
def close (s : Session) (index : UInt32) (r : RunResult) : Answer × Session :=
  match r.outcome with
  | .halted =>
    (.values r.machine.stack.values,
      { s with
        machine := { r.machine with stack := ∅ }
        started := true
        journal := r.journal.note (.returned index r.machine.steps) })
  | .failed f =>
    (.failed f,
      { s with
        machine := { r.machine with stack := ∅ }
        started := true
        journal := r.journal })
  | .outOfFuel =>
    (.outOfFuel,
      { s with
        machine := { r.machine with stack := ∅ }
        started := true
        journal := r.journal })

theorem runChecked_eq (s : Session) (fuel : Nat) (index : UInt32) (signature : FunctionType)
    (arguments : List Value) :
    runChecked fuel index signature arguments s =
      s.close index (s.result fuel index signature arguments) := rfl

/-! ## Requests -/

/-- The memo tables of a session agree with the code that they were made for. -/
def Consistent (s : Session) : Prop :=
  ∃ env : Env, env.program = s.program ∧ s.machine.immediates.Agrees env ∧
    s.machine.targets.Agrees env

/-- What is asked of a session: to call a function with arguments, or one without, by default the
configured entry. -/
inductive Request where
  | invoke (index : UInt32) (arguments : List Value)
  | execute (index : Option UInt32)

/-- The answer to a request, for which the machine takes at most `fuel` steps. -/
def answer (s : Session) (fuel : Nat) : Request → Answer × Session
  | .invoke index arguments => s.invoke fuel index arguments
  | .execute index => s.execute fuel index

/-- The answers to requests, one after the other. -/
def serve (s : Session) : List (Nat × Request) → List Answer × Session
  | [] => ([], s)
  | (fuel, request) :: rest =>
    let (first, s) := s.answer fuel request
    let (others, s) := s.serve rest
    (first :: others, s)

/-- Requests change neither the program nor the settings. -/
theorem serve_program (s : Session) (requests : List (Nat × Request)) :
    (s.serve requests).2.program = s.program ∧ (s.serve requests).2.config = s.config := by
  have hClose : ∀ (s : Session) index r, (s.close index r).2.program = s.program ∧
      (s.close index r).2.config = s.config := by
    intro s index r
    unfold close
    cases r.outcome <;> exact ⟨rfl, rfl⟩
  have hInvoke : ∀ (s : Session) fuel index arguments,
      (s.invoke fuel index arguments).2.program = s.program ∧
        (s.invoke fuel index arguments).2.config = s.config := by
    intro s fuel index arguments
    unfold Session.invoke
    split
    · exact ⟨rfl, rfl⟩
    · rw [runChecked_eq]
      exact hClose s index _
  have hAnswer : ∀ (s : Session) fuel request, (s.answer fuel request).2.program = s.program ∧
      (s.answer fuel request).2.config = s.config := by
    intro s fuel request
    cases request with
    | invoke index arguments => exact hInvoke s fuel index arguments
    | execute index =>
      change (s.execute fuel index).2.program = _ ∧ (s.execute fuel index).2.config = _
      unfold Session.execute
      split
      · exact hInvoke s fuel _ []
      · exact ⟨rfl, rfl⟩
  induction requests generalizing s with
  | nil => exact ⟨rfl, rfl⟩
  | cons first rest ih =>
    obtain ⟨hProgram, hConfig⟩ := ih (s.answer first.1 first.2).2
    obtain ⟨hProgram', hConfig'⟩ := hAnswer s first.1 first.2
    exact ⟨hProgram.trans hProgram', hConfig.trans hConfig'⟩

theorem consistent_ofInstance (i : Instance) (config : Config) (journal : Journal) :
    (ofInstance i config journal).Consistent := by
  refine ⟨⟨i.program, config, #[], true⟩, rfl, ?_, ?_⟩
  · intro place v next hFind
    simp [ofInstance, ImmediateCache.find?] at hFind
  · intro place targets hFind
    simp [ofInstance, TargetCache.find?] at hFind

/-- An invocation starts a thread, whatever the session has done before. -/
theorem Consistent.opening_runs {s : Session} (h : s.Consistent) (index : UInt32)
    (signature : FunctionType) (arguments : List Value) :
    (s.opening signature arguments).Runs (s.environment index)
      (Thread.start signature arguments s.machine.store) s.machine.steps := by
  obtain ⟨env, hProgram, hImmediates, hTargets⟩ := h
  refine ⟨⟨rfl, rfl, hImmediates.invalidate hProgram.symm, hTargets.invalidate hProgram.symm⟩,
    ?_, rfl, rfl⟩
  exact initialStack_eq signature arguments s.machine.store

/-- The run of an invocation ends where its thread does. -/
theorem Consistent.result_ends {s : Session} (h : s.Consistent) (fuel : Nat) (index : UInt32)
    (signature : FunctionType) (arguments : List Value) :
    Ends (s.environment index)
      ((Thread.start signature arguments s.machine.store).run (s.environment index) fuel
        s.machine.steps)
      (s.result fuel index signature arguments) :=
  run_follows (h.opening_runs index signature arguments) (Thread.start_wellPlaced _ _ _ _) fuel _

theorem Consistent.close {s : Session} {index : UInt32} {r : RunResult}
    {store : Store} {steps : Nat} (h : r.machine.Holds (s.environment index) store steps) :
    (s.close index r).2.Consistent := by
  unfold Session.close
  cases r.outcome <;> exact ⟨s.environment index, rfl, h.immediates, h.targets⟩

theorem Consistent.invoke {s : Session} (h : s.Consistent) (fuel : Nat) (index : UInt32)
    (arguments : List Value) : (s.invoke fuel index arguments).2.Consistent := by
  unfold Session.invoke
  split
  · exact h
  · rename_i signature _
    rw [runChecked_eq]
    obtain ⟨_, _, hHolds⟩ := (h.result_ends fuel index signature arguments).holds
    exact Consistent.close hHolds

theorem Consistent.answer {s : Session} (h : s.Consistent) (fuel : Nat) (request : Request) :
    (s.answer fuel request).2.Consistent := by
  cases request with
  | invoke index arguments => exact h.invoke fuel index arguments
  | execute index =>
    change (s.execute fuel index).2.Consistent
    unfold Session.execute
    split
    · exact h.invoke fuel _ []
    · exact h

/-- The tables agree with the code after any sequence of requests, whatever their outcome. -/
theorem Consistent.serve {s : Session} (h : s.Consistent) (requests : List (Nat × Request)) :
    (s.serve requests).2.Consistent := by
  induction requests generalizing s with
  | nil => exact h
  | cons first rest ih => exact ih (h.answer first.1 first.2)

end Session

end WasmMachine
