import WasmMachine.Proofs.Machine.Invocation

/-!
# The memo tables are transparent

A session that remembers operands and block ends cannot be told from one that decodes them again
every time. Both machines follow the same thread, so after every number of steps they have the same
stack, store and place, and they fail with the same fault.

* `run_alike`: two machines at the same thread, one of them without tables, run alike.
* `Session.serve_without_memo`: all requests get the same answers and leave the same state.
-/

namespace WasmMachine

open Stack

/-- The environment with the memo tables switched on or off. -/
def Env.withMemo (env : Env) (memo : Bool) : Env := { env with memo }

/-- Threads know nothing of the tables. -/
theorem Thread.tick_withMemo (env : Env) (memo : Bool) (steps : Nat) (t : Thread) :
    t.tick (env.withMemo memo) steps = t.tick env steps := rfl

theorem Stacked.withMemo {env : Env} (memo : Bool) {code : CodeRef} {activities : List Activity}
    (h : Stacked env code activities) : Stacked (env.withMemo memo) code activities := by
  induction activities generalizing code with
  | nil => exact h
  | cons A rest ih =>
    refine ⟨h.1, ?_⟩
    have hReturn := h.2
    cases hPlace : A.activation.returnTo with
    | none =>
      rw [hPlace] at hReturn
      exact hReturn
    | some place =>
      rw [hPlace] at hReturn
      exact ⟨hReturn.1, ih hReturn.2⟩

theorem Thread.WellPlaced.withMemo {env : Env} {t : Thread} (h : t.WellPlaced env)
    (memo : Bool) : t.WellPlaced (env.withMemo memo) :=
  ⟨h.stacked.withMemo memo, h.boundary⟩

/-! ## Runs -/

/-- Two runs that differ at most in what they remember. A run that failed leaves its stack, which
is dropped. -/
structure Alike (r r' : RunResult) : Prop where
  outcome : r.outcome = r'.outcome
  journal : r.journal = r'.journal
  store : r.machine.store = r'.machine.store
  steps : r.machine.steps = r'.machine.steps
  state : (∀ f, r.outcome ≠ .failed f) →
    r.machine.stack = r'.machine.stack ∧ r.machine.halted = r'.machine.halted ∧
      (r.machine.halted = false → r.machine.pc = r'.machine.pc)

/-- The journal after a recorded step, which depends on the stack, the place and the steps. -/
theorem stepRecorded_snd (env : Env) (m : Machine) (j : Journal) :
    (stepRecorded env m j).2 =
      if j.records .trace then
        match step env m with
        | .ok _ m' => (j.noteDispatch env m).noteCall (m.stack.count .activation) m'
        | .error _ _ => j.noteDispatch env m
      else j := by
  unfold stepRecorded
  split
  · simp only
    cases step env m with
    | ok _ m' => rfl
    | error f m' => rfl
  · rfl

theorem noteDispatch_withMemo {env : Env} {memo : Bool} {m m' : Machine} {t : Thread}
    {steps : Nat} (hRuns : m.Runs env t steps) (hRuns' : m'.Runs (env.withMemo memo) t steps)
    (j : Journal) : j.noteDispatch env m = j.noteDispatch (env.withMemo memo) m' := by
  have hFetch : fetch? (env.withMemo memo) m' = fetch? env m := by
    rw [fetch?, fetch?, hRuns.pc, hRuns'.pc]
    rfl
  have hLimit : exceededLimit? (env.withMemo memo) (m'.steps + 1) =
      exceededLimit? env (m.steps + 1) := by
    rw [hRuns.steps, hRuns'.steps]
    rfl
  unfold Journal.noteDispatch
  rw [hFetch, hLimit, hRuns.pc, hRuns'.pc, hRuns.stack, hRuns'.stack]

theorem noteCall_congr {m m' : Machine} (hStack : m.stack = m'.stack) (j : Journal)
    (depth : Nat) : j.noteCall depth m = j.noteCall depth m' := by
  unfold Journal.noteCall
  rw [hStack]

/-- Two machines at the same thread, with and without memo tables, run alike. -/
theorem run_alike {env : Env} {memo : Bool} {m m' : Machine} {t : Thread} {steps : Nat}
    (hRuns : m.Runs env t steps) (hRuns' : m'.Runs (env.withMemo memo) t steps)
    (hPlaced : t.WellPlaced env) (fuel : Nat) (j : Journal) :
    Alike (run env fuel m j) (run (env.withMemo memo) fuel m' j) := by
  induction fuel generalizing m m' t steps j with
  | zero =>
    rw [run, run, hRuns.halted, hRuns'.halted]
    refine ⟨rfl, rfl, hRuns.store.trans hRuns'.store.symm, hRuns.steps.trans hRuns'.steps.symm,
      fun _ => ⟨hRuns.stack.trans hRuns'.stack.symm, ?_, fun _ => hRuns.pc.trans hRuns'.pc.symm⟩⟩
    exact hRuns.halted.trans hRuns'.halted.symm
  | succ fuel ih =>
    have hStep := step_follows hRuns hPlaced
    have hStep' := step_follows hRuns' (hPlaced.withMemo memo)
    rw [Thread.tick_withMemo] at hStep'
    have hNote := noteDispatch_withMemo hRuns hRuns' j
    have hDepth : m.stack.count .activation = m'.stack.count .activation := by
      rw [hRuns.stack, hRuns'.stack]
    rw [run_step hRuns.halted, run_step hRuns'.halted, stepRecorded_snd, stepRecorded_snd]
    rcases hTick : t.tick env steps with ⟨f | (t' | ⟨values, store⟩), steps'⟩
    · rw [hTick] at hStep hStep'
      obtain ⟨n, hn, hHolds⟩ := hStep
      obtain ⟨n', hn', hHolds'⟩ := hStep'
      rw [hn, hn']
      refine ⟨rfl, ?_, hHolds.store.trans hHolds'.store.symm,
        hHolds.steps.trans hHolds'.steps.symm, fun h => absurd rfl (h f)⟩
      simp only [hNote]
    · rw [hTick] at hStep hStep'
      obtain ⟨n, hn, hNext⟩ := hStep
      obtain ⟨n', hn', hNext'⟩ := hStep'
      rw [hn, hn']
      simp only [hNote, hDepth, noteCall_congr (hNext.stack.trans hNext'.stack.symm)]
      exact ih hNext hNext' (hPlaced.step (Thread.tick_running hTick)) _
    · rw [hTick] at hStep hStep'
      obtain ⟨n, hn, hRests⟩ := hStep
      obtain ⟨n', hn', hRests'⟩ := hStep'
      rw [hn, hn']
      simp only [hNote, hDepth, noteCall_congr (hRests.stack.trans hRests'.stack.symm),
        run_halted hRests.halted, run_halted hRests'.halted]
      refine ⟨rfl, rfl, hRests.store.trans hRests'.store.symm,
        hRests.steps.trans hRests'.steps.symm, fun _ => ⟨hRests.stack.trans hRests'.stack.symm,
          hRests.halted.trans hRests'.halted.symm, fun h => ?_⟩⟩
      exact Bool.noConfusion (h.symm.trans hRests.halted)

/-! ## Sessions -/

namespace Session

/-- The session with the memo tables switched on or off. -/
def withMemo (s : Session) (memo : Bool) : Session := { s with memo }

/-- Two sessions that differ at most in what they remember and whether they do. -/
structure Matches (s s' : Session) : Prop where
  program : s.program = s'.program
  config : s.config = s'.config
  started : s.started = s'.started
  journal : s.journal = s'.journal
  store : s.machine.store = s'.machine.store
  steps : s.machine.steps = s'.machine.steps

theorem Matches.environment {s s' : Session} (h : s.Matches s') (index : UInt32) :
    s'.environment index = (s.environment index).withMemo s'.memo := by
  unfold Session.environment Env.withMemo
  rw [h.program, h.config, h.started]

theorem Matches.result {s s' : Session} (h : s.Matches s') (hConsistent : s.Consistent)
    (hConsistent' : s'.Consistent) (fuel : Nat) (index : UInt32) (signature : FunctionType)
    (arguments : List Value) :
    Alike (s.result fuel index signature arguments) (s'.result fuel index signature arguments) := by
  have hRuns := hConsistent.opening_runs index signature arguments
  have hRuns' := hConsistent'.opening_runs index signature arguments
  rw [← h.store, ← h.steps, h.environment] at hRuns'
  unfold Session.result
  rw [h.environment, ← h.journal]
  exact run_alike hRuns hRuns' (Thread.start_wellPlaced _ _ _ _) fuel _

theorem Matches.close {s s' : Session} (h : s.Matches s') {r r' : RunResult} (hAlike : Alike r r')
    (index : UInt32) :
    (s.close index r).1 = (s'.close index r').1 ∧
      (s.close index r).2.Matches (s'.close index r').2 := by
  unfold Session.close
  rw [← hAlike.outcome]
  cases hOutcome : r.outcome with
  | halted =>
    have hState := hAlike.state fun f => by rw [hOutcome]; exact Outcome.noConfusion
    refine ⟨?_, h.program, h.config, rfl, ?_, hAlike.store, hAlike.steps⟩
    · simp only [hState.1]
    · simp only [hAlike.journal, hAlike.steps]
  | failed f =>
    exact ⟨rfl, h.program, h.config, rfl, hAlike.journal, hAlike.store, hAlike.steps⟩
  | outOfFuel =>
    exact ⟨rfl, h.program, h.config, rfl, hAlike.journal, hAlike.store, hAlike.steps⟩

theorem Matches.invoke {s s' : Session} (h : s.Matches s') (hConsistent : s.Consistent)
    (hConsistent' : s'.Consistent) (fuel : Nat) (index : UInt32) (arguments : List Value) :
    (s.invoke fuel index arguments).1 = (s'.invoke fuel index arguments).1 ∧
      (s.invoke fuel index arguments).2.Matches (s'.invoke fuel index arguments).2 := by
  have hCheck : s.checkArguments index arguments = s'.checkArguments index arguments := by
    unfold Session.checkArguments
    rw [h.program]
  unfold Session.invoke
  rw [hCheck]
  cases s'.checkArguments index arguments with
  | error trap => exact ⟨rfl, h⟩
  | ok signature =>
    simp only [runChecked_eq]
    exact h.close (h.result hConsistent hConsistent' fuel index signature arguments) index

theorem Matches.answer {s s' : Session} (h : s.Matches s') (hConsistent : s.Consistent)
    (hConsistent' : s'.Consistent) (fuel : Nat) (request : Request) :
    (s.answer fuel request).1 = (s'.answer fuel request).1 ∧
      (s.answer fuel request).2.Matches (s'.answer fuel request).2 := by
  cases request with
  | invoke index arguments => exact h.invoke hConsistent hConsistent' fuel index arguments
  | execute index =>
    change (s.execute fuel index).1 = (s'.execute fuel index).1 ∧
      (s.execute fuel index).2.Matches (s'.execute fuel index).2
    unfold Session.execute
    rw [h.program, h.config]
    cases index.or s'.program.entry with
    | some index => exact h.invoke hConsistent hConsistent' fuel index []
    | none => exact ⟨rfl, h⟩

theorem Matches.serve {s s' : Session} (h : s.Matches s') (hConsistent : s.Consistent)
    (hConsistent' : s'.Consistent) (requests : List (Nat × Request)) :
    (s.serve requests).1 = (s'.serve requests).1 ∧
      (s.serve requests).2.Matches (s'.serve requests).2 := by
  induction requests generalizing s s' with
  | nil => exact ⟨rfl, h⟩
  | cons first rest ih =>
    obtain ⟨hAnswer, hMatches⟩ := h.answer hConsistent hConsistent' first.1 first.2
    obtain ⟨hOthers, hEnd⟩ := ih hMatches (hConsistent.answer _ _) (hConsistent'.answer _ _)
    exact ⟨congrArg₂ List.cons hAnswer hOthers, hEnd⟩

/-- A session on an instance answers all requests as one without memo tables does, and is left in
the same state by them. The invocations agree step by step: after every number of steps they have
the same stack, store, place and number of dispatched instructions, until both halt or both fail
with the same fault. -/
theorem serve_without_memo (i : Instance) (config : Config) (journal : Journal)
    (requests : List (Nat × Request)) :
    let s := ofInstance i config journal
    let plain := s.withMemo false
    (s.serve requests).1 = (plain.serve requests).1 ∧
      (s.serve requests).2.Matches (plain.serve requests).2 ∧
      ∀ steps index signature arguments,
        Alike ((s.serve requests).2.result steps index signature arguments)
          ((plain.serve requests).2.result steps index signature arguments) := by
  intro s plain
  have hStart : s.Matches plain := ⟨rfl, rfl, rfl, rfl, rfl, rfl⟩
  have hConsistent : s.Consistent := consistent_ofInstance i config journal
  have hConsistent' : plain.Consistent := hConsistent
  obtain ⟨hAnswers, hMatches⟩ := hStart.serve hConsistent hConsistent' requests
  refine ⟨hAnswers, hMatches, ?_⟩
  intro steps index signature arguments
  exact hMatches.result (hConsistent.serve requests) (hConsistent'.serve requests) steps index
    signature arguments

end Session

end WasmMachine
