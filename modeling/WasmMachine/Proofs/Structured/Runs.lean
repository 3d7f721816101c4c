import WasmMachine.Proofs.Machine.Invocation

/-!
# Runs of threads as relations

How a thread runs when no step limit is set: steps that lead somewhere, a run that ends in a fault,
and a run that lasts for a number of steps. They compose, and each determines what `Thread.run`
gives with enough fuel.

* `Thread.Goes`, `Thread.Fails`, `Thread.Lasts`: the three kinds of runs.
* `Thread.Goes.run_halted`, `Thread.Fails.run_failed`, `Thread.Lasts.run_outOfFuel`: the same runs
  with fuel.
-/

namespace WasmMachine

namespace Thread

/-- A number of steps lead to a thread or to its end. -/
inductive Goes (env : Env) : Nat → Thread → Next → Prop
  | here (t : Thread) : Goes env 0 t (.running t)
  | step {n : Nat} {t t' : Thread} {next : Next} (first : t.step env = .ok (.running t'))
      (rest : Goes env n t' next) : Goes env (n + 1) t next
  | halt {t : Thread} {values : List Value} {store : Store}
      (last : t.step env = .ok (.halted values store)) : Goes env 1 t (.halted values store)

/-- Steps lead to a fault, which leaves the store as it was before the instruction. -/
inductive Fails (env : Env) : Thread → Fault → Store → Prop
  | here {t : Thread} {e : Trap} (last : t.step env = .error e) :
      Fails env t ⟨e, some (env.program.modulePosition t.pc)⟩ t.store
  | step {t t' : Thread} {f : Fault} {store : Store} (first : t.step env = .ok (.running t'))
      (rest : Fails env t' f store) : Fails env t f store

/-- The thread runs on for at least a number of steps. -/
def Lasts (env : Env) (n : Nat) (t : Thread) : Prop := ∃ t', Goes env n t (.running t')

variable {env : Env}

theorem Goes.trans {n m : Nat} {t t' : Thread} {next : Next} (h : Goes env n t (.running t'))
    (h' : Goes env m t' next) : Goes env (n + m) t next := by
  generalize hMid : Next.running t' = mid at h
  induction h with
  | here t =>
    cases hMid
    rwa [Nat.zero_add]
  | step first _ ih =>
    rw [Nat.add_right_comm]
    exact .step first (ih hMid)
  | halt last => cases hMid

theorem Goes.single {t : Thread} {next : Next} (h : t.step env = .ok next) :
    Goes env 1 t next := by
  cases next with
  | running t' => exact .step h (.here t')
  | halted values store => exact .halt h

theorem Goes.fails {n : Nat} {t t' : Thread} {f : Fault} {store : Store}
    (h : Goes env n t (.running t')) (h' : Fails env t' f store) : Fails env t f store := by
  generalize hMid : Next.running t' = mid at h
  induction h with
  | here t =>
    cases hMid
    exact h'
  | step first _ ih => exact .step first (ih hMid)
  | halt last => cases hMid

theorem Goes.lasts {n m : Nat} {t t' : Thread} (h : Goes env n t (.running t'))
    (h' : Lasts env m t') : Lasts env (n + m) t := by
  obtain ⟨t'', hRest⟩ := h'
  exact ⟨t'', h.trans hRest⟩

theorem Lasts.mono {n m : Nat} {t : Thread} (h : Lasts env n t) (hLe : m ≤ n) :
    Lasts env m t := by
  induction m generalizing n t with
  | zero => exact ⟨t, .here t⟩
  | succ m ih =>
    obtain ⟨t', hGoes⟩ := h
    cases hGoes with
    | here => omega
    | @step k _ t₁ _ first rest =>
      obtain ⟨t₂, hRest⟩ := ih ⟨t', rest⟩ (Nat.le_of_succ_le_succ hLe)
      exact ⟨t₂, .step first hRest⟩

/-! ## Runs with fuel -/

/-- Without a step limit a step that goes on is a step of the run. -/
theorem tick_of_step (hLimit : env.config.maxSteps = none) {t t' : Thread} {steps : Nat}
    (h : t.step env = .ok (.running t')) :
    t.tick env steps = (.ok (.running t'), steps + 1) := by
  have hNone : exceededLimit? env (steps + 1) = none := by simp [exceededLimit?, hLimit]
  unfold tick
  cases hByte : (env.code t.pc.code)[t.pc.offset]? with
  | none =>
    rw [Thread.step, hByte] at h
    cases h
  | some b => simp only [hNone, h]

theorem tick_of_halt (hLimit : env.config.maxSteps = none) {t : Thread} {values : List Value}
    {store : Store} {steps : Nat} (h : t.step env = .ok (.halted values store)) :
    t.tick env steps = (.ok (.halted values store), steps + 1) := by
  have hNone : exceededLimit? env (steps + 1) = none := by simp [exceededLimit?, hLimit]
  unfold tick
  cases hByte : (env.code t.pc.code)[t.pc.offset]? with
  | none =>
    rw [Thread.step, hByte] at h
    cases h
  | some b => simp only [hNone, h]

theorem tick_of_trap (hLimit : env.config.maxSteps = none) {t : Thread} {e : Trap} (steps : Nat)
    (h : t.step env = .error e) :
    (t.tick env steps).1 = .error ⟨e, some (env.program.modulePosition t.pc)⟩ := by
  have hNone : exceededLimit? env (steps + 1) = none := by simp [exceededLimit?, hLimit]
  unfold tick
  cases hByte : (env.code t.pc.code)[t.pc.offset]? with
  | none =>
    rw [Thread.step, hByte] at h
    cases h
    rfl
  | some b => simp only [hNone, h]

theorem Goes.run_halted (hLimit : env.config.maxSteps = none) {n : Nat} {t : Thread}
    {values : List Value} {store : Store} (h : Goes env n t (.halted values store)) {fuel : Nat}
    (hFuel : n ≤ fuel) (steps : Nat) : (t.run env fuel steps).1 = .halted values store := by
  generalize hEnd : Next.halted values store = next at h
  induction h generalizing fuel steps with
  | here t => cases hEnd
  | step first _ ih =>
    obtain ⟨fuel, rfl⟩ : ∃ k, fuel = k + 1 := ⟨fuel - 1, by omega⟩
    rw [run, tick_of_step hLimit first]
    exact ih (by omega) _ hEnd
  | halt last =>
    cases hEnd
    obtain ⟨fuel, rfl⟩ : ∃ k, fuel = k + 1 := ⟨fuel - 1, by omega⟩
    rw [run, tick_of_halt hLimit last]

theorem Fails.run_failed (hLimit : env.config.maxSteps = none) {t : Thread} {f : Fault}
    {store : Store} (h : Fails env t f store) :
    ∃ n, ∀ fuel steps, n ≤ fuel → (t.run env fuel steps).1 = .failed f store := by
  induction h with
  | @here t e last =>
    refine ⟨1, fun fuel steps hFuel => ?_⟩
    obtain ⟨fuel, rfl⟩ : ∃ k, fuel = k + 1 := ⟨fuel - 1, by omega⟩
    have hTick := tick_of_trap hLimit steps last
    rw [run]
    rcases hResult : t.tick env steps with ⟨result, count⟩
    rw [hResult] at hTick
    cases hTick
    rfl
  | step first _ ih =>
    obtain ⟨n, hn⟩ := ih
    refine ⟨n + 1, fun fuel steps hFuel => ?_⟩
    obtain ⟨fuel, rfl⟩ : ∃ k, fuel = k + 1 := ⟨fuel - 1, by omega⟩
    rw [run, tick_of_step hLimit first]
    exact hn fuel _ (by omega)

theorem Lasts.run_outOfFuel (hLimit : env.config.maxSteps = none) {n : Nat} {t : Thread}
    (h : Lasts env n t) (steps : Nat) : ∃ t', (t.run env n steps).1 = .outOfFuel t' := by
  obtain ⟨t', hGoes⟩ := h
  generalize hEnd : Next.running t' = next at hGoes
  induction hGoes generalizing steps with
  | here t => exact ⟨t, rfl⟩
  | step first _ ih =>
    rw [run, tick_of_step hLimit first]
    exact ih _ hEnd
  | halt last => cases hEnd

end Thread

end WasmMachine
