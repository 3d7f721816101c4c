import WasmMachine.Proofs.Machine.Effect

/-!
# Who called whom

The activities of a thread form a chain. The current one runs the body of its function, each one
returns into the body of the function below it, and the last one is the driver's, which belongs to
no function and returns to nothing. Steps of arbitrary code keep the chain, since code changes only
by calls and returns.

* `CalledFrom`: the chain of the activities.
* `CalledFrom.step`: steps keep it.
* `Thread.step_callers_le`: only the limit on calls bounds its length.
-/

namespace WasmMachine

/-- The code that an activation runs: the body of its function, or the driver sequence. -/
def Program.Runs (p : Program) (a : ActivationFrame) (code : CodeRef) : Prop :=
  match a.function with
  | none => code = .driver
  | some index => ∃ place f, p.callee index = .ok (.defined place f) ∧ code = .function place

/-- The first activity runs `code`, and each one returns into the code of the next. The last one is
the driver's. -/
def CalledFrom (p : Program) : CodeRef → List Activity → Prop
  | _, [] => False
  | code, [A] => p.Runs A.activation code ∧ A.activation.function = none
  | code, A :: B :: rest =>
    p.Runs A.activation code ∧
      ∃ place, A.activation.returnTo = some place ∧ CalledFrom p place.code (B :: rest)

namespace CalledFrom

variable {p : Program} {code : CodeRef} {A B : Activity} {rest : List Activity}

theorem runs (h : CalledFrom p code (A :: rest)) : p.Runs A.activation code := by
  cases rest with
  | nil => exact h.1
  | cons B rest => exact h.1

/-- The topmost activity may change, as long as its function and its return stay the same. -/
theorem change (h : CalledFrom p code (A :: rest))
    (hFunction : B.activation.function = A.activation.function)
    (hReturn : B.activation.returnTo = A.activation.returnTo) :
    CalledFrom p code (B :: rest) := by
  have hRuns : p.Runs B.activation code := by
    have hOld := h.runs
    unfold Program.Runs at hOld ⊢
    rw [hFunction]
    exact hOld
  cases rest with
  | nil => exact ⟨hRuns, hFunction.trans h.2⟩
  | cons C rest =>
    obtain ⟨-, place, hPlace, hBelow⟩ := h
    exact ⟨hRuns, place, hReturn.trans hPlace, hBelow⟩

/-- Steps keep the chain: a call puts the callee on top, and a return goes on in the code of the
caller. -/
theorem step {env : Env} {t t' : Thread} (hPlaced : t.WellPlaced env)
    (h : CalledFrom env.program t.pc.code (t.activity :: t.callers))
    (hStep : t.step env = .ok (.running t')) :
    CalledFrom env.program t'.pc.code (t'.activity :: t'.callers) := by
  generalize hNext : Next.running t' = next at hStep
  obtain ⟨b, i, offset, -, -, hEffect⟩ := Thread.step_effect hPlaced hStep
  cases hEffect with
  | inside stays A store offset same =>
    cases hNext
    obtain ⟨locals, -, hSame⟩ := same
    exact h.change (by rw [hSame]) (by rw [hSame])
  | @call left index place f arguments offset enters site =>
    cases hNext
    exact ⟨⟨place, f, site.callee, rfl⟩, ⟨t.pc.code, offset⟩, rfl, h.change rfl rfl⟩
  | @ret top place caller rest site returns hCallers =>
    cases hNext
    rw [hCallers] at h
    obtain ⟨-, back, hBack, hBelow⟩ := h
    rw [returns] at hBack
    cases hBack
    exact hBelow.change rfl rfl
  | halt site returns hCallers => cases hNext

end CalledFrom

/-! ## The number of callers -/

namespace Thread

variable {env : Env} {t : Thread} {next : Next}

theorem call_depth {index : UInt32} (h : t.call env index = .ok next) :
    t.callers.length + 1 ≤ env.config.maxCallDepth.toNat := by
  unfold call at h
  split at h
  · cases h
  · cases h
  · split at h
    · cases h
    · rename_i hShallow
      omega

theorem callIndirect_depth {typeIndex : UInt32} (h : t.callIndirect env typeIndex = .ok next) :
    t.callers.length + 1 ≤ env.config.maxCallDepth.toNat := by
  unfold callIndirect at h
  split at h
  · cases h
  · split at h
    · cases h
    · rename_i operands _
      split at h
      · cases h
      · exact call_depth (t := t.withOperands operands) h

/-- A step adds a caller only below the limit. -/
theorem step_callers_le {t' : Thread} (hPlaced : t.WellPlaced env)
    (h : t.callers.length ≤ env.config.maxCallDepth.toNat)
    (hStep : t.step env = .ok (.running t')) :
    t'.callers.length ≤ env.config.maxCallDepth.toNat := by
  generalize hNext : Next.running t' = next at hStep
  obtain ⟨b, i, past, -, -, hEffect⟩ := step_effect hPlaced hStep
  cases hEffect with
  | inside stays A store offset same =>
    cases hNext
    exact h
  | @call left index place f arguments offset enters site =>
    cases hNext
    obtain ⟨b, i, hByte, hDecode, hCall⟩ := site.operands
    unfold step at hStep
    simp only [hByte, hDecode] at hStep
    rcases hCall with ⟨rfl, -⟩ | ⟨typeIndex, slot, rfl, -⟩
    · exact call_depth (t := t.jump offset) hStep
    · exact callIndirect_depth (t := t.jump offset) hStep
  | @ret top place caller rest site returns hCallers =>
    cases hNext
    rw [hCallers, List.length_cons] at h
    exact Nat.le_of_succ_le h
  | halt site returns hCallers => cases hNext

end Thread

end WasmMachine
