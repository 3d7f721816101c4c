import WasmMachine.Proofs.Machine.Keeping
import WasmMachine.Proofs.Machine.OperandLaws
import WasmMachine.Proofs.Store.Accesses

/-!
# Operations that fail

An operation may change what it likes as long as it succeeds, and still keep a property of machines
wherever it fails. This is so if the part that does not keep the property comes last and cannot
fail. Calls are made in this way: a new activation is put on the stack, and counted, when nothing
can go wrong any more.

* `KeepsOnError`: an operation keeps a property where it fails.
* `KeepsOnError.bind`, `KeepsOnError.bind_succeeds`: sequences.
* `KeepsOnError.callIndirect`: a call that fails has made no activation.
-/

namespace WasmMachine

open Stack

/-- Where the operation fails, it has kept a property of machines. -/
def KeepsOnError {α : Type} (I : Machine → Prop) (x : Exec α) : Prop :=
  ∀ m, I m → ∀ e m', x m = .error e m' → I m'

/-- The operation never fails. -/
def Succeeds {α : Type} (x : Exec α) : Prop := ∀ m, ∃ a m', x m = .ok a m'

namespace KeepsOnError

variable {I : Machine → Prop} {env : Env} {α β : Type} {x y : Exec α} {f : α → Exec β}

theorem of_keeps (h : Keeps I x) : KeepsOnError I x := by
  intro m hm e m' hRun
  have hKept := h m hm
  rw [hRun] at hKept
  exact hKept

theorem of_succeeds (h : Succeeds x) : KeepsOnError I x := by
  intro m _ e m' hRun
  obtain ⟨a, m'', hOk⟩ := h m
  rw [hRun] at hOk
  cases hOk

protected theorem throw (e : Trap) : KeepsOnError I (throw e : Exec α) := of_keeps (Keeps.throw e)

/-- What keeps the property may come first. -/
protected theorem bind (hx : Keeps I x) (hf : ∀ a, KeepsOnError I (f a)) :
    KeepsOnError I (x >>= f) := by
  intro m hm e m' hRun
  have hKept := hx m hm
  cases hFirst : x m with
  | error e' m₁ =>
    rw [run_bind_of_error hFirst] at hRun
    rw [hFirst] at hKept
    cases hRun
    exact hKept
  | ok a m₁ =>
    rw [run_bind_of_ok hFirst] at hRun
    rw [hFirst] at hKept
    exact hf a m₁ hKept e m' hRun

/-- What never fails may come last. -/
theorem bind_succeeds (hx : KeepsOnError I x) (hf : ∀ a, Succeeds (f a)) :
    KeepsOnError I (x >>= f) := by
  intro m hm e m' hRun
  cases hFirst : x m with
  | error e' m₁ =>
    rw [run_bind_of_error hFirst] at hRun
    cases hRun
    exact hx m hm e m' hFirst
  | ok a m₁ =>
    rw [run_bind_of_ok hFirst] at hRun
    obtain ⟨b, m₂, hOk⟩ := hf a m₁
    rw [hRun] at hOk
    cases hOk

protected theorem ite {p : Prop} [Decidable p] (hx : KeepsOnError I x) (hy : KeepsOnError I y) :
    KeepsOnError I (if p then x else y) := by
  split
  · exact hx
  · exact hy

/-! ## Calls -/

/-- When the arguments have been taken, nothing can go wrong any more. -/
theorem succeeds_enter (index : UInt32) (place : Nat) (f : Function) (arguments : List Value) :
    Succeeds (Exec.enter index place f arguments) := fun _ => ⟨_, _, rfl⟩

variable {S : Stack → Prop} {T : Store → Prop} [parts : Machine.Parts I S T]
variable [activations : Stack.OfActivations S]

include parts activations

theorem callFunction (index : UInt32) : KeepsOnError I (Exec.callFunction env index) := by
  refine .bind (Keeps.ofExcept _) fun callee => ?_
  cases callee with
  | imported f => exact .throw _
  | defined place f =>
    refine .bind Keeps.get fun m => .ite (.throw _) ?_
    refine .bind (Keeps.onValues (.popParams _ _ _)) fun arguments => ?_
    exact of_succeeds (succeeds_enter index place f arguments)

theorem call : KeepsOnError I (Exec.call env) := .bind Keeps.readU32 fun index => callFunction index

theorem callIndirect : KeepsOnError I (Exec.callIndirect env) := by
  refine .bind Keeps.readU32 fun typeIndex => .bind Keeps.readU32 fun _ => ?_
  cases env.program.types[typeIndex.toNat]? with
  | none => exact .throw _
  | some expected =>
    refine .bind (Keeps.onValues (.popInt .i32)) fun slot => ?_
    refine .bind (Keeps.readSlot _) fun function => .bind (Keeps.ofExcept _) fun actual => ?_
    exact .ite (.throw _) (callFunction function)

end KeepsOnError

end WasmMachine
