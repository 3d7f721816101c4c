import WasmMachine.Proofs.Machine.OperandLaws
import WasmMachine.Proofs.Machine.Thread

/-!
# Effects of steps

What a step of a thread does to the activities: it stays in its activation, enters a function, or
leaves its activation. Which of these, the instruction tells together with the operand on top and
the number of open blocks. `Thread.step_effect` says so for arbitrary code, and everything about
whole runs that concerns callers is read off it.

* `Instruction.transfer`: what an instruction does to the activations.
* `Thread.Effect`: the four kinds of effects, with all they change.
* `Nested.step`: between a call and its return, the caller waits unchanged below the callee.
-/

namespace WasmMachine

open Stack

/-! ## Locals -/

/-- At most one local changes, and it keeps its type. -/
def LocalsChange (before after : Array Value) : Prop :=
  after = before ∨ ∃ (index : Nat) (old v : Value), before[index]? = some old ∧
    v.type = old.type ∧ after = before.setIfInBounds index v

/-- A region program that never changes the locals. -/
def KeepsLocals {α : Type} (f : RegionM α) : Prop :=
  ∀ σ a τ, f σ = .ok (a, τ) → τ.locals = σ.locals

namespace RegionM

/-- From a region program that is a sequence, the two parts. -/
theorem bind_eq_ok {α β : Type} {f : RegionM α} {g : α → RegionM β} {σ τ : Region} {b : β}
    (h : (f >>= g) σ = .ok (b, τ)) :
    ∃ a ρ, f σ = .ok (a, ρ) ∧ g a ρ = .ok (b, τ) := by
  change (f σ).bind (fun p => g p.1 p.2) = _ at h
  cases hf : f σ with
  | error e => rw [hf] at h; cases h
  | ok p => rw [hf] at h; exact ⟨p.1, p.2, rfl, h⟩

theorem operands_eq_ok {α : Type} {op : StackM α} {σ τ : Region} {a : α}
    (h : operands op σ = .ok (a, τ)) :
    ∃ left, onOperands op σ.operands = .ok (a, left) ∧ τ = { σ with operands := left } := by
  unfold operands at h
  split at h
  · rename_i left hRun
    cases h
    exact ⟨left, hRun, rfl⟩
  · cases h

theorem readLocal_eq_ok {index : UInt32} {σ τ : Region} {v : Value}
    (h : readLocal index σ = .ok (v, τ)) : σ.locals[index.toNat]? = some v ∧ τ = σ := by
  unfold readLocal at h
  split at h
  · rename_i hLocal
    cases h
    exact ⟨hLocal, rfl⟩
  · cases h

end RegionM

namespace KeepsLocals

open RegionM

protected theorem bind {α β : Type} {f : RegionM α} {g : α → RegionM β} (hf : KeepsLocals f)
    (hg : ∀ a, KeepsLocals (g a)) : KeepsLocals (f >>= g) := by
  intro σ b τ h
  obtain ⟨a, ρ, hFirst, hSecond⟩ := bind_eq_ok h
  rw [hg a ρ b τ hSecond, hf σ a ρ hFirst]

protected theorem pure {α : Type} (a : α) : KeepsLocals (Pure.pure a : RegionM α) := by
  intro σ b τ h
  cases h
  rfl

protected theorem throw {α : Type} (e : Trap) : KeepsLocals (throw e : RegionM α) := by
  intro σ b τ h
  cases h

theorem operands {α : Type} (op : StackM α) : KeepsLocals (RegionM.operands op) := by
  intro σ a τ h
  obtain ⟨left, -, rfl⟩ := operands_eq_ok h
  rfl

theorem push (v : Value) : KeepsLocals (RegionM.push v) := by
  intro σ a τ h
  cases h
  rfl

theorem readLocal (index : UInt32) : KeepsLocals (RegionM.readLocal index) := by
  intro σ a τ h
  rw [(readLocal_eq_ok h).2]

theorem readGlobal (index : UInt32) : KeepsLocals (RegionM.readGlobal index) := by
  intro σ a τ h
  unfold RegionM.readGlobal at h
  split at h <;> cases h
  rfl

theorem readMemory : KeepsLocals RegionM.readMemory := by
  intro σ a τ h
  unfold RegionM.readMemory at h
  split at h <;> cases h
  rfl

theorem onMemory {α : Type} (op : MemoryM α) : KeepsLocals (RegionM.onMemory op) := by
  intro σ a τ h
  unfold RegionM.onMemory at h
  split at h
  · cases h
  · split at h <;> cases h
    rfl

theorem loadNumber (address width : Nat) : KeepsLocals (RegionM.loadNumber address width) := by
  refine readMemory.bind fun memory => ?_
  cases memory.load address width with
  | ok n => exact KeepsLocals.pure n
  | error e => exact KeepsLocals.throw e

theorem assignGlobal (index : UInt32) : KeepsLocals (RegionM.assignGlobal index) := by
  refine (readGlobal index).bind fun g => ?_
  split
  · exact KeepsLocals.throw _
  · refine (operands _).bind fun v => ?_
    intro σ a τ h
    cases h
    rfl

end KeepsLocals

open RegionM in
theorem assignLocal_locals {index : UInt32} {σ τ : Region} {u : Unit}
    (h : assignLocal index σ = .ok (u, τ)) : LocalsChange σ.locals τ.locals := by
  obtain ⟨old, ρ, hRead, hRest⟩ := bind_eq_ok h
  obtain ⟨hLocal, rfl⟩ := readLocal_eq_ok hRead
  obtain ⟨v, ρ', hPop, hAssign⟩ := bind_eq_ok hRest
  obtain ⟨left, hTaken, rfl⟩ := operands_eq_ok hPop
  cases hAssign
  exact .inr ⟨index.toNat, old, v, hLocal, (popTyped_eq_ok hTaken).1, rfl⟩

open RegionM in
/-- An instruction without control changes at most one local, which keeps its type. -/
theorem Simple.run_locals {s : Simple} {σ τ : Region} {u : Unit} (h : s.run σ = .ok (u, τ)) :
    LocalsChange σ.locals τ.locals := by
  have keep : ∀ {f : RegionM Unit}, KeepsLocals f → f σ = .ok (u, τ) →
      LocalsChange σ.locals τ.locals := fun hKeeps hRun => .inl (hKeeps σ u τ hRun)
  cases s with
  | unreachable => cases h
  | nop => exact keep (KeepsLocals.pure ()) h
  | drop | select | numeric n => exact keep (KeepsLocals.operands _) h
  | localGet index => exact keep ((KeepsLocals.readLocal index).bind fun v => .push v) h
  | localSet index => exact assignLocal_locals h
  | localTee index =>
    obtain ⟨_, ρ, hAssign, hRest⟩ := bind_eq_ok h
    rw [((KeepsLocals.readLocal index).bind fun v => .push v) ρ u τ hRest]
    exact assignLocal_locals hAssign
  | globalGet index => exact keep ((KeepsLocals.readGlobal index).bind fun g => .push g.value) h
  | globalSet index => exact keep (KeepsLocals.assignGlobal index) h
  | load op offset =>
    exact keep (KeepsLocals.readMemory.bind fun _ => (KeepsLocals.operands _).bind fun _ =>
      (KeepsLocals.loadNumber _ _).bind fun _ => .push _) h
  | store op offset =>
    exact keep (KeepsLocals.readMemory.bind fun _ => (KeepsLocals.operands _).bind fun _ =>
      (KeepsLocals.operands _).bind fun _ => .onMemory _) h
  | memorySize => exact keep (KeepsLocals.readMemory.bind fun _ => .push _) h
  | memoryGrow =>
    exact keep (KeepsLocals.readMemory.bind fun _ => (KeepsLocals.operands _).bind fun _ =>
      (KeepsLocals.onMemory _).bind fun _ => .push _) h
  | const v => exact keep (KeepsLocals.push v) h

/-! ## What an instruction does to the activations -/

/-- What an instruction does to the activations, if it succeeds. -/
inductive Transfer where
  /-- It stays in its activation. -/
  | inside
  /-- It enters a function. -/
  | call
  /-- It leaves its activation. -/
  | ret
  deriving DecidableEq

namespace Instruction

/-- The depth that an instruction branches to, if it does, with `operand` on top of the stack. -/
def branchDepth? (operand : Option Value) : Instruction → Option Nat
  | .elseArm => some 0
  | .branch depth => some depth.toNat
  | .branchIf depth =>
    match operand with
    | some (.i32 condition) => if condition = 0 then none else some depth.toNat
    | _ => none
  | .branchTable depths default =>
    match operand with
    | some (.i32 index) => some (depths[index.toNat]?.getD default).toNat
    | _ => none
  | _ => none

/-- What an instruction does to the activations, with `operand` on top of the stack and `labels` of
them above the topmost activation: branching past all of the labels and closing a block when there
is none leave the function, as `return` does. -/
def transfer (operand : Option Value) (labels : Nat) : Instruction → Transfer
  | .call _ | .callIndirect _ => .call
  | .ret => .ret
  | .blockEnd => if labels = 0 then .ret else .inside
  | i => if i.branchDepth? operand = some labels then .ret else .inside

/-- The number of operands that a branch takes to decide where it goes. -/
def selectors : Instruction → Nat
  | .branchIf _ | .branchTable _ _ => 1
  | _ => 0

theorem transfer_of_branchDepth? {i : Instruction} {operand : Option Value} {depth : Nat}
    (h : i.branchDepth? operand = some depth) (labels : Nat) :
    i.transfer operand labels = if depth = labels then .ret else .inside := by
  have hSame : (some depth = some labels) = (depth = labels) := by rw [Option.some.injEq]
  cases i with
  | elseArm | branch | branchIf | branchTable => simp only [transfer, h, hSame]
  | simple | block | loop | ifThen | blockEnd | ret | call | callIndirect | invalid => cases h

end Instruction

/-! ## Effects -/

/-- The activation with new locals, of which at most one has changed. -/
def ActivationFrame.SameUpToLocal (a b : ActivationFrame) : Prop :=
  ∃ locals, LocalsChange a.locals locals ∧ b = { a with locals }

theorem ActivationFrame.SameUpToLocal.refl (a : ActivationFrame) : a.SameUpToLocal a :=
  ⟨a.locals, .inl rfl, rfl⟩

namespace Thread

/-- A call stands at the place of the thread: the function of the index takes its arguments from
the top of the operands, which leaves `left`, and `next` is the offset past the instruction. An
indirect call also takes the slot. -/
structure CallSite (env : Env) (t : Thread) (left : List Value) (index : UInt32) (place : Nat)
    (f : Function) (arguments : List Value) (next : Nat) : Prop where
  callee : env.program.callee index = .ok (.defined place f)
  types : arguments.map Value.type = f.signature.parameters
  operands : ∃ b i, (env.code t.pc.code)[t.pc.offset]? = some b ∧
    decodeAt (env.code t.pc.code) t.pc.offset b = .ok (i, next) ∧
    (i = .call index ∧ t.activity.operands = arguments.reverse ++ left ∨
      ∃ typeIndex slot, i = .callIndirect typeIndex ∧
        t.activity.operands = .i32 slot :: (arguments.reverse ++ left))

/-- What an instruction of a thread does to its activities. -/
def transfer (t : Thread) (i : Instruction) : Transfer :=
  i.transfer t.activity.operands.head? t.activity.blocks.length

/-- The instruction leaves the activation with its results `top`, which are the topmost operands
once the instruction has taken its own. -/
structure ReturnSite (t : Thread) (i : Instruction) (top : List Value) : Prop where
  leaves : t.transfer i = .ret
  types : (top.map Value.type).reverse = t.activity.activation.resultArity
  operands : ∃ taken left, taken.length = i.selectors ∧
    t.activity.operands = (taken ++ top) ++ left

/-- What an instruction does to the activities of a thread when it succeeds. -/
inductive Effect (env : Env) (t : Thread) (i : Instruction) : Next → Prop
  /-- The step stays in its activation, of which at most one local changes. -/
  | inside (stays : t.transfer i = .inside) (A : Activity) (store : Store) (offset : Nat)
      (same : t.activity.activation.SameUpToLocal A.activation) :
      Effect env t i (.running { t with activity := A, store := store, pc := ⟨t.pc.code, offset⟩ })
  /-- The step enters a function. -/
  | call {left : List Value} {index : UInt32} {place : Nat} {f : Function}
      {arguments : List Value} {next : Nat} (enters : t.transfer i = .call)
      (site : CallSite env t left index place f arguments next) :
      Effect env t i (.running (((t.jump next).withOperands left).enter index place f arguments))
  /-- The step returns to the caller. -/
  | ret {top : List Value} {place : CodePoint} {caller : Activity} {rest : List Activity}
      (site : t.ReturnSite i top)
      (returns : t.activity.activation.returnTo = some place)
      (callers : t.callers = caller :: rest) :
      Effect env t i (.running
        { activity := { caller with operands := top ++ caller.operands }
          callers := rest
          store := t.store
          pc := place })
  /-- The step leaves the outermost activation. -/
  | halt {top : List Value} (site : t.ReturnSite i top)
      (returns : t.activity.activation.returnTo = none) (callers : t.callers = []) :
      Effect env t i (.halted top t.store)

section Control

variable {env : Env} {t : Thread} {i : Instruction} {offset : Nat} {taken operands : List Value}
  {next : Next}

theorem leave_effect (hPlaced : t.WellPlaced env) (hLeaves : t.transfer i = .ret)
    (hTaken : taken.length = i.selectors) (hOperands : t.activity.operands = taken ++ operands)
    (h : ((t.jump offset).withOperands operands).leave = .ok next) : Effect env t i next := by
  have hReturn := hPlaced.stacked.2
  unfold leave at h
  split at h
  · cases h
  · rename_i top hTop
    obtain ⟨hTake, hTypes⟩ := carried?_eq_some hTop
    have hSplit : operands =
        top ++ operands.drop t.activity.activation.resultArity.length := by
      rw [hTake]
      exact (List.take_append_drop _ operands).symm
    have hSite : t.ReturnSite i top :=
      ⟨hLeaves, hTypes, taken, _, hTaken,
        by rw [hOperands, List.append_assoc, ← hSplit]⟩
    split at h
    · rename_i place caller rest hPlace hCallers
      cases h
      exact .ret hSite hPlace hCallers
    · rename_i hNot
      cases h
      cases hPlace : t.activity.activation.returnTo with
      | none =>
        rw [hPlace] at hReturn
        exact .halt hSite hPlace hReturn
      | some place =>
        rw [hPlace] at hReturn
        cases hCallers : t.callers with
        | nil =>
          rw [hCallers] at hReturn
          exact hReturn.2.elim
        | cons caller rest => exact (hNot place caller rest hPlace hCallers).elim

theorem branch_effect (hPlaced : t.WellPlaced env) {depth : Nat}
    (hDepth : i.branchDepth? t.activity.operands.head? = some depth)
    (hTaken : taken.length = i.selectors) (hOperands : t.activity.operands = taken ++ operands)
    (h : ((t.jump offset).withOperands operands).branch depth = .ok next) :
    Effect env t i next := by
  have hTransfer : t.transfer i = if depth = t.activity.blocks.length then .ret else .inside :=
    Instruction.transfer_of_branchDepth? hDepth _
  unfold branch at h
  split at h
  · rename_i b outside hDrop
    have hInside : depth ≠ t.activity.blocks.length := by
      rintro rfl
      cases hDrop.symm.trans List.drop_length
    rw [if_neg hInside] at hTransfer
    split at h
    · cases h
    · cases h
      exact .inside hTransfer _ _ _ (.refl _)
  · split at h
    · rename_i hOutermost
      exact leave_effect hPlaced (hTransfer.trans (if_pos hOutermost)) hTaken hOperands h
    · cases h

theorem closeBlock_effect (hPlaced : t.WellPlaced env)
    (h : (t.jump offset).closeBlock = .ok next) : Effect env t .blockEnd next := by
  have hTransfer : t.transfer .blockEnd =
      if (t.jump offset).activity.blocks.length = 0 then .ret else .inside := rfl
  unfold closeBlock at h
  split at h
  · rename_i b outside hBlocks
    rw [hBlocks, List.length_cons, if_neg (Nat.succ_ne_zero _)] at hTransfer
    split at h
    · cases h
    · cases h
      exact .inside hTransfer _ _ _ (.refl _)
  · rename_i hBlocks
    rw [hBlocks] at hTransfer
    exact leave_effect hPlaced hTransfer rfl (List.nil_append _).symm h

theorem call_effect {index : UInt32} (hEnters : t.transfer i = .call)
    (hOperands : ∃ b i, (env.code t.pc.code)[t.pc.offset]? = some b ∧
      decodeAt (env.code t.pc.code) t.pc.offset b = .ok (i, offset) ∧
      (i = .call index ∧ t.activity.operands = operands ∨
        ∃ typeIndex slot, i = .callIndirect typeIndex ∧
          t.activity.operands = .i32 slot :: operands))
    (h : ((t.jump offset).withOperands operands).call env index = .ok next) :
    Effect env t i next := by
  unfold call at h
  split at h
  · cases h
  · cases h
  · rename_i place f hCallee
    split at h
    · cases h
    · split at h
      · cases h
      · rename_i arguments left hTake
        cases h
        change onOperands _ operands = _ at hTake
        obtain ⟨rfl, hTypes⟩ := popParams_eq_ok hTake
        exact .call hEnters ⟨hCallee, hTypes, hOperands⟩

theorem exec_effect {b : UInt8} (hPlaced : t.WellPlaced env)
    (hByte : (env.code t.pc.code)[t.pc.offset]? = some b)
    (hDecode : decodeAt (env.code t.pc.code) t.pc.offset b = .ok (i, offset))
    (h : exec env t.pc.offset i (t.jump offset) = .ok next) : Effect env t i next := by
  cases i with
  | simple s =>
    simp only [exec] at h
    split at h
    · cases h
    · rename_i σ hRun
      cases h
      exact .inside rfl _ _ _ ⟨σ.locals, Simple.run_locals hRun, rfl⟩
  | block blockType =>
    simp only [exec] at h
    split at h
    · cases h
    · cases h
      exact .inside rfl _ _ _ (.refl _)
  | loop blockType =>
    cases h
    exact .inside rfl _ _ _ (.refl _)
  | ifThen blockType =>
    simp only [exec] at h
    split at h
    · cases h
    · split at h
      · cases h
      · cases h
        exact .inside rfl _ _ _ (.refl _)
  | elseArm => exact branch_effect hPlaced rfl rfl (List.nil_append _).symm h
  | blockEnd => exact closeBlock_effect hPlaced h
  | branch depth => exact branch_effect hPlaced rfl rfl (List.nil_append _).symm h
  | branchIf depth =>
    simp only [exec] at h
    split at h
    · cases h
    · rename_i condition left hPop
      have hTop : t.activity.operands = [.i32 condition] ++ left := popI32_eq_ok hPop
      have hDepth : (Instruction.branchIf depth).branchDepth? t.activity.operands.head? =
          if condition = 0 then none else some depth.toNat := by
        rw [hTop]
        rfl
      split at h
      · rename_i hTaken
        rw [if_neg hTaken] at hDepth
        exact branch_effect hPlaced hDepth rfl hTop h
      · rename_i hNot
        rw [if_pos (not_not.1 hNot)] at hDepth
        cases h
        refine .inside ?_ _ _ _ (.refl _)
        simp only [transfer, Instruction.transfer, hDepth]
        rfl
  | branchTable depths default =>
    simp only [exec] at h
    split at h
    · cases h
    · rename_i index left hPop
      have hTop : t.activity.operands = [.i32 index] ++ left := popI32_eq_ok hPop
      refine branch_effect hPlaced ?_ rfl hTop h
      rw [hTop]
      rfl
  | ret => exact leave_effect hPlaced rfl rfl (List.nil_append _).symm h
  | call index => exact call_effect rfl ⟨b, _, hByte, hDecode, .inl ⟨rfl, rfl⟩⟩ h
  | callIndirect typeIndex =>
    simp only [exec, callIndirect] at h
    split at h
    · cases h
    · split at h
      · cases h
      · rename_i slot left hPop
        split at h
        · cases h
        · have hTop := popI32_eq_ok hPop
          exact call_effect rfl ⟨b, _, hByte, hDecode, .inr ⟨typeIndex, slot, rfl, hTop⟩⟩ h
  | invalid b => cases h

/-- Every step of arbitrary code has one of the four effects, the one that its instruction says. -/
theorem step_effect (hPlaced : t.WellPlaced env) (h : t.step env = .ok next) :
    ∃ b i offset, (env.code t.pc.code)[t.pc.offset]? = some b ∧
      decodeAt (env.code t.pc.code) t.pc.offset b = .ok (i, offset) ∧ Effect env t i next := by
  unfold step at h
  split at h
  · cases h
  · rename_i b hByte
    split at h
    · cases h
    · rename_i i offset hDecode
      exact ⟨b, i, offset, hByte, hDecode, exec_effect hPlaced hByte hDecode h⟩

end Control

end Thread

/-! ## Nested calls -/

/-- Above an activity `A` and its callers stands a callee with the given signature that returns to
`place`, and whatever it has called. -/
def Nested (A : Activity) (callers : List Activity) (place : CodePoint) (signature : FunctionType)
    (activities : List Activity) : Prop :=
  ∃ inner C, activities = inner ++ C :: A :: callers ∧ C.activation.returnTo = some place ∧
    C.activation.signature = signature

namespace Nested

variable {A B C : Activity} {callers rest : List Activity} {place : CodePoint}
  {signature : FunctionType}

theorem push (h : Nested A callers place signature rest) (B : Activity) :
    Nested A callers place signature (B :: rest) := by
  obtain ⟨inner, C, rfl, hReturn⟩ := h
  exact ⟨B :: inner, C, rfl, hReturn⟩

/-- The topmost activity may change, as long as it returns in the same way. -/
theorem change (h : Nested A callers place signature (B :: rest))
    (hReturn : C.activation.returnTo = B.activation.returnTo)
    (hSignature : C.activation.signature = B.activation.signature) :
    Nested A callers place signature (C :: rest) := by
  obtain ⟨inner, D, hEq, hPlace, hSame⟩ := h
  cases inner with
  | nil =>
    cases hEq
    exact ⟨[], C, rfl, hReturn.trans hPlace, hSignature.trans hSame⟩
  | cons E inner =>
    cases hEq
    exact ⟨C :: inner, D, rfl, hPlace, hSame⟩

/-- Without its topmost activity, either the callee is still there, or it was the topmost. -/
theorem pop (h : Nested A callers place signature (B :: rest)) :
    Nested A callers place signature rest ∨
      rest = A :: callers ∧ B.activation.returnTo = some place ∧
        B.activation.signature = signature := by
  obtain ⟨inner, D, hEq, hPlace, hSame⟩ := h
  cases inner with
  | nil =>
    cases hEq
    exact .inr ⟨rfl, hPlace, hSame⟩
  | cons E inner =>
    cases hEq
    exact .inl ⟨inner, D, rfl, hPlace, hSame⟩

/-- A step inside a call stays inside, or it returns: then the caller goes on at its place with
the results on top of its operands, and nothing else of it has changed. -/
theorem step {env : Env} {t : Thread} {next : Next} (hPlaced : t.WellPlaced env)
    (h : Nested A callers place signature (t.activity :: t.callers))
    (hStep : t.step env = .ok next) :
    (∃ t', next = .running t' ∧
      Nested A callers place signature (t'.activity :: t'.callers)) ∨
    ∃ top, (top.map Value.type).reverse = signature.results ∧
      next = .running
        { activity := { A with operands := top ++ A.operands }
          callers := callers
          store := t.store
          pc := place } := by
  obtain ⟨b, i, offset, -, -, hEffect⟩ := Thread.step_effect hPlaced hStep
  cases hEffect with
  | inside stays B store offset same =>
    obtain ⟨locals, -, hSame⟩ := same
    exact .inl ⟨_, rfl, h.change (by rw [hSame]) (by rw [hSame])⟩
  | call enters site =>
    refine .inl ⟨_, rfl, Nested.push ?_ _⟩
    exact h.change rfl rfl
  | @ret top returnTo caller rest site returns hCallers =>
    rcases h.pop with hInner | ⟨hCaller, hPlace, hSignature⟩
    · rw [hCallers] at hInner
      exact .inl ⟨_, rfl, hInner.change rfl rfl⟩
    · rw [hCallers] at hCaller
      cases hCaller
      rw [returns] at hPlace
      cases hPlace
      refine .inr ⟨top, ?_, rfl⟩
      rw [site.types, ActivationFrame.resultArity, hSignature]
  | halt site returns hCallers =>
    rcases h.pop with ⟨inner, D, hEq, -⟩ | ⟨hEq, -⟩
    · rw [hCallers] at hEq
      cases inner <;> cases hEq
    · rw [hCallers] at hEq
      cases hEq

end Nested

end WasmMachine
