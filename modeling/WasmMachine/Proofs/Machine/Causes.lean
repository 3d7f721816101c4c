import WasmMachine.Proofs.Structured.Evaluator

/-!
# Traps that blame the structure of the code

Two traps are about the code as such: an instruction or a block that is cut off, and an operand that
is malformed. They are raised when instructions are decoded and when the ends of blocks are looked
for, and nowhere else: what an instruction without a body does after it was decoded never raises
them, on whatever operands.

* `Trap.structural_iff`: the traps of this class.
* `Leaf.act_blameless`: instructions without a body do not raise them.
-/

namespace WasmMachine

open Stack

/-- The trap blames the structure of the code. -/
def Trap.Structural (e : Trap) : Prop := e.code = "ILLFORMED_STRUCTURE"

theorem Trap.structural_iff (e : Trap) :
    e.Structural ↔ (∃ offset, e = .illFormedStructure offset) ∨ ∃ v, e = .malformedImmediate v := by
  cases e <;> simp [Structural, code]

/-! ## Operations on the stack -/

/-- The operation does not blame the structure of the code, on whatever stack. -/
def StackM.Blameless {α : Type} (op : StackM α) : Prop :=
  ∀ s e s', op s = .error e s' → ¬ e.Structural

namespace StackM.Blameless

variable {α β : Type}

protected theorem pure (a : α) : Blameless (Pure.pure a) := by
  intro s e s' h
  cases h

protected theorem throw {e : Trap} (he : ¬ e.Structural) : Blameless (throw e : StackM α) := by
  intro s e' s' h
  cases h
  exact he

protected theorem bind {x : StackM α} {f : α → StackM β} (hx : Blameless x)
    (hf : ∀ a, Blameless (f a)) : Blameless (x >>= f) := by
  intro s e s' h
  change EStateM.bind x f s = _ at h
  unfold EStateM.bind at h
  split at h
  · exact hf _ _ _ _ h
  · rename_i hError
    cases h
    exact hx _ _ _ hError

protected theorem pushValue (v : Value) : Blameless (pushValue v) := by
  intro s e s' h
  cases h

protected theorem popValue : Blameless popValue := by
  intro s e s' h
  unfold popValue at h
  split at h
  · cases h
  · cases h
    simp [Trap.structural_iff]

protected theorem popTyped (t : ValueType) : Blameless (popTyped t) := by
  refine Blameless.popValue.bind fun v => ?_
  split
  · exact .pure v
  · exact .throw (by simp [Trap.structural_iff])

protected theorem popInt (t : IntType) : Blameless (popInt t) := by
  refine (Blameless.popTyped _).bind fun v => ?_
  split
  · exact .pure _
  · exact .throw (by simp [Trap.structural_iff])

protected theorem popFloat (t : FloatType) : Blameless (popFloat t) := by
  refine (Blameless.popTyped _).bind fun v => ?_
  split
  · exact .pure _
  · exact .throw (by simp [Trap.structural_iff])

/-- An operation on one integer. -/
theorem onInt (t : IntType) {f : BitVec t.width → StackM β} (hf : ∀ a, Blameless (f a)) :
    Blameless (popInt t >>= f) := (Blameless.popInt t).bind hf

/-- An operation on one float. -/
theorem onFloat (t : FloatType) {f : BitVec t.width → StackM β} (hf : ∀ a, Blameless (f a)) :
    Blameless (popFloat t >>= f) := (Blameless.popFloat t).bind hf

protected theorem conversion (c : Conversion) : Blameless c.run := by
  cases c with
  | wrap => exact onInt .i64 fun _ => .pushValue _
  | extend s => cases s <;> exact onInt .i32 fun _ => .pushValue _
  | trunc target source s =>
    refine onFloat source fun a => ?_
    cases truncToInt? target source s a with
    | some v => exact .pushValue _
    | none => exact .throw (by simp [Trap.structural_iff])
  | convert target source s => exact onInt source fun _ => .pushValue _
  | demote => exact onFloat .f64 fun _ => .pushValue _
  | promote => exact onFloat .f32 fun _ => .pushValue _
  | bitsOfFloat target =>
    cases target with
    | i32 => exact onFloat .f32 fun _ => .pushValue _
    | i64 => exact onFloat .f64 fun _ => .pushValue _
  | floatOfBits target =>
    cases target with
    | f32 => exact onInt .i32 fun _ => .pushValue _
    | f64 => exact onInt .i64 fun _ => .pushValue _

protected theorem numeric (n : Numeric) : Blameless n.run := by
  cases n with
  | eqz t => exact onInt t fun _ => .pushValue _
  | compareInt t r => exact onInt t fun _ => onInt t fun _ => .pushValue _
  | compareFloat t r => exact onFloat t fun _ => onFloat t fun _ => .pushValue _
  | unaryInt t op => exact onInt t fun _ => .pushValue _
  | binaryInt t op =>
    refine onInt t fun b => onInt t fun a => ?_
    cases Integer.binary op a b with
    | ok v => exact .pushValue _
    | error e =>
      cases e <;> exact .throw (by simp [Trap.structural_iff, Trap.ofIntFailure])
  | unaryFloat t op => exact onFloat t fun _ => .pushValue _
  | binaryFloat t op => exact onFloat t fun _ => onFloat t fun _ => .pushValue _
  | convert c => exact .conversion c

protected theorem select : Blameless Stack.select :=
  onInt .i32 fun _ => Blameless.popValue.bind fun _ => (Blameless.popTyped _).bind fun _ =>
    .pushValue _

protected theorem popParams (signature : FunctionType) (types : List ValueType)
    (found : List Value) : Blameless (popParams signature types found) := by
  induction types generalizing found with
  | nil => exact .pure found
  | cons expected rest ih =>
    refine Blameless.bind ?_ fun v => ih (v :: found)
    intro s e s' h
    unfold popParam at h
    split at h
    · cases h
      simp [Trap.structural_iff]
    · split at h
      · cases h
      · cases h
        simp [Trap.structural_iff]

/-- An operation on operands that stand alone. -/
theorem onOperands {op : StackM α} (h : Blameless op) {operands : List Value} {e : Trap}
    (hError : WasmMachine.onOperands op operands = .error e) : ¬ e.Structural := by
  unfold WasmMachine.onOperands at hError
  split at hError
  · cases hError
  · rename_i hOp
    cases hError
    exact h _ _ _ hOp

end StackM.Blameless

/-! ## Operations on a region -/

/-- The operation does not blame the structure of the code, on whatever region. -/
def RegionM.Blameless {α : Type} (f : RegionM α) : Prop := ∀ σ e, f σ = .error e → ¬ e.Structural

namespace RegionM.Blameless

variable {α β : Type}

protected theorem bind {f : RegionM α} {g : α → RegionM β} (hf : Blameless f)
    (hg : ∀ a, Blameless (g a)) : Blameless (f >>= g) := by
  intro σ e h
  change (f σ).bind (fun p => g p.1 p.2) = _ at h
  cases hFirst : f σ with
  | error e' =>
    rw [hFirst] at h
    cases h
    exact hf σ e hFirst
  | ok p =>
    rw [hFirst] at h
    exact hg p.1 p.2 e h

protected theorem push (v : Value) : Blameless (push v) := by
  intro σ e h
  cases h

protected theorem modify (f : Region → Region) : Blameless (modify f : RegionM Unit) := by
  intro σ e h
  cases h

protected theorem throw {e : Trap} (he : ¬ e.Structural) : Blameless (throw e : RegionM α) := by
  intro σ e' h
  cases h
  exact he

protected theorem operands {op : StackM α} (h : StackM.Blameless op) :
    Blameless (RegionM.operands op) := by
  intro σ e hError
  unfold RegionM.operands at hError
  split at hError
  · cases hError
  · rename_i hOp
    cases hError
    exact h.onOperands hOp

protected theorem readLocal (index : UInt32) : Blameless (readLocal index) := by
  intro σ e h
  unfold readLocal at h
  split at h
  · cases h
  · cases h
    simp [Trap.structural_iff]

protected theorem assignLocal (index : UInt32) : Blameless (assignLocal index) :=
  (Blameless.readLocal index).bind fun _ => (Blameless.operands (.popTyped _)).bind fun _ =>
    .modify _

protected theorem readGlobal (index : UInt32) : Blameless (readGlobal index) := by
  intro σ e h
  unfold readGlobal at h
  split at h
  · cases h
  · cases h
    simp [Trap.structural_iff]

protected theorem assignGlobal (index : UInt32) : Blameless (assignGlobal index) := by
  refine (Blameless.readGlobal index).bind fun g => ?_
  split
  · exact .throw (by simp [Trap.structural_iff])
  · exact (Blameless.operands (.popTyped _)).bind fun _ => .modify _

protected theorem readMemory : Blameless readMemory := by
  intro σ e h
  unfold readMemory Store.memory at h
  split at h
  · cases h
  · rename_i hMemory
    cases h
    split at hMemory
    · cases hMemory
    · cases hMemory
      simp [Trap.structural_iff]

protected theorem onMemory {op : MemoryM α}
    (h : ∀ memory e memory', op memory = .error e memory' → ¬ e.Structural) :
    Blameless (onMemory op) := by
  intro σ e hError
  unfold onMemory at hError
  split at hError
  · cases hError
    simp [Trap.structural_iff]
  · split at hError
    · cases hError
    · rename_i hOp
      cases hError
      exact h _ _ _ hOp

protected theorem loadNumber (address width : Nat) : Blameless (loadNumber address width) := by
  refine Blameless.readMemory.bind fun memory => ?_
  unfold Memory.load Memory.readBytes
  split
  · intro σ e h
    cases h
  · rename_i hLoad
    refine .throw ?_
    split at hLoad
    · cases hLoad
    · cases hLoad
      simp [Trap.structural_iff, Memory.outOfBounds]

protected theorem storeNumber (address width n : Nat) :
    Blameless (onMemory (Memory.store address width n)) := by
  refine .onMemory fun memory e memory' h => ?_
  unfold Memory.store Memory.writeBytes at h
  split at h
  · cases h
  · cases h
    simp [Trap.structural_iff, Memory.outOfBounds]

protected theorem growMemory (delta : UInt32) : Blameless (onMemory (Exec.growMemory delta)) := by
  refine .onMemory fun memory e memory' h => ?_
  unfold Exec.growMemory at h
  split at h <;> cases h

/-- An instruction that leaves control alone does not blame the structure of the code. -/
theorem run (s : Simple) : Blameless s.run := by
  have hAddress : ∀ offset, StackM.Blameless (popAddress offset) :=
    fun _ => .onInt .i32 fun _ => .pure _
  cases s with
  | unreachable => exact .throw (by simp [Trap.structural_iff])
  | nop =>
    intro σ e h
    cases h
  | drop => exact .operands (StackM.Blameless.popValue.bind fun _ => .pure _)
  | select => exact .operands .select
  | localGet index => exact (Blameless.readLocal index).bind fun _ => .push _
  | localSet index => exact .assignLocal index
  | localTee index =>
    exact (Blameless.assignLocal index).bind fun _ => (Blameless.readLocal index).bind fun _ =>
      .push _
  | globalGet index => exact (Blameless.readGlobal index).bind fun _ => .push _
  | globalSet index => exact .assignGlobal index
  | load op offset =>
    exact Blameless.readMemory.bind fun _ => (Blameless.operands (hAddress offset)).bind fun _ =>
      (Blameless.loadNumber _ _).bind fun _ => .push _
  | store op offset =>
    exact Blameless.readMemory.bind fun _ => (Blameless.operands (.popTyped _)).bind fun _ =>
      (Blameless.operands (hAddress offset)).bind fun _ => .storeNumber _ _ _
  | memorySize => exact Blameless.readMemory.bind fun _ => .push _
  | memoryGrow =>
    exact Blameless.readMemory.bind fun _ => (Blameless.operands (.popInt .i32)).bind fun _ =>
      (Blameless.growMemory _).bind fun _ => .push _
  | const v => exact .push v
  | numeric n => exact .operands (.numeric n)

end RegionM.Blameless

/-! ## Instructions without a body -/

theorem Program.callee_blameless {p : Program} {index : UInt32} {e : Trap}
    (h : p.callee index = .error e) : ¬ e.Structural := by
  unfold Program.callee at h
  split at h
  · cases h
  · simp only at h
    split at h
    · cases h
    · cases h
      simp [Trap.structural_iff]

namespace Scope

variable {env : Env} {Γ : Scope} {operands : List Value} {e : Trap}

theorem branch_blameless {depth : Nat} (h : Γ.branch depth operands = .error e) :
    ¬ e.Structural := by
  unfold Scope.branch at h
  split at h
  · split at h
    · cases h
    · cases h
      simp [Trap.structural_iff]
  · cases h
    simp [Trap.structural_iff]

theorem call_blameless {index : UInt32} (h : Γ.call env index operands = .error e) :
    ¬ e.Structural := by
  unfold Scope.call at h
  split at h
  · rename_i hCallee
    cases h
    exact Program.callee_blameless hCallee
  · cases h
    simp [Trap.structural_iff]
  · split at h
    · cases h
      simp [Trap.structural_iff]
    · split at h
      · rename_i hArguments
        cases h
        exact (StackM.Blameless.popParams _ _ _).onOperands hArguments
      · cases h

end Scope

theorem indirectCallee_blameless {env : Env} {store : Store} {expected : FunctionType}
    {slot : BitVec 32} {e : Trap} (h : indirectCallee env store expected slot = .error e) :
    ¬ e.Structural := by
  unfold indirectCallee Store.slotFunction Store.table Table.get Program.signature at h
  cases hTable : store.tables[0]? with
  | none =>
    rw [hTable] at h
    cases h
    simp [Trap.structural_iff]
  | some table =>
    rw [hTable] at h
    cases hSlot : table.slots[(UInt32.ofNat slot.toNat).toNat]? with
    | none =>
      simp only [hSlot, bind, Except.bind] at h
      cases h
      simp [Trap.structural_iff]
    | some entry =>
      cases entry with
      | none =>
        simp only [hSlot, bind, Except.bind] at h
        cases h
        simp [Trap.structural_iff]
      | some function =>
        simp only [hSlot, bind, Except.bind, pure, Except.pure] at h
        cases hCallee : env.program.callee function with
        | error e' =>
          rw [hCallee] at h
          cases h
          exact Program.callee_blameless hCallee
        | ok callee =>
          rw [hCallee] at h
          simp only [Except.map] at h
          split at h
          · cases h
            simp [Trap.structural_iff]
          · cases h

/-- What an instruction without a body does never blames the structure of the code. -/
theorem Leaf.act_blameless {env : Env} {Γ : Scope} {i : Leaf} {σ : Region} {e : Trap}
    (h : i.act env Γ σ = .error e) : ¬ e.Structural := by
  cases i with
  | simple s =>
    simp only [Leaf.act] at h
    split at h
    · rename_i hRun
      cases h
      exact RegionM.Blameless.run s σ e hRun
    · cases h
  | branch depth => exact Scope.branch_blameless h
  | branchIf depth =>
    simp only [Leaf.act] at h
    split at h
    · rename_i hPop
      cases h
      exact (StackM.Blameless.popInt .i32).onOperands hPop
    · split at h
      · exact Scope.branch_blameless h
      · cases h
  | branchTable depths default =>
    simp only [Leaf.act] at h
    split at h
    · rename_i hPop
      cases h
      exact (StackM.Blameless.popInt .i32).onOperands hPop
    · exact Scope.branch_blameless h
  | ret => exact Scope.branch_blameless h
  | call index => exact Scope.call_blameless h
  | callIndirect typeIndex =>
    simp only [Leaf.act] at h
    split at h
    · cases h
      simp [Trap.structural_iff]
    · split at h
      · rename_i hPop
        cases h
        exact (StackM.Blameless.popInt .i32).onOperands hPop
      · split at h
        · rename_i hSlot
          cases h
          exact indirectCallee_blameless hSlot
        · exact Scope.call_blameless h
  | invalid b =>
    cases h
    simp [Trap.structural_iff]

end WasmMachine
