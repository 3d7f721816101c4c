import WasmMachine.Proofs.Stack.Locals

/-!
# Properties of the stack and the store

Reading operands moves the program counter and fills the memo tables, so it keeps every property of
the stack and the store, also where it fails. An operation on the stack keeps what it keeps of the
stack.

* `Machine.Parts`: a property of machines that is one of the stack and one of the store.
* `Keeps.readNumber`, `Keeps.onStack`: the operations that instructions are made of.
* `Keeps.block`, `Keeps.branch`, `Keeps.load`: instructions that make no activations and change no
  store.
-/

namespace WasmMachine

open Stack

/-- A property of machines that is a property of the stack together with one of the store. -/
class Machine.Parts (I : Machine → Prop) (S : outParam (Stack → Prop))
    (T : outParam (Store → Prop)) : Prop where
  iff : ∀ m, I m ↔ S m.stack ∧ T m.store

/-- A property of stacks on which operands and labels have no influence. -/
class Stack.OfActivations (S : Stack → Prop) : Prop where
  values : ∀ {α : Type} {op : StackM α}, ValuesOnly op → Keeps S op
  label : ∀ {s : Stack} (l : LabelFrame), S s → S (s.push (.label l))

namespace Keeps

variable {I : Machine → Prop} {env : Env} {α : Type}

theorem get : Keeps I (get : Exec Machine) := fun _ hm => hm

theorem ofExcept (x : Except Trap α) : Keeps I (ofExcept x : Exec α) := by
  cases x with
  | ok a => exact Keeps.pure a
  | error e => exact Keeps.throw e

theorem readGlobal (index : UInt32) : Keeps I (Exec.readGlobal index) := by
  intro m hm
  unfold Exec.readGlobal
  split <;> exact hm

theorem readMemory : Keeps I Exec.readMemory := by
  intro m hm
  unfold Exec.readMemory
  split <;> exact hm

theorem requireMemory : Keeps I Exec.requireMemory := readMemory.bind fun _ => Keeps.pure ()

theorem readSlot (slot : UInt32) : Keeps I (Exec.readSlot slot) := by
  refine get.bind fun m => (ofExcept _).bind fun table => (ofExcept _).bind fun found => ?_
  cases found with
  | some function => exact Keeps.pure function
  | none => exact Keeps.throw _

theorem findLabel (depth : Nat) : Keeps I (Exec.findLabel depth) := by
  intro m hm
  unfold Exec.findLabel
  split <;> exact hm

variable {S : Stack → Prop} {T : Store → Prop} [parts : Machine.Parts I S T]

include parts

/-- What leaves the stack and the store as they are keeps the property. -/
theorem of_same {m m' : Machine} (hm : I m) (hStack : m'.stack = m.stack)
    (hStore : m'.store = m.store) : I m' := by
  rw [parts.iff] at hm ⊢
  rw [hStack, hStore]
  exact hm

theorem readNumber (decode : Bytes → Nat → Except VarintError (BitVec 64 × Nat)) :
    Keeps I (Exec.readNumber env decode) := by
  intro m hm
  unfold Exec.readNumber
  split
  · exact of_same hm rfl rfl
  · split
    · exact hm
    · exact of_same hm rfl rfl

theorem readU32 : Keeps I (Exec.readU32 env) := (readNumber _).bind fun _ => Keeps.pure _

theorem readS32 : Keeps I (Exec.readS32 env) := (readNumber _).bind fun _ => Keeps.pure _

theorem readFixed (width : Nat) : Keeps I (Exec.readFixed env width) := by
  intro m hm
  unfold Exec.readFixed
  split
  · exact hm
  · exact of_same hm rfl rfl

theorem readBlockType : Keeps I (Exec.readBlockType env) := by
  refine (readFixed 1).bind fun b => ?_
  cases BlockType.ofByte? (UInt8.ofNat b) with
  | some t => exact Keeps.pure t
  | none => exact get.bind fun _ => Keeps.throw _

theorem readMemArg : Keeps I (Exec.readMemArg env) := readU32.bind fun _ => readU32

theorem readDepths (count : Nat) (found : Array UInt32) :
    Keeps I (Exec.readDepths env count found) := by
  induction count generalizing found with
  | zero => exact Keeps.pure found
  | succ count ih => exact readU32.bind fun _ => ih _

theorem blockTargets : Keeps I (Exec.blockTargets env) := by
  intro m hm
  unfold Exec.blockTargets
  simp only
  split
  · exact hm
  · split
    · exact hm
    · exact of_same hm rfl rfl

theorem jump (offset : Nat) : Keeps I (Exec.jump offset) := fun _ hm => of_same hm rfl rfl

theorem onStack {op : StackM α} (h : Keeps S op) : Keeps I (Exec.onStack op) := by
  intro m hm
  obtain ⟨hStack, hStore⟩ := (parts.iff m).1 hm
  have hAfter := h m.stack hStack
  unfold Exec.onStack
  simp only
  cases hRun : op m.stack with
  | ok a s =>
    rw [hRun] at hAfter
    exact (parts.iff _).2 ⟨hAfter, hStore⟩
  | error e s =>
    rw [hRun] at hAfter
    exact (parts.iff _).2 ⟨hAfter, hStore⟩

theorem pushFrame {f : Frame} (h : ∀ s, S s → S (s.push f)) : Keeps I (Exec.pushFrame f) :=
  onStack h

/-! ## Returns and branches -/

section

variable (hUnwind : ∀ position arity, Keeps S (unwindTo position arity))

include hUnwind

theorem doReturn : Keeps I Exec.doReturn := by
  intro m hm
  unfold Exec.doReturn
  split
  · rename_i position a _ _
    have hUnwound := Keeps.onStack (I := I) (hUnwind position a.resultArity) m hm
    split <;> rename_i hRun <;> rw [hRun] at hUnwound
    · exact hUnwound
    · exact of_same hUnwound rfl rfl
    · exact of_same hUnwound rfl rfl
    · exact hUnwound
  · exact hm

theorem branch (depth : Nat) : Keeps I (Exec.branch depth) := by
  refine get.bind fun m => Keeps.ite (doReturn hUnwind) (Keeps.ite (Keeps.throw _) ?_)
  refine (findLabel depth).bind fun found => ?_
  exact (Keeps.onStack (hUnwind _ _)).bind fun _ => jump _

theorem blockEnd : Keeps I Exec.blockEnd := by
  refine get.bind fun m => Keeps.ite (doReturn hUnwind) ?_
  refine (findLabel 0).bind fun found => ?_
  exact (Keeps.onStack (hUnwind _ _)).bind fun _ => Keeps.pure ()

end

variable [activations : Stack.OfActivations S]

include activations

/-! ## Instructions -/

theorem onValues {op : StackM α} (h : ValuesOnly op) : Keeps I (Exec.onStack op) :=
  onStack (activations.values h)

theorem pushLabel (l : LabelFrame) : Keeps I (Exec.pushFrame (.label l)) :=
  pushFrame fun _ hs => activations.label l hs

theorem execConst (t : ValueType) : Keeps I (WasmMachine.execConst env t) := by
  cases t with
  | i32 => exact readS32.bind fun _ => onValues (.pushValue _)
  | i64 => exact (readNumber _).bind fun _ => onValues (.pushValue _)
  | f32 => exact (readFixed 4).bind fun _ => onValues (.pushValue _)
  | f64 => exact (readFixed 8).bind fun _ => onValues (.pushValue _)

theorem block : Keeps I (Exec.block env) :=
  readBlockType.bind fun _ => blockTargets.bind fun _ => pushLabel _

theorem loop : Keeps I (Exec.loop env) :=
  readBlockType.bind fun _ => get.bind fun _ => pushLabel _

theorem ifThen : Keeps I (Exec.ifThen env) := by
  refine readBlockType.bind fun blockType => (onValues (.popInt .i32)).bind fun condition => ?_
  refine blockTargets.bind fun targets => (pushLabel _).bind fun _ => ?_
  split
  · split
    · exact jump _
    · exact jump _
  · exact Keeps.pure ()

section

variable (hUnwind : ∀ position arity, Keeps S (unwindTo position arity))

include hUnwind

theorem branchIf : Keeps I (Exec.branchIf env) :=
  readU32.bind fun _ => (onValues (.popInt .i32)).bind fun _ =>
    Keeps.ite (branch hUnwind _) (Keeps.pure ())

theorem branchTable : Keeps I (Exec.branchTable env) :=
  readU32.bind fun _ => (readDepths _ _).bind fun _ => readU32.bind fun _ =>
    (onValues (.popInt .i32)).bind fun _ => branch hUnwind _

end

theorem globalGet (index : UInt32) : Keeps I (Exec.globalGet index) :=
  (readGlobal index).bind fun _ => onValues (.pushValue _)

theorem memorySize : Keeps I Exec.memorySize :=
  readMemory.bind fun _ => onValues (.pushValue _)

theorem load (op : LoadOp) (offset : UInt32) : Keeps I (Exec.load op offset) :=
  requireMemory.bind fun _ => (onValues (.popAddress offset)).bind fun _ =>
    readMemory.bind fun _ => (ofExcept _).bind fun _ => onValues (.pushValue _)

end Keeps

end WasmMachine
