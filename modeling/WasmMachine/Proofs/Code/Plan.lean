import WasmMachine.Proofs.Code.Boundary

/-!
# Plans for operands

The operands of an opcode are read by a plan: numbers and bytes, one after the other, where the
number of depths in a branch table depends on what has been read before. A plan knows neither code
nor machine. Carried out on code it is the decoder of the opcode, and all that it reads stands
inside the instruction, in the one form that the layout of its operands has.

* `Opcode.decode_plan`: the decoder of an opcode carries out its plan.
* `Opcode.plan_ofForm`: the plan reads operands of one form only.
* `Opcode.plan_within`: the plan reads inside the instruction only.
-/

namespace WasmMachine

open Leb128

/-! ## Plans -/

/-- How an operand is read: as a number of some kind, or as a fixed number of bytes. -/
inductive OperandForm where
  | number (k : Decoder.Kind)
  | fixed (width : Nat)
  deriving DecidableEq

/-- What is read one after the other, each part with a view to those before it. -/
inductive Plan (α : Type) where
  | done (a : α)
  /-- The byte of a block type is none. -/
  | illFormed
  | number (k : Decoder.Kind) (rest : BitVec 64 → Plan α)
  | fixed (width : Nat) (rest : Nat → Plan α)

namespace Plan

variable {α β : Type}

/-- One plan after the other. -/
def bind : Plan α → (α → Plan β) → Plan β
  | .done a, f => f a
  | .illFormed, _ => .illFormed
  | .number k rest, f => .number k fun v => (rest v).bind f
  | .fixed width rest, f => .fixed width fun n => (rest n).bind f

instance : Monad Plan where
  pure := .done
  bind := .bind

/-- Reads an unsigned 32-bit number. -/
def u32 : Plan UInt32 := .number .u32 fun v => .done (UInt32.ofNat v.toNat)

/-- Reads a block type. -/
def blockType : Plan BlockType :=
  .fixed 1 fun b =>
    match BlockType.ofByte? (UInt8.ofNat b) with
    | some t => .done t
    | none => .illFormed

/-- Reads alignment and offset of a memory access. -/
def memArg : Plan UInt32 := do
  let _align ← u32
  u32

/-- Reads `count` label depths and adds them to those found before. -/
def depths : (count : Nat) → (found : Array UInt32) → Plan (Array UInt32)
  | 0, found => pure found
  | count + 1, found => do
    let depth ← u32
    depths count (found.push depth)

/-- Reads the value of a constant. -/
def const : ValueType → Plan Value
  | .i32 => .number .s32 fun v => .done (.i32 (v.setWidth 32))
  | .i64 => .number .s64 fun v => .done (.i64 v)
  | .f32 => .fixed 4 fun n => .done (.f32 (BitVec.ofNat 32 n))
  | .f64 => .fixed 8 fun n => .done (.f64 (BitVec.ofNat 64 n))

end Plan

open Plan in
/-- How the operands of an opcode are read. -/
def Opcode.plan : Opcode → Plan Instruction
  | .unreachable => return .simple .unreachable
  | .nop => return .simple .nop
  | .block => return .block (← blockType)
  | .loop => return .loop (← blockType)
  | .ifThen => return .ifThen (← blockType)
  | .elseArm => return .elseArm
  | .blockEnd => return .blockEnd
  | .branch => return .branch (← u32)
  | .branchIf => return .branchIf (← u32)
  | .branchTable => do
    let count ← u32
    let found ← depths count.toNat #[]
    return .branchTable found (← u32)
  | .ret => return .ret
  | .call => return .call (← u32)
  | .callIndirect => do
    let typeIndex ← u32
    let _table ← u32
    return .callIndirect typeIndex
  | .drop => return .simple .drop
  | .select => return .simple .select
  | .localGet => return .simple (.localGet (← u32))
  | .localSet => return .simple (.localSet (← u32))
  | .localTee => return .simple (.localTee (← u32))
  | .globalGet => return .simple (.globalGet (← u32))
  | .globalSet => return .simple (.globalSet (← u32))
  | .load op => return .simple (.load op (← memArg))
  | .store op => return .simple (.store op (← memArg))
  | .memorySize => do
    let _memory ← u32
    return .simple .memorySize
  | .memoryGrow => do
    let _memory ← u32
    return .simple .memoryGrow
  | .const t => return .simple (.const (← Plan.const t))
  | .numeric n => return .simple (.numeric n)

/-! ## Plans on code -/

namespace Plan

variable {α β : Type} {code : Bytes} {place : Nat}

/-- Carries out a plan on code, for an opcode that stands at `place`. -/
def decode (code : Bytes) (place : Nat) : Plan α → Decoder α
  | .done a => pure a
  | .illFormed => throw (.illFormedStructure place)
  | .number k rest => do
    let v ← Decoder.number code k
    (rest v).decode code place
  | .fixed width rest => do
    let n ← Decoder.fixed code width
    (rest n).decode code place

theorem decode_bind (p : Plan α) (f : α → Plan β) :
    (p >>= f).decode code place = p.decode code place >>= fun a => (f a).decode code place := by
  change (p.bind f).decode code place = _
  induction p with
  | done a => simp only [bind, decode, pure_bind]
  | illFormed => rfl
  | number k rest ih => simp only [bind, decode, bind_assoc, ih]
  | fixed width rest ih => simp only [bind, decode, bind_assoc, ih]

@[simp] theorem decode_pure (a : α) : (pure a : Plan α).decode code place = pure a := rfl

@[simp] theorem decode_u32 : u32.decode code place = Decoder.u32 code := rfl

theorem decode_blockType : blockType.decode code place = Decoder.blockType code place := by
  simp only [blockType, Decoder.blockType, decode]
  congr 1
  funext b
  cases hType : BlockType.ofByte? (UInt8.ofNat b) <;> simp only [decode]

theorem decode_depths (count : Nat) (found : Array UInt32) :
    (depths count found).decode code place = Decoder.depths code count found := by
  induction count generalizing found with
  | zero => rfl
  | succ count ih => simp only [depths, Decoder.depths, decode_bind, decode_u32, ih]

theorem decode_const (t : ValueType) :
    (Plan.const t).decode code place = Decoder.const code t := by
  cases t <;>
    simp only [Plan.const, decode, Decoder.const, Decoder.s32, bind_assoc, pure_bind]

end Plan

open Plan in
/-- The decoder of an opcode carries out its plan. -/
theorem Opcode.decode_plan (code : Bytes) (place : Nat) (op : Opcode) :
    op.plan.decode code place = op.decode code place := by
  cases op <;>
    simp only [plan, Opcode.decode, memArg, Decoder.memArg, decode_bind, decode_pure, decode_u32,
      decode_blockType, decode_depths, decode_const]

/-! ## What a plan reads -/

/-- The form in which operands of a layout are read. -/
def Operands.form : Operands → OperandForm
  | .blockType => .fixed 1
  | .varS32 => .number .s32
  | .varS64 => .number .s64
  | .float32 => .fixed 4
  | .float64 => .fixed 8
  | _ => .number .u32

namespace Plan

variable {α : Type}

/-- All that a plan reads has this form. -/
def OfForm (form : OperandForm) : Plan α → Prop
  | .done _ => True
  | .illFormed => True
  | .number k rest => form = .number k ∧ ∀ v, (rest v).OfForm form
  | .fixed width rest => form = .fixed width ∧ ∀ n, (rest n).OfForm form

/-- From an offset of the code on, a plan reads only at offsets that are inside. -/
def Within (code : Bytes) (inside : Nat → Prop) : Plan α → (pos : Nat) → Prop
  | .done _, _ => True
  | .illFormed, _ => True
  | .number k rest, pos =>
    inside pos ∧ ∀ v next, k.wide code pos = .ok (v, next) → (rest v).Within code inside next
  | .fixed width rest, pos =>
    inside pos ∧
      ∀ n next, Decoder.fixed code width pos = .ok (n, next) → (rest n).Within code inside next

/-- Depths of a branch table, with others behind them. -/
theorem ofForm_depths {f : Array UInt32 → Plan α}
    (hRest : ∀ found, (f found).OfForm (.number .u32)) (count : Nat) (found : Array UInt32) :
    (depths count found >>= f).OfForm (.number .u32) := by
  induction count generalizing found with
  | zero => exact hRest found
  | succ count ih => exact ⟨rfl, fun v => ih (found.push (UInt32.ofNat v.toNat))⟩

end Plan

open Plan in
/-- The plan of an opcode reads operands of one form only. -/
theorem Opcode.plan_ofForm (op : Opcode) : op.plan.OfForm op.operands.form := by
  cases op with
  | unreachable | nop | elseArm | blockEnd | ret | drop | select | numeric n => trivial
  | branch | branchIf | call | localGet | localSet | localTee | globalGet | globalSet |
      memorySize | memoryGrow =>
    exact ⟨rfl, fun _ => trivial⟩
  | block | loop | ifThen =>
    refine ⟨rfl, fun b => ?_⟩
    dsimp only [Plan.bind]
    cases BlockType.ofByte? (UInt8.ofNat b) <;> trivial
  | load op | store op | callIndirect => exact ⟨rfl, fun _ => ⟨rfl, fun _ => trivial⟩⟩
  | branchTable =>
    refine ⟨rfl, fun v => ofForm_depths (fun found => ?_) _ #[]⟩
    exact ⟨rfl, fun _ => trivial⟩
  | const t => cases t <;> exact ⟨rfl, fun _ => trivial⟩

/-- Numbers among the operands are read in the way of the opcode. -/
theorem Opcode.kind_of_form {op : Opcode} {k : Decoder.Kind}
    (h : op.operands.form = .number k) : op.kind = k := by
  cases op with
  | const t => cases t <;> cases h <;> rfl
  | block | loop | ifThen => cases h
  | _ => exact OperandForm.number.inj h

/-! ## Where a plan reads -/

/-- The offset lies strictly inside the instruction whose opcode stands at `place`. An instruction
without an end has all that follows it. -/
def Operands.Cover (code : Bytes) (place : Nat) (layout : Operands) (pos : Nat) : Prop :=
  place < pos ∧ ∀ next, layout.skip code (place + 1) = .ok next → pos < next

/-- From the offset on, so many unsigned numbers of the instruction are left. -/
def Operands.Leave (code : Bytes) (place : Nat) (layout : Operands) (count pos : Nat) : Prop :=
  place < pos ∧ ∀ next, layout.skip code (place + 1) = .ok next →
    skipNumbers code count pos = .ok next

namespace Operands

variable {code : Bytes} {place pos mid count : Nat} {layout : Operands}

/-- Operands that are not empty have at least one byte. -/
theorem lt_of_skip {next : Nat} (hOperands : layout ≠ .empty)
    (h : layout.skip code pos = .ok next) : pos < next := by
  cases layout with
  | empty => exact absurd rfl hOperands
  | blockType | varU32 | varS32 | varS64 | reserved => exact lt_of_skipNumber h
  | float32 | float64 =>
    simp only [Operands.skip, skipFixed] at h
    split at h
    · cases h
      omega
    · cases h
  | memArg | callIndirect =>
    rw [Operands.skip, skipNumbers] at h
    split at h
    · cases h
    · rename_i hFirst
      exact Nat.lt_of_lt_of_le (lt_of_skipNumber hFirst) (le_of_skipNumbers h)
  | branchTable =>
    simp only [Operands.skip, skipBranchTable] at h
    split at h
    · cases h
    · rename_i hCount
      exact Nat.lt_of_lt_of_le (decodeU32_bounds hCount).1 (le_of_skipNumbers h)

/-- The first operand stands behind the opcode. -/
theorem cover_first (hOperands : layout ≠ .empty) : layout.Cover code place (place + 1) :=
  ⟨by omega, fun _ => lt_of_skip hOperands⟩

/-- Where a number is left, the offset is inside the instruction. -/
theorem Leave.cover (h : layout.Leave code place (count + 1) pos) :
    layout.Cover code place pos := by
  refine ⟨h.1, fun next hNext => ?_⟩
  have hNumbers := h.2 next hNext
  rw [skipNumbers] at hNumbers
  split at hNumbers
  · cases hNumbers
  · rename_i hFirst
    exact Nat.lt_of_lt_of_le (lt_of_skipNumber hFirst) (le_of_skipNumbers hNumbers)

/-- Behind a number, one less is left. -/
theorem Leave.behind (h : layout.Leave code place (count + 1) pos) {v : BitVec 64}
    (hWide : Decoder.Kind.u32.wide code pos = .ok (v, mid)) :
    layout.Leave code place count mid := by
  have hFirst := (Decoder.skipNumber_of_wide hWide).2 rfl
  refine ⟨Nat.lt_trans h.1 (lt_of_skipNumber hFirst), fun next hNext => ?_⟩
  have hNumbers := h.2 next hNext
  rwa [skipNumbers, hFirst] at hNumbers

/-- Behind the opcode, both numbers of a pair are left. -/
theorem leave_pair (hSkip : ∀ pos, layout.skip code pos = skipNumbers code 2 pos) :
    layout.Leave code place 2 (place + 1) :=
  ⟨by omega, fun next hNext => hSkip (place + 1) ▸ hNext⟩

/-- The depths of a branch table and the default depth are left behind their number. -/
theorem leave_branchTable {v : BitVec 64}
    (hWide : Decoder.Kind.u32.wide code (place + 1) = .ok (v, mid)) :
    Operands.branchTable.Leave code place ((UInt32.ofNat v.toNat).toNat + 1) mid := by
  have hNumber : Decoder.u32 code (place + 1) = .ok (UInt32.ofNat v.toNat, mid) := by
    change ((Decoder.number code .u32 (place + 1)).bind _) = _
    rw [Decoder.number, hWide]
    rfl
  refine ⟨?_, fun next hNext => ?_⟩
  · have := lt_of_skipNumber (Decoder.skipNumber_of_u32 hNumber)
    omega
  · rwa [Operands.skip, skipBranchTable, Decoder.decodeU32_of_u32 hNumber] at hNext

end Operands

/-- Depths of a branch table, with others behind them. -/
theorem Plan.within_depths {α : Type} {code : Bytes} {place pos others count : Nat}
    {layout : Operands} {f : Array UInt32 → Plan α}
    (hLeft : layout.Leave code place (others + count) pos)
    (hRest : ∀ found mid, layout.Leave code place others mid →
      (f found).Within code (layout.Cover code place) mid)
    (found : Array UInt32) :
    (depths count found >>= f).Within code (layout.Cover code place) pos := by
  induction count generalizing pos found with
  | zero => exact hRest found pos hLeft
  | succ count ih => exact ⟨hLeft.cover, fun v mid hWide => ih (hLeft.behind hWide) _⟩

open Plan in
/-- The plan of an opcode reads inside the instruction only. -/
theorem Opcode.plan_within (code : Bytes) (place : Nat) (op : Opcode) :
    op.plan.Within code (op.operands.Cover code place) (place + 1) := by
  cases op with
  | unreachable | nop | elseArm | blockEnd | ret | drop | select | numeric n => trivial
  | branch | branchIf | call | localGet | localSet | localTee | globalGet | globalSet |
      memorySize | memoryGrow =>
    exact ⟨Operands.cover_first (by decide), fun _ _ _ => trivial⟩
  | block | loop | ifThen =>
    refine ⟨Operands.cover_first (by decide), fun b _ _ => ?_⟩
    dsimp only [Plan.bind]
    cases BlockType.ofByte? (UInt8.ofNat b) <;> trivial
  | load op | store op | callIndirect =>
    exact ⟨(Operands.leave_pair fun _ => rfl).cover, fun v mid hWide =>
      ⟨((Operands.leave_pair fun _ => rfl).behind hWide).cover, fun _ _ _ => trivial⟩⟩
  | branchTable =>
    refine ⟨Operands.cover_first (by decide), fun v mid hWide => ?_⟩
    have hLeft := Operands.leave_branchTable hWide
    rw [Nat.add_comm] at hLeft
    refine within_depths hLeft (fun found last hLast => ?_) #[]
    exact ⟨hLast.cover, fun _ _ _ => trivial⟩
  | const t => cases t <;> exact ⟨Operands.cover_first (by decide), fun _ _ _ => trivial⟩

end WasmMachine
