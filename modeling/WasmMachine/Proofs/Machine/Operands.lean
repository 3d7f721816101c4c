import WasmMachine.Proofs.Code.Plan

/-!
# Operands through the memo tables

The machine reads operands through its memo tables, and the decoders read them from the code. An
entry for a number was made by the one instruction that the offset belongs to, so it was read in
the way in which it is asked for. Nothing here depends on whether the tables are switched on.

* `Opcode.run_plan`: the machine reads the operands of an opcode by its plan.
* `Reads.opcode`: as long as the tables agree with the code, it reads what the decoder reads.
* `Opcode.reads_inside`: each of these readings starts inside the instruction.
-/

namespace WasmMachine

open Exec Decoder

/-! ## Tables that agree with the code -/

/-- Every remembered number is the one in the code, read as the instruction around it reads it. -/
def ImmediateCache.Agrees (env : Env) (c : ImmediateCache) : Prop :=
  ∀ place v next, c.find? place = some (v, next) →
    ∃ k : Kind, Owns (env.code place.code) place.offset k ∧
      k.wide (env.code place.code) place.offset = .ok (v, next)

/-- All remembered delimiters are those of the block, whose body starts past its type. -/
def TargetCache.Agrees (env : Env) (c : TargetCache) : Prop :=
  ∀ place targets, c.find? place = some targets →
    resolve (env.code place.code) (place.offset + 2) = .ok targets

theorem ImmediateCache.find?_insert (c : ImmediateCache) (place other : CodePoint)
    (v : BitVec 64) (next : Nat) :
    (c.insert place v next).find? other =
      if place = other then some (v, next) else c.find? other := by
  simp [ImmediateCache.insert, ImmediateCache.find?, Std.HashMap.getElem?_insert]

theorem TargetCache.find?_insert (c : TargetCache) (place other : CodePoint)
    (targets : BlockTargets) :
    (c.insert place targets).find? other =
      if place = other then some targets else c.find? other := by
  simp [TargetCache.insert, TargetCache.find?, Std.HashMap.getElem?_insert]

theorem ImmediateCache.Agrees.insert {env : Env} {c : ImmediateCache} (h : c.Agrees env)
    {place : CodePoint} {k : Kind} {v : BitVec 64} {next : Nat}
    (hOwns : Owns (env.code place.code) place.offset k)
    (hWide : k.wide (env.code place.code) place.offset = .ok (v, next)) :
    (c.insert place v next).Agrees env := by
  intro other w stop hFind
  rw [ImmediateCache.find?_insert] at hFind
  split at hFind
  · rename_i hEq
    subst hEq
    cases hFind
    exact ⟨k, hOwns, hWide⟩
  · exact h other w stop hFind

theorem TargetCache.Agrees.insert {env : Env} {c : TargetCache} (h : c.Agrees env)
    {place : CodePoint} {targets : BlockTargets}
    (hResolve : resolve (env.code place.code) (place.offset + 2) = .ok targets) :
    (c.insert place targets).Agrees env := by
  intro other found hFind
  rw [TargetCache.find?_insert] at hFind
  split at hFind
  · rename_i hEq
    subst hEq
    cases hFind
    exact hResolve
  · exact h other found hFind

/-! ## Reading -/

/-- The machine with its program counter at another offset of the same code. -/
def Machine.withOffset (m : Machine) (offset : Nat) : Machine :=
  { m with pc := { m.pc with offset } }

/-- The machine with another table of operands. -/
def Machine.withImmediates (m : Machine) (c : ImmediateCache) : Machine :=
  { m with immediates := c }

/-- On a machine, the operation reads what the decoder reads and moves the program counter past
it. It may add to the table of operands, which still agrees with the code. -/
def Reads {α : Type} (env : Env) (x : Exec α) (d : Decoder α) (m : Machine) : Prop :=
  match d m.pc.offset with
  | .ok (a, next) =>
    ∃ c : ImmediateCache, c.Agrees env ∧ x m = .ok a ((m.withImmediates c).withOffset next)
  | .error e =>
    ∃ (c : ImmediateCache) (next : Nat), c.Agrees env ∧
      x m = .error e ((m.withImmediates c).withOffset next)

namespace Reads

variable {α β : Type} {env : Env} {m : Machine}

theorem pure (hAgrees : m.immediates.Agrees env) (a : α) :
    Reads env (Pure.pure a) (Pure.pure a) m :=
  ⟨m.immediates, hAgrees, rfl⟩

theorem bind {x : Exec α} {d : Decoder α} {f : α → Exec β} {g : α → Decoder β}
    (hx : Reads env x d m)
    (hf : ∀ a next (c : ImmediateCache), d m.pc.offset = .ok (a, next) → c.Agrees env →
      Reads env (f a) (g a) ((m.withImmediates c).withOffset next)) :
    Reads env (x >>= f) (d >>= g) m := by
  unfold Reads at hx
  have hBind : (d >>= g) m.pc.offset =
      (d m.pc.offset).bind fun p => g p.1 p.2 := rfl
  unfold Reads
  rw [hBind]
  cases hd : d m.pc.offset with
  | error e =>
    rw [hd] at hx
    obtain ⟨c, next, hAgrees, hRun⟩ := hx
    refine ⟨c, next, hAgrees, ?_⟩
    change EStateM.bind x f m = _
    simp only [EStateM.bind, hRun]
  | ok p =>
    obtain ⟨a, next⟩ := p
    rw [hd] at hx
    obtain ⟨c, hAgrees, hRun⟩ := hx
    have hRest := hf a next c hd hAgrees
    have hStep : (x >>= f) m = f a ((m.withImmediates c).withOffset next) := by
      change EStateM.bind x f m = _
      simp only [EStateM.bind, hRun]
    rw [hStep]
    exact hRest

/-- What was read is what the decoder reads, and the machine has only moved past it. -/
theorem of_ok {x : Exec α} {d : Decoder α} (hx : Reads env x d m) {a : α} {behind : Machine}
    (hRun : x m = .ok a behind) :
    ∃ (c : ImmediateCache) (next : Nat), c.Agrees env ∧ d m.pc.offset = .ok (a, next) ∧
      behind = (m.withImmediates c).withOffset next := by
  unfold Reads at hx
  cases hd : d m.pc.offset with
  | error e =>
    rw [hd] at hx
    obtain ⟨c, next, -, hError⟩ := hx
    rw [hRun] at hError
    cases hError
  | ok p =>
    rw [hd] at hx
    obtain ⟨c, hAgrees, hOk⟩ := hx
    rw [hRun] at hOk
    cases hOk
    exact ⟨c, p.2, hAgrees, rfl, rfl⟩

/-- A number is read as the instruction around it says, whether it is remembered or not. -/
theorem number {k : Kind} (hAgrees : m.immediates.Agrees env)
    (hOwns : Owns (env.code m.pc.code) m.pc.offset k) :
    Reads env (readNumber env k.wide) (Decoder.number (env.code m.pc.code) k) m := by
  unfold Reads readNumber Decoder.number
  cases hFind : (if env.memo then m.immediates.find? m.pc else none) with
  | some entry =>
    obtain ⟨v, next⟩ := entry
    have hMemo : m.immediates.find? m.pc = some (v, next) := by
      split at hFind
      · exact hFind
      · cases hFind
    obtain ⟨k', hOwns', hWide⟩ := hAgrees m.pc v next hMemo
    cases hOwns.unique hOwns'
    simp only [hWide]
    exact ⟨m.immediates.countHit, fun place => hAgrees place, rfl⟩
  | none =>
    cases hWide : k.wide (env.code m.pc.code) m.pc.offset with
    | error e => exact ⟨m.immediates, m.pc.offset, hAgrees, rfl⟩
    | ok p =>
      obtain ⟨v, next⟩ := p
      refine ⟨if env.memo then m.immediates.insert m.pc v next else m.immediates, ?_, rfl⟩
      split
      · exact hAgrees.insert hOwns hWide
      · exact hAgrees

theorem fixed (hAgrees : m.immediates.Agrees env) (width : Nat) :
    Reads env (readFixed env width) (Decoder.fixed (env.code m.pc.code) width) m := by
  unfold Reads readFixed Decoder.fixed
  cases hSlice : (env.code m.pc.code).slice? m.pc.offset width with
  | none => exact ⟨m.immediates, m.pc.offset, hAgrees, rfl⟩
  | some bytes => exact ⟨m.immediates, hAgrees, rfl⟩

end Reads

/-! ## Plans on the machine -/

/-- The reading of an operand: where it starts, and in which form it is read. -/
@[ext]
structure OperandRead where
  place : CodePoint
  form : OperandForm

namespace Plan

variable {α β : Type} {env : Env}

/-- Carries out a plan on the machine. -/
def run (env : Env) : Plan α → Exec α
  | .done a => pure a
  | .illFormed => do throw (.illFormedStructure (← get).opOffset)
  | .number k rest => do
    let v ← readNumber env k.wide
    (rest v).run env
  | .fixed width rest => do
    let n ← readFixed env width
    (rest n).run env

/-- All readings of a plan on a machine. The last of them may be the one that fails. -/
def reads (env : Env) : Plan α → Machine → List OperandRead
  | .done _, _ => []
  | .illFormed, _ => []
  | .number k rest, m =>
    { place := m.pc, form := .number k } ::
      match readNumber env k.wide m with
      | .ok v behind => (rest v).reads env behind
      | .error _ _ => []
  | .fixed width rest, m =>
    { place := m.pc, form := .fixed width } ::
      match readFixed env width m with
      | .ok n behind => (rest n).reads env behind
      | .error _ _ => []

theorem run_bind (p : Plan α) (f : α → Plan β) :
    (p >>= f).run env = p.run env >>= fun a => (f a).run env := by
  change (p.bind f).run env = _
  induction p with
  | done a => simp only [bind, run, pure_bind]
  | illFormed => rfl
  | number k rest ih => simp only [bind, run, bind_assoc, ih]
  | fixed width rest ih => simp only [bind, run, bind_assoc, ih]

@[simp] theorem run_pure (a : α) : (pure a : Plan α).run env = pure a := rfl

@[simp] theorem run_u32 : u32.run env = readU32 env := rfl

theorem run_blockType : blockType.run env = readBlockType env := by
  simp only [blockType, readBlockType, run]
  congr 1
  funext b
  cases hType : BlockType.ofByte? (UInt8.ofNat b) <;> simp only [run]

theorem run_depths (count : Nat) (found : Array UInt32) :
    (depths count found).run env = readDepths env count found := by
  induction count generalizing found with
  | zero => rfl
  | succ count ih => simp only [depths, readDepths, run_bind, run_u32, ih]

theorem run_const (t : ValueType) : (Plan.const t).run env = readConst env t := by
  cases t <;> simp only [Plan.const, run, readConst, readS32, bind_assoc, pure_bind] <;> rfl

end Plan

open Plan in
/-- The machine reads the operands of an opcode by its plan. -/
theorem Opcode.run_plan (env : Env) (op : Opcode) : op.plan.run env = op.read env := by
  cases op <;>
    simp only [plan, Opcode.read, Plan.memArg, readMemArg, run_bind, run_pure, run_u32,
      run_blockType, run_depths, run_const]

/-! ## The operands of an opcode -/

/-- An opcode at an instruction boundary has been fetched. -/
structure Fetched (env : Env) (m : Machine) (op : Opcode) : Prop where
  boundary : Boundary (env.code m.pc.code) m.opOffset
  byte : ∃ b, (env.code m.pc.code)[m.opOffset]? = some b ∧ Opcode.ofByte? b = some op

/-- The offset is inside the operands of the fetched opcode. -/
abbrev Machine.InOperands (env : Env) (m : Machine) (op : Opcode) : Nat → Prop :=
  op.operands.Cover (env.code m.pc.code) m.opOffset

/-- Reading operands does not change which opcode was fetched. -/
theorem Fetched.moved {env : Env} {m : Machine} {op : Opcode} (h : Fetched env m op)
    (c : ImmediateCache) (offset : Nat) :
    Fetched env ((m.withImmediates c).withOffset offset) op :=
  ⟨h.boundary, h.byte⟩

theorem Fetched.owns {env : Env} {m : Machine} {op : Opcode} (h : Fetched env m op) {pos : Nat}
    (hIn : m.InOperands env op pos) : Owns (env.code m.pc.code) pos op.kind := by
  obtain ⟨b, hByte, hOp⟩ := h.byte
  refine ⟨m.opOffset, b, op, h.boundary, hByte, hOp, rfl, hIn.1, ?_⟩
  intro next hSkip
  apply hIn.2 next
  simpa only [skipOperands, Operands.ofByte, hOp] using hSkip

section Operands

variable {α : Type} {env : Env} {m : Machine} {op : Opcode}

/-- A plan that stays inside the operands of the fetched opcode reads what stands in the code. -/
theorem Reads.plan {p : Plan α} (hFetched : Fetched env m op) (hForm : p.OfForm op.operands.form)
    (hWithin : p.Within (env.code m.pc.code) (m.InOperands env op) m.pc.offset)
    (hAgrees : m.immediates.Agrees env) :
    Reads env (p.run env) (p.decode (env.code m.pc.code) m.opOffset) m := by
  induction p generalizing m with
  | done a => exact Reads.pure hAgrees a
  | illFormed => exact ⟨m.immediates, m.pc.offset, hAgrees, rfl⟩
  | number k rest ih =>
    obtain ⟨hKind, hForms⟩ := hForm
    obtain ⟨hInside, hRest⟩ := hWithin
    have hOwns := Opcode.kind_of_form hKind ▸ hFetched.owns hInside
    refine Reads.bind (Reads.number hAgrees hOwns) fun v next c hNumber hAgrees' => ?_
    exact ih v (hFetched.moved c next) (hForms v) (hRest v next (wide_of_number hNumber)) hAgrees'
  | fixed width rest ih =>
    refine Reads.bind (Reads.fixed hAgrees width) fun n next c hFixed hAgrees' => ?_
    exact ih n (hFetched.moved c next) (hForm.2 n) (hWithin.2 n next hFixed) hAgrees'

/-- All readings of such a plan are inside the operands, and in their form. -/
theorem Plan.reads_inside {p : Plan α} (hFetched : Fetched env m op)
    (hForm : p.OfForm op.operands.form)
    (hWithin : p.Within (env.code m.pc.code) (m.InOperands env op) m.pc.offset)
    (hAgrees : m.immediates.Agrees env) :
    ∀ r ∈ p.reads env m, r.place.code = m.pc.code ∧ m.InOperands env op r.place.offset ∧
      r.form = op.operands.form := by
  induction p generalizing m with
  | done | illFormed => exact fun _ hRead => nomatch hRead
  | number k rest ih =>
    obtain ⟨hKind, hForms⟩ := hForm
    obtain ⟨hInside, hRest⟩ := hWithin
    have hOwns := Opcode.kind_of_form hKind ▸ hFetched.owns hInside
    intro r hRead
    rw [Plan.reads, List.mem_cons] at hRead
    rcases hRead with rfl | hLater
    · exact ⟨rfl, hInside, hKind.symm⟩
    · cases hRun : readNumber env k.wide m with
      | error e stopped =>
        rw [hRun] at hLater
        cases hLater
      | ok v behind =>
        rw [hRun] at hLater
        obtain ⟨c, next, hAgrees', hNumber, rfl⟩ := (Reads.number hAgrees hOwns).of_ok hRun
        exact ih v (hFetched.moved c next) (hForms v) (hRest v next (wide_of_number hNumber))
          hAgrees' r hLater
  | fixed width rest ih =>
    intro r hRead
    rw [Plan.reads, List.mem_cons] at hRead
    rcases hRead with rfl | hLater
    · exact ⟨rfl, hWithin.1, hForm.1.symm⟩
    · cases hRun : readFixed env width m with
      | error e stopped =>
        rw [hRun] at hLater
        cases hLater
      | ok n behind =>
        rw [hRun] at hLater
        obtain ⟨c, next, hAgrees', hFixed, rfl⟩ := (Reads.fixed hAgrees width).of_ok hRun
        exact ih n (hFetched.moved c next) (hForm.2 n) (hWithin.2 n next hFixed) hAgrees' r hLater

/-- The machine reads the operands of an opcode as they stand in the code. -/
theorem Reads.opcode (hFetched : Fetched env m op) (hPc : m.pc.offset = m.opOffset + 1)
    (hAgrees : m.immediates.Agrees env) :
    Reads env (op.read env) (op.decode (env.code m.pc.code) m.opOffset) m := by
  rw [← op.run_plan, ← op.decode_plan]
  exact Reads.plan hFetched op.plan_ofForm (hPc ▸ op.plan_within _ _) hAgrees

/-- Each operand that the machine reads starts inside the instruction, in the form of its opcode. -/
theorem Opcode.reads_inside (hFetched : Fetched env m op) (hPc : m.pc.offset = m.opOffset + 1)
    (hAgrees : m.immediates.Agrees env) :
    ∀ r ∈ op.plan.reads env m, r.place.code = m.pc.code ∧ m.InOperands env op r.place.offset ∧
      r.form = op.operands.form :=
  Plan.reads_inside hFetched op.plan_ofForm (hPc ▸ op.plan_within _ _) hAgrees

end Operands

end WasmMachine
