import WasmMachine.Proofs.Code.Instruction
import WasmMachine.Proofs.Stack.Activities

/-!
# Instructions on one region

An instruction that leaves control alone sees the operands of the innermost open block, the locals
of the current activation and the store, and nothing else of the stack. `Simple.run` is its meaning
on these three, and `Simple.exec_lifts` says that the machine does the same with the rest of the
stack in place: the frame property of the instructions without control.
-/

namespace WasmMachine

open Stack

/-! ## Operations on values alone -/

/-- The result of a stack operation with the stack that it left. -/
def resultOf {α : Type} (r : Except Trap α) (s : Stack) : EStateM.Result Trap Stack α :=
  match r with
  | .ok a => .ok a s
  | .error e => .error e s

/-- No value stands on top of the frames. -/
def Bare (base : List Frame) : Prop := base.head?.bind Frame.value? = none

/-- An operation on the values on top: what it does depends neither on the frames below nor on
whether there are any. -/
def ValuesOnly {α : Type} (op : StackM α) : Prop :=
  ∀ operands : List Value, ∃ (r : Except Trap α) (left : List Value), ∀ base, Bare base →
    op (ofFrames (operands.map .value ++ base)) = resultOf r (ofFrames (left.map .value ++ base))

namespace ValuesOnly

variable {α β : Type}

protected theorem pure (a : α) : ValuesOnly (Pure.pure a) :=
  fun operands => ⟨.ok a, operands, fun _ _ => rfl⟩

protected theorem throw (e : Trap) : ValuesOnly (throw e : StackM α) :=
  fun operands => ⟨.error e, operands, fun _ _ => rfl⟩

protected theorem bind {x : StackM α} {f : α → StackM β} (hx : ValuesOnly x)
    (hf : ∀ a, ValuesOnly (f a)) : ValuesOnly (x >>= f) := by
  intro operands
  obtain ⟨r, left, hLeft⟩ := hx operands
  cases r with
  | error e =>
    refine ⟨.error e, left, fun base hBase => ?_⟩
    change EStateM.bind x f _ = _
    simp only [EStateM.bind, hLeft base hBase, resultOf]
  | ok a =>
    obtain ⟨r', left', hLeft'⟩ := hf a left
    refine ⟨r', left', fun base hBase => ?_⟩
    change EStateM.bind x f _ = _
    simp only [EStateM.bind, hLeft base hBase, resultOf]
    exact hLeft' base hBase

protected theorem pushValue (v : Value) : ValuesOnly (pushValue v) :=
  fun operands => ⟨.ok (), v :: operands, fun _ _ => rfl⟩

protected theorem popValue : ValuesOnly popValue := by
  intro operands
  cases operands with
  | nil =>
    refine ⟨.error .stackExhausted, [], fun base hBase => ?_⟩
    have hPeek : (ofFrames base).peek? = none := by
      cases base with
      | nil => rfl
      | cons f rest => simpa [peek?, Bare] using hBase
    simp [popValue, hPeek, resultOf]
  | cons v rest =>
    refine ⟨.ok v, rest, fun base _ => ?_⟩
    simp [popValue, peek?, Frame.value?, resultOf]

protected theorem popTyped (t : ValueType) : ValuesOnly (popTyped t) := by
  refine ValuesOnly.popValue.bind fun v => ?_
  by_cases h : v.type = t
  · rw [if_pos h]
    exact ValuesOnly.pure v
  · rw [if_neg h]
    exact ValuesOnly.throw _

protected theorem popInt (t : IntType) : ValuesOnly (popInt t) := by
  refine (ValuesOnly.popTyped _).bind fun v => ?_
  cases v.int? t with
  | some bits => exact ValuesOnly.pure bits
  | none => exact ValuesOnly.throw _

protected theorem popFloat (t : FloatType) : ValuesOnly (popFloat t) := by
  refine (ValuesOnly.popTyped _).bind fun v => ?_
  cases v.float? t with
  | some bits => exact ValuesOnly.pure bits
  | none => exact ValuesOnly.throw _

protected theorem popAddress (offset : UInt32) : ValuesOnly (popAddress offset) :=
  (ValuesOnly.popInt .i32).bind fun _ => ValuesOnly.pure _

protected theorem drop : ValuesOnly Stack.drop :=
  ValuesOnly.popValue.bind fun _ => ValuesOnly.pure _

protected theorem select : ValuesOnly Stack.select :=
  (ValuesOnly.popInt .i32).bind fun _ => ValuesOnly.popValue.bind fun _ =>
    (ValuesOnly.popTyped _).bind fun _ => ValuesOnly.pushValue _

protected theorem conversion (c : Conversion) : ValuesOnly c.run := by
  cases c with
  | wrap => exact (ValuesOnly.popInt .i64).bind fun _ => ValuesOnly.pushValue _
  | extend s =>
    cases s <;> exact (ValuesOnly.popInt .i32).bind fun _ => ValuesOnly.pushValue _
  | trunc target source s =>
    refine (ValuesOnly.popFloat source).bind fun a => ?_
    cases truncToInt? target source s a with
    | some v => exact ValuesOnly.pushValue _
    | none => exact ValuesOnly.throw _
  | convert target source s => exact (ValuesOnly.popInt source).bind fun _ => ValuesOnly.pushValue _
  | demote => exact (ValuesOnly.popFloat .f64).bind fun _ => ValuesOnly.pushValue _
  | promote => exact (ValuesOnly.popFloat .f32).bind fun _ => ValuesOnly.pushValue _
  | bitsOfFloat target =>
    cases target with
    | i32 => exact (ValuesOnly.popFloat .f32).bind fun _ => ValuesOnly.pushValue _
    | i64 => exact (ValuesOnly.popFloat .f64).bind fun _ => ValuesOnly.pushValue _
  | floatOfBits target =>
    cases target with
    | f32 => exact (ValuesOnly.popInt .i32).bind fun _ => ValuesOnly.pushValue _
    | f64 => exact (ValuesOnly.popInt .i64).bind fun _ => ValuesOnly.pushValue _

/-- The numeric instructions replace values on top of the stack and look at nothing else. -/
protected theorem numeric (n : Numeric) : ValuesOnly n.run := by
  cases n with
  | eqz t => exact (ValuesOnly.popInt t).bind fun _ => ValuesOnly.pushValue _
  | compareInt t r =>
    exact (ValuesOnly.popInt t).bind fun _ => (ValuesOnly.popInt t).bind fun _ =>
      ValuesOnly.pushValue _
  | compareFloat t r =>
    exact (ValuesOnly.popFloat t).bind fun _ => (ValuesOnly.popFloat t).bind fun _ =>
      ValuesOnly.pushValue _
  | unaryInt t op => exact (ValuesOnly.popInt t).bind fun _ => ValuesOnly.pushValue _
  | binaryInt t op =>
    refine (ValuesOnly.popInt t).bind fun b => (ValuesOnly.popInt t).bind fun a => ?_
    cases Integer.binary op a b with
    | ok v => exact ValuesOnly.pushValue _
    | error e => exact ValuesOnly.throw _
  | unaryFloat t op => exact (ValuesOnly.popFloat t).bind fun _ => ValuesOnly.pushValue _
  | binaryFloat t op =>
    exact (ValuesOnly.popFloat t).bind fun _ => (ValuesOnly.popFloat t).bind fun _ =>
      ValuesOnly.pushValue _
  | convert c => exact ValuesOnly.conversion c

end ValuesOnly

/-- Runs an operation on a stack that holds the operands alone. -/
def onOperands {α : Type} (op : StackM α) (operands : List Value) :
    Except Trap (α × List Value) :=
  match op (ofFrames (operands.map .value)) with
  | .ok a s => .ok (a, s.values.toList.reverse)
  | .error e _ => .error e

theorem reverse_values_ofFrames (operands : List Value) :
    (ofFrames (operands.map .value)).values.toList.reverse = operands := by
  rw [values_ofFrames, List.reverse_reverse, List.filterMap_map]
  exact List.filterMap_some

/-- An operation on values does to the operands what it does when they stand alone. -/
theorem ValuesOnly.apply {α : Type} {op : StackM α} (h : ValuesOnly op) (operands : List Value)
    {base : List Frame} (hBase : Bare base) :
    match onOperands op operands with
    | .ok (a, left) =>
      op (ofFrames (operands.map .value ++ base)) = .ok a (ofFrames (left.map .value ++ base))
    | .error e => ∃ s, op (ofFrames (operands.map .value ++ base)) = .error e s := by
  obtain ⟨r, left, hLeft⟩ := h operands
  have hAlone := hLeft [] rfl
  rw [List.append_nil, List.append_nil] at hAlone
  unfold onOperands
  rw [hAlone]
  cases r with
  | ok a =>
    simp only [resultOf, reverse_values_ofFrames]
    exact hLeft base hBase
  | error e => exact ⟨_, hLeft base hBase⟩

/-! ## Regions -/

/-- What the instructions of a region work on. -/
structure Region where
  /-- The operands, topmost first. -/
  operands : List Value
  locals : Array Value
  store : Store

/-- Instructions on a region. One that traps leaves no region behind. -/
abbrev RegionM := StateT Region (Except Trap)

namespace RegionM

/-- Runs an operation on the operands. -/
def operands {α : Type} (op : StackM α) : RegionM α := fun σ =>
  match onOperands op σ.operands with
  | .ok (a, operands) => .ok (a, { σ with operands })
  | .error e => .error e

/-- Puts a value on top of the operands. -/
def push (v : Value) : RegionM Unit := fun σ => .ok ((), { σ with operands := v :: σ.operands })

/-- The value of a local. -/
def readLocal (index : UInt32) : RegionM Value := fun σ =>
  match σ.locals[index.toNat]? with
  | some v => .ok (v, σ)
  | none => .error (.localIndexOutOfBounds index)

/-- Takes a value of the type of a local and assigns it. -/
def assignLocal (index : UInt32) : RegionM Unit := do
  let old ← readLocal index
  let v ← operands (popTyped old.type)
  modify fun σ => { σ with locals := σ.locals.setIfInBounds index.toNat v }

/-- A global. -/
def readGlobal (index : UInt32) : RegionM Global := fun σ =>
  match σ.store.globals[index.toNat]? with
  | some g => .ok (g, σ)
  | none => .error (.globalIndexOutOfBounds index)

/-- Takes a value of the type of a global, which must be mutable, and assigns it. -/
def assignGlobal (index : UInt32) : RegionM Unit := do
  let g ← readGlobal index
  if !g.isMutable then throw (.immutableGlobal index)
  else
    let v ← operands (popTyped g.value.type)
    modify fun σ =>
      { σ with store := { σ.store with
        globals := σ.store.globals.setIfInBounds index.toNat { g with value := v } } }

/-- The first memory. -/
def readMemory : RegionM Memory := fun σ =>
  match σ.store.memory with
  | .ok memory => .ok (memory, σ)
  | .error e => .error e

/-- Runs an operation on the first memory. -/
def onMemory {α : Type} (op : MemoryM α) : RegionM α := fun σ =>
  match σ.store.memories[0]? with
  | none => .error .noMemory
  | some memory =>
    match op memory with
    | .ok a memory =>
      .ok (a, { σ with store := { σ.store with
        memories := σ.store.memories.setIfInBounds 0 memory } })
    | .error e _ => .error e

/-- The number in the first memory at an address. -/
def loadNumber (address width : Nat) : RegionM Nat := do
  let memory ← readMemory
  match memory.load address width with
  | .ok n => return n
  | .error e => throw e

end RegionM

open RegionM in
/-- What an instruction without control does to its region. -/
def Simple.run : Simple → RegionM Unit
  | .unreachable => throw .unreachable
  | .nop => pure ()
  | .drop => operands Stack.drop
  | .select => operands Stack.select
  | .localGet index => do push (← readLocal index)
  | .localSet index => assignLocal index
  | .localTee index => do
    assignLocal index
    push (← readLocal index)
  | .globalGet index => do
    let g ← readGlobal index
    push g.value
  | .globalSet index => assignGlobal index
  | .load op offset => do
    let _ ← readMemory
    let address ← operands (popAddress offset)
    let n ← loadNumber address op.bytes
    push (op.value n)
  | .store op offset => do
    let _ ← readMemory
    let v ← operands (popTyped op.type)
    let address ← operands (popAddress offset)
    onMemory (Memory.store address op.bytes v.toNat)
  | .memorySize => do
    let memory ← readMemory
    push (.i32 (BitVec.ofNat 32 memory.pages))
  | .memoryGrow => do
    let _ ← readMemory
    let delta ← operands popI32
    let previous ← onMemory (Exec.growMemory (UInt32.ofNat delta.toNat))
    push (.i32 previous)
  | .const v => push v
  | .numeric n => operands n.run

/-! ## The machine on the current region -/

namespace Activity

/-- What the current instructions of an activity work on. -/
def currentRegion (A : Activity) (store : Store) : Region :=
  ⟨A.operands, A.activation.locals, store⟩

/-- The activity with new operands and locals. -/
def withRegion (A : Activity) (σ : Region) : Activity :=
  { A with operands := σ.operands, activation := { A.activation with locals := σ.locals } }

@[simp] theorem withRegion_currentRegion (A : Activity) (store : Store) :
    A.withRegion (A.currentRegion store) = A := rfl

end Activity

/-- The machine with new contents of the current region. -/
def Machine.withRegion (m : Machine) (A : Activity) (rest : List Activity) (σ : Region) : Machine :=
  { m with stack := ofActivities (A.withRegion σ :: rest), store := σ.store }

/-- The machine does to the current region what the region program says, and leaves the rest of
the stack as it is. If it traps, only the stack may have changed. -/
def Lifts {α : Type} (x : Exec α) (f : RegionM α) : Prop :=
  ∀ (m : Machine) (A : Activity) (rest : List Activity), m.stack = ofActivities (A :: rest) →
    match f (A.currentRegion m.store) with
    | .ok (a, σ) => x m = .ok a (m.withRegion A rest σ)
    | .error e => ∃ s, x m = .error e { m with stack := s }

/-- A region program that never changes the store. -/
def KeepsStore {α : Type} (f : RegionM α) : Prop :=
  ∀ σ a τ, f σ = .ok (a, τ) → τ.store = σ.store

theorem bare_activity (A : Activity) (rest : List Activity) :
    Bare (A.blocks.flatMap OpenBlock.frames ++
      .activation A.activation :: rest.flatMap Activity.frames) := by
  cases hBlocks : A.blocks with
  | nil => rfl
  | cons b others => rfl

namespace Lifts

variable {α β : Type}

protected theorem pure (a : α) : Lifts (Pure.pure a) (Pure.pure a) := by
  intro m A rest hStack
  have hSame : m.withRegion A rest (A.currentRegion m.store) = m := by
    rw [Machine.withRegion, Activity.withRegion_currentRegion, ← hStack]
    rfl
  change EStateM.Result.ok a m = .ok a (m.withRegion A rest (A.currentRegion m.store))
  rw [hSame]

protected theorem throw (e : Trap) : Lifts (throw e : Exec α) (throw e) :=
  fun m _ _ _ => ⟨m.stack, rfl⟩

/-- A sequence whose first part does not change the store. -/
protected theorem bind {x : Exec α} {f : RegionM α} {y : α → Exec β} {g : α → RegionM β}
    (hx : Lifts x f) (hKeeps : KeepsStore f) (hy : ∀ a, Lifts (y a) (g a)) :
    Lifts (x >>= y) (f >>= g) := by
  intro m A rest hStack
  have hFirst := hx m A rest hStack
  change match (f (A.currentRegion m.store)).bind (fun p => g p.1 p.2) with
    | .ok (a, σ) => EStateM.bind x y m = _
    | .error e => ∃ s, EStateM.bind x y m = _
  cases hf : f (A.currentRegion m.store) with
  | error e =>
    rw [hf] at hFirst
    obtain ⟨s, hs⟩ := hFirst
    exact ⟨s, by simp only [EStateM.bind, hs]⟩
  | ok p =>
    obtain ⟨a, σ⟩ := p
    rw [hf] at hFirst
    have hStore : σ.store = m.store := hKeeps _ a σ hf
    have hSecond := hy a (m.withRegion A rest σ) (A.withRegion σ) rest rfl
    simp only [Except.bind, EStateM.bind, hFirst]
    change match g a σ with
      | .ok (b, τ) => _ = EStateM.Result.ok b (m.withRegion A rest τ)
      | .error e => _ at hSecond
    cases hg : g a σ with
    | error e =>
      rw [hg] at hSecond
      obtain ⟨s, hs⟩ := hSecond
      exact ⟨s, by rw [hs, Machine.withRegion, hStore]⟩
    | ok q =>
      rw [hg] at hSecond
      exact hSecond

/-- A sequence whose second part never traps. -/
protected theorem bind_total {x : Exec α} {f : RegionM α} {y : α → Exec β} {g : α → RegionM β}
    (hx : Lifts x f) (hy : ∀ a, Lifts (y a) (g a)) (hTotal : ∀ a σ, ∃ p, g a σ = .ok p) :
    Lifts (x >>= y) (f >>= g) := by
  intro m A rest hStack
  have hFirst := hx m A rest hStack
  change match (f (A.currentRegion m.store)).bind (fun p => g p.1 p.2) with
    | .ok (a, σ) => EStateM.bind x y m = _
    | .error e => ∃ s, EStateM.bind x y m = _
  cases hf : f (A.currentRegion m.store) with
  | error e =>
    rw [hf] at hFirst
    obtain ⟨s, hs⟩ := hFirst
    exact ⟨s, by simp only [EStateM.bind, hs]⟩
  | ok p =>
    obtain ⟨a, σ⟩ := p
    rw [hf] at hFirst
    have hSecond := hy a (m.withRegion A rest σ) (A.withRegion σ) rest rfl
    obtain ⟨q, hq⟩ := hTotal a σ
    simp only [Except.bind, EStateM.bind, hFirst]
    change match g a σ with
      | .ok (b, τ) => _ = EStateM.Result.ok b (m.withRegion A rest τ)
      | .error e => _ at hSecond
    rw [hq] at hSecond ⊢
    exact hSecond

/-- Operations on values act on the operands of the current region. -/
theorem onStack {op : StackM α} (h : ValuesOnly op) :
    Lifts (Exec.onStack op) (RegionM.operands op) := by
  intro m A rest hStack
  have hApply := h.apply A.operands (bare_activity A rest)
  have hFrames : m.stack = ofFrames (A.operands.map .value ++
      (A.blocks.flatMap OpenBlock.frames ++
        .activation A.activation :: rest.flatMap Activity.frames)) := by
    rw [hStack, ofActivities_cons, Activity.region, List.append_assoc]
  unfold RegionM.operands Exec.onStack
  rw [Activity.currentRegion]
  cases hRun : onOperands op A.operands with
  | error e =>
    rw [hRun] at hApply
    obtain ⟨s, hs⟩ := hApply
    exact ⟨s, by simp only [hFrames, hs]⟩
  | ok p =>
    obtain ⟨a, left⟩ := p
    rw [hRun] at hApply
    simp only [hFrames, hApply]
    rw [Machine.withRegion, ofActivities_cons, Activity.region, List.append_assoc]
    rfl

theorem push (v : Value) : Lifts (Exec.onStack (pushValue v)) (RegionM.push v) := by
  intro m A rest hStack
  unfold Exec.onStack
  rw [hStack]
  rfl

/-! ### Locals -/

theorem readLocal (index : UInt32) :
    Lifts (Exec.onStack (Stack.readLocal index)) (RegionM.readLocal index) := by
  intro m A rest hStack
  unfold RegionM.readLocal
  rw [Activity.currentRegion]
  cases hLocal : A.activation.locals[index.toNat]? with
  | none =>
    have hRead : Stack.readLocal index m.stack =
        .error (.localIndexOutOfBounds index) m.stack := by
      simp only [Stack.readLocal, hStack, activation?_ofActivities, hLocal]
    exact ⟨m.stack, by simp only [Exec.onStack, hRead]⟩
  | some v =>
    have hRead : Stack.readLocal index m.stack = .ok v m.stack := by
      simp only [Stack.readLocal, hStack, activation?_ofActivities, hLocal]
    simp only [Exec.onStack, hRead]
    rw [hStack]
    rfl

theorem writeLocal (index : Nat) (v : Value) :
    Lifts (Exec.onStack (modify (·.setLocal index v)))
      (modify fun σ => { σ with locals := σ.locals.setIfInBounds index v }) := by
  intro m A rest hStack
  have hSet := setLocal_ofActivities A rest index v
  change Exec.onStack _ m = .ok () (m.withRegion A rest _)
  unfold Exec.onStack
  rw [hStack]
  change EStateM.Result.ok () { m with stack := (ofActivities (A :: rest)).setLocal index v } = _
  rw [hSet]
  rfl

end Lifts

theorem onStack_bind {α β : Type} (x : StackM α) (f : α → StackM β) :
    Exec.onStack (x >>= f) = Exec.onStack x >>= fun a => Exec.onStack (f a) := by
  funext m
  change (match EStateM.bind x f m.stack with
    | .ok a s => EStateM.Result.ok a { m with stack := s }
    | .error e s => .error e { m with stack := s }) =
      EStateM.bind (Exec.onStack x) (fun a => Exec.onStack (f a)) m
  simp only [EStateM.bind, Exec.onStack]
  cases x m.stack with
  | ok a s => rfl
  | error e s => rfl

namespace KeepsStore

theorem operands {α : Type} (op : StackM α) : KeepsStore (RegionM.operands op) := by
  intro σ a τ h
  unfold RegionM.operands at h
  split at h <;> cases h
  rfl

theorem readLocal (index : UInt32) : KeepsStore (RegionM.readLocal index) := by
  intro σ a τ h
  unfold RegionM.readLocal at h
  split at h <;> cases h
  rfl

theorem readGlobal (index : UInt32) : KeepsStore (RegionM.readGlobal index) := by
  intro σ a τ h
  unfold RegionM.readGlobal at h
  split at h <;> cases h
  rfl

theorem readMemory : KeepsStore RegionM.readMemory := by
  intro σ a τ h
  unfold RegionM.readMemory at h
  split at h <;> cases h
  rfl

protected theorem bind {α β : Type} {f : RegionM α} {g : α → RegionM β} (hf : KeepsStore f)
    (hg : ∀ a, KeepsStore (g a)) : KeepsStore (f >>= g) := by
  intro σ b τ h
  change (f σ).bind (fun p => g p.1 p.2) = _ at h
  cases hRun : f σ with
  | error e => rw [hRun] at h; cases h
  | ok p =>
    rw [hRun] at h
    rw [hg p.1 p.2 b τ h, hf σ p.1 p.2 hRun]

theorem assignLocal (index : UInt32) : KeepsStore (RegionM.assignLocal index) := by
  refine (readLocal index).bind fun old => (operands _).bind fun v => ?_
  intro σ a τ h
  cases h
  rfl

theorem loadNumber (address width : Nat) : KeepsStore (RegionM.loadNumber address width) := by
  refine readMemory.bind fun memory => ?_
  intro σ a τ h
  cases hLoad : memory.load address width with
  | error e => rw [hLoad] at h; cases h
  | ok n => rw [hLoad] at h; cases h; rfl

end KeepsStore

namespace Lifts

theorem localGet (index : UInt32) :
    Lifts (Exec.onStack (Stack.localGet index)) (do RegionM.push (← RegionM.readLocal index)) := by
  rw [Stack.localGet, onStack_bind]
  exact (readLocal index).bind (KeepsStore.readLocal index) push

theorem localSet (index : UInt32) :
    Lifts (Exec.onStack (Stack.localSet index)) (RegionM.assignLocal index) := by
  simp only [Stack.localSet, onStack_bind]
  exact (readLocal index).bind (KeepsStore.readLocal index) fun old =>
    (onStack (.popTyped old.type)).bind (KeepsStore.operands _) fun v => writeLocal _ v

/-! ### Globals and memory -/

theorem readGlobal (index : UInt32) :
    Lifts (Exec.readGlobal index) (RegionM.readGlobal index) := by
  intro m A rest hStack
  unfold Exec.readGlobal RegionM.readGlobal
  rw [Activity.currentRegion]
  cases hGlobal : m.store.globals[index.toNat]? with
  | none => exact ⟨m.stack, rfl⟩
  | some g =>
    change EStateM.Result.ok g m = .ok g { m with stack := ofActivities (A :: rest) }
    rw [← hStack]

theorem globalSet (index : UInt32) :
    Lifts (Exec.globalSet index) (RegionM.assignGlobal index) := by
  refine (readGlobal index).bind (KeepsStore.readGlobal index) fun g => ?_
  by_cases hMutable : (!g.isMutable) = true
  · rw [if_pos hMutable, if_pos hMutable]
    exact Lifts.throw _
  · rw [if_neg hMutable, if_neg hMutable]
    refine (onStack (.popTyped g.value.type)).bind (KeepsStore.operands _) fun v => ?_
    intro m A rest hStack
    change EStateM.Result.ok () _ = .ok () { m with stack := ofActivities (A :: rest), store := _ }
    rw [← hStack]
    rfl

theorem readMemory : Lifts Exec.readMemory RegionM.readMemory := by
  intro m A rest hStack
  unfold Exec.readMemory RegionM.readMemory
  rw [Activity.currentRegion]
  cases hMemory : m.store.memory with
  | error e => exact ⟨m.stack, rfl⟩
  | ok memory =>
    change EStateM.Result.ok memory m = .ok memory { m with stack := ofActivities (A :: rest) }
    rw [← hStack]

theorem requireMemory {β : Type} {y : Exec β} {g : RegionM β} (h : Lifts y g) :
    Lifts (Exec.requireMemory >>= fun _ => y) (RegionM.readMemory >>= fun _ => g) := by
  have hRequire : (Exec.requireMemory >>= fun _ => y) = Exec.readMemory >>= fun _ => y := by
    simp only [Exec.requireMemory, bind_assoc, pure_bind]
  rw [hRequire]
  exact readMemory.bind KeepsStore.readMemory fun _ => h

/-- An operation on memory that changes nothing when it traps. -/
def Atomic {α : Type} (op : MemoryM α) : Prop :=
  ∀ memory e after, op memory = .error e after → after = memory

theorem onMemory {α : Type} {op : MemoryM α} (hAtomic : Atomic op) :
    Lifts (Exec.onMemory op) (RegionM.onMemory op) := by
  intro m A rest hStack
  unfold Exec.onMemory RegionM.onMemory
  rw [Activity.currentRegion]
  cases hMemory : m.store.memories[0]? with
  | none => exact ⟨m.stack, rfl⟩
  | some memory =>
    have hSet : ∀ after, (m.store.memories.setIfInBounds 0 Exec.noBytes).setIfInBounds 0 after =
        m.store.memories.setIfInBounds 0 after := by
      intro after
      rw [Array.setIfInBounds_setIfInBounds]
    cases hRun : op memory with
    | ok a after =>
      simp only [hRun, hSet]
      change EStateM.Result.ok a _ = .ok a { m with stack := ofActivities (A :: rest), store := _ }
      rw [← hStack]
    | error e after =>
      have hSame : m.store.memories.setIfInBounds 0 memory = m.store.memories := by
        obtain ⟨hSize, hGet⟩ := Array.getElem?_eq_some_iff.1 hMemory
        rw [Array.setIfInBounds, dif_pos hSize, ← hGet, Array.set_getElem_self]
      simp only [hRun]
      exact ⟨m.stack, by simp only [hSet, hAtomic memory e after hRun, hSame]⟩

theorem atomic_store (address width n : Nat) : Atomic (Memory.store address width n) := by
  intro memory e after h
  unfold Memory.store Memory.writeBytes at h
  split at h <;> cases h
  rfl

theorem atomic_growMemory (delta : UInt32) : Atomic (Exec.growMemory delta) := by
  intro memory e after h
  unfold Exec.growMemory at h
  split at h <;> cases h

theorem load (op : LoadOp) (offset : UInt32) :
    Lifts (Exec.load op offset) (Simple.load op offset).run := by
  have hLoad : Exec.load op offset = Exec.requireMemory >>= fun _ =>
      Exec.onStack (popAddress offset) >>= fun address =>
        (Exec.readMemory >>= fun memory => ofExcept (memory.load address op.bytes)) >>= fun n =>
          Exec.onStack (pushValue (op.value n)) := by
    simp only [Exec.load, bind_assoc]
  rw [hLoad]
  refine requireMemory ?_
  refine (onStack (.popAddress offset)).bind (KeepsStore.operands _) fun address => ?_
  refine Lifts.bind ?_ (KeepsStore.loadNumber _ _) fun n => push _
  refine readMemory.bind KeepsStore.readMemory fun memory => ?_
  cases memory.load address op.bytes with
  | ok n => exact Lifts.pure n
  | error e => exact Lifts.throw e

theorem store (op : StoreOp) (offset : UInt32) :
    Lifts (Exec.store op offset) (Simple.store op offset).run :=
  requireMemory <| (onStack (.popTyped op.type)).bind (KeepsStore.operands _) fun _ =>
    (onStack (.popAddress offset)).bind (KeepsStore.operands _) fun _ =>
      onMemory (atomic_store _ _ _)

theorem memoryGrow : Lifts Exec.memoryGrow Simple.memoryGrow.run :=
  requireMemory <| (onStack (.popInt .i32)).bind (KeepsStore.operands _) fun _ =>
    (onMemory (atomic_growMemory _)).bind_total (fun _ => push _) fun _ _ => ⟨_, rfl⟩

end Lifts

/-- An instruction without control acts on the current region alone. -/
theorem Simple.exec_lifts (s : Simple) : Lifts s.exec s.run := by
  cases s with
  | unreachable => exact Lifts.throw _
  | nop => exact Lifts.pure ()
  | drop => exact Lifts.onStack .drop
  | select => exact Lifts.onStack .select
  | localGet index => exact Lifts.localGet index
  | localSet index => exact Lifts.localSet index
  | localTee index =>
    change Lifts (Exec.onStack (Stack.localTee index)) _
    rw [Stack.localTee, onStack_bind]
    exact (Lifts.localSet index).bind (KeepsStore.assignLocal index) fun _ => Lifts.localGet index
  | globalGet index =>
    exact (Lifts.readGlobal index).bind (KeepsStore.readGlobal index) fun g => Lifts.push g.value
  | globalSet index => exact Lifts.globalSet index
  | load op offset => exact Lifts.load op offset
  | store op offset => exact Lifts.store op offset
  | memorySize => exact Lifts.readMemory.bind KeepsStore.readMemory fun memory => Lifts.push _
  | memoryGrow => exact Lifts.memoryGrow
  | const v => exact Lifts.push v
  | numeric n => exact Lifts.onStack (.numeric n)

end WasmMachine
