import WasmMachine.Proofs.Guarded.Basic
import WasmMachine.Proofs.Machine.OperandLaws
import WasmMachine.Proofs.Machine.Region
import WasmMachine.Proofs.Stack.Locals

/-!
# The stack with guards

Operations that use the index of the stack, with guards: the frames at the positions of the index,
the frames above a position, and the count of labels when a label is popped. On a stack whose index
is in step with its frames all of them are in range. Every operation leaves the index in step, also
one that fails. Operations on the values on top are taken over as they are: they look at no
position, and popping a value leaves the count of labels alone.

* `Stack.Built`: the index of a stack is in step with its frames.
* `Guarded.unbroken_unwindTo`: unwinding to a position of a frame.
* `Guarded.unbroken_localSet`, `Guarded.unbroken_numeric`: instructions on the stack.
-/

namespace WasmMachine

open Stack

/-! ## Guarded operations -/

namespace Guarded

open GuardedM

/-- The frame at a position. -/
def frame (position : Nat) : GuardedM Trap Stack Frame := fun s =>
  match s.frames[position]? with
  | some f => .ok f s
  | none => .error (.broken .frameAt) s

/-- Removes the topmost frame. A label on top is one of those that are counted. -/
def pop : GuardedM Trap Stack Unit := do
  require .labelCount fun s => s.top?.map Frame.kind = some .label → 0 < s.labelsAboveActivation
  modify Stack.pop

def dropTop : (count : Nat) → GuardedM Trap Stack Unit
  | 0 => pure ()
  | count + 1 => do
    pop
    dropTop count

def labelPosition? (depth : Nat) : GuardedM Trap Stack (Option Nat) := fun s =>
  if depth < s.index.labels.size then
    match s.index.labels[s.index.labels.size - (depth + 1)]? with
    | some position => .ok (some position) s
    | none => .error (.broken .labelAt) s
  else .ok none s

def label? (depth : Nat) : GuardedM Trap Stack (Option LabelFrame) := do
  match ← labelPosition? depth with
  | none => return none
  | some position => return (← frame position).label?

def activation? : GuardedM Trap Stack (Option ActivationFrame) := do
  match (← get).activationPosition? with
  | none => return none
  | some position => return (← frame position).activation?

/-- All values. The frame at each position of the index is looked at. -/
def values : GuardedM Trap Stack (Array Value) := do
  require .frameAt fun s => ∀ position ∈ s.index.values, position < s.frames.size
  return (← get).values

def setLocal (index : Nat) (v : Value) : GuardedM Trap Stack Unit := do
  match (← get).activationPosition? with
  | none => return
  | some position =>
    let _ ← frame position
    modify (·.setLocal index v)

/-- Fails because of the values above a position. The frames above it are a slice where their types
are reported. -/
def rejectValues (position : Nat) (arity : List ValueType) : GuardedM Trap Stack Frame := do
  require .framesAbove fun s => position + 1 ≤ s.size
  throw (.raised (.arityMismatch arity ((← get).topTypes position (max arity.length 1))))

/-- Removes the frame at a position and all above it, and puts values in its place. -/
def replaceFrame (position : Nat) (kept : List Value) : GuardedM Trap Stack Frame := do
  dropTop ((← get).size - (position + 1))
  match (← get).top? with
  | none => throw (.raised .stackExhausted)
  | some f =>
    pop
    modify (·.pushValues kept)
    return f

/-- Unwinds to a position. -/
def unwindTo (position : Nat) (arity : List ValueType) : GuardedM Trap Stack Frame := fun s =>
  match popCarried position arity.reverse [] s with
  | .error kept s => rejectValues position arity (s.pushValues kept)
  | .ok kept s => replaceFrame position kept s

def readLocal (index : UInt32) : GuardedM Trap Stack Value := do
  match ← activation? with
  | none => throw (.raised .noActivation)
  | some a =>
    match a.locals[index.toNat]? with
    | none => throw (.raised (.localIndexOutOfBounds index))
    | some v => return v

def localGet (index : UInt32) : GuardedM Trap Stack Unit := do
  lift (pushValue (← readLocal index))

def localSet (index : UInt32) : GuardedM Trap Stack Unit := do
  let old ← readLocal index
  let v ← lift (popTyped old.type)
  setLocal index.toNat v

def localTee (index : UInt32) : GuardedM Trap Stack Unit := do
  localSet index
  localGet index

/-- Takes parameters and assigns each to the local of its place, the last one first. -/
def popParams (locals : Array Value) (signature : FunctionType) :
    List ValueType → List Value → GuardedM Trap Stack (List Value)
  | [], found => pure found
  | expected :: rest, found => do
    let v ← lift (popParam signature expected)
    require .parameterLocal fun _ => rest.length < locals.size
    popParams locals signature rest (v :: found)

/-! ### Integers -/

def divide {n : Nat} : Signedness → BitVec n → BitVec n → Except (Stop IntFailure) (BitVec n)
  | .signed, a, b =>
    if b = 0 then .error (.raised .divisionByZero)
    else if a = BitVec.intMin n ∧ b = -1 then .error (.raised .notRepresentable)
    else do
      Stop.require .division (b ≠ 0 ∧ ¬ (a = BitVec.intMin n ∧ b = -1))
      return a.sdiv b
  | .unsigned, a, b =>
    if b = 0 then .error (.raised .divisionByZero)
    else do
      Stop.require .division (b ≠ 0)
      return a / b

def remainder {n : Nat} : Signedness → BitVec n → BitVec n → Except (Stop IntFailure) (BitVec n)
  | .signed, a, b =>
    if b = 0 then .error (.raised .divisionByZero)
    else do
      Stop.require .division (b ≠ 0)
      return a.srem b
  | .unsigned, a, b =>
    if b = 0 then .error (.raised .divisionByZero)
    else do
      Stop.require .division (b ≠ 0)
      return a % b

def binary {n : Nat} : IntBinary → BitVec n → BitVec n → Except (Stop IntFailure) (BitVec n)
  | .div s, a, b => divide s a b
  | .rem s, a, b => remainder s a b
  | op, a, b => Stop.ofExcept (Integer.binary op a b)

def numeric : Numeric → GuardedM Trap Stack Unit
  | .binaryInt t op => do
    let b ← lift (popInt t)
    let a ← lift (popInt t)
    match binary op a b with
    | .ok v => lift (pushValue (.ofInt t v))
    | .error (.raised e) => throw (.raised (.ofIntFailure e))
    | .error (.broken op) => throw (.broken op)
  | n => lift n.run

end Guarded

/-! ## Stacks in step with their index -/

/-- The index of the stack is in step with its frames: it is the stack of a list of frames. -/
def Stack.Built (s : Stack) : Prop := ∃ fs, s = ofFrames fs

theorem Stack.built_iff {s : Stack} : s.Built ↔ s.AllActivations fun _ => True :=
  ⟨fun ⟨fs, hs⟩ => ⟨fs, hs, fun _ _ => trivial⟩, fun ⟨fs, hs, _⟩ => ⟨fs, hs⟩⟩

namespace Stack.Built

variable {s : Stack}

theorem lt_size (h : s.Built) (kind : FrameKind) {position : Nat}
    (hMem : position ∈ s.index.positions kind) : position < s.size := by
  obtain ⟨fs, rfl⟩ := h
  rw [size_ofFrames]
  exact lt_length_of_mem_positions kind hMem

theorem push (h : s.Built) (f : Frame) : (s.push f).Built :=
  built_iff.2 ((built_iff.1 h).push fun _ _ => trivial)

theorem pop (h : s.Built) : s.pop.Built := built_iff.2 (built_iff.1 h).pop

theorem dropTop (h : s.Built) (count : Nat) : (s.dropTop count).Built :=
  built_iff.2 ((built_iff.1 h).dropTop count)

theorem pushValues (h : s.Built) (values : List Value) : (s.pushValues values).Built :=
  built_iff.2 ((built_iff.1 h).pushValues values)

/-- A label on top is one of those that are counted. -/
theorem labelsAboveActivation_pos (h : s.Built) (hTop : s.top?.map Frame.kind = some .label) :
    0 < s.labelsAboveActivation := by
  obtain ⟨fs, rfl⟩ := h
  cases fs with
  | nil => cases hTop
  | cons f rest =>
    rw [top?_ofFrames_cons] at hTop
    rw [ofFrames_cons, labelsAboveActivation_push]
    cases f with
    | value v => cases hTop
    | activation a => cases hTop
    | label l => exact Nat.succ_pos _

/-- Changing a frame to one of its kind, on which alone the index depends. -/
theorem modify {fs : List Frame} {change : Frame → Frame}
    (hKind : ∀ f, (change f).kind = f.kind) (position : Nat) :
    Built { ofFrames fs with frames := (ofFrames fs).frames.modify position change } := by
  have hKinds : (fs.reverse.modify position change).map Frame.kind = fs.reverse.map Frame.kind := by
    apply List.ext_getElem?
    intro j
    simp only [List.getElem?_map, List.getElem?_modify]
    split <;> cases fs.reverse[j]? <;> simp [hKind]
  have hIndex := index_ofFrames_congr fs (fs.reverse.modify position change).reverse
    (by rw [List.map_reverse, hKinds, List.map_reverse, List.reverse_reverse])
  refine ⟨(fs.reverse.modify position change).reverse, congr (congrArg Stack.mk ?_) hIndex⟩
  simp only [frames_ofFrames, List.reverse_reverse]
  apply Array.ext'
  rw [Array.toList_modify]

theorem modifyActivation (h : s.Built) (f : ActivationFrame → ActivationFrame) :
    (s.modifyActivation f).Built := by
  obtain ⟨fs, rfl⟩ := h
  unfold Stack.modifyActivation
  split
  · exact ⟨fs, rfl⟩
  · exact modify (fun frame => by cases frame <;> rfl) _

end Stack.Built

/-- Operations on the values on top leave the index in step with the frames. -/
theorem ValuesOnly.keeps {α : Type} {op : StackM α} (h : ValuesOnly op) : Keeps Built op :=
  fun s hs => built_iff.2 (h.keeps_all s (built_iff.1 hs))

/-! ## Nothing is broken -/

namespace Guarded

variable {s : Stack}

theorem unbroken_valuesOnly {α : Type} {op : StackM α} (h : ValuesOnly op) (hs : s.Built) :
    Unbroken Built (GuardedM.lift op) op s := Unbroken.lift h.keeps hs

theorem pop_eq_ok (hs : s.Built) : pop s = .ok () s.pop :=
  GuardedM.bind_of_ok (GuardedM.require_eq_ok hs.labelsAboveActivation_pos)

theorem dropTop_eq_ok (hs : s.Built) (count : Nat) :
    dropTop count s = .ok () (s.dropTop count) := by
  induction count generalizing s with
  | zero => rfl
  | succ count ih => exact (GuardedM.bind_of_ok (pop_eq_ok hs)).trans (ih hs.pop)

/-! ### Positions -/

theorem frame_eq_ok {position : Nat} (h : position < s.size) :
    frame position s = .ok s.frames[position] s := by
  unfold frame
  rw [Array.getElem?_eq_getElem h]

/-- The position of a label is the position of a frame. -/
theorem lt_size_of_labelPosition? (hs : s.Built) {depth position : Nat}
    (h : s.labelPosition? depth = some position) : position < s.size := by
  unfold Stack.labelPosition? at h
  split at h
  · exact hs.lt_size .label (Array.mem_of_getElem? h)
  · cases h

theorem lt_size_of_activationPosition? (hs : s.Built) {position : Nat}
    (h : s.activationPosition? = some position) : position < s.size :=
  hs.lt_size .activation (Array.mem_of_back? h)

theorem labelPosition?_eq_ok (depth : Nat) :
    labelPosition? depth s = .ok (s.labelPosition? depth) s := by
  unfold labelPosition? Stack.labelPosition?
  by_cases hDepth : depth < s.index.labels.size
  · rw [if_pos hDepth, if_pos hDepth, Array.getElem?_eq_getElem (by omega)]
  · rw [if_neg hDepth, if_neg hDepth]

theorem label?_eq_ok (hs : s.Built) (depth : Nat) :
    label? depth s = .ok (s.label? depth) s := by
  unfold label? Stack.label?
  rw [GuardedM.bind_of_ok (labelPosition?_eq_ok depth)]
  cases hPosition : s.labelPosition? depth with
  | none => rfl
  | some position =>
    have hInside := lt_size_of_labelPosition? hs hPosition
    rw [Option.bind_some, Array.getElem?_eq_getElem hInside]
    exact GuardedM.bind_of_ok (frame_eq_ok hInside)

theorem activation?_eq_ok (hs : s.Built) : activation? s = .ok s.activation? s := by
  unfold activation? Stack.activation?
  rw [GuardedM.get_bind]
  cases hPosition : s.activationPosition? with
  | none => rfl
  | some position =>
    have hInside := lt_size_of_activationPosition? hs hPosition
    rw [Option.bind_some, Array.getElem?_eq_getElem hInside]
    exact GuardedM.bind_of_ok (frame_eq_ok hInside)

-- An index that is ahead of the frames breaks the look-up.
example : activation? ⟨#[], { activations := #[0] }⟩ =
    .error (.broken .frameAt) ⟨#[], { activations := #[0] }⟩ := rfl

theorem values_eq_ok (hs : s.Built) : values s = .ok s.values s :=
  GuardedM.bind_of_ok (GuardedM.require_eq_ok fun _ hMem => hs.lt_size .value hMem)

/-! ### Unwinding -/

theorem unbroken_rejectValues (hs : s.Built) {position : Nat} (hPosition : position < s.size)
    (arity : List ValueType) :
    Unbroken Built (rejectValues position arity)
      (throw (.arityMismatch arity (s.topTypes position (max arity.length 1)))) s :=
  Unbroken.require hPosition (Unbroken.look (a := s) rfl (Unbroken.throw _ hs))

theorem replaceFrame_eq (hs : s.Built) (position : Nat) (kept : List Value) :
    replaceFrame position kept s =
      match (s.dropTop (s.size - (position + 1))).top? with
      | none => .error (.raised .stackExhausted) (s.dropTop (s.size - (position + 1)))
      | some f => .ok f ((s.dropTop (s.size - (position + 1))).pop.pushValues kept) := by
  have hRest := hs.dropTop (s.size - (position + 1))
  unfold replaceFrame
  rw [GuardedM.get_bind, GuardedM.bind_of_ok (dropTop_eq_ok hs _), GuardedM.get_bind]
  cases (s.dropTop (s.size - (position + 1))).top? with
  | none => rfl
  | some f => exact GuardedM.bind_of_ok (pop_eq_ok hRest)

/-- Unwinding to the position of a frame: the frames above it are a slice, and the labels among
them are counted. -/
theorem unbroken_unwindTo (hs : s.Built) {position : Nat} (hPosition : position < s.size)
    (arity : List ValueType) :
    Unbroken Built (unwindTo position arity) (Stack.unwindTo position arity) s := by
  have hKeeps := built_iff.2 (keeps_unwindTo position arity s (built_iff.1 hs))
  refine ⟨?_, hKeeps⟩
  have hTaken := built_iff.2 (keeps_popCarried position arity.reverse [] s (built_iff.1 hs))
  unfold unwindTo GuardedM.lift Stack.unwindTo
  cases hRun : popCarried position arity.reverse [] s with
  | error kept left =>
    -- What was taken is back on the stack, so the position is one of a frame again.
    have hBack : left.pushValues kept = s := by
      obtain ⟨fs, rfl⟩ := hs
      exact pushValues_of_popCarried (.inr hRun)
    simp only [hBack]
    exact (unbroken_rejectValues hs hPosition arity).eq
  | ok kept left =>
    rw [hRun] at hTaken
    have hLeft : left.Built := hTaken
    simp only [replaceFrame_eq hLeft]
    cases (left.dropTop (left.size - (position + 1))).top? <;> rfl

/-! ### Locals -/

theorem unbroken_setLocal (hs : s.Built) (index : Nat) (v : Value) :
    Unbroken Built (setLocal index v) (modify (·.setLocal index v)) s := by
  refine Unbroken.look (a := s) rfl ?_
  cases hPosition : s.activationPosition? with
  | none =>
    have hSame : s.setLocal index v = s := by
      unfold Stack.setLocal Stack.modifyActivation
      rw [hPosition]
    exact Unbroken.of_ok rfl (congrArg (EStateM.Result.ok ()) hSame) hs
  | some position =>
    have hInside := lt_size_of_activationPosition? hs hPosition
    exact Unbroken.look (frame_eq_ok hInside) ⟨rfl, hs.modifyActivation _⟩

theorem unbroken_readLocal (hs : s.Built) (index : UInt32) :
    Unbroken Built (readLocal index) (Stack.readLocal index) s := by
  refine Unbroken.look (activation?_eq_ok hs) ?_
  cases hActivation : s.activation? with
  | none =>
    have hPlain : Stack.readLocal index s = .error .noActivation s := by
      simp only [Stack.readLocal, hActivation]
    exact Unbroken.of_error rfl hPlain hs
  | some a =>
    simp only
    cases hLocal : a.locals[index.toNat]? with
    | none =>
      have hPlain : Stack.readLocal index s = .error (.localIndexOutOfBounds index) s := by
        simp only [Stack.readLocal, hActivation, hLocal]
      exact Unbroken.of_error rfl hPlain hs
    | some v =>
      have hPlain : Stack.readLocal index s = .ok v s := by
        simp only [Stack.readLocal, hActivation, hLocal]
      exact Unbroken.of_ok rfl hPlain hs

theorem unbroken_localGet (hs : s.Built) (index : UInt32) :
    Unbroken Built (localGet index) (Stack.localGet index) s :=
  (unbroken_readLocal hs index).bind fun v _ _ hs' => unbroken_valuesOnly (.pushValue v) hs'

theorem unbroken_localSet (hs : s.Built) (index : UInt32) :
    Unbroken Built (localSet index) (Stack.localSet index) s := by
  refine (unbroken_readLocal hs index).bind fun old _ _ hs₁ => ?_
  refine (unbroken_valuesOnly (.popTyped old.type) hs₁).bind fun v _ _ hs₂ => ?_
  exact unbroken_setLocal hs₂ index.toNat v

theorem unbroken_localTee (hs : s.Built) (index : UInt32) :
    Unbroken Built (localTee index) (Stack.localTee index) s :=
  (unbroken_localSet hs index).bind fun _ _ _ hs' => unbroken_localGet hs' index

/-- A function has a local for each of its parameters, so each of them has a place. -/
theorem unbroken_popParams {locals : Array Value} {types : List ValueType}
    (hLocals : types.length ≤ locals.size) (signature : FunctionType) (found : List Value)
    (hs : s.Built) :
    Unbroken Built (popParams locals signature types found)
      (Stack.popParams signature types found) s := by
  induction types generalizing found s with
  | nil => exact Unbroken.pure found hs
  | cons expected rest ih =>
    have hRest : rest.length < locals.size := hLocals
    refine (unbroken_valuesOnly (.popParam signature expected) hs).bind fun v _ _ hs' => ?_
    exact Unbroken.require hRest (ih (Nat.le_of_lt hRest) (v :: found) hs')

/-! ### Integers -/

section

variable {n : Nat}

theorem divide_eq (sign : Signedness) (a b : BitVec n) :
    divide sign a b = Stop.ofExcept (Integer.divide sign a b) := by
  cases sign with
  | signed =>
    unfold divide Integer.divide
    by_cases hZero : b = 0
    · simp only [if_pos hZero]
      rfl
    · by_cases hOverflow : a = BitVec.intMin n ∧ b = -1
      · simp only [if_neg hZero, if_pos hOverflow]
        rfl
      · simp only [if_neg hZero, if_neg hOverflow]
        exact Stop.require_bind ⟨hZero, hOverflow⟩ _
  | unsigned =>
    unfold divide Integer.divide
    by_cases hZero : b = 0
    · simp only [if_pos hZero]
      rfl
    · simp only [if_neg hZero]
      exact Stop.require_bind hZero _

theorem remainder_eq (sign : Signedness) (a b : BitVec n) :
    remainder sign a b = Stop.ofExcept (Integer.remainder sign a b) := by
  cases sign <;> unfold remainder Integer.remainder <;> by_cases hZero : b = 0
  all_goals simp only [if_pos, if_neg, hZero, not_false_eq_true]
  · rfl
  · exact Stop.require_bind hZero _
  · rfl
  · exact Stop.require_bind hZero _

theorem binary_eq (op : IntBinary) (a b : BitVec n) :
    binary op a b = Stop.ofExcept (Integer.binary op a b) := by
  cases op with
  | div sign => exact divide_eq sign a b
  | rem sign => exact remainder_eq sign a b
  | _ => rfl

end

theorem unbroken_numeric (hs : s.Built) (op : Numeric) :
    Unbroken Built (numeric op) op.run s := by
  cases op with
  | binaryInt t op =>
    refine (unbroken_valuesOnly (.popInt t) hs).bind fun b _ _ hs₁ => ?_
    refine (unbroken_valuesOnly (.popInt t) hs₁).bind fun a _ _ hs₂ => ?_
    rw [binary_eq]
    cases Integer.binary op a b with
    | ok v => exact unbroken_valuesOnly (.pushValue _) hs₂
    | error e => exact Unbroken.throw _ hs₂
  | _ => exact unbroken_valuesOnly (.numeric _) hs

end Guarded

end WasmMachine
