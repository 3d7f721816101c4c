import WasmMachine.Frame

/-!
# The evaluation stack

The stack is the sequence of its frames, bottom first, with an index that lists the positions
of each kind of frame and counts the labels that belong to the topmost activation. The index
makes it cheap to find the label of a branch, the current activation and all values; it is
kept by `push` and `pop` alone, which every other operation goes through.

Operations that can fail run in `StackM`, which keeps the stack as a failing operation left it:
a value that was popped before the failure stays popped.
-/

namespace WasmMachine

/-- The positions of the frames of each kind, in the order in which they were pushed. -/
structure FrameIndex where
  values : Array Nat := #[]
  labels : Array Nat := #[]
  activations : Array Nat := #[]
  /-- How many labels stand above the topmost activation. -/
  labelsAboveActivation : Nat := 0
  /-- What that count was when each activation was pushed. -/
  savedLabelCounts : Array Nat := #[]
  deriving DecidableEq, Repr

namespace FrameIndex

/-- The index after a frame of the given kind was pushed at a position. -/
def push : FrameIndex → (position : Nat) → FrameKind → FrameIndex
  | ⟨values, labels, activations, above, saved⟩, position, .value =>
    ⟨values.push position, labels, activations, above, saved⟩
  | ⟨values, labels, activations, above, saved⟩, position, .label =>
    ⟨values, labels.push position, activations, above + 1, saved⟩
  | ⟨values, labels, activations, above, saved⟩, position, .activation =>
    ⟨values, labels, activations.push position, 0, saved.push above⟩

/-- The index after the topmost frame, of the given kind, was popped. -/
def pop : FrameIndex → FrameKind → FrameIndex
  | ⟨values, labels, activations, above, saved⟩, .value =>
    ⟨values.pop, labels, activations, above, saved⟩
  | ⟨values, labels, activations, above, saved⟩, .label =>
    ⟨values, labels.pop, activations, above - 1, saved⟩
  | ⟨values, labels, activations, _, saved⟩, .activation =>
    ⟨values, labels, activations.pop, saved.back?.getD 0, saved.pop⟩

/-- The positions of the frames of a kind. -/
def positions (index : FrameIndex) : FrameKind → Array Nat
  | .value => index.values
  | .label => index.labels
  | .activation => index.activations

end FrameIndex

/-- The evaluation stack. -/
structure Stack where
  /-- The frames, bottom first. -/
  frames : Array Frame := #[]
  index : FrameIndex := {}
  deriving DecidableEq, Repr

/-- Operations that may trap and keep the stack as they left it. -/
abbrev StackM := EStateM Trap Stack

namespace Stack

/-- The stack without frames. -/
def empty : Stack := {}

instance : EmptyCollection Stack := ⟨empty⟩

/-- The number of frames. -/
def size (s : Stack) : Nat := s.frames.size

/-! ## Pushing and popping frames -/

/-- Puts a frame on top. -/
def push : Stack → Frame → Stack
  | ⟨frames, index⟩, f =>
    let position := frames.size
    ⟨frames.push f, index.push position f.kind⟩

/-- The stack without its topmost frame; the empty stack stays empty. -/
def pop : Stack → Stack
  | ⟨frames, index⟩ =>
    match frames.back? with
    | none => ⟨frames, index⟩
    | some f => ⟨frames.pop, index.pop f.kind⟩

/-- The topmost frame. -/
def top? (s : Stack) : Option Frame := s.frames.back?

/-- The stack without its `count` topmost frames. -/
def dropTop : (count : Nat) → Stack → Stack
  | 0, s => s
  | count + 1, s => dropTop count s.pop

/-- Puts values on top, the last one topmost. -/
def pushValues (s : Stack) (values : List Value) : Stack :=
  values.foldl (fun s v => s.push (.value v)) s

/-! ## Looking -/

/-- The number of frames of a kind. -/
def count (s : Stack) (kind : FrameKind) : Nat := (s.index.positions kind).size

/-- The number of labels that belong to the topmost activation. -/
def labelsAboveActivation (s : Stack) : Nat := s.index.labelsAboveActivation

/-- All values, bottom first. -/
def values (s : Stack) : Array Value :=
  s.index.values.filterMap fun position => s.frames[position]?.bind Frame.value?

/-- The value on top, if the topmost frame is one. -/
def peek? (s : Stack) : Option Value := s.top?.bind Frame.value?

/-- The position of the label that `depth` other labels stand above. -/
def labelPosition? (s : Stack) (depth : Nat) : Option Nat :=
  if depth < s.index.labels.size then s.index.labels[s.index.labels.size - (depth + 1)]?
  else none

/-- The label that `depth` other labels stand above. -/
def label? (s : Stack) (depth : Nat) : Option LabelFrame :=
  (s.labelPosition? depth).bind fun position => s.frames[position]?.bind Frame.label?

/-- The position of the topmost activation. -/
def activationPosition? (s : Stack) : Option Nat := s.index.activations.back?

/-- The topmost activation. -/
def activation? (s : Stack) : Option ActivationFrame :=
  s.activationPosition?.bind fun position => s.frames[position]?.bind Frame.activation?

/-! ## Values -/

/-- Puts a value on top. -/
def pushValue (v : Value) : StackM Unit := modify fun s => s.push (.value v)

/-- Takes the value on top. A label or an activation on top means that the operands of the
current region are used up. -/
def popValue : StackM Value := fun s =>
  match s.peek? with
  | some v => .ok v s.pop
  | none => .error .stackExhausted s

/-- Takes the value on top, which must have the given type. A value of another type is gone. -/
def popTyped (expected : ValueType) : StackM Value := do
  let v ← popValue
  if v.type = expected then return v else throw (.typeMismatch expected v.type)

/-- Takes an integer of the given type. -/
def popInt (t : IntType) : StackM (BitVec t.width) := do
  let v ← popTyped t.valueType
  match v.int? t with
  | some bits => return bits
  | none => throw .stackExhausted

/-- Takes a float of the given type. -/
def popFloat (t : FloatType) : StackM (BitVec t.width) := do
  let v ← popTyped t.valueType
  match v.float? t with
  | some bits => return bits
  | none => throw .stackExhausted

/-- Takes an `i32`. -/
def popI32 : StackM (BitVec 32) := popInt .i32

/-! ## Locals -/

/-- Changes the frame at a position to one of the same kind. -/
def modifyActivation (s : Stack) (f : ActivationFrame → ActivationFrame) : Stack :=
  match s.activationPosition? with
  | none => s
  | some position =>
    { s with
      frames := s.frames.modify position fun frame =>
        match frame with
        | .activation a => .activation (f a)
        | other => other }

/-- Assigns a local of the topmost activation; an index beyond its locals changes nothing. -/
def setLocal (s : Stack) (index : Nat) (v : Value) : Stack :=
  s.modifyActivation fun a => { a with locals := a.locals.setIfInBounds index v }

/-! ## Unwinding -/

/-- The types of the values that stand on top, above `position`, at most `limit` of them. -/
def topTypes (s : Stack) (position limit : Nat) : List ValueType :=
  let region := (s.frames.toList.drop (position + 1)).reverse
  let values := (region.map Frame.value?).takeWhile Option.isSome
  ((values.take limit).filterMap fun v => v.map Value.type).reverse

/-- Takes values off the top as long as they stand above `position` and have the given types, those
of the topmost values first, and puts them before those in `kept`. Fails with what it has taken. -/
def popCarried (position : Nat) : (types : List ValueType) → (kept : List Value) → Stack →
    EStateM.Result (List Value) Stack (List Value)
  | [], kept, s => .ok kept s
  | expected :: rest, kept, s =>
    match s.peek? with
    | none => .error kept s
    | some v =>
      if position + 1 < s.size ∧ v.type = expected then popCarried position rest (v :: kept) s.pop
      else .error kept s

/-- Removes the frame at `position` and all above it, but keeps the topmost values, which must
have the types of `arity`. Gives the removed frame. Where the values do not match, those that were
taken are put back. -/
def unwindTo (position : Nat) (arity : List ValueType) : StackM Frame := fun s =>
  match popCarried position arity.reverse [] s with
  | .error kept s =>
    let s := s.pushValues kept
    .error (.arityMismatch arity (s.topTypes position (max arity.length 1))) s
  | .ok kept s =>
    let s := s.dropTop (s.size - (position + 1))
    match s.top? with
    | none => .error .stackExhausted s
    | some frame => .ok frame (s.pop.pushValues kept)

end Stack

end WasmMachine
