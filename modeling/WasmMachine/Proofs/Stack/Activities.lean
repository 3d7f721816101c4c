import WasmMachine.Proofs.Stack.Frames

/-!
# Stacks as lists of activities

Every frame of a running machine belongs to an activation: the values and labels above it, up to
the next activation. An `Activity` is an activation with what belongs to it, split into the
operands of the innermost open block and the open blocks, each with the operands that wait outside
of it. The stack of a running machine is a list of activities, the current one first, and the
operations on the stack are operations on the current activity.

* `unwindTo_block`: leaving open blocks hands the carried operands to the region outside.
* `unwindTo_activation`: leaving an activation hands its results to the frames below.
-/

namespace WasmMachine

/-- An open block: its label, and the operands that wait outside of it, topmost first. -/
structure OpenBlock where
  label : LabelFrame
  outer : List Value

/-- The frames of an open block, topmost first. -/
def OpenBlock.frames (b : OpenBlock) : List Frame := .label b.label :: b.outer.map .value

/-- An activation with the operands and the open blocks that belong to it. -/
structure Activity where
  /-- The operands of the innermost open block, topmost first. -/
  operands : List Value
  /-- The open blocks, innermost first. -/
  blocks : List OpenBlock
  activation : ActivationFrame

namespace Activity

/-- The frames above the activation, topmost first. -/
def region (A : Activity) : List Frame :=
  A.operands.map .value ++ A.blocks.flatMap OpenBlock.frames

/-- The frames of an activity, topmost first. -/
def frames (A : Activity) : List Frame := A.region ++ [.activation A.activation]

theorem isActivation_of_mem_blocks {blocks : List OpenBlock} {f : Frame}
    (h : f ∈ blocks.flatMap OpenBlock.frames) : f.isActivation = false := by
  obtain ⟨b, -, hb⟩ := List.mem_flatMap.1 h
  rcases List.mem_cons.1 hb with rfl | hOuter
  · rfl
  · obtain ⟨v, -, rfl⟩ := List.mem_map.1 hOuter
    rfl

/-- No activation stands above the activation of an activity. -/
theorem isActivation_of_mem_region {A : Activity} {f : Frame} (h : f ∈ A.region) :
    f.isActivation = false := by
  rcases List.mem_append.1 h with hOperand | hBlock
  · obtain ⟨v, -, rfl⟩ := List.mem_map.1 hOperand
    rfl
  · exact isActivation_of_mem_blocks hBlock

@[simp] theorem countP_isLabel_values (values : List Value) :
    (values.map Frame.value).countP Frame.isLabel = 0 := by
  rw [List.countP_eq_zero]
  intro f hf
  obtain ⟨v, -, rfl⟩ := List.mem_map.1 hf
  simp

theorem countP_isLabel_blocks (blocks : List OpenBlock) :
    (blocks.flatMap OpenBlock.frames).countP Frame.isLabel = blocks.length := by
  induction blocks with
  | nil => rfl
  | cons b rest ih =>
    rw [List.flatMap_cons, List.countP_append, ih, OpenBlock.frames, List.countP_cons,
      countP_isLabel_values, List.length_cons]
    simp
    omega

/-- An activity has one label for each open block. -/
theorem countP_isLabel_region (A : Activity) :
    A.region.countP Frame.isLabel = A.blocks.length := by
  rw [region, List.countP_append, countP_isLabel_values, countP_isLabel_blocks, Nat.zero_add]

theorem countP_isActivation_frames (A : Activity) : A.frames.countP Frame.isActivation = 1 := by
  have hRegion : A.region.countP Frame.isActivation = 0 := by
    rw [List.countP_eq_zero]
    intro f hf
    simp [isActivation_of_mem_region hf]
  rw [frames, List.countP_append, hRegion]
  rfl

end Activity

/-! ## Carried operands -/

/-- The topmost operands, when they have exactly the given types, the last type topmost. -/
def carried? (arity : List ValueType) (operands : List Value) : Option (List Value) :=
  if ((operands.take arity.length).map Value.type).reverse = arity then
    some (operands.take arity.length)
  else none

/-- The types that are reported when the operands do not match an arity. -/
def foundTypes (arity : List ValueType) (operands : List Value) : List ValueType :=
  ((operands.take (max arity.length 1)).map Value.type).reverse

/-- Carried operands are on top, and have the types that were asked for. -/
theorem carried?_eq_some {arity : List ValueType} {operands top : List Value}
    (h : carried? arity operands = some top) :
    top = operands.take arity.length ∧ (top.map Value.type).reverse = arity := by
  unfold carried? at h
  split at h
  · rename_i hTypes
    cases h
    exact ⟨rfl, hTypes⟩
  · cases h

namespace Stack

theorem valuesOf?_eq_none {fs : List Frame} {f : Frame} (hMem : f ∈ fs) (h : f.value? = none) :
    valuesOf? fs = none := by
  induction fs with
  | nil => cases hMem
  | cons g rest ih =>
    cases g with
    | value v =>
      rcases List.mem_cons.1 hMem with rfl | hRest
      · cases h
      · simp [valuesOf?, ih hRest]
    | label l => rfl
    | activation a => rfl

/-- Above an open block only the operands of the innermost region can be kept. -/
theorem keptOf_region (operands : List Value) (blocks : List OpenBlock)
    (arity : List ValueType) :
    keptOf (operands.map .value ++ blocks.flatMap OpenBlock.frames) arity =
      (carried? arity operands).map List.reverse := by
  unfold keptOf carried?
  by_cases hFits : arity.length ≤ operands.length
  · have hTop : (operands.map Frame.value ++ blocks.flatMap OpenBlock.frames).take arity.length
        = (operands.take arity.length).map .value := by
      rw [List.take_append_of_le_length (by simpa using hFits), List.map_take]
    rw [hTop, ← List.map_reverse, valuesOf?_map_value, Option.filter_some]
    simp only [decide_eq_true_eq, List.map_reverse]
    split <;> rfl
  · have hTake : operands.take arity.length = operands :=
      List.take_of_length_le (by omega)
    have hTypes : ¬ (operands.map Value.type).reverse = arity := by
      intro hEq
      have hLength := congrArg List.length hEq
      simp only [List.length_reverse, List.length_map] at hLength
      omega
    simp only [hTake, hTypes, if_false, Option.map_none]
    cases blocks with
    | nil =>
      rw [List.flatMap_nil, List.append_nil, List.take_of_length_le (by simp; omega),
        ← List.map_reverse, valuesOf?_map_value]
      exact Option.filter_some_neg (by simpa using hTypes)
    | cons b rest =>
      have hLabel : Frame.label b.label ∈
          ((operands.map Frame.value ++ (b :: rest).flatMap OpenBlock.frames).take
            arity.length).reverse := by
        rw [List.mem_reverse, List.mem_take_iff_getElem]
        refine ⟨operands.length, ?_, ?_⟩
        · simp [OpenBlock.frames]
          omega
        · simp [OpenBlock.frames]
      rw [valuesOf?_eq_none hLabel rfl]
      rfl

theorem takeWhile_isSome_region (operands : List Value) (blocks : List OpenBlock) :
    ((operands.map Frame.value ++ blocks.flatMap OpenBlock.frames).map Frame.value?).takeWhile
      Option.isSome = operands.map some := by
  induction operands with
  | nil =>
    cases blocks with
    | nil => rfl
    | cons b rest => rfl
  | cons v rest ih =>
    have hHead : (Frame.value v).value? = some v := rfl
    rw [List.map_cons, List.cons_append, List.map_cons, hHead,
      List.takeWhile_cons_of_pos rfl, ih, List.map_cons]

theorem topTypes_region (operands : List Value) (blocks : List OpenBlock) (f : Frame)
    (below : List Frame) (arity : List ValueType) :
    (ofFrames ((operands.map .value ++ blocks.flatMap OpenBlock.frames) ++ f :: below)).topTypes
      below.length (max arity.length 1) = foundTypes arity operands := by
  have hSome : ((fun v : Option Value => v.map Value.type) ∘ some) = fun v => some v.type := rfl
  rw [topTypes_ofFrames, takeWhile_isSome_region, foundTypes, ← List.map_take,
    List.filterMap_map, hSome, List.filterMap_eq_map']

/-! ## The stack of a list of activities -/

/-- The stack of some activities, the current one first. -/
def ofActivities (activities : List Activity) : Stack :=
  ofFrames (activities.flatMap Activity.frames)

theorem ofActivities_cons (A : Activity) (rest : List Activity) :
    ofActivities (A :: rest) =
      ofFrames (A.region ++ .activation A.activation :: rest.flatMap Activity.frames) := by
  rw [ofActivities, List.flatMap_cons, Activity.frames, List.append_assoc, List.singleton_append]

@[simp] theorem activationPosition?_ofActivities (A : Activity) (rest : List Activity) :
    (ofActivities (A :: rest)).activationPosition? =
      some (rest.flatMap Activity.frames).length := by
  rw [ofActivities_cons]
  exact activationPosition?_ofFrames _ _ fun _ => Activity.isActivation_of_mem_region

@[simp] theorem activation?_ofActivities (A : Activity) (rest : List Activity) :
    (ofActivities (A :: rest)).activation? = some A.activation := by
  rw [ofActivities_cons]
  exact activation?_ofFrames _ _ fun _ => Activity.isActivation_of_mem_region

@[simp] theorem labelsAboveActivation_ofActivities (A : Activity) (rest : List Activity) :
    (ofActivities (A :: rest)).labelsAboveActivation = A.blocks.length := by
  rw [ofActivities_cons, labelsAboveActivation_ofFrames _ _
    fun _ => Activity.isActivation_of_mem_region]
  exact Activity.countP_isLabel_region A

/-- A value is on top when there is an operand in the innermost block. -/
@[simp] theorem peek?_ofActivities (A : Activity) (rest : List Activity) :
    (ofActivities (A :: rest)).peek? = A.operands.head? := by
  obtain ⟨operands, blocks, activation⟩ := A
  rw [ofActivities_cons, Activity.region, peek?]
  cases operands with
  | cons v left =>
    rw [List.map_cons, List.cons_append, List.cons_append, top?_ofFrames_cons]
    rfl
  | nil =>
    cases blocks with
    | nil =>
      rw [List.map_nil, List.flatMap_nil, List.append_nil, List.nil_append, top?_ofFrames_cons]
      rfl
    | cons b outside =>
      rw [List.map_nil, List.nil_append, List.flatMap_cons, OpenBlock.frames, List.cons_append,
        List.cons_append, top?_ofFrames_cons]
      rfl

@[simp] theorem count_activation_ofActivities (activities : List Activity) :
    (ofActivities activities).count .activation = activities.length := by
  rw [ofActivities, count_activation_ofFrames]
  induction activities with
  | nil => rfl
  | cons A rest ih =>
    rw [List.flatMap_cons, List.countP_append, ih, Activity.countP_isActivation_frames,
      List.length_cons, Nat.add_comm]

theorem setLocal_ofActivities (A : Activity) (rest : List Activity) (index : Nat) (v : Value) :
    (ofActivities (A :: rest)).setLocal index v =
      ofActivities ({ A with activation := { A.activation with
        locals := A.activation.locals.setIfInBounds index v } } :: rest) := by
  rw [ofActivities_cons, ofActivities_cons]
  exact setLocal_ofFrames _ _ (fun _ => Activity.isActivation_of_mem_region) _ _

/-- Values that are put on top become operands of the current activity. -/
theorem ofFrames_values (values : List Value) (A : Activity) (rest : List Activity) :
    ofFrames (values.map .value ++ (A :: rest).flatMap Activity.frames) =
      ofActivities ({ A with operands := values ++ A.operands } :: rest) := by
  simp [ofActivities, Activity.frames, Activity.region]

/-! ## Unwinding -/

/-- The frames of an activity around one of its open blocks. -/
theorem region_split (operands : List Value) (inner : List OpenBlock) (b : OpenBlock)
    (outside : List OpenBlock) (a : ActivationFrame) (rest : List Frame) :
    (Activity.mk operands (inner ++ b :: outside) a).region ++ .activation a :: rest =
      (operands.map .value ++ inner.flatMap OpenBlock.frames) ++ .label b.label ::
        ((Activity.mk b.outer outside a).region ++ .activation a :: rest) := by
  simp [Activity.region, OpenBlock.frames]

theorem countP_isLabel_inner (operands : List Value) (inner : List OpenBlock) :
    (operands.map Frame.value ++ inner.flatMap OpenBlock.frames).countP Frame.isLabel =
      inner.length :=
  Activity.countP_isLabel_region ⟨operands, inner, ⟨none, #[], none, ⟨[], []⟩⟩⟩

/-- The position of an open block: the number of frames below its label. -/
def blockPosition (b : OpenBlock) (outside : List OpenBlock) (a : ActivationFrame)
    (rest : List Activity) : Nat :=
  ((Activity.mk b.outer outside a).region ++
    .activation a :: rest.flatMap Activity.frames).length

theorem labelPosition?_ofActivities (operands : List Value) (inner : List OpenBlock)
    (b : OpenBlock) (outside : List OpenBlock) (a : ActivationFrame) (rest : List Activity) :
    (ofActivities (⟨operands, inner ++ b :: outside, a⟩ :: rest)).labelPosition? inner.length =
      some (blockPosition b outside a rest) := by
  rw [ofActivities_cons, region_split, ← countP_isLabel_inner operands inner]
  exact labelPosition?_ofFrames _ _ _

theorem label?_ofActivities (operands : List Value) (inner : List OpenBlock)
    (b : OpenBlock) (outside : List OpenBlock) (a : ActivationFrame) (rest : List Activity) :
    (ofActivities (⟨operands, inner ++ b :: outside, a⟩ :: rest)).label? inner.length =
      some b.label := by
  rw [ofActivities_cons, region_split, ← countP_isLabel_inner operands inner]
  exact label?_ofFrames _ _ _

/-- Leaving an open block and those inside it hands the carried operands to the region outside. -/
theorem unwindTo_block (operands : List Value) (inner : List OpenBlock) (b : OpenBlock)
    (outside : List OpenBlock) (a : ActivationFrame) (rest : List Activity)
    (arity : List ValueType) :
    unwindTo (blockPosition b outside a rest) arity
        (ofActivities (⟨operands, inner ++ b :: outside, a⟩ :: rest)) =
      match carried? arity operands with
      | some top =>
        .ok (.label b.label) (ofActivities (⟨top ++ b.outer, outside, a⟩ :: rest))
      | none =>
        .error (.arityMismatch arity (foundTypes arity operands))
          (ofActivities (⟨operands, inner ++ b :: outside, a⟩ :: rest)) := by
  simp only [ofActivities_cons, region_split, blockPosition]
  rw [unwindTo_ofFrames, keptOf_region, topTypes_region]
  cases carried? arity operands with
  | none => rfl
  | some top => simp [Activity.region]

/-- Leaving an activation hands its results to the frames below. -/
theorem unwindTo_activation (A : Activity) (rest : List Activity) (arity : List ValueType) :
    unwindTo (rest.flatMap Activity.frames).length arity (ofActivities (A :: rest)) =
      match carried? arity A.operands with
      | some top =>
        .ok (.activation A.activation)
          (ofFrames (top.map .value ++ rest.flatMap Activity.frames))
      | none =>
        .error (.arityMismatch arity (foundTypes arity A.operands))
          (ofActivities (A :: rest)) := by
  rw [ofActivities_cons, Activity.region, unwindTo_ofFrames, keptOf_region, topTypes_region]
  cases carried? arity A.operands with
  | none => rfl
  | some top => simp

end Stack

end WasmMachine
