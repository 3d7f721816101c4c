import WasmMachine.Proofs.Guarded.Stack

/-!
# The index agrees with a scan of the frames

The index of a stack is updated frame by frame, also where a return or a branch removes many of
them and brings back the label counts of callers. Whatever sequence of operations was run, it holds
what one would find by going through the frames again, so every look-up by way of the index gives
what a scan from the top gives.

* `positionsOf`, `labelsOnTop`, `scanLabel?`, `scanActivation?`: the scans.
* `Stack.Reached`: the stacks that operations lead to, whether they fail or not.
* `Stack.index_agrees_with_scan`: index and look-ups of all these stacks.
-/

namespace WasmMachine

/-! ## Scans -/

/-- The positions of the frames of a kind, in ascending order. -/
def positionsOf (kind : FrameKind) (frames : List Frame) : List Nat :=
  (List.range frames.length).filter fun position => frames[position]?.map Frame.kind = some kind

/-- The number of labels above the topmost activation, or of all labels if there is none. The
frames stand bottom first. -/
def labelsOnTop (frames : List Frame) : Nat :=
  (frames.reverse.takeWhile fun f => !f.isActivation).countP Frame.isLabel

/-- Goes down from the top, past `depth` labels, to the next label, and gives its position too. -/
def scanLabel? : List Frame → (depth : Nat) → Option (Nat × LabelFrame)
  | [], _ => none
  | .label l :: below, 0 => some (below.length, l)
  | .label _ :: below, depth + 1 => scanLabel? below depth
  | .value _ :: below, depth => scanLabel? below depth
  | .activation _ :: below, depth => scanLabel? below depth

/-- Goes down from the top to the first activation, and gives its position too. -/
def scanActivation? : List Frame → Option (Nat × ActivationFrame)
  | [] => none
  | .activation a :: below => some (below.length, a)
  | .value _ :: below => scanActivation? below
  | .label _ :: below => scanActivation? below

theorem positionsOf_append (kind : FrameKind) (frames : List Frame) (f : Frame) :
    positionsOf kind (frames ++ [f]) =
      positionsOf kind frames ++ if f.kind = kind then [frames.length] else [] := by
  have hOld : (List.range frames.length).filter
      (fun position => (frames ++ [f])[position]?.map Frame.kind = some kind) =
        positionsOf kind frames := by
    apply List.filter_congr
    intro position hMem
    rw [List.getElem?_append_left (List.mem_range.1 hMem)]
  unfold positionsOf
  rw [List.length_append, List.length_singleton, List.range_succ, List.filter_append, hOld]
  by_cases hKind : f.kind = kind
  · simp [hKind, positionsOf]
  · simp [hKind, positionsOf]

theorem lt_length_of_mem_positionsOf {kind : FrameKind} {frames : List Frame} {position : Nat}
    (h : position ∈ positionsOf kind frames) : position < frames.length :=
  List.mem_range.1 (List.mem_filter.1 h).1

theorem labelsOnTop_append (frames : List Frame) (f : Frame) :
    labelsOnTop (frames ++ [f]) =
      if f.isActivation then 0
      else if f.isLabel then labelsOnTop frames + 1 else labelsOnTop frames := by
  unfold labelsOnTop
  rw [List.reverse_append, List.reverse_singleton, List.singleton_append, List.takeWhile_cons]
  cases f <;> simp [List.countP_cons]

/-- Where a label was found, and what stands above it. -/
theorem eq_of_scanLabel? {fs : List Frame} {depth position : Nat} {l : LabelFrame}
    (h : scanLabel? fs depth = some (position, l)) :
    ∃ above below, fs = above ++ .label l :: below ∧ above.countP Frame.isLabel = depth ∧
      position = below.length := by
  fun_induction scanLabel? fs depth with
  | case1 => cases h
  | case2 found below =>
    cases h
    exact ⟨[], below, rfl, rfl, rfl⟩
  | case3 found below depth ih =>
    obtain ⟨above, rest, rfl, hCount, hPosition⟩ := ih h
    exact ⟨.label found :: above, rest, rfl, by simp [List.countP_cons, hCount], hPosition⟩
  | case4 v below depth ih =>
    obtain ⟨above, rest, rfl, hCount, hPosition⟩ := ih h
    exact ⟨.value v :: above, rest, rfl, by simp [hCount], hPosition⟩
  | case5 a below depth ih =>
    obtain ⟨above, rest, rfl, hCount, hPosition⟩ := ih h
    exact ⟨.activation a :: above, rest, rfl, by simp [hCount], hPosition⟩

/-- A label is missed only where there are too few. -/
theorem countP_le_of_scanLabel? {fs : List Frame} {depth : Nat}
    (h : scanLabel? fs depth = none) : fs.countP Frame.isLabel ≤ depth := by
  fun_induction scanLabel? fs depth with
  | case1 => simp
  | case2 found below => cases h
  | case3 found below depth ih => simpa [List.countP_cons] using ih h
  | case4 v below depth ih => simpa [List.countP_cons] using ih h
  | case5 a below depth ih => simpa [List.countP_cons] using ih h

theorem scanActivation?_append {above : List Frame} (a : ActivationFrame) (below : List Frame)
    (hAbove : ∀ f ∈ above, f.isActivation = false) :
    scanActivation? (above ++ .activation a :: below) = some (below.length, a) := by
  induction above with
  | nil => rfl
  | cons f rest ih =>
    have hRest := ih fun g hg => hAbove g (List.mem_cons_of_mem f hg)
    cases f with
    | value v => exact hRest
    | label l => exact hRest
    | activation b => cases hAbove _ List.mem_cons_self

theorem scanActivation?_eq_none {fs : List Frame} (h : ∀ f ∈ fs, f.isActivation = false) :
    scanActivation? fs = none := by
  induction fs with
  | nil => rfl
  | cons f rest ih =>
    have hRest := ih fun g hg => h g (List.mem_cons_of_mem f hg)
    cases f with
    | value v => exact hRest
    | label l => exact hRest
    | activation b => cases h _ List.mem_cons_self

namespace Stack

/-! ## Operations -/

/-- What can be done to a stack. -/
inductive Operation where
  | push (f : Frame)
  | pop
  | pushValue (v : Value)
  | popValue
  | popTyped (expected : ValueType)
  | pushLabel (l : LabelFrame)
  | pushActivation (a : ActivationFrame)
  /-- Changes the locals of the topmost activation. -/
  | changeLocals (change : Array Value → Array Value)
  | unwindTo (position : Nat) (arity : List ValueType)

/-- The stack that an operation leaves, whether it fails or not. -/
def Operation.apply (s : Stack) : Operation → Stack
  | .push f => s.push f
  | .pop => s.pop
  | .pushValue v => finalState (Stack.pushValue v s)
  | .popValue => finalState (Stack.popValue s)
  | .popTyped expected => finalState (Stack.popTyped expected s)
  | .pushLabel l => s.push (.label l)
  | .pushActivation a => s.push (.activation a)
  | .changeLocals change => s.modifyActivation fun a => { a with locals := change a.locals }
  | .unwindTo position arity => finalState (Stack.unwindTo position arity s)

/-- Unwinding goes to the position of a frame. -/
def Operation.Allowed (s : Stack) : Operation → Prop
  | .unwindTo position _ => position < s.size
  | _ => True

/-- The stacks that operations lead to from the empty one. -/
inductive Reached : Stack → Prop
  | empty : Reached ∅
  | step {s : Stack} (before : Reached s) (op : Operation) (allowed : op.Allowed s) :
      Reached (op.apply s)

theorem Reached.foldl {s : Stack} (h : s.Reached) {ops : List Operation}
    (hOps : ∀ op ∈ ops, ∀ s, op.Allowed s) : (ops.foldl Operation.apply s).Reached := by
  induction ops generalizing s with
  | nil => exact h
  | cons op rest ih =>
    apply ih (h.step op (hOps op List.mem_cons_self s))
    intro other hMem
    exact hOps other (List.mem_cons_of_mem op hMem)

theorem Built.apply {s : Stack} (h : s.Built) (op : Operation) : (op.apply s).Built := by
  cases op with
  | push f => exact h.push f
  | pop => exact h.pop
  | pushValue v => exact h.push (.value v)
  | popValue => exact ValuesOnly.popValue.keeps s h
  | popTyped expected => exact (ValuesOnly.popTyped expected).keeps s h
  | pushLabel l => exact h.push (.label l)
  | pushActivation a => exact h.push (.activation a)
  | changeLocals change => exact h.modifyActivation _
  | unwindTo position arity => exact built_iff.2 (keeps_unwindTo position arity s (built_iff.1 h))

theorem Reached.built {s : Stack} (h : s.Reached) : s.Built := by
  induction h with
  | empty => exact ⟨[], rfl⟩
  | step before op allowed ih => exact ih.apply op

/-! ## The index -/

/-- The index holds what a scan of the frames finds. -/
structure Indexed (s : Stack) : Prop where
  positions : ∀ kind, (s.index.positions kind).toList = positionsOf kind s.frames.toList
  labelsAbove : s.index.labelsAboveActivation = labelsOnTop s.frames.toList
  /-- One entry for each activation: the labels right below it, above the one before. -/
  savedCounts : s.index.savedLabelCounts.toList =
    (positionsOf .activation s.frames.toList).map fun position =>
      labelsOnTop (s.frames.toList.take position)

theorem savedLabelCounts_push (s : Stack) (f : Frame) :
    (s.push f).index.savedLabelCounts =
      if f.isActivation then s.index.savedLabelCounts.push s.index.labelsAboveActivation
      else s.index.savedLabelCounts := by
  obtain ⟨frames, ⟨values, labels, activations, above, saved⟩⟩ := s
  cases f <;> rfl

/-- A frame that goes on top is entered in the index. -/
theorem Indexed.push {s : Stack} (h : s.Indexed) (f : Frame) : (s.push f).Indexed := by
  have hFrames : (s.push f).frames.toList = s.frames.toList ++ [f] := by simp
  have hSize : s.size = s.frames.toList.length := rfl
  refine ⟨fun kind => ?_, ?_, ?_⟩
  · rw [hFrames, positionsOf_append, positions_push, ← h.positions kind, hSize]
    split <;> simp
  · have hCount : (s.push f).index.labelsAboveActivation = _ := labelsAboveActivation_push s f
    have hOld : s.labelsAboveActivation = labelsOnTop s.frames.toList := h.labelsAbove
    rw [hFrames, labelsOnTop_append, hCount, hOld]
  · -- The positions of older activations are below the new frame, which they do not see.
    have hOld : (positionsOf .activation s.frames.toList).map
        (fun position => labelsOnTop ((s.frames.toList ++ [f]).take position)) =
          s.index.savedLabelCounts.toList := by
      rw [h.savedCounts]
      apply List.map_congr_left
      intro position hMem
      have hLt := lt_length_of_mem_positionsOf hMem
      rw [List.take_append_of_le_length (by omega)]
    rw [hFrames, positionsOf_append, List.map_append, hOld, savedLabelCounts_push, h.labelsAbove]
    cases f <;> simp [Frame.kind]

theorem Built.indexed {s : Stack} (h : s.Built) : s.Indexed := by
  obtain ⟨fs, rfl⟩ := h
  induction fs with
  | nil => exact ⟨fun kind => by cases kind <;> rfl, rfl, rfl⟩
  | cons f rest ih => exact ih.push f

/-! ## Look-ups -/

/-- Looking things up by way of the index gives what a scan of the frames gives. -/
structure Scanned (s : Stack) : Prop where
  count : ∀ kind, s.count kind = s.frames.toList.countP fun f => f.kind = kind
  values : s.values.toList = s.frames.toList.filterMap Frame.value?
  labelPosition : ∀ depth,
    s.labelPosition? depth = (scanLabel? s.frames.toList.reverse depth).map Prod.fst
  label : ∀ depth, s.label? depth = (scanLabel? s.frames.toList.reverse depth).map Prod.snd
  activationPosition :
    s.activationPosition? = (scanActivation? s.frames.toList.reverse).map Prod.fst
  activation : s.activation? = (scanActivation? s.frames.toList.reverse).map Prod.snd

theorem count_ofFrames (fs : List Frame) (kind : FrameKind) :
    (ofFrames fs).count kind = fs.countP fun f => f.kind = kind := by
  induction fs with
  | nil => cases kind <;> rfl
  | cons f rest ih =>
    unfold count at ih ⊢
    rw [ofFrames_cons, positions_push, List.countP_cons, ← ih]
    by_cases hKind : f.kind = kind
    · simp [hKind]
    · simp [hKind]

theorem labelPosition?_eq_scan (fs : List Frame) (depth : Nat) :
    (ofFrames fs).labelPosition? depth = (scanLabel? fs depth).map Prod.fst ∧
      (ofFrames fs).label? depth = (scanLabel? fs depth).map Prod.snd := by
  cases hScan : scanLabel? fs depth with
  | some found =>
    obtain ⟨position, l⟩ := found
    obtain ⟨above, below, rfl, rfl, rfl⟩ := eq_of_scanLabel? hScan
    exact ⟨labelPosition?_ofFrames above l below, label?_ofFrames above l below⟩
  | none =>
    have hCount : (ofFrames fs).index.labels.size = fs.countP Frame.isLabel :=
      count_ofFrames fs .label
    have hFew := countP_le_of_scanLabel? hScan
    have hNone : (ofFrames fs).labelPosition? depth = none := by
      unfold labelPosition?
      rw [if_neg (by omega)]
    refine ⟨hNone, ?_⟩
    rw [label?, hNone]
    rfl

theorem activationPosition?_eq_scan (fs : List Frame) :
    (ofFrames fs).activationPosition? = (scanActivation? fs).map Prod.fst ∧
      (ofFrames fs).activation? = (scanActivation? fs).map Prod.snd := by
  rcases AllActivations.exists_topmost fs with hNone | ⟨above, a, below, rfl, hAbove⟩
  · have hPosition := AllActivations.activationPosition?_of_none hNone
    rw [scanActivation?_eq_none hNone, activation?, hPosition]
    exact ⟨rfl, rfl⟩
  · rw [scanActivation?_append a below hAbove]
    exact ⟨activationPosition?_ofFrames a below hAbove, activation?_ofFrames a below hAbove⟩

theorem Built.scanned {s : Stack} (h : s.Built) : s.Scanned := by
  obtain ⟨fs, rfl⟩ := h
  have hFrames : (ofFrames fs).frames.toList = fs.reverse := by rw [frames_ofFrames]
  refine ⟨fun kind => ?_, ?_, fun depth => ?_, fun depth => ?_, ?_, ?_⟩
  · rw [hFrames, List.countP_reverse]
    exact count_ofFrames fs kind
  · rw [hFrames, List.filterMap_reverse]
    exact values_ofFrames fs
  · rw [hFrames, List.reverse_reverse]
    exact (labelPosition?_eq_scan fs depth).1
  · rw [hFrames, List.reverse_reverse]
    exact (labelPosition?_eq_scan fs depth).2
  · rw [hFrames, List.reverse_reverse]
    exact (activationPosition?_eq_scan fs).1
  · rw [hFrames, List.reverse_reverse]
    exact (activationPosition?_eq_scan fs).2

/-- After any operations, failed ones among them, the index of the stack holds the positions of the
frames of each kind, the number of labels above the topmost activation and, for each activation, the
number below it; and all look-ups give what a scan of the frames gives. -/
theorem index_agrees_with_scan {s : Stack} (h : s.Reached) : s.Indexed ∧ s.Scanned :=
  ⟨h.built.indexed, h.built.scanned⟩

/-- The operations that lead to an activation with a label and a value, and to one that was called
from there and has two labels. -/
def nestedCalls : List Operation := [
  .pushActivation ⟨some 0, #[.i32 7], none, ⟨[.i32], []⟩⟩,
  .pushLabel ⟨.block, .value .i32, 9⟩,
  .pushValue (.i64 1),
  .pushActivation ⟨some 1, #[], some ⟨.function 0, 4⟩, ⟨[], [.i32]⟩⟩,
  .pushLabel ⟨.loop, .empty, 3⟩,
  .pushLabel ⟨.ifThen, .empty, 5⟩,
  .pushValue (.i32 2)]

/-- Returning from the inner activation takes two labels away and brings back the count of the
outer one. -/
theorem index_agrees_with_scan_return :
    let s := nestedCalls.foldl Operation.apply ∅
    let returned := (Operation.unwindTo 3 [.i32]).apply s
    s.index.labelsAboveActivation = 2 ∧ s.index.savedLabelCounts = #[0, 1] ∧
      returned.index.labelsAboveActivation = 1 ∧ returned.Indexed ∧ returned.Scanned := by
  intro s returned
  have hAllowed : (Operation.unwindTo 3 [.i32]).Allowed s := by
    change 3 < s.size
    decide
  have hReached : s.Reached := by
    apply Reached.empty.foldl
    simp [nestedCalls, Operation.Allowed]
  refine ⟨by decide, by decide, by decide, ?_⟩
  exact index_agrees_with_scan (hReached.step _ hAllowed)

end Stack

end WasmMachine
