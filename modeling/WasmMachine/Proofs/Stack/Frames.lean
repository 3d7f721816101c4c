import Mathlib.Data.List.Basic
import WasmMachine.Stack

/-!
# Stacks as lists of frames

A stack that was built by `push` alone is determined by its frames: its index holds what a scan
of the frames gives. `ofFrames` is the stack of a list of frames, topmost first, and every
operation on the index is read off that list.

* `pop_push`: `pop` undoes `push`, whatever the stack.
* `labelPosition?_ofFrames`, `activationPosition?_ofFrames`: the index finds a label by the number
  of labels above it and the topmost activation by the absence of others above it.
* `setLocal_ofFrames`: assigning a local changes the topmost activation and nothing else.
* `unwindTo_ofFrames`: unwinding to a frame removes it and all above it but the values that are
  kept, or leaves the stack as it is.
-/

namespace WasmMachine

/-! ## Kinds of frames -/

namespace Frame

/-- Whether a frame is a label. -/
def isLabel (f : Frame) : Bool := f.kind = .label

/-- Whether a frame is an activation. -/
def isActivation (f : Frame) : Bool := f.kind = .activation

@[simp] theorem isLabel_value (v : Value) : (Frame.value v).isLabel = false := rfl

@[simp] theorem isLabel_label (l : LabelFrame) : (Frame.label l).isLabel = true := rfl

@[simp] theorem isLabel_activation (a : ActivationFrame) :
    (Frame.activation a).isLabel = false := rfl

@[simp] theorem isActivation_value (v : Value) : (Frame.value v).isActivation = false := rfl

@[simp] theorem isActivation_label (l : LabelFrame) : (Frame.label l).isActivation = false := rfl

@[simp] theorem isActivation_activation (a : ActivationFrame) :
    (Frame.activation a).isActivation = true := rfl

end Frame

namespace Stack

/-! ## The stack of a list of frames -/

/-- The stack of some frames, topmost first. -/
def ofFrames : List Frame → Stack
  | [] => ∅
  | f :: rest => (ofFrames rest).push f

theorem ofFrames_cons (f : Frame) (rest : List Frame) :
    ofFrames (f :: rest) = (ofFrames rest).push f := rfl

@[simp] theorem frames_push (s : Stack) (f : Frame) : (s.push f).frames = s.frames.push f := rfl

/-- Taking a frame away undoes putting it on, index and all. -/
@[simp] theorem pop_push (s : Stack) (f : Frame) : (s.push f).pop = s := by
  obtain ⟨frames, ⟨values, labels, activations, above, saved⟩⟩ := s
  cases f <;> simp [push, pop, FrameIndex.push, FrameIndex.pop, Frame.kind]

@[simp] theorem pop_ofFrames_cons (f : Frame) (rest : List Frame) :
    (ofFrames (f :: rest)).pop = ofFrames rest := pop_push _ _

theorem frames_ofFrames (fs : List Frame) : (ofFrames fs).frames = fs.reverse.toArray := by
  induction fs with
  | nil => rfl
  | cons f rest ih => rw [ofFrames_cons, frames_push, ih]; simp

@[simp] theorem size_ofFrames (fs : List Frame) : (ofFrames fs).size = fs.length := by
  simp [size, frames_ofFrames]

@[simp] theorem top?_ofFrames_cons (f : Frame) (rest : List Frame) :
    (ofFrames (f :: rest)).top? = some f := by
  simp [top?, frames_ofFrames]

theorem exists_of_peek?_ofFrames {fs : List Frame} {v : Value}
    (h : (ofFrames fs).peek? = some v) : ∃ rest, fs = .value v :: rest := by
  cases fs with
  | nil => cases h
  | cons f rest =>
    rw [peek?, top?_ofFrames_cons] at h
    cases f with
    | value w =>
      cases h
      exact ⟨rest, rfl⟩
    | label l => cases h
    | activation a => cases h

theorem dropTop_ofFrames (above below : List Frame) :
    dropTop above.length (ofFrames (above ++ below)) = ofFrames below := by
  induction above with
  | nil => rfl
  | cons f rest ih =>
    rw [List.length_cons, dropTop, List.cons_append, pop_ofFrames_cons]
    exact ih

/-- Values go on top in order, the last one topmost. -/
theorem pushValues_ofFrames (values : List Value) (fs : List Frame) :
    (ofFrames fs).pushValues values = ofFrames (values.reverse.map .value ++ fs) := by
  induction values generalizing fs with
  | nil => rfl
  | cons v rest ih =>
    rw [show (ofFrames fs).pushValues (v :: rest)
      = (ofFrames (.value v :: fs)).pushValues rest from rfl, ih]
    simp

/-! ## What the index finds -/

/-- The frame at the place of a list that some frames stand below. -/
theorem getElem?_frames_ofFrames (above : List Frame) (f : Frame) (below : List Frame) :
    (ofFrames (above ++ f :: below)).frames[below.length]? = some f := by
  simp [frames_ofFrames]

theorem labels_push (s : Stack) (f : Frame) :
    (s.push f).index.labels = if f.isLabel then s.index.labels.push s.size else s.index.labels := by
  obtain ⟨frames, ⟨values, labels, activations, above, saved⟩⟩ := s
  cases f <;> rfl

theorem activations_push (s : Stack) (f : Frame) :
    (s.push f).index.activations =
      if f.isActivation then s.index.activations.push s.size else s.index.activations := by
  obtain ⟨frames, ⟨values, labels, activations, above, saved⟩⟩ := s
  cases f <;> rfl

theorem labelsAboveActivation_push (s : Stack) (f : Frame) :
    (s.push f).labelsAboveActivation =
      if f.isActivation then 0
      else if f.isLabel then s.labelsAboveActivation + 1 else s.labelsAboveActivation := by
  obtain ⟨frames, ⟨values, labels, activations, above, saved⟩⟩ := s
  cases f <;> rfl

/-- The labels of the index, split at a label of the stack: one entry for each label above. -/
theorem labels_ofFrames (above : List Frame) (l : LabelFrame) (below : List Frame) :
    ∃ later : Array Nat, later.size = above.countP Frame.isLabel ∧
      (ofFrames (above ++ .label l :: below)).index.labels =
        (ofFrames below).index.labels.push below.length ++ later := by
  induction above with
  | nil => exact ⟨#[], rfl, by simp [ofFrames_cons, labels_push]⟩
  | cons f rest ih =>
    obtain ⟨later, hSize, hLabels⟩ := ih
    rw [List.cons_append, ofFrames_cons, labels_push, hLabels]
    by_cases hf : f.isLabel
    · refine ⟨later.push (ofFrames (rest ++ .label l :: below)).size, by simp [hf, hSize], ?_⟩
      rw [if_pos hf, Array.push_append]
    · exact ⟨later, by simp [hf, hSize], by rw [if_neg hf]⟩

/-- A label is found by the number of labels above it. -/
theorem labelPosition?_ofFrames (above : List Frame) (l : LabelFrame) (below : List Frame) :
    (ofFrames (above ++ .label l :: below)).labelPosition? (above.countP Frame.isLabel) =
      some below.length := by
  obtain ⟨later, hSize, hLabels⟩ := labels_ofFrames above l below
  unfold labelPosition?
  rw [hLabels, ← hSize]
  have hLast : (ofFrames below).index.labels.size + 1 + later.size - (later.size + 1)
      = (ofFrames below).index.labels.size := by omega
  simp only [Array.size_append, Array.size_push, hLast]
  rw [if_pos (by omega), Array.getElem?_append_left (by simp), Array.getElem?_push_size]

theorem label?_ofFrames (above : List Frame) (l : LabelFrame) (below : List Frame) :
    (ofFrames (above ++ .label l :: below)).label? (above.countP Frame.isLabel) = some l := by
  unfold label?
  rw [labelPosition?_ofFrames]
  simp only [Option.bind_some, getElem?_frames_ofFrames]
  rfl

theorem activations_ofFrames {above : List Frame} (a : ActivationFrame) (below : List Frame)
    (hAbove : ∀ f ∈ above, f.isActivation = false) :
    (ofFrames (above ++ .activation a :: below)).index.activations =
      (ofFrames below).index.activations.push below.length := by
  induction above with
  | nil => simp [ofFrames_cons, activations_push]
  | cons f rest ih =>
    have hf : f.isActivation = false := hAbove f List.mem_cons_self
    rw [List.cons_append, ofFrames_cons, activations_push, hf]
    exact ih fun g hg => hAbove g (List.mem_cons_of_mem _ hg)

/-- The topmost activation is the one with no other above it. -/
theorem activationPosition?_ofFrames {above : List Frame} (a : ActivationFrame)
    (below : List Frame) (hAbove : ∀ f ∈ above, f.isActivation = false) :
    (ofFrames (above ++ .activation a :: below)).activationPosition? = some below.length := by
  simp [activationPosition?, activations_ofFrames a below hAbove]

theorem activation?_ofFrames {above : List Frame} (a : ActivationFrame) (below : List Frame)
    (hAbove : ∀ f ∈ above, f.isActivation = false) :
    (ofFrames (above ++ .activation a :: below)).activation? = some a := by
  unfold activation?
  rw [activationPosition?_ofFrames a below hAbove]
  simp only [Option.bind_some, getElem?_frames_ofFrames]
  rfl

/-- The labels of the topmost activation are those above it. -/
theorem labelsAboveActivation_ofFrames {above : List Frame} (a : ActivationFrame)
    (below : List Frame) (hAbove : ∀ f ∈ above, f.isActivation = false) :
    (ofFrames (above ++ .activation a :: below)).labelsAboveActivation =
      above.countP Frame.isLabel := by
  induction above with
  | nil => simp [ofFrames_cons, labelsAboveActivation_push]
  | cons f rest ih =>
    have hf : f.isActivation = false := hAbove f List.mem_cons_self
    have hRest := ih fun g hg => hAbove g (List.mem_cons_of_mem _ hg)
    rw [List.cons_append, ofFrames_cons, labelsAboveActivation_push, hf, hRest]
    by_cases hl : f.isLabel <;> simp [hl]

/-- The number of activations is found by counting. -/
theorem count_activation_ofFrames (fs : List Frame) :
    (ofFrames fs).count .activation = fs.countP Frame.isActivation := by
  induction fs with
  | nil => rfl
  | cons f rest ih =>
    simp only [count, FrameIndex.positions] at ih ⊢
    rw [ofFrames_cons, activations_push]
    by_cases hf : f.isActivation
    · simp [hf, ih]
    · simp [hf, ih]

theorem positions_push (s : Stack) (f : Frame) (kind : FrameKind) :
    (s.push f).index.positions kind =
      if f.kind = kind then (s.index.positions kind).push s.size else s.index.positions kind := by
  obtain ⟨frames, ⟨values, labels, activations, above, saved⟩⟩ := s
  cases f <;> cases kind <;> rfl

theorem values_push (s : Stack) (f : Frame) :
    (s.push f).index.values =
      if f.kind = .value then s.index.values.push s.size else s.index.values :=
  positions_push s f .value

/-- Every position of the index is the position of a frame. -/
theorem lt_length_of_mem_positions {fs : List Frame} (kind : FrameKind) {position : Nat}
    (h : position ∈ (ofFrames fs).index.positions kind) : position < fs.length := by
  induction fs with
  | nil => cases kind <;> simp [ofFrames, empty, EmptyCollection.emptyCollection,
      FrameIndex.positions] at h
  | cons f rest ih =>
    rw [ofFrames_cons, positions_push] at h
    rw [List.length_cons]
    split at h
    · rcases Array.mem_push.1 h with hOld | rfl
      · have := ih hOld
        omega
      · simp
    · have := ih h
      omega

/-- The values of the index are the values among the frames, bottom first. -/
theorem values_ofFrames (fs : List Frame) :
    (ofFrames fs).values.toList = (fs.filterMap Frame.value?).reverse := by
  induction fs with
  | nil => rfl
  | cons f rest ih =>
    simp only [values, Array.toList_filterMap] at ih ⊢
    have hOld : (ofFrames rest).index.values.toList.filterMap
        (fun position => (ofFrames (f :: rest)).frames[position]?.bind Frame.value?) =
        (rest.filterMap Frame.value?).reverse := by
      rw [← ih]
      apply List.filterMap_congr
      intro position hMem
      have hLt : position < (ofFrames rest).frames.size := by
        simpa [frames_ofFrames] using lt_length_of_mem_positions .value (Array.mem_def.2 hMem)
      rw [ofFrames_cons, frames_push, Array.getElem?_push_lt hLt, Array.getElem?_eq_getElem hLt]
    have hNew : (ofFrames (f :: rest)).frames[rest.length]? = some f :=
      getElem?_frames_ofFrames [] f rest
    cases f with
    | value v =>
      have hIndex : (ofFrames (.value v :: rest)).index.values =
          (ofFrames rest).index.values.push rest.length := by
        rw [ofFrames_cons, values_push, size_ofFrames]
        rfl
      rw [hIndex, Array.toList_push, List.filterMap_append, hOld, List.filterMap_cons, hNew]
      simp [Frame.value?]
    | label l => exact hOld
    | activation a => exact hOld

/-! ## Assigning a local -/

/-- The index looks at the kinds of the frames only. -/
theorem index_ofFrames_congr (fs gs : List Frame) (h : fs.map Frame.kind = gs.map Frame.kind) :
    (ofFrames fs).index = (ofFrames gs).index := by
  induction fs generalizing gs with
  | nil =>
    cases gs with
    | nil => rfl
    | cons g gs => simp at h
  | cons f fs ih =>
    cases gs with
    | nil => simp at h
    | cons g gs =>
      obtain ⟨hKind, hRest⟩ := List.cons.inj h
      have hSize : (ofFrames fs).frames.size = (ofFrames gs).frames.size := by
        simpa [frames_ofFrames] using congrArg List.length hRest
      have hIndex := ih gs hRest
      simp only [ofFrames_cons, push, hSize, hIndex, hKind]

theorem modify_append_cons {α : Type} (f : α → α) (before : List α) (a : α) (after : List α) :
    (before ++ a :: after).modify before.length f = before ++ f a :: after := by
  induction before with
  | nil => rfl
  | cons b before ih => simp [ih]

/-- Assigning a local changes the topmost activation and nothing else. -/
theorem setLocal_ofFrames {above : List Frame} (a : ActivationFrame) (below : List Frame)
    (hAbove : ∀ f ∈ above, f.isActivation = false) (index : Nat) (v : Value) :
    (ofFrames (above ++ .activation a :: below)).setLocal index v =
      ofFrames (above ++
        .activation { a with locals := a.locals.setIfInBounds index v } :: below) := by
  have hIndex := index_ofFrames_congr (above ++ .activation a :: below)
    (above ++ .activation { a with locals := a.locals.setIfInBounds index v } :: below)
    (by simp [Frame.kind])
  unfold setLocal modifyActivation
  rw [activationPosition?_ofFrames a below hAbove]
  refine congr (congrArg Stack.mk ?_) hIndex
  simp only [frames_ofFrames]
  apply Array.ext'
  rw [Array.toList_modify]
  simpa using modify_append_cons _ below.reverse (Frame.activation a) above.reverse

/-! ## Unwinding -/

/-- The values in a list of frames that are all values. -/
def valuesOf? : List Frame → Option (List Value)
  | [] => some []
  | .value v :: rest => (valuesOf? rest).map (v :: ·)
  | .label _ :: _ => none
  | .activation _ :: _ => none

theorem valuesOf?_map_value (values : List Value) :
    valuesOf? (values.map .value) = some values := by
  induction values with
  | nil => rfl
  | cons v rest ih => simp [valuesOf?, ih]

theorem eq_map_of_valuesOf? {fs : List Frame} {values : List Value}
    (h : valuesOf? fs = some values) : fs = values.map .value := by
  induction fs generalizing values with
  | nil =>
    cases h
    rfl
  | cons f rest ih =>
    cases f with
    | value v =>
      obtain ⟨others, hOthers, rfl⟩ := Option.map_eq_some_iff.1 h
      rw [ih hOthers, List.map_cons]
    | label l => cases h
    | activation a => cases h

/-- The values that unwinding keeps of the frames above its target: the topmost ones, bottom
first, when they have exactly the given types. -/
def keptOf (above : List Frame) (arity : List ValueType) : Option (List Value) :=
  (valuesOf? (above.take arity.length).reverse).filter fun values => values.map Value.type = arity

theorem keptOf_eq_some_iff {above : List Frame} {arity : List ValueType} {values : List Value} :
    keptOf above arity = some values ↔
      values.map Value.type = arity ∧ ∃ rest, above = values.reverse.map .value ++ rest := by
  constructor
  · intro h
    obtain ⟨hValues, hTypes⟩ := Option.filter_eq_some_iff.1 h
    refine ⟨of_decide_eq_true hTypes, above.drop arity.length, ?_⟩
    have hTop : above.take arity.length = values.reverse.map .value := by
      rw [List.map_reverse, ← eq_map_of_valuesOf? hValues, List.reverse_reverse]
    rw [← hTop, List.take_append_drop]
  · rintro ⟨hTypes, rest, rfl⟩
    have hLength : arity.length = (values.reverse.map Frame.value).length := by
      rw [← hTypes, List.length_map, List.length_map, List.length_reverse]
    unfold keptOf
    rw [hLength, List.take_left, ← List.map_reverse, List.reverse_reverse, valuesOf?_map_value]
    simpa using hTypes

/-- Values that were taken, the last of them topmost again, can be put back. -/
theorem pushValues_of_popCarried {position : Nat} {types : List ValueType} {kept kept' : List Value}
    {fs : List Frame} {s' : Stack}
    (h : popCarried position types kept (ofFrames fs) = .ok kept' s' ∨
      popCarried position types kept (ofFrames fs) = .error kept' s') :
    s'.pushValues kept' = (ofFrames fs).pushValues kept := by
  induction types generalizing kept fs with
  | nil =>
    rcases h with h | h
    · cases h
      rfl
    · cases h
  | cons expected rest ih =>
    unfold popCarried at h
    split at h
    · rcases h with h | h
      · cases h
      · cases h
        rfl
    · rename_i v hTop
      split at h
      · obtain ⟨below, rfl⟩ := exists_of_peek?_ofFrames hTop
        rw [pop_ofFrames_cons] at h
        exact (ih h : _ = (ofFrames below).pushValues (v :: kept))
      · rcases h with h | h
        · cases h
        · cases h
          rfl

/-- Values on top that have the types in question are taken. -/
theorem popCarried_values (values kept : List Value) (rest : List Frame) (f : Frame)
    (below : List Frame) :
    popCarried below.length (values.map Value.type) kept
        (ofFrames (values.map .value ++ (rest ++ f :: below))) =
      .ok (values.reverse ++ kept) (ofFrames (rest ++ f :: below)) := by
  induction values generalizing kept with
  | nil => rfl
  | cons v others ih =>
    have hTop : (ofFrames ((v :: others).map .value ++ (rest ++ f :: below))).peek? = some v := by
      rw [peek?, List.map_cons, List.cons_append, top?_ofFrames_cons]
      rfl
    have hInside : below.length + 1 <
        (ofFrames ((v :: others).map .value ++ (rest ++ f :: below))).size := by
      simp only [size_ofFrames, List.length_append, List.length_map, List.length_cons]
      omega
    rw [List.map_cons, popCarried, hTop]
    simp only [hInside, and_self, if_true]
    rw [List.map_cons, List.cons_append, pop_ofFrames_cons, ih]
    simp

/-- Only values above the position that have the types in question are taken. -/
theorem exists_of_popCarried_eq_ok {types : List ValueType} {kept kept' : List Value}
    {above : List Frame} {f : Frame} {below : List Frame} {s' : Stack}
    (h : popCarried below.length types kept (ofFrames (above ++ f :: below)) = .ok kept' s') :
    ∃ (values : List Value) (rest : List Frame),
      values.map Value.type = types ∧ above = values.map .value ++ rest := by
  induction types generalizing kept above with
  | nil => exact ⟨[], above, rfl, rfl⟩
  | cons expected types ih =>
    unfold popCarried at h
    split at h
    · cases h
    · rename_i v hTop
      split at h
      · rename_i hFits
        cases above with
        | nil =>
          have hInside := hFits.1
          simp at hInside
        | cons g above =>
          obtain ⟨_, hFrames⟩ := exists_of_peek?_ofFrames hTop
          cases hFrames
          rw [List.cons_append, pop_ofFrames_cons] at h
          obtain ⟨values, rest, hTypes, rfl⟩ := ih h
          exact ⟨v :: values, rest, by rw [List.map_cons, hTypes, hFits.2], rfl⟩
      · cases h

/-- The types that a failing unwinding reports: those of the topmost values, at most `limit` of
them. -/
theorem topTypes_ofFrames (above : List Frame) (f : Frame) (below : List Frame) (limit : Nat) :
    (ofFrames (above ++ f :: below)).topTypes below.length limit =
      ((((above.map Frame.value?).takeWhile Option.isSome).take limit).filterMap
        fun v => v.map Value.type).reverse := by
  have hRegion : (((ofFrames (above ++ f :: below)).frames.toList.drop
      (below.length + 1)).reverse) = above := by
    simp [frames_ofFrames, List.drop_append]
  unfold topTypes
  rw [hRegion]

/-- Unwinding to a frame removes it and all above it, but for the values that it keeps. Where it
cannot keep them, nothing changes. -/
theorem unwindTo_ofFrames (above : List Frame) (f : Frame) (below : List Frame)
    (arity : List ValueType) :
    unwindTo below.length arity (ofFrames (above ++ f :: below)) =
      match keptOf above arity with
      | some kept => .ok f (ofFrames (kept.reverse.map .value ++ below))
      | none =>
        .error (.arityMismatch arity ((ofFrames (above ++ f :: below)).topTypes below.length
          (max arity.length 1))) (ofFrames (above ++ f :: below)) := by
  unfold unwindTo
  cases hKept : keptOf above arity with
  | some kept =>
    obtain ⟨rfl, rest, rfl⟩ := keptOf_eq_some_iff.1 hKept
    have hCarried := popCarried_values kept.reverse [] rest f below
    rw [List.map_reverse, List.append_nil, List.reverse_reverse] at hCarried
    have hRest : dropTop ((ofFrames (rest ++ f :: below)).size - (below.length + 1))
        (ofFrames (rest ++ f :: below)) = ofFrames (f :: below) := by
      have hCount : (ofFrames (rest ++ f :: below)).size - (below.length + 1) = rest.length := by
        rw [size_ofFrames, List.length_append, List.length_cons]
        omega
      rw [hCount]
      exact dropTop_ofFrames _ _
    rw [List.append_assoc, hCarried]
    simp only [hRest, top?_ofFrames_cons, pop_ofFrames_cons, pushValues_ofFrames]
  | none =>
    cases hRun : popCarried below.length arity.reverse [] (ofFrames (above ++ f :: below)) with
    | ok kept s' =>
      obtain ⟨values, rest, hTypes, rfl⟩ := exists_of_popCarried_eq_ok hRun
      have hSome : keptOf (values.map .value ++ rest) arity = some values.reverse := by
        refine keptOf_eq_some_iff.2 ⟨?_, rest, by rw [List.reverse_reverse]⟩
        rw [List.map_reverse, hTypes, List.reverse_reverse]
      rw [hSome] at hKept
      cases hKept
    | error kept s' =>
      have hBack : s'.pushValues kept = ofFrames (above ++ f :: below) :=
        pushValues_of_popCarried (.inr hRun)
      simp only [hBack]

end Stack

end WasmMachine
