import WasmMachine.Proofs.Stack.Scan

/-!
# Unwinding is exact

Unwinding takes values off the top one by one, and puts them back where one of them does not fit.
On a stack whose index is in step with its frames it does all or nothing: it succeeds exactly if the
values that it is to keep stand on top, above the frame that goes, and a failure leaves no trace in
the frames or in the index.

* `Stack.Indexed.built`: frames determine the index that is in step with them.
* `Stack.Carries`: values of the given types stand on top, above a position.
* `Stack.unwindTo_exact`: when unwinding succeeds, what it leaves, and what a failure leaves.
-/

namespace WasmMachine.Stack

/-! ## Frames determine the index -/

/-- Two stacks with the same frames, whose indices are in step with them, are the same. -/
theorem Indexed.ext {s t : Stack} (hs : s.Indexed) (ht : t.Indexed) (h : s.frames = t.frames) :
    s = t := by
  have hPositions : ∀ kind, s.index.positions kind = t.index.positions kind := by
    intro kind
    rw [← Array.toList_inj, hs.positions, ht.positions, h]
  have hValues : s.index.values = t.index.values := hPositions .value
  have hLabels : s.index.labels = t.index.labels := hPositions .label
  have hActivations : s.index.activations = t.index.activations := hPositions .activation
  have hAbove : s.index.labelsAboveActivation = t.index.labelsAboveActivation := by
    rw [hs.labelsAbove, ht.labelsAbove, h]
  have hSaved : s.index.savedLabelCounts = t.index.savedLabelCounts := by
    rw [← Array.toList_inj, hs.savedCounts, ht.savedCounts, h]
  obtain ⟨frames, ⟨values, labels, activations, above, saved⟩⟩ := s
  obtain ⟨frames', ⟨values', labels', activations', above', saved'⟩⟩ := t
  simp only at h hValues hLabels hActivations hAbove hSaved
  rw [h, hValues, hLabels, hActivations, hAbove, hSaved]

/-- A stack whose index is in step with its frames is one that `push` builds. -/
theorem Indexed.built {s : Stack} (h : s.Indexed) : s.Built := by
  refine ⟨s.frames.toList.reverse, h.ext (Built.indexed ⟨_, rfl⟩) ?_⟩
  rw [frames_ofFrames, List.reverse_reverse]

/-- The frames around a position, topmost first. -/
theorem Indexed.exists_ofFrames {s : Stack} (h : s.Indexed) {position : Nat}
    (hPosition : position < s.size) :
    ∃ above f below, s = ofFrames (above ++ f :: below) ∧ below.length = position := by
  obtain ⟨fs, rfl⟩ := h.built
  rw [size_ofFrames] at hPosition
  obtain ⟨f, below, hDrop⟩ := List.exists_cons_of_length_pos
    (l := fs.drop (fs.length - (position + 1))) (by rw [List.length_drop]; omega)
  refine ⟨fs.take (fs.length - (position + 1)), f, below, ?_, ?_⟩
  · rw [← hDrop, List.take_append_drop]
  · have hLength := congrArg List.length hDrop
    rw [List.length_drop, List.length_cons] at hLength
    omega

/-! ## Values on top -/

/-- The topmost frames are values of the given types, bottom first, and all of them stand above a
position. -/
structure Carries (s : Stack) (position : Nat) (arity : List ValueType) (values : List Value) :
    Prop where
  above : position + arity.length < s.size
  types : values.map Value.type = arity
  frames : s.frames.toList.drop (s.size - arity.length) = values.map .value

theorem carries_ofFrames_iff {above : List Frame} {f : Frame} {below : List Frame}
    {arity : List ValueType} {values : List Value} :
    (ofFrames (above ++ f :: below)).Carries below.length arity values ↔
      keptOf above arity = some values := by
  have hSize : (ofFrames (above ++ f :: below)).size = above.length + (below.length + 1) := by
    rw [size_ofFrames, List.length_append, List.length_cons]
  have hTop : arity.length ≤ above.length →
      (ofFrames (above ++ f :: below)).frames.toList.drop
        ((ofFrames (above ++ f :: below)).size - arity.length) =
          (above.take arity.length).reverse := by
    intro hFits
    rw [size_ofFrames, frames_ofFrames, List.toList_toArray, ← List.reverse_take,
      List.take_append_of_le_length hFits]
  rw [keptOf_eq_some_iff]
  constructor
  · rintro ⟨hAbove, hTypes, hFrames⟩
    refine ⟨hTypes, above.drop arity.length, ?_⟩
    rw [hTop (by omega)] at hFrames
    rw [List.map_reverse, ← hFrames, List.reverse_reverse, List.take_append_drop]
  · rintro ⟨rfl, rest, rfl⟩
    have hLength : (values.map Value.type).length = (values.reverse.map Frame.value).length := by
      simp
    have hFits : (values.map Value.type).length ≤
        (values.reverse.map Frame.value ++ rest).length := by
      simp
    refine ⟨by omega, rfl, ?_⟩
    rw [hTop hFits, hLength, List.take_left, List.map_reverse, List.reverse_reverse]

/-! ## Unwinding -/

theorem unwindTo_of_carries {s : Stack} (h : s.Indexed) {position : Nat} {arity : List ValueType}
    {values : List Value} (hCarries : s.Carries position arity values) :
    ∃ f s', s.frames[position]? = some f ∧ unwindTo position arity s = .ok f s' ∧ s'.Indexed ∧
      s'.frames.toList = s.frames.toList.take position ++ values.map .value := by
  obtain ⟨above, f, below, rfl, rfl⟩ := h.exists_ofFrames (Nat.lt_of_le_of_lt
    (Nat.le_add_right _ _) hCarries.above)
  refine ⟨f, ofFrames (values.reverse.map .value ++ below), getElem?_frames_ofFrames above f below,
    ?_, Built.indexed ⟨_, rfl⟩, ?_⟩
  · rw [unwindTo_ofFrames, carries_ofFrames_iff.1 hCarries]
  · simp [frames_ofFrames]

theorem unwindTo_of_not_carries {s : Stack} (h : s.Indexed) {position : Nat}
    (hPosition : position < s.size) {arity : List ValueType}
    (hNone : ∀ values, ¬ s.Carries position arity values) :
    ∃ found, unwindTo position arity s = .error (.arityMismatch arity found) s := by
  obtain ⟨above, f, below, rfl, rfl⟩ := h.exists_ofFrames hPosition
  have hKept : keptOf above arity = none := by
    rw [Option.eq_none_iff_forall_ne_some]
    intro values hSome
    exact hNone values (carries_ofFrames_iff.2 hSome)
  exact ⟨_, by rw [unwindTo_ofFrames, hKept]⟩

/-- On a stack whose index is in step with its frames, and for the position of any frame: unwinding
succeeds exactly if as many frames as types are asked for stand on top above the position, and are
values of these types. It gives the frame at the position, and leaves the frames below it, followed
by those values in their order, with an index in step with them. Otherwise it fails because of the
values, and leaves frames and index as they were. -/
theorem unwindTo_exact {s : Stack} (hIndexed : s.Indexed) {position : Nat}
    (hPosition : position < s.size) (arity : List ValueType) :
    ((∃ f s', unwindTo position arity s = .ok f s') ↔
      ∃ values, s.Carries position arity values) ∧
    (∀ f s', unwindTo position arity s = .ok f s' →
      s.frames[position]? = some f ∧ s'.Indexed ∧
        s'.frames.toList = s.frames.toList.take position ++
          s.frames.toList.drop (s.size - arity.length)) ∧
    (∀ e s', unwindTo position arity s = .error e s' →
      s' = s ∧ ∃ found, e = .arityMismatch arity found) := by
  by_cases hCarries : ∃ values, s.Carries position arity values
  · obtain ⟨values, hValues⟩ := hCarries
    obtain ⟨f, s', hFrame, hRun, hIndexed', hFrames⟩ := unwindTo_of_carries hIndexed hValues
    rw [hRun]
    refine ⟨⟨fun _ => ⟨values, hValues⟩, fun _ => ⟨f, s', rfl⟩⟩, ?_, ?_⟩
    · intro g t h
      cases h
      exact ⟨hFrame, hIndexed', by rw [hFrames, hValues.frames]⟩
    · intro e t h
      cases h
  · have hNone : ∀ values, ¬ s.Carries position arity values := fun values h => hCarries ⟨values, h⟩
    obtain ⟨found, hRun⟩ := unwindTo_of_not_carries hIndexed hPosition hNone
    rw [hRun]
    refine ⟨⟨?_, fun h => absurd h hCarries⟩, ?_, ?_⟩
    · rintro ⟨f, t, h⟩
      cases h
    · intro f t h
      cases h
    · intro e t h
      cases h
      exact ⟨rfl, found, rfl⟩

/-- With one value on top where two are asked for, the value is back after the failure; for itself
it is handed down past two labels and an activation. -/
theorem unwindTo_exact_midway :
    let s := nestedCalls.foldl Operation.apply ∅
    (∃ found, unwindTo 3 [.i64, .i32] s = .error (.arityMismatch [.i64, .i32] found) s) ∧
      ∃ f s', unwindTo 3 [.i32] s = .ok f s' ∧ s'.Indexed ∧
        s'.frames.toList = s.frames.toList.take 3 ++ [.value (.i32 2)] := by
  intro s
  have hIndexed : s.Indexed := by
    apply Built.indexed
    apply Reached.built
    apply Reached.empty.foldl
    simp [nestedCalls, Operation.Allowed]
  have hSize : 3 < s.size := by decide
  constructor
  · obtain ⟨hSuccess, -, hFailure⟩ := unwindTo_exact hIndexed hSize [.i64, .i32]
    cases hRun : unwindTo 3 [.i64, .i32] s with
    | ok f s' =>
      -- The frame below the value is a label.
      obtain ⟨values, hValues⟩ := hSuccess.1 ⟨f, s', hRun⟩
      have hTop : s.frames.toList.drop (s.size - 2) =
          [.label ⟨.ifThen, .empty, 5⟩, .value (.i32 2)] := by decide
      cases values <;> cases hTop.symm.trans hValues.frames
    | error e s' =>
      obtain ⟨rfl, found, rfl⟩ := hFailure e s' hRun
      exact ⟨found, rfl⟩
  · obtain ⟨hSuccess, hResult, -⟩ := unwindTo_exact hIndexed hSize [.i32]
    have hCarries : s.Carries 3 [.i32] [.i32 2] := ⟨by decide, by decide, by decide⟩
    obtain ⟨f, s', hRun⟩ := hSuccess.2 ⟨_, hCarries⟩
    obtain ⟨-, hIndexed', hFrames⟩ := hResult f s' hRun
    exact ⟨f, s', hRun, hIndexed', hFrames⟩

end WasmMachine.Stack
