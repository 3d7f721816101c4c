import WasmMachine.Proofs.Guarded.Basic
import WasmMachine.Proofs.Instance.Phases
import WasmMachine.Proofs.Machine.OperandLaws

/-!
# Activations on a stack

Operations on the stack move values and labels, remove frames from the top and assign locals. They
make no activations, so a property of all activations on a stack stays true as long as assigning a
local of the topmost one keeps it.

* `Stack.AllActivations`: a property of all activations on a stack that is in step with its index.
* `keeps_unwindTo`, `keeps_localSet`: the operations, also where they fail.
-/

namespace WasmMachine

open Stack

/-- The stack is that of a list of frames, in which all activations have a property. -/
def Stack.AllActivations (P : ActivationFrame → Prop) (s : Stack) : Prop :=
  ∃ fs, s = ofFrames fs ∧ ∀ a, Frame.activation a ∈ fs → P a

namespace Stack.AllActivations

variable {P : ActivationFrame → Prop} {s : Stack}

theorem empty : AllActivations P ∅ := ⟨[], rfl, fun _ hMem => nomatch hMem⟩

theorem of_mem (h : s.AllActivations P) {a : ActivationFrame}
    (hMem : .activation a ∈ s.frames.toList) : P a := by
  obtain ⟨fs, rfl, hAll⟩ := h
  rw [frames_ofFrames] at hMem
  exact hAll a (List.mem_reverse.1 hMem)

theorem push (h : s.AllActivations P) {f : Frame} (hf : ∀ a, f = .activation a → P a) :
    (s.push f).AllActivations P := by
  obtain ⟨fs, rfl, hAll⟩ := h
  refine ⟨f :: fs, rfl, fun a hMem => ?_⟩
  rcases List.mem_cons.1 hMem with hEq | hRest
  · exact hf a hEq.symm
  · exact hAll a hRest

theorem pop (h : s.AllActivations P) : s.pop.AllActivations P := by
  obtain ⟨fs, rfl, hAll⟩ := h
  cases fs with
  | nil => exact empty
  | cons f rest =>
    exact ⟨rest, pop_ofFrames_cons f rest, fun a hMem => hAll a (List.mem_cons_of_mem f hMem)⟩

theorem dropTop (h : s.AllActivations P) (count : Nat) : (s.dropTop count).AllActivations P := by
  induction count generalizing s with
  | zero => exact h
  | succ count ih => exact ih h.pop

theorem pushValues (h : s.AllActivations P) (values : List Value) :
    (s.pushValues values).AllActivations P := by
  induction values generalizing s with
  | nil => exact h
  | cons v rest ih => exact ih (h.push fun _ hEq => nomatch hEq)

/-- The frames down to the topmost activation, if there is one. -/
theorem exists_topmost (fs : List Frame) :
    (∀ f ∈ fs, f.isActivation = false) ∨ ∃ above a below, fs = above ++ .activation a :: below ∧
      ∀ f ∈ above, f.isActivation = false := by
  induction fs with
  | nil => exact .inl fun _ hMem => nomatch hMem
  | cons f rest ih =>
    cases hf : f.isActivation with
    | true =>
      cases f with
      | activation a => exact .inr ⟨[], a, rest, rfl, fun _ hMem => nomatch hMem⟩
      | value v => cases hf
      | label l => cases hf
    | false =>
      rcases ih with hNone | ⟨above, a, below, rfl, hAbove⟩
      · exact .inl (List.forall_mem_cons.2 ⟨hf, hNone⟩)
      · exact .inr ⟨f :: above, a, below, rfl, List.forall_mem_cons.2 ⟨hf, hAbove⟩⟩

theorem activations_of_none {fs : List Frame} (h : ∀ f ∈ fs, f.isActivation = false) :
    (ofFrames fs).index.activations = #[] := by
  induction fs with
  | nil => rfl
  | cons f rest ih =>
    rw [ofFrames_cons, activations_push, h f List.mem_cons_self]
    exact ih fun g hMem => h g (List.mem_cons_of_mem f hMem)

theorem activationPosition?_of_none {fs : List Frame} (h : ∀ f ∈ fs, f.isActivation = false) :
    (ofFrames fs).activationPosition? = none := by
  rw [activationPosition?, activations_of_none h]
  rfl

/-- A value on top does not hide the topmost activation. -/
theorem activation?_ofFrames_value (v : Value) (fs : List Frame) :
    (ofFrames (.value v :: fs)).activation? = (ofFrames fs).activation? := by
  rcases exists_topmost fs with hNone | ⟨above, a, below, rfl, hAbove⟩
  · have hMore : ∀ f ∈ Frame.value v :: fs, f.isActivation = false :=
      List.forall_mem_cons.2 ⟨rfl, hNone⟩
    rw [activation?, activation?, activationPosition?_of_none hMore,
      activationPosition?_of_none hNone]
    rfl
  · have hMore : ∀ f ∈ Frame.value v :: above, f.isActivation = false :=
      List.forall_mem_cons.2 ⟨rfl, hAbove⟩
    rw [activation?_ofFrames a below hAbove]
    exact activation?_ofFrames a below hMore

/-- Assigning a local keeps a property that the topmost activation has with the new value. -/
theorem setLocal (h : s.AllActivations P) {index : Nat} {v : Value}
    (hTop : ∀ a, s.activation? = some a → P a →
      P { a with locals := a.locals.setIfInBounds index v }) :
    (s.setLocal index v).AllActivations P := by
  obtain ⟨fs, rfl, hAll⟩ := h
  rcases exists_topmost fs with hNone | ⟨above, a, below, rfl, hAbove⟩
  · have hSame : (ofFrames fs).setLocal index v = ofFrames fs := by
      unfold Stack.setLocal modifyActivation
      rw [activationPosition?_of_none hNone]
    rw [hSame]
    exact ⟨fs, rfl, hAll⟩
  · rw [setLocal_ofFrames a below hAbove]
    refine ⟨_, rfl, fun b hMem => ?_⟩
    have hOld : P a := hAll a (List.mem_append_right _ List.mem_cons_self)
    rcases List.mem_append.1 hMem with hUp | hDown
    · exact hAll b (List.mem_append_left _ hUp)
    · rcases List.mem_cons.1 hDown with hEq | hRest
      · cases hEq
        exact hTop a (activation?_ofFrames a below hAbove) hOld
      · exact hAll b (List.mem_append_right _ (List.mem_cons_of_mem _ hRest))

end Stack.AllActivations

/-! ## Operations -/

section

variable {P : ActivationFrame → Prop} {α : Type}

/-- The values on top of some frames. -/
theorem exists_operands (fs : List Frame) :
    ∃ (operands : List Value) (base : List Frame),
      fs = operands.map .value ++ base ∧ Bare base := by
  induction fs with
  | nil => exact ⟨[], [], rfl, rfl⟩
  | cons f rest ih =>
    cases f with
    | value v =>
      obtain ⟨operands, base, rfl, hBase⟩ := ih
      exact ⟨v :: operands, base, rfl, hBase⟩
    | label l => exact ⟨[], .label l :: rest, rfl, rfl⟩
    | activation a => exact ⟨[], .activation a :: rest, rfl, rfl⟩

/-- An operation on the values on top that succeeds does so on the operands alone. -/
theorem ValuesOnly.exists_onOperands {op : StackM α} (h : ValuesOnly op) {fs : List Frame} {a : α}
    {s : Stack} (hRun : op (ofFrames fs) = .ok a s) :
    ∃ (operands left : List Value) (base : List Frame), fs = operands.map .value ++ base ∧
      s = ofFrames (left.map .value ++ base) ∧ onOperands op operands = .ok (a, left) := by
  obtain ⟨operands, base, rfl, hBase⟩ := exists_operands fs
  have hApply := h.apply operands hBase
  cases hAlone : onOperands op operands with
  | ok p =>
    obtain ⟨b, left⟩ := p
    rw [hAlone] at hApply
    cases hRun.symm.trans hApply
    exact ⟨operands, left, base, rfl, rfl, hAlone⟩
  | error e =>
    rw [hAlone] at hApply
    obtain ⟨s', hError⟩ := hApply
    cases hRun.symm.trans hError

/-- Operations on the values on top keep what does not depend on them. -/
theorem ValuesOnly.keeps_frames {op : StackM α} (h : ValuesOnly op) {P : List Frame → Prop}
    (hP : ∀ (operands left : List Value) (base : List Frame), P (operands.map .value ++ base) →
      P (left.map .value ++ base)) : Keeps (fun s => ∃ fs, s = ofFrames fs ∧ P fs) op := by
  rintro s ⟨fs, rfl, hfs⟩
  obtain ⟨operands, base, rfl, hBase⟩ := exists_operands fs
  obtain ⟨r, left, hLeft⟩ := h operands
  rw [hLeft base hBase]
  cases r <;> exact ⟨_, rfl, hP operands left base hfs⟩

/-- In particular, they leave the activations alone. -/
theorem ValuesOnly.keeps_all {op : StackM α} (h : ValuesOnly op) :
    Keeps (AllActivations P) op := by
  refine h.keeps_frames fun operands left base hAll a hMem => ?_
  rcases List.mem_append.1 hMem with hValue | hBelow
  · obtain ⟨v, -, hEq⟩ := List.mem_map.1 hValue
    cases hEq
  · exact hAll a (List.mem_append_right _ hBelow)

theorem keeps_popCarried (position : Nat) (types : List ValueType) (kept : List Value) :
    Keeps (AllActivations P) (popCarried position types kept) := by
  induction types generalizing kept with
  | nil => exact fun s hs => hs
  | cons expected rest ih =>
    intro s hs
    unfold popCarried
    split
    · exact hs
    · split
      · exact ih _ s.pop hs.pop
      · exact hs

/-- Unwinding removes frames and puts values back. -/
theorem keeps_unwindTo (position : Nat) (arity : List ValueType) :
    Keeps (AllActivations P) (unwindTo position arity) := by
  intro s hs
  have hTaken := keeps_popCarried position arity.reverse [] s hs
  unfold unwindTo
  split
  · rename_i kept left hRun
    rw [hRun] at hTaken
    exact hTaken.pushValues kept
  · rename_i kept left hRun
    rw [hRun] at hTaken
    have hLeft := hTaken.dropTop (left.size - (position + 1))
    dsimp only
    split
    · exact hLeft
    · exact hLeft.pop.pushValues kept

theorem keeps_readLocal (index : UInt32) : Keeps (AllActivations P) (readLocal index) := by
  intro s hs
  unfold readLocal
  split
  · exact hs
  · split <;> exact hs

theorem Stack.readLocal_eq_ok {index : UInt32} {s s' : Stack} {v : Value}
    (h : readLocal index s = .ok v s') :
    s' = s ∧ ∃ a, s.activation? = some a ∧ a.locals[index.toNat]? = some v := by
  unfold readLocal at h
  split at h
  · cases h
  · rename_i a hActivation
    split at h
    · cases h
    · rename_i found hLocal
      cases h
      exact ⟨rfl, a, hActivation, hLocal⟩

/-- A value that was taken has the type that was asked for, and the topmost activation is the same
without it. -/
theorem Stack.AllActivations.of_popTyped {t : ValueType} {s s' : Stack} {v : Value}
    (hs : s.AllActivations P) (h : popTyped t s = .ok v s') :
    v.type = t ∧ s'.activation? = s.activation? := by
  obtain ⟨fs, rfl, -⟩ := hs
  obtain ⟨operands, left, base, rfl, rfl, hAlone⟩ := (ValuesOnly.popTyped t).exists_onOperands h
  obtain ⟨hType, rfl⟩ := popTyped_eq_ok hAlone
  exact ⟨hType, (activation?_ofFrames_value v _).symm⟩

theorem keeps_localGet (index : UInt32) : Keeps (AllActivations P) (localGet index) :=
  (keeps_readLocal index).bind fun v => (ValuesOnly.pushValue v).keeps_all

/-- The property does not depend on the values of locals, only on their types. -/
def OnTypesOfLocals (P : ActivationFrame → Prop) : Prop :=
  ∀ (a : ActivationFrame) (index : Nat) (old v : Value), P a → a.locals[index]? = some old →
    v.type = old.type → P { a with locals := a.locals.setIfInBounds index v }

theorem keeps_localSet (hP : OnTypesOfLocals P) (index : UInt32) :
    Keeps (AllActivations P) (localSet index) := by
  intro s hs
  refine Keeps.bind_at (keeps_readLocal index s hs) fun old s₁ hRead hs₁ => ?_
  refine Keeps.bind_at ((ValuesOnly.popTyped old.type).keeps_all s₁ hs₁) fun v s₂ hPop hs₂ => ?_
  obtain ⟨rfl, a, hActivation, hLocal⟩ := Stack.readLocal_eq_ok hRead
  obtain ⟨hType, hSame⟩ := hs₁.of_popTyped hPop
  refine hs₂.setLocal fun b hb hOld => ?_
  rw [hSame, hActivation] at hb
  cases hb
  exact hP a index.toNat old v hOld hLocal hType

theorem keeps_localTee (hP : OnTypesOfLocals P) (index : UInt32) :
    Keeps (AllActivations P) (localTee index) :=
  (keeps_localSet hP index).bind fun _ => keeps_localGet index

end

end WasmMachine
