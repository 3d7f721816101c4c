import WasmMachine.Machine.Control
import WasmMachine.Proofs.Machine.Region

/-!
# Laws of operand operations

What the operations that take and put values do to the operands of a region. A sequence of such
operations runs its parts one after the other on the operands (`onOperands_bind`), so a result is
read off the parts: a value that was taken stood on top, and has the type that was asked for.

* `popParams_eq_ok`: the arguments of a call are exactly the operands on top, in reverse order.
-/

namespace WasmMachine

open Stack

/-! ## Parameters -/

/-- The parameters of a call are values on top. -/
theorem ValuesOnly.popParam (signature : FunctionType) (expected : ValueType) :
    ValuesOnly (popParam signature expected) := by
  intro operands
  cases operands with
  | nil =>
    refine ⟨.error (.missingFunctionParams signature .nothing), [], fun base hBase => ?_⟩
    have hPeek : (ofFrames base).peek? = none := by
      cases base with
      | nil => rfl
      | cons f rest => simpa [peek?, Bare] using hBase
    simp [Stack.popParam, hPeek, resultOf]
  | cons v rest =>
    by_cases hType : v.type = expected
    · refine ⟨.ok v, rest, fun base _ => ?_⟩
      simp [Stack.popParam, peek?, Frame.value?, resultOf, hType]
    · refine ⟨.error (.missingFunctionParams signature (.value v.type)), rest, fun base _ => ?_⟩
      simp [Stack.popParam, peek?, Frame.value?, resultOf, hType]

theorem ValuesOnly.popParams (signature : FunctionType) (types : List ValueType)
    (found : List Value) : ValuesOnly (popParams signature types found) := by
  induction types generalizing found with
  | nil => exact ValuesOnly.pure found
  | cons expected rest ih => exact (popParam signature expected).bind fun v => ih (v :: found)

/-! ## Sequences -/

section Laws

variable {α β : Type}

theorem onOperands_pure (a : α) (operands : List Value) :
    onOperands (pure a) operands = .ok (a, operands) := by
  change Except.ok (a, (ofFrames (operands.map .value)).values.toList.reverse) = _
  rw [reverse_values_ofFrames]

theorem onOperands_throw (e : Trap) (operands : List Value) :
    onOperands (throw e : StackM α) operands = .error e := rfl

/-- A sequence of operations runs its parts one after the other. -/
theorem onOperands_bind {x : StackM α} (hx : ValuesOnly x) (f : α → StackM β)
    (operands : List Value) :
    onOperands (x >>= f) operands =
      (onOperands x operands).bind fun p => onOperands (f p.1) p.2 := by
  obtain ⟨r, left, hLeft⟩ := hx operands
  have hAlone := hLeft [] rfl
  rw [List.append_nil, List.append_nil] at hAlone
  have hBind : (x >>= f) (ofFrames (operands.map .value)) =
      EStateM.bind x f (ofFrames (operands.map .value)) := rfl
  unfold onOperands
  rw [hBind]
  simp only [EStateM.bind, hAlone]
  cases r with
  | error e => rfl
  | ok a => simp only [resultOf, Except.bind, reverse_values_ofFrames]

theorem onOperands_pushValue (v : Value) (operands : List Value) :
    onOperands (pushValue v) operands = .ok ((), v :: operands) := by
  change Except.ok ((), (ofFrames ((v :: operands).map .value)).values.toList.reverse) = _
  rw [reverse_values_ofFrames]

theorem onOperands_popValue_cons (v : Value) (operands : List Value) :
    onOperands popValue (v :: operands) = .ok (v, operands) := by
  have hPop : popValue (ofFrames ((v :: operands).map .value)) =
      .ok v (ofFrames (operands.map .value)) := by
    simp [popValue, peek?, Frame.value?]
  rw [onOperands, hPop]
  simp only [reverse_values_ofFrames]

theorem onOperands_popTyped_cons (t : ValueType) (v : Value) (operands : List Value) :
    onOperands (popTyped t) (v :: operands) =
      if v.type = t then .ok (v, operands) else .error (.typeMismatch t v.type) := by
  unfold popTyped
  rw [onOperands_bind .popValue, onOperands_popValue_cons]
  simp only [Except.bind]
  split
  · exact onOperands_pure v operands
  · rfl

/-- A value that was taken stood on top and has the type that was asked for. -/
theorem popTyped_eq_ok {t : ValueType} {operands left : List Value} {v : Value}
    (h : onOperands (popTyped t) operands = .ok (v, left)) :
    v.type = t ∧ operands = v :: left := by
  cases operands with
  | nil => cases h
  | cons w rest =>
    rw [onOperands_popTyped_cons] at h
    split at h
    · rename_i hType
      cases h
      exact ⟨hType, rfl⟩
    · cases h

theorem int?_ofInt (t : IntType) (bits : BitVec t.width) :
    (Value.ofInt t bits).int? t = some bits := by
  cases t <;> rfl

theorem float?_ofFloat (t : FloatType) (bits : BitVec t.width) :
    (Value.ofFloat t bits).float? t = some bits := by
  cases t <;> rfl

theorem ofInt_of_int? {t : IntType} {v : Value} {bits : BitVec t.width}
    (h : v.int? t = some bits) : v = .ofInt t bits := by
  cases t <;> cases v <;> cases h <;> rfl

theorem exists_ofInt_of_type {t : IntType} {v : Value} (h : v.type = t.valueType) :
    ∃ bits, v = .ofInt t bits := by
  cases t <;> cases v <;> first | exact ⟨_, rfl⟩ | cases h

theorem exists_ofFloat_of_type {t : FloatType} {v : Value} (h : v.type = t.valueType) :
    ∃ bits, v = .ofFloat t bits := by
  cases t <;> cases v <;> first | exact ⟨_, rfl⟩ | cases h

theorem onOperands_popInt_ofInt (t : IntType) (bits : BitVec t.width) (operands : List Value) :
    onOperands (popInt t) (.ofInt t bits :: operands) = .ok (bits, operands) := by
  unfold popInt
  rw [onOperands_bind (.popTyped _), onOperands_popTyped_cons, if_pos (Value.type_ofInt t bits)]
  simp only [Except.bind, int?_ofInt]
  exact onOperands_pure bits operands

theorem onOperands_popFloat_ofFloat (t : FloatType) (bits : BitVec t.width)
    (operands : List Value) :
    onOperands (popFloat t) (.ofFloat t bits :: operands) = .ok (bits, operands) := by
  unfold popFloat
  rw [onOperands_bind (.popTyped _), onOperands_popTyped_cons, if_pos (Value.type_ofFloat t bits)]
  simp only [Except.bind, float?_ofFloat]
  exact onOperands_pure bits operands

/-- An integer that was taken stood on top. -/
theorem popInt_eq_ok {t : IntType} {operands left : List Value} {bits : BitVec t.width}
    (h : onOperands (popInt t) operands = .ok (bits, left)) :
    operands = .ofInt t bits :: left := by
  unfold popInt at h
  rw [onOperands_bind (.popTyped _)] at h
  cases hPop : onOperands (popTyped t.valueType) operands with
  | error e => rw [hPop] at h; cases h
  | ok p =>
    obtain ⟨v, rest⟩ := p
    rw [hPop] at h
    simp only [Except.bind] at h
    cases hInt : v.int? t with
    | none => rw [hInt] at h; cases h
    | some found =>
      rw [hInt] at h
      have hSame := h.symm.trans (onOperands_pure found rest)
      cases hSame
      rw [(popTyped_eq_ok hPop).2, ofInt_of_int? hInt]

theorem popI32_eq_ok {operands left : List Value} {bits : BitVec 32}
    (h : onOperands popI32 operands = .ok (bits, left)) : operands = .i32 bits :: left :=
  popInt_eq_ok h

/-! ## Arguments -/

theorem onOperands_popParam_cons (signature : FunctionType) (t : ValueType) (v : Value)
    (operands : List Value) :
    onOperands (popParam signature t) (v :: operands) =
      if v.type = t then .ok (v, operands)
      else .error (.missingFunctionParams signature (.value v.type)) := by
  by_cases hType : v.type = t
  · have hPop : popParam signature t (ofFrames ((v :: operands).map .value)) =
        .ok v (ofFrames (operands.map .value)) := by
      simp [Stack.popParam, peek?, Frame.value?, hType]
    rw [onOperands, hPop, if_pos hType]
    simp only [reverse_values_ofFrames]
  · have hPop : popParam signature t (ofFrames ((v :: operands).map .value)) =
        .error (.missingFunctionParams signature (.value v.type))
          (ofFrames (operands.map .value)) := by
      simp [Stack.popParam, peek?, Frame.value?, hType]
    rw [onOperands, hPop, if_neg hType]

/-- Parameters that were taken are the operands on top; each comes before those taken earlier. -/
theorem popParams_append {signature : FunctionType} {types : List ValueType}
    {found arguments operands left : List Value}
    (h : onOperands (popParams signature types found) operands = .ok (arguments, left)) :
    ∃ taken, operands = taken ++ left ∧ arguments = taken.reverse ++ found ∧
      taken.map Value.type = types := by
  induction types generalizing found operands with
  | nil =>
    have hSame := h.symm.trans (onOperands_pure found operands)
    cases hSame
    exact ⟨[], rfl, rfl, rfl⟩
  | cons t rest ih =>
    unfold popParams at h
    rw [onOperands_bind (.popParam _ _)] at h
    cases operands with
    | nil => cases h
    | cons v others =>
      rw [onOperands_popParam_cons] at h
      split at h
      · rename_i hType
        obtain ⟨taken, hOperands, hArguments, hTypes⟩ := ih h
        simp only at hOperands hArguments
        refine ⟨v :: taken, ?_, ?_, ?_⟩
        · rw [hOperands, List.cons_append]
        · rw [hArguments, List.reverse_cons, List.append_assoc, List.singleton_append]
        · rw [List.map_cons, hType, hTypes]
      · cases h

/-- The arguments of a call are exactly the operands on top, the last one topmost, and have the
types of the parameters. -/
theorem popParams_eq_ok {signature : FunctionType} {arguments operands left : List Value}
    (h : onOperands (popParams signature signature.parameters.reverse []) operands =
      .ok (arguments, left)) :
    operands = arguments.reverse ++ left ∧ arguments.map Value.type = signature.parameters := by
  obtain ⟨taken, hOperands, hArguments, hTypes⟩ := popParams_append h
  rw [List.append_nil] at hArguments
  refine ⟨?_, ?_⟩
  · rw [hArguments, List.reverse_reverse, hOperands]
  · rw [hArguments, List.map_reverse, hTypes, List.reverse_reverse]

end Laws

end WasmMachine
