import WasmMachine.Proofs.Instance.Loading

/-!
# Initializers

An initializer is read twice: the loader takes its bytes up to the first `end`, and instantiation
takes its value. The loader admits any run of known instructions whose operands are nothing or a
constant; a value has only the run that is a single constant. The two readers agree on where an
instruction ends, so a payload byte that equals `end` misleads neither of them.

* `IsInitializer.closes`: the last byte of such a run is the first `end` on a boundary.
* `IsInitializer.isConstant_iff`: such a run has a value if it is one instruction, and a constant.
* `initializers_agree`: the two readers and one grammar.
-/

namespace WasmMachine

/-! ## Counting instructions -/

/-- From the first byte of a code, a number of instructions lead to an offset. -/
inductive InstructionsBefore (code : Bytes) : (count place : Nat) → Prop
  | start : InstructionsBefore code 0 0
  | next {count place next : Nat} {b : UInt8} (before : InstructionsBefore code count place)
      (byte : code[place]? = some b) (skip : skipOperands code (place + 1) b = .ok next) :
      InstructionsBefore code (count + 1) next

/-- The first `end` on an instruction boundary of a code stands at an offset. -/
structure FirstEnd (code : Bytes) (place : Nat) : Prop where
  boundary : Boundary code place
  byte : code[place]? = some endByte
  first : ∀ earlier < place, Boundary code earlier → code[earlier]? ≠ some endByte

/-- One instruction leads from the first byte past the operands of that byte. -/
theorem instructionsBefore_one_iff {code : Bytes} {place : Nat} :
    InstructionsBefore code 1 place ↔
      ∃ b, code[0]? = some b ∧ skipOperands code 1 b = .ok place := by
  constructor
  · rintro (_ | @⟨_, start, _, b, before, byte, skip⟩)
    cases before
    exact ⟨b, byte, skip⟩
  · rintro ⟨b, hByte, hSkip⟩
    exact .next .start hByte hSkip

/-! ## The end of an initializer -/

section

variable {code : Bytes} {pos : Nat} {form : List UInt8}

/-- The last byte of an initializer is the first `end` on an instruction boundary from its start
on. -/
theorem IsInitializer.closes_from (h : IsInitializer form) (hStands : StandsAt code pos form)
    (hStart : Boundary code pos)
    (hBefore : ∀ earlier < pos, Boundary code earlier → code[earlier]? ≠ some endByte) :
    FirstEnd code (pos + form.length - 1) := by
  induction h generalizing pos with
  | stop => exact ⟨hStart, hStands.head, hBefore⟩
  | @step b op operands rest not_end known operandForm tail ih =>
    have hByte := hStands.head
    have hSkip := skip_of_initForm known operandForm hStands.tail.append_left
    have hNext := hStart.next hByte hSkip
    have hLength : pos + (b :: (operands ++ rest)).length - 1 =
        pos + 1 + operands.length + rest.length - 1 := by
      rw [List.length_cons, List.length_append]
      omega
    rw [hLength]
    refine ih hStands.tail.append_right hNext fun earlier hEarlier hBoundary => ?_
    rcases Nat.lt_trichotomy earlier pos with hLt | rfl | hGt
    · exact hBefore earlier hLt hBoundary
    · rw [hByte]
      exact fun hSame => not_end (Option.some.inj hSame)
    · -- No instruction starts among the operands.
      obtain ⟨c, next, hc, hEnd, hLe⟩ := hStart.skip_of_lt hBoundary hGt
      rw [hByte] at hc
      cases hc
      rw [hSkip] at hEnd
      cases hEnd
      omega

theorem standsAt_self (code : Bytes) : StandsAt code 0 code.toList :=
  ⟨[], by rw [List.drop_zero, List.append_nil]⟩

/-- The last byte of an initializer is its first `end` on an instruction boundary. -/
theorem IsInitializer.closes {expr : Bytes} (h : IsInitializer expr.toList) :
    FirstEnd expr (expr.size - 1) := by
  have hEnd := h.closes_from (standsAt_self expr) .start fun earlier hEarlier =>
    absurd hEarlier (Nat.not_lt_zero _)
  rwa [Nat.zero_add, Array.length_toList] at hEnd

/-! ## Values of initializers -/

theorem IsInitializer.length_pos (h : IsInitializer form) : 0 < form.length := by
  cases h <;> exact Nat.succ_pos _

/-- An initializer of one byte is its `end` alone. -/
theorem IsInitializer.eq_end (h : IsInitializer form) (hLength : form.length = 1) :
    form = [endByte] := by
  cases h with
  | stop => rfl
  | step _ _ _ tail =>
    have hTail := tail.length_pos
    rw [List.length_cons, List.length_append] at hLength
    omega

/-- A constant is one instruction. -/
theorem IsConstant.single {expr : Bytes} {v : Value} (h : IsConstant expr v) :
    InstructionsBefore expr 1 (expr.size - 1) ∧ ∃ t, expr[0]? = some (constByte t) := by
  obtain ⟨form, hForm, hExpr⟩ := h
  have hStands := standsAt_self expr
  rw [hExpr] at hStands
  have hSize : expr.size = form.length + 1 := by
    rw [← Array.length_toList, hExpr, List.length_append, List.length_singleton]
  obtain ⟨t, operands, rfl, hOperands⟩ : ∃ t operands, form = constByte t :: operands ∧
      (Opcode.const t).operands.InitForm operands := by
    cases hForm with
    | i32 number => exact ⟨.i32, _, rfl, number⟩
    | i64 number => exact ⟨.i64, _, rfl, number⟩
    | f32 width => exact ⟨.f32, _, rfl, width⟩
    | f64 width => exact ⟨.f64, _, rfl, width⟩
  have hFirst := hStands.append_left
  have hSkip := skip_of_initForm (ofByte?_constByte t) hOperands hFirst.tail
  refine ⟨instructionsBefore_one_iff.2 ⟨_, hFirst.head, ?_⟩, t, hFirst.head⟩
  rw [hSkip, hSize, List.length_cons]
  congr 1
  omega

/-- An initializer that is one constant has a value. -/
theorem IsInitializer.isConstant {expr : Bytes} (h : IsInitializer expr.toList)
    (hOne : InstructionsBefore expr 1 (expr.size - 1)) {t : ValueType}
    (hConst : expr[0]? = some (constByte t)) : ∃ v, IsConstant expr v := by
  obtain ⟨b, hByte, hSkip⟩ := instructionsBefore_one_iff.1 hOne
  have hStands := standsAt_self expr
  generalize hForm : expr.toList = form at h hStands
  cases h with
  | stop =>
    have hEnd := hStands.head
    rw [hConst] at hEnd
    cases t <;> cases hEnd
  | @step c op operands rest not_end known operandForm tail =>
    have hHead := hStands.head
    rw [hConst] at hHead hByte
    cases hHead
    cases hByte
    rw [ofByte?_constByte] at known
    cases known
    rw [skip_of_initForm (ofByte?_constByte t) operandForm hStands.tail.append_left] at hSkip
    have hSize : expr.size = operands.length + rest.length + 1 := by
      rw [← Array.length_toList, hForm, List.length_cons, List.length_append]
    have hRest := tail.length_pos
    have hPlace : 0 + 1 + operands.length = expr.size - 1 := Except.ok.inj hSkip
    rw [tail.eq_end (by omega), ← List.cons_append] at hForm
    cases t with
    | i32 => exact ⟨_, _, .i32 operandForm, hForm⟩
    | i64 => exact ⟨_, _, .i64 operandForm, hForm⟩
    | f32 => exact ⟨_, _, .f32 operandForm, hForm⟩
    | f64 => exact ⟨_, _, .f64 operandForm, hForm⟩

/-- An initializer has a value if it is one instruction, and that is a constant. -/
theorem IsInitializer.isConstant_iff {expr : Bytes} (h : IsInitializer expr.toList) :
    (∃ v, IsConstant expr v) ↔
      InstructionsBefore expr 1 (expr.size - 1) ∧ ∃ t, expr[0]? = some (constByte t) :=
  ⟨fun ⟨_, hConst⟩ => hConst.single, fun ⟨hOne, _, hConst⟩ => h.isConstant hOne hConst⟩

end

/-! ## One grammar -/

/-- The two readers of initializers agree on one grammar. An expression has a value if it is one
constant and its `end`: the opcode of its type, a number in LEB128 within the width of the type or
the bytes of a float, and one `end` with nothing behind it. Any other expression is refused. What
the loader takes as an initializer are exactly the bytes that it moved over, the last of them is
the first `end` on an instruction boundary, and they have a value if the one instruction in front
of it is a constant. -/
theorem initializers_agree :
    (∀ expr v, evaluateConst expr = .ok v ↔ IsConstant expr v) ∧
    (∀ expr, (∀ v, ¬ IsConstant expr v) →
      evaluateConst expr = .error (.invalidInitExpr (.notConstant expr))) ∧
    ∀ c c' expr, Reader.initExpr c = .ok expr c' →
      (expr = c.bytes.extract c.pos c'.pos ∧ c'.bytes = c.bytes ∧ c'.pos = c.pos + expr.size) ∧
      FirstEnd expr (expr.size - 1) ∧
      ((∃ v, evaluateConst expr = .ok v) ↔
        InstructionsBefore expr 1 (expr.size - 1) ∧ ∃ t, expr[0]? = some (constByte t)) := by
  refine ⟨fun expr v => evaluateConst_eq_ok_iff, fun expr hNone => ?_, fun c c' expr h => ?_⟩
  · cases hValue : evaluateConst expr with
    | ok v => exact absurd (evaluateConst_eq_ok_iff.1 hValue) (hNone v)
    | error e =>
      unfold evaluateConst at hValue
      split at hValue
      · split at hValue
        · cases hValue
        · exact hValue.symm
      · exact hValue.symm
  · obtain ⟨hInit, hPassed⟩ := Reader.initExpr_reads h
    refine ⟨⟨hPassed.extract.symm, hPassed.bytes, hPassed.pos⟩, hInit.closes, ?_⟩
    simp only [evaluateConst_eq_ok_iff]
    exact hInit.isConstant_iff

/-- A float constant all of whose bytes equal `end`. -/
def endsFloat : Bytes := #[0x43, 0x0b, 0x0b, 0x0b, 0x0b, 0x0b]

/-- The same bytes with one more `end` behind them. -/
def endsBytes : Bytes := #[0x43, 0x0b, 0x0b, 0x0b, 0x0b, 0x0b, 0x0b]

/-- The bytes of a float are no end of its initializer: the loader takes all of them and the `end`
behind them, but not the next one. -/
theorem initializers_agree_payload :
    Reader.initExpr (cursorAt endsBytes 0) = .ok endsFloat (cursorAt endsBytes 6) ∧
      endsFloat = endsBytes.extract 0 6 ∧ FirstEnd endsFloat 5 ∧
      evaluateConst endsFloat = .ok (.f32 0x0b0b0b0b) ∧ InstructionsBefore endsFloat 1 5 := by
  have hKnown : Opcode.ofByte? 0x43 = some (.const .f32) := ofByte?_constByte .f32
  have hOperand : (Opcode.const .f32).operands.InitForm [0x0b, 0x0b, 0x0b, 0x0b] := rfl
  have hInit : IsInitializer endsFloat.toList := .step (by decide) hKnown hOperand .stop
  have hRead : Reader.initExpr (cursorAt endsBytes 0) = .ok endsFloat (cursorAt endsBytes 6) :=
    Reader.takes_initExpr hInit ⟨⟨[0x0b], rfl⟩, by decide, by decide⟩
  obtain ⟨hValue, -, hLoad⟩ := initializers_agree
  obtain ⟨⟨hBytes, -⟩, hEnd, hIff⟩ := hLoad _ _ _ hRead
  have hForm : ConstantForm (0x43 :: [0x0b, 0x0b, 0x0b, 0x0b]) (.f32 0x0b0b0b0b) := .f32 rfl
  have hHere : evaluateConst endsFloat = .ok (.f32 0x0b0b0b0b) := (hValue _ _).2 ⟨_, hForm, rfl⟩
  exact ⟨hRead, hBytes, hEnd, hHere, (hIff.1 ⟨_, hHere⟩).1⟩

end WasmMachine
