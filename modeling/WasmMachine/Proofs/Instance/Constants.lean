import WasmMachine.Instance
import WasmMachine.Proofs.Binary.Encoding

/-!
# Constant expressions

An initializer has a value if it is a single constant and its `end`: an integer in LEB128, in its
shortest form or not, or the bytes of a float. Nothing may stand behind the `end`.

* `ConstantForm`: the binary forms of a constant.
* `evaluateConst_eq_ok_iff`: the expressions that have a value.
* `evaluateOffset_eq_ok_iff`: the expressions that are the offset of a segment.
-/

namespace WasmMachine

open Leb128

/-- The bytes of an instruction that gives a constant. -/
inductive ConstantForm : List UInt8 → Value → Prop
  | i32 {digits : List UInt8} (number : IsVarint (groupLimit 32) digits) :
      ConstantForm (0x41 :: digits)
        (.i32 (BitVec.ofInt 32 (signedValue (digitGroups digits))))
  | i64 {digits : List UInt8} (number : IsVarint (groupLimit 64) digits) :
      ConstantForm (0x42 :: digits)
        (.i64 (BitVec.ofInt 64 (signedValue (digitGroups digits))))
  | f32 {bits : List UInt8} (width : bits.length = 4) :
      ConstantForm (0x43 :: bits) (.f32 (BitVec.ofNat 32 (littleEndian bits)))
  | f64 {bits : List UInt8} (width : bits.length = 8) :
      ConstantForm (0x44 :: bits) (.f64 (BitVec.ofNat 64 (littleEndian bits)))

/-- An expression that is a single constant and its `end`. -/
def IsConstant (expr : Bytes) (v : Value) : Prop :=
  ∃ form, ConstantForm form v ∧ expr.toList = form ++ [endByte]

/-! ## Operands -/

theorem decodeSigned_eq_ok_iff {width : Nat} {bytes : Bytes} {pos next : Nat} {v : BitVec width} :
    decodeSigned width bytes pos = .ok (v, next) ↔
      ∃ digits, IsVarint (groupLimit width) digits ∧ StandsAt bytes pos digits ∧
        v = BitVec.ofInt width (signedValue (digitGroups digits)) ∧
        next = pos + digits.length := by
  unfold decodeSigned
  constructor
  · intro h
    split at h
    · cases h
    · rename_i hGroups
      cases h
      obtain ⟨digits, hDigits, hStands, rfl, rfl⟩ := readGroups_eq_ok_iff.1 hGroups
      exact ⟨digits, hDigits, hStands, rfl, rfl⟩
  · rintro ⟨digits, hDigits, hStands, rfl, rfl⟩
    rw [readGroups_of_isVarint hDigits hStands]

theorem slice?_eq_some_iff {bytes taken : Bytes} {start len : Nat} :
    bytes.slice? start len = some taken ↔
      taken.size = len ∧ start + len ≤ bytes.size ∧ StandsAt bytes start taken.toList := by
  have hExtract : (bytes.extract start (start + len)).toList =
      (bytes.toList.drop start).take len := by
    rw [Array.toList_extract, List.extract_eq_take_drop, Nat.add_sub_cancel_left]
  unfold Bytes.slice?
  constructor
  · intro h
    split at h
    · rename_i hFits
      cases h
      refine ⟨by rw [Array.size_extract]; omega, hFits, (bytes.toList.drop start).drop len, ?_⟩
      rw [hExtract, List.take_append_drop]
    · cases h
  · rintro ⟨rfl, hFits, rest, hRest⟩
    have hTaken : bytes.extract start (start + taken.size) = taken := by
      rw [← Array.toList_inj, hExtract, hRest]
      exact List.take_left' rfl
    rw [if_pos hFits, hTaken]

/-! ## Opcodes -/

/-- The byte of the constant instruction of a type. -/
def constByte : ValueType → UInt8
  | .i32 => 0x41
  | .i64 => 0x42
  | .f32 => 0x43
  | .f64 => 0x44

theorem ofByte?_constByte (t : ValueType) : Opcode.ofByte? (constByte t) = some (.const t) := by
  cases t <;> decide +kernel

/-- The type of the constant that an instruction gives. -/
def Opcode.constType? : Opcode → Option ValueType
  | .const t => some t
  | _ => none

theorem eq_constByte {b : UInt8} {t : ValueType} (h : Opcode.ofByte? b = some (.const t)) :
    b = constByte t := by
  have hAll : ∀ n : Fin 256, ∀ t ∈ (Opcode.ofByte? (UInt8.ofNat n.val)).bind Opcode.constType?,
      UInt8.ofNat n.val = constByte t := by
    decide +kernel
  have hHere := hAll ⟨b.toNat, b.toNat_lt⟩ t
  rw [UInt8.ofNat_toNat, h] at hHere
  exact hHere rfl

/-! ## Expressions -/

theorem exists_form_of_constant? {expr : Bytes} {v : Value} {next : Nat}
    (h : constant? expr = some (v, next)) :
    ∃ form, ConstantForm form v ∧ StandsAt expr 0 form ∧ next = form.length := by
  have hByte : ∀ {t}, (expr[0]?).bind Opcode.ofByte? = some (.const t) →
      expr[0]? = some (constByte t) := by
    intro t hFirst
    obtain ⟨b, hb, hOp⟩ := Option.bind_eq_some_iff.1 hFirst
    rw [hb, eq_constByte hOp]
  unfold constant? at h
  split at h
  · rename_i hFirst
    split at h
    · rename_i hDecode
      cases h
      obtain ⟨digits, hDigits, hStands, rfl, rfl⟩ := decodeSigned_eq_ok_iff.1 hDecode
      exact ⟨_, .i32 hDigits, .cons (hByte hFirst) hStands, Nat.add_comm _ _⟩
    · cases h
  · rename_i hFirst
    split at h
    · rename_i hDecode
      cases h
      obtain ⟨digits, hDigits, hStands, rfl, rfl⟩ := decodeSigned_eq_ok_iff.1 hDecode
      exact ⟨_, .i64 hDigits, .cons (hByte hFirst) hStands, Nat.add_comm _ _⟩
    · cases h
  · rename_i hFirst
    obtain ⟨bits, hBits, hEq⟩ := Option.map_eq_some_iff.1 h
    cases hEq
    obtain ⟨hWidth, -, hStands⟩ := slice?_eq_some_iff.1 hBits
    rw [← Array.length_toList] at hWidth
    exact ⟨_, .f32 hWidth, .cons (hByte hFirst) hStands, by rw [List.length_cons, hWidth]⟩
  · rename_i hFirst
    obtain ⟨bits, hBits, hEq⟩ := Option.map_eq_some_iff.1 h
    cases hEq
    obtain ⟨hWidth, -, hStands⟩ := slice?_eq_some_iff.1 hBits
    rw [← Array.length_toList] at hWidth
    exact ⟨_, .f64 hWidth, .cons (hByte hFirst) hStands, by rw [List.length_cons, hWidth]⟩
  · cases h

theorem constant?_of_form {expr : Bytes} {v : Value} {form : List UInt8}
    (h : ConstantForm form v) (hStands : StandsAt expr 0 form) (hFits : form.length ≤ expr.size) :
    constant? expr = some (v, form.length) := by
  have hFirst : ∀ {t rest}, form = constByte t :: rest →
      (expr[0]?).bind Opcode.ofByte? = some (.const t) ∧ StandsAt expr 1 rest := by
    rintro t rest rfl
    rw [hStands.head, Option.bind_some]
    exact ⟨ofByte?_constByte t, hStands.tail⟩
  unfold constant?
  cases h with
  | @i32 digits number =>
    obtain ⟨hOp, hDigits⟩ := hFirst (t := .i32) rfl
    have hDecode : decodeS32 expr 1 = _ :=
      decodeSigned_eq_ok_iff.2 ⟨digits, number, hDigits, rfl, rfl⟩
    simp only [hOp, hDecode, List.length_cons, Nat.add_comm]
  | @i64 digits number =>
    obtain ⟨hOp, hDigits⟩ := hFirst (t := .i64) rfl
    have hDecode : decodeS64 expr 1 = _ :=
      decodeSigned_eq_ok_iff.2 ⟨digits, number, hDigits, rfl, rfl⟩
    simp only [hOp, hDecode, List.length_cons, Nat.add_comm]
  | @f32 bits width =>
    obtain ⟨hOp, hBits⟩ := hFirst (t := .f32) rfl
    rw [List.length_cons, width] at hFits
    have hSlice : expr.slice? 1 4 = some bits.toArray :=
      slice?_eq_some_iff.2 ⟨width, by omega, hBits⟩
    simp only [hOp, hSlice, Option.map_some, List.length_cons, width]
  | @f64 bits width =>
    obtain ⟨hOp, hBits⟩ := hFirst (t := .f64) rfl
    rw [List.length_cons, width] at hFits
    have hSlice : expr.slice? 1 8 = some bits.toArray :=
      slice?_eq_some_iff.2 ⟨width, by omega, hBits⟩
    simp only [hOp, hSlice, Option.map_some, List.length_cons, width]

/-- An expression has a value exactly if it is a single constant. -/
theorem evaluateConst_eq_ok_iff {expr : Bytes} {v : Value} :
    evaluateConst expr = .ok v ↔ IsConstant expr v := by
  constructor
  · intro h
    unfold evaluateConst at h
    split at h
    · rename_i found next hConstant
      split at h
      · rename_i hEnd
        cases h
        obtain ⟨form, hForm, ⟨rest, hRest⟩, rfl⟩ := exists_form_of_constant? hConstant
        obtain ⟨hLast, hSize⟩ := hEnd
        rw [List.drop_zero] at hRest
        rw [← Array.length_toList, hRest, List.length_append] at hSize
        obtain ⟨last, rfl⟩ := List.length_eq_one_iff.1 (Nat.add_left_cancel hSize)
        rw [← Array.getElem?_toList, hRest, List.getElem?_concat_length] at hLast
        cases hLast
        exact ⟨form, hForm, hRest⟩
      · cases h
    · cases h
  · rintro ⟨form, hForm, hExpr⟩
    have hSize : expr.size = form.length + 1 := by
      rw [← Array.length_toList, hExpr, List.length_append, List.length_singleton]
    have hStands : StandsAt expr 0 form := ⟨[endByte], by rw [hExpr, List.drop_zero]⟩
    have hLast : expr[form.length]? = some endByte := by
      rw [← Array.getElem?_toList, hExpr, List.getElem?_concat_length]
    unfold evaluateConst
    rw [constant?_of_form hForm hStands (by omega)]
    exact if_pos ⟨hLast, hSize⟩

/-- An expression has at most one value. -/
theorem IsConstant.unique {expr : Bytes} {v w : Value} (hv : IsConstant expr v)
    (hw : IsConstant expr w) : v = w :=
  Except.ok.inj ((evaluateConst_eq_ok_iff.2 hv).symm.trans (evaluateConst_eq_ok_iff.2 hw))

/-- The offset of a segment is a single constant of type `i32`, read as unsigned. -/
theorem evaluateOffset_eq_ok_iff {expr : Bytes} {offset : UInt32} :
    evaluateOffset expr = .ok offset ↔
      ∃ v : BitVec 32, IsConstant expr (.i32 v) ∧ offset.toNat = v.toNat := by
  constructor
  · intro h
    obtain ⟨v, hConst, hRest⟩ := exists_of_bind_eq_ok h
    cases v with
    | i32 bits =>
      cases hRest
      exact ⟨bits, evaluateConst_eq_ok_iff.1 hConst, UInt32.toNat_ofNat_of_lt' bits.isLt⟩
    | _ => cases hRest
  · rintro ⟨v, hConst, hOffset⟩
    unfold evaluateOffset
    rw [evaluateConst_eq_ok_iff.2 hConst]
    change Except.ok (UInt32.ofNat v.toNat) = .ok offset
    rw [← hOffset, UInt32.ofNat_toNat]

end WasmMachine
