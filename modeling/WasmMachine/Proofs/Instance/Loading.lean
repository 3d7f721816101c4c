import WasmMachine.Proofs.Binary.Locality
import WasmMachine.Proofs.Code.Forms
import WasmMachine.Proofs.Instance.Constants

/-!
# Taking an initializer

The loader takes the instructions of an initializer one by one, up to the first `end`. It reads
their operands by its own means, which admit some forms only: nothing, a number, or the bytes of a
float. Each of these is a form of operands in code, where stepping over them ends right behind.

* `skip_of_initForm`: stepping over operands that the loader admits.
* `Reader.passed_of_initOperands`: the operands that the loader takes have a form that it admits.
* `Reader.initExpr_reads`: what the loader takes is a run of instructions closed by its first `end`.
-/

namespace WasmMachine

open Leb128

/-! ## Forms of operands -/

theorem IsVarint.weaken {limit more : Nat} {digits : List UInt8} (h : IsVarint limit digits)
    (hMore : limit ≤ more) : IsVarint more digits := by
  induction h generalizing more with
  | last hLast =>
    obtain ⟨more, rfl⟩ := Nat.exists_eq_add_of_lt (Nat.lt_of_succ_le hMore)
    exact .last hLast
  | more hHigh tail ih =>
    obtain ⟨more, rfl⟩ := Nat.exists_eq_add_of_lt (Nat.lt_of_succ_le hMore)
    exact .more hHigh (ih (by omega))

/-- Operands that the loader admits in an initializer are operands in code. -/
theorem Operands.InitForm.form {layout : Operands} {operands : List UInt8}
    (h : layout.InitForm operands) : layout.Form operands := by
  cases layout with
  | varS32 => exact IsVarint.weaken h (by decide)
  | empty | varU32 | varS64 | float32 | float64 => exact h
  | blockType | memArg | callIndirect | branchTable | reserved => exact h.elim

/-- Stepping over the operands that stand in an initializer ends right behind them. -/
theorem skip_of_initForm {code : Bytes} {pos : Nat} {b : UInt8} {op : Opcode}
    {operands : List UInt8} (hOp : Opcode.ofByte? b = some op)
    (hForm : op.operands.InitForm operands) (hStands : StandsAt code pos operands) :
    skipOperands code pos b = .ok (pos + operands.length) := by
  refine skipOperands_eq_ok_iff.2 ⟨operands, ?_, hStands, rfl⟩
  rw [Operands.ofByte, hOp]
  exact hForm.form

/-! ## What the loader takes -/

namespace Reader

/-- The bytes of a form lie between two places of a cursor. -/
structure Passed (c c' : Cursor) (form : List UInt8) : Prop where
  bytes : c'.bytes = c.bytes
  stands : StandsAt c.bytes c.pos form
  pos : c'.pos = c.pos + form.length

theorem Passed.append {c mid c' : Cursor} {first second : List UInt8} (h : Passed c mid first)
    (h' : Passed mid c' second) : Passed c c' (first ++ second) := by
  have hSecond := h'.stands
  rw [h.bytes, h.pos] at hSecond
  exact ⟨h'.bytes.trans h.bytes, h.stands.append hSecond,
    by rw [h'.pos, h.pos, List.length_append, Nat.add_assoc]⟩

theorem Passed.extract {c c' : Cursor} {form : List UInt8} (h : Passed c c' form) :
    c.bytes.extract c.pos c'.pos = form.toArray := by
  have hFits : c.pos + form.length ≤ c.bytes.size := by
    have hEnd := c'.pos_le_size
    rwa [h.bytes, h.pos] at hEnd
  have hSlice : c.bytes.slice? c.pos form.length = some form.toArray :=
    slice?_eq_some_iff.2 ⟨rfl, hFits, h.stands⟩
  rw [Bytes.slice?, if_pos hFits] at hSlice
  rw [h.pos]
  exact Option.some.inj hSlice

theorem passed_of_byte {c c' : Cursor} {b : UInt8} (h : byte c = .ok b c') : Passed c c' [b] := by
  obtain ⟨hByte, hBytes, hPos⟩ := byte_eq_ok h
  exact ⟨hBytes, .cons hByte ⟨_, rfl⟩, hPos⟩

theorem varint_eq_ok {α : Type} {width : Nat}
    {decode : Bytes → Nat → Except VarintError (α × Nat)}
    (hBounds : ∀ {bytes pos v next}, decode bytes pos = .ok (v, next) → next ≤ bytes.size)
    {c c' : Cursor} {v : α} (h : varint width decode c = .ok v c') :
    c'.bytes = c.bytes ∧ decode c.bytes c.pos = .ok (v, c'.pos) := by
  unfold varint at h
  split at h
  · rename_i w next hDecode
    cases h
    refine ⟨rfl, ?_⟩
    rw [Cursor.pos_moveTo (hBounds hDecode)]
    exact hDecode
  · cases h

/-- A number that was taken has the form of a number. -/
theorem passed_of_varint {α : Type} {width : Nat}
    {decode : Bytes → Nat → Except VarintError (α × Nat)}
    (hGroups : ∀ {bytes pos v next}, decode bytes pos = .ok (v, next) →
      ∃ groups, readGroups bytes (groupLimit width) pos = .ok (groups, next))
    {c c' : Cursor} (h : (do let _ ← varint width decode : Reader Unit) c = .ok () c') :
    ∃ digits, IsVarint (groupLimit width) digits ∧ Passed c c' digits := by
  obtain ⟨v, mid, hNumber, hEnd⟩ := exists_of_run_bind_eq_ok h
  cases hEnd
  have hBounds : ∀ {bytes pos v next}, decode bytes pos = .ok (v, next) → next ≤ bytes.size :=
    fun hDecode => (readGroups_bounds (hGroups hDecode).choose_spec).2
  obtain ⟨hBytes, hDecode⟩ := varint_eq_ok hBounds hNumber
  obtain ⟨groups, hRead⟩ := hGroups hDecode
  obtain ⟨digits, hDigits, hStands, -, hNext⟩ := readGroups_eq_ok_iff.1 hRead
  exact ⟨digits, hDigits, hBytes, hStands, hNext⟩

theorem passed_of_bytes {len : Nat} {c c' : Cursor}
    (h : (do let _ ← bytes len : Reader Unit) c = .ok () c') :
    ∃ taken : List UInt8, taken.length = len ∧ Passed c c' taken := by
  obtain ⟨taken, mid, hTaken, hEnd⟩ := exists_of_run_bind_eq_ok h
  cases hEnd
  obtain ⟨hExtract, hBytes, hPos, hFits⟩ := eq_extract_of_bytes hTaken
  have hSlice : c.bytes.slice? c.pos len = some taken := by
    rw [Bytes.slice?, if_pos hFits, hExtract]
  obtain ⟨hSize, -, hStands⟩ := slice?_eq_some_iff.1 hSlice
  rw [← Array.length_toList] at hSize
  exact ⟨taken.toList, hSize, hBytes, hStands, by rw [hPos, hSize]⟩

theorem exists_groups_of_decodeU32 {bytes : Bytes} {pos next : Nat} {v : UInt32}
    (h : decodeU32 bytes pos = .ok (v, next)) :
    ∃ groups, readGroups bytes (groupLimit 32) pos = .ok (groups, next) := by
  unfold decodeU32 at h
  split at h
  · cases h
  · rename_i hGroups
    cases h
    exact ⟨_, hGroups⟩

theorem exists_groups_of_decodeSigned {width : Nat} {bytes : Bytes} {pos next : Nat}
    {v : BitVec width} (h : decodeSigned width bytes pos = .ok (v, next)) :
    ∃ groups, readGroups bytes (groupLimit width) pos = .ok (groups, next) := by
  unfold decodeSigned at h
  split at h
  · cases h
  · rename_i hGroups
    cases h
    exact ⟨_, hGroups⟩

/-- The operands that the loader takes have a form that it admits. -/
theorem passed_of_initOperands {b : UInt8} {place : Nat} {c c' : Cursor}
    (h : initOperands b place c = .ok () c') :
    ∃ op operands, Opcode.ofByte? b = some op ∧ op.operands.InitForm operands ∧
      Passed c c' operands := by
  unfold initOperands at h
  cases hOp : Opcode.ofByte? b with
  | none =>
    rw [hOp, Option.map_none] at h
    cases h
  | some op =>
    rw [hOp, Option.map_some] at h
    suffices hForm : ∃ operands, op.operands.InitForm operands ∧ Passed c c' operands by
      obtain ⟨operands, hForm, hPassed⟩ := hForm
      exact ⟨op, operands, rfl, hForm, hPassed⟩
    generalize op.operands = layout at h
    cases layout with
    | empty =>
      cases h
      exact ⟨[], rfl, rfl, ⟨_, rfl⟩, rfl⟩
    | varU32 => exact passed_of_varint exists_groups_of_decodeU32 h
    | varS32 | varS64 => exact passed_of_varint exists_groups_of_decodeSigned h
    | float32 | float64 => exact passed_of_bytes h
    | blockType | memArg | callIndirect | branchTable | reserved => cases h

/-- The instructions that the loader takes are an initializer. -/
theorem passed_of_initInstructions {fuel : Nat} {c c' : Cursor}
    (h : initInstructions fuel c = .ok () c') : ∃ form, IsInitializer form ∧ Passed c c' form := by
  induction fuel generalizing c with
  | zero => cases h
  | succ fuel ih =>
    obtain ⟨place, c₀, hPlace, hRest⟩ := exists_of_run_bind_eq_ok h
    cases hPlace
    obtain ⟨b, c₁, hTaken, hRest⟩ := exists_of_run_bind_eq_ok hRest
    have hByte := passed_of_byte hTaken
    by_cases hEnd : b = endByte
    · subst hEnd
      rw [if_pos rfl] at hRest
      cases hRest
      exact ⟨[endByte], .stop, hByte⟩
    · rw [if_neg hEnd] at hRest
      obtain ⟨u, c₂, hOperands, hRest⟩ := exists_of_run_bind_eq_ok hRest
      obtain ⟨op, operands, hOp, hForm, hPassed⟩ := passed_of_initOperands hOperands
      obtain ⟨form, hInit, hLater⟩ := ih hRest
      exact ⟨b :: (operands ++ form), .step hEnd hOp hForm hInit,
        hByte.append (hPassed.append hLater)⟩

/-- What the loader takes is an initializer, and it keeps exactly the bytes that it took. -/
theorem initExpr_reads {c c' : Cursor} {expr : Bytes} (h : initExpr c = .ok expr c') :
    IsInitializer expr.toList ∧ Passed c c' expr.toList := by
  rw [initExpr_eq] at h
  cases hRun : initInstructions (c.remaining + 1) c with
  | error e c₁ =>
    rw [hRun] at h
    cases h
  | ok u c₁ =>
    rw [hRun] at h
    cases h
    obtain ⟨form, hInit, hPassed⟩ := passed_of_initInstructions hRun
    rw [Cursor.slice, hPassed.bytes, hPassed.extract]
    exact ⟨hInit, hPassed⟩

end Reader

end WasmMachine
