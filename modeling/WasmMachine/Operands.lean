import WasmMachine.Leb128
import WasmMachine.Opcode

/-!
# Stepping over operands

`skipOperands` gives the offset just past the operands of the opcode byte that stands right
before an offset. A byte of no opcode has no operands. Block types and signed constants are
passed over as 64-bit numbers, whatever width their instruction gives them.

* `le_of_skipOperands`: stepping over operands never goes back, which is what makes every
  scan of a code body end.
-/

namespace WasmMachine

open Leb128

/-- Steps over one number of at most `width` bits. -/
def skipNumber (code : Bytes) (width pos : Nat) : Except VarintError Nat :=
  match readGroups code (groupLimit width) pos with
  | .error e => .error e
  | .ok (_, next) => .ok next

/-- Steps over `count` unsigned numbers. -/
def skipNumbers (code : Bytes) : (count pos : Nat) → Except VarintError Nat
  | 0, pos => .ok pos
  | count + 1, pos =>
    match skipNumber code 32 pos with
    | .error e => .error e
    | .ok next => skipNumbers code count next

/-- Steps over a fixed number of bytes. -/
def skipFixed (code : Bytes) (width pos : Nat) : Except VarintError Nat :=
  if pos + width ≤ code.size then .ok (pos + width) else .error .unexpectedEof

/-- Steps over a count and the depths of a branch table, one more than the count. -/
def skipBranchTable (code : Bytes) (pos : Nat) : Except VarintError Nat :=
  match decodeU32 code pos with
  | .error e => .error e
  | .ok (count, next) => skipNumbers code (count.toNat + 1) next

/-- Steps over operands of a given layout. -/
def Operands.skip (code : Bytes) (pos : Nat) : Operands → Except VarintError Nat
  | .empty => .ok pos
  | .blockType => skipNumber code 64 pos
  | .varS32 => skipNumber code 64 pos
  | .varS64 => skipNumber code 64 pos
  | .varU32 => skipNumber code 32 pos
  | .reserved => skipNumber code 32 pos
  | .memArg => skipNumbers code 2 pos
  | .callIndirect => skipNumbers code 2 pos
  | .branchTable => skipBranchTable code pos
  | .float32 => skipFixed code 4 pos
  | .float64 => skipFixed code 8 pos

/-- The offset past the operands of the opcode byte `b` that stands right before `pos`. -/
def skipOperands (code : Bytes) (pos : Nat) (b : UInt8) : Except VarintError Nat :=
  (Operands.ofByte b).skip code pos

/-! ## No step goes back -/

theorem lt_of_skipNumber {code : Bytes} {width pos next : Nat}
    (h : skipNumber code width pos = .ok next) : pos < next := by
  unfold skipNumber at h
  split at h
  · cases h
  · rename_i hGroups
    cases h
    exact (readGroups_bounds hGroups).1

theorem le_of_skipNumbers {code : Bytes} {count pos next : Nat}
    (h : skipNumbers code count pos = .ok next) : pos ≤ next := by
  induction count generalizing pos with
  | zero => unfold skipNumbers at h; cases h; exact Nat.le_refl _
  | succ count ih =>
    unfold skipNumbers at h
    split at h
    · cases h
    · rename_i hNumber
      have hFirst := lt_of_skipNumber hNumber
      have hRest := ih h
      omega

theorem le_of_skipFixed {code : Bytes} {width pos next : Nat}
    (h : skipFixed code width pos = .ok next) : pos ≤ next := by
  unfold skipFixed at h
  split at h
  · cases h; omega
  · cases h

theorem le_of_skipBranchTable {code : Bytes} {pos next : Nat}
    (h : skipBranchTable code pos = .ok next) : pos ≤ next := by
  unfold skipBranchTable at h
  split at h
  · cases h
  · rename_i hDecode
    have hFirst := decodeU32_bounds hDecode
    have hRest := le_of_skipNumbers h
    omega

/-- Stepping over operands never goes back. -/
theorem le_of_skipOperands {code : Bytes} {pos next : Nat} {b : UInt8}
    (h : skipOperands code pos b = .ok next) : pos ≤ next := by
  unfold skipOperands at h
  cases hLayout : Operands.ofByte b <;> rw [hLayout] at h <;> simp only [Operands.skip] at h
  case empty => cases h; exact Nat.le_refl _
  case blockType => exact Nat.le_of_lt (lt_of_skipNumber h)
  case varU32 => exact Nat.le_of_lt (lt_of_skipNumber h)
  case varS32 => exact Nat.le_of_lt (lt_of_skipNumber h)
  case varS64 => exact Nat.le_of_lt (lt_of_skipNumber h)
  case float32 => exact le_of_skipFixed h
  case float64 => exact le_of_skipFixed h
  case memArg => exact le_of_skipNumbers h
  case callIndirect => exact le_of_skipNumbers h
  case branchTable => exact le_of_skipBranchTable h
  case reserved => exact Nat.le_of_lt (lt_of_skipNumber h)

end WasmMachine
