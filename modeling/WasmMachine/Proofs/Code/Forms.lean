import WasmMachine.Proofs.Binary.Encoding

/-!
# Forms of operands

Behind an opcode byte stand numbers in LEB128, in their shortest form or not, or a fixed number of
bytes. Stepping over operands takes every such form, whatever follows it in the code, and takes
nothing else. It does not ask for more: a block type may be any number of at most 64 bits.

* `Operands.Form`: the bytes that the operands of a layout may be.
* `skipOperands_eq_ok_iff`: stepping over operands ends right behind the form that stands there.
-/

namespace WasmMachine

open Leb128

/-- Bytes that form `count` numbers of at most `limit` groups each. -/
inductive AreVarints (limit : Nat) : (count : Nat) → List UInt8 → Prop
  | nil : AreVarints limit 0 []
  | cons {count : Nat} {digits rest : List UInt8} (first : IsVarint limit digits)
      (others : AreVarints limit count rest) : AreVarints limit (count + 1) (digits ++ rest)

/-- The unsigned number that the bytes of a number hold. -/
def countOf (digits : List UInt8) : UInt32 := UInt32.ofNat (unsignedValue (digitGroups digits))

/-- A count, and one label depth more than it says. -/
def IsBranchTable (bytes : List UInt8) : Prop :=
  ∃ count depths, IsVarint (groupLimit 32) count ∧
    AreVarints (groupLimit 32) ((countOf count).toNat + 1) depths ∧ bytes = count ++ depths

/-- The bytes that the operands of a layout may be. -/
def Operands.Form : Operands → List UInt8 → Prop
  | .empty, bytes => bytes = []
  | .blockType, bytes => IsVarint (groupLimit 64) bytes
  | .varU32, bytes => IsVarint (groupLimit 32) bytes
  | .varS32, bytes => IsVarint (groupLimit 64) bytes
  | .varS64, bytes => IsVarint (groupLimit 64) bytes
  | .float32, bytes => bytes.length = 4
  | .float64, bytes => bytes.length = 8
  | .memArg, bytes => AreVarints (groupLimit 32) 2 bytes
  | .callIndirect, bytes => AreVarints (groupLimit 32) 2 bytes
  | .branchTable, bytes => IsBranchTable bytes
  | .reserved, bytes => IsVarint (groupLimit 32) bytes

section

variable {code : Bytes} {pos next : Nat}

/-- Some form stands at an offset, and another offset is right behind it. -/
def Passes (code : Bytes) (form : List UInt8 → Prop) (pos next : Nat) : Prop :=
  ∃ bytes, form bytes ∧ StandsAt code pos bytes ∧ next = pos + bytes.length

theorem skipNumber_eq_ok_iff {width : Nat} :
    skipNumber code width pos = .ok next ↔
      Passes code (IsVarint (groupLimit width)) pos next := by
  unfold skipNumber
  constructor
  · intro h
    split at h
    · cases h
    · rename_i hGroups
      cases h
      obtain ⟨digits, hDigits, hStands, -, hNext⟩ := readGroups_eq_ok_iff.1 hGroups
      exact ⟨digits, hDigits, hStands, hNext⟩
  · rintro ⟨digits, hDigits, hStands, rfl⟩
    rw [readGroups_of_isVarint hDigits hStands]

theorem skipNumbers_eq_ok_iff {count : Nat} :
    skipNumbers code count pos = .ok next ↔
      Passes code (AreVarints (groupLimit 32) count) pos next := by
  induction count generalizing pos with
  | zero =>
    constructor
    · intro h
      cases h
      exact ⟨[], .nil, ⟨_, rfl⟩, rfl⟩
    · rintro ⟨bytes, hBytes, -, rfl⟩
      cases hBytes
      rfl
  | succ count ih =>
    unfold skipNumbers
    constructor
    · intro h
      split at h
      · cases h
      · rename_i mid hFirst
        obtain ⟨digits, hDigits, hHere, rfl⟩ := skipNumber_eq_ok_iff.1 hFirst
        obtain ⟨rest, hRest, hThere, rfl⟩ := ih.1 h
        refine ⟨digits ++ rest, .cons hDigits hRest, hHere.append hThere, ?_⟩
        rw [List.length_append, Nat.add_assoc]
    · rintro ⟨bytes, hBytes, hStands, rfl⟩
      cases hBytes with
      | @cons _ digits rest hDigits hRest =>
        rw [skipNumber_eq_ok_iff.2 ⟨digits, hDigits, hStands.append_left, rfl⟩]
        refine ih.2 ⟨rest, hRest, hStands.append_right, ?_⟩
        rw [List.length_append, Nat.add_assoc]

theorem skipFixed_eq_ok_iff {width : Nat} (hWidth : 0 < width) :
    skipFixed code width pos = .ok next ↔
      Passes code (fun bytes => bytes.length = width) pos next := by
  have hLeft : (code.toList.drop pos).length = code.size - pos := by
    rw [List.length_drop, Array.length_toList]
  unfold skipFixed
  constructor
  · intro h
    split at h
    · rename_i hFits
      cases h
      have hTaken : ((code.toList.drop pos).take width).length = width := by
        rw [List.length_take, hLeft]
        omega
      exact ⟨_, hTaken, ⟨_, (List.take_append_drop width _).symm⟩, by rw [hTaken]⟩
    · cases h
  · rintro ⟨bytes, rfl, ⟨rest, hRest⟩, rfl⟩
    rw [hRest, List.length_append] at hLeft
    exact if_pos (by omega)

theorem decodeU32_eq_ok_iff {v : UInt32} :
    decodeU32 code pos = .ok (v, next) ↔
      Passes code (fun digits => IsVarint (groupLimit 32) digits ∧ v = countOf digits) pos
        next := by
  unfold decodeU32
  constructor
  · intro h
    split at h
    · cases h
    · rename_i hGroups
      cases h
      obtain ⟨digits, hDigits, hStands, rfl, hNext⟩ := readGroups_eq_ok_iff.1 hGroups
      exact ⟨digits, ⟨hDigits, rfl⟩, hStands, hNext⟩
  · rintro ⟨digits, ⟨hDigits, rfl⟩, hStands, rfl⟩
    rw [readGroups_of_isVarint hDigits hStands]
    rfl

theorem skipBranchTable_eq_ok_iff :
    skipBranchTable code pos = .ok next ↔ Passes code IsBranchTable pos next := by
  unfold skipBranchTable
  constructor
  · intro h
    split at h
    · cases h
    · rename_i hCount
      obtain ⟨count, ⟨hDigits, rfl⟩, hHere, rfl⟩ := decodeU32_eq_ok_iff.1 hCount
      obtain ⟨depths, hDepths, hThere, rfl⟩ := skipNumbers_eq_ok_iff.1 h
      refine ⟨count ++ depths, ⟨count, depths, hDigits, hDepths, rfl⟩, hHere.append hThere, ?_⟩
      rw [List.length_append, Nat.add_assoc]
  · rintro ⟨_, ⟨count, depths, hDigits, hDepths, rfl⟩, hStands, rfl⟩
    rw [decodeU32_eq_ok_iff.2 ⟨count, ⟨hDigits, rfl⟩, hStands.append_left, rfl⟩]
    refine skipNumbers_eq_ok_iff.2 ⟨depths, hDepths, hStands.append_right, ?_⟩
    rw [List.length_append, Nat.add_assoc]

/-- Stepping over the operands of a layout ends right behind the form that stands there. -/
theorem Operands.skip_eq_ok_iff {layout : Operands} :
    layout.skip code pos = .ok next ↔ Passes code layout.Form pos next := by
  cases layout with
  | empty =>
    constructor
    · intro h
      cases h
      exact ⟨[], rfl, ⟨_, rfl⟩, rfl⟩
    · rintro ⟨bytes, rfl, -, rfl⟩
      rfl
  | blockType | varU32 | varS32 | varS64 | reserved => exact skipNumber_eq_ok_iff
  | memArg | callIndirect => exact skipNumbers_eq_ok_iff
  | float32 | float64 => exact skipFixed_eq_ok_iff (by decide)
  | branchTable => exact skipBranchTable_eq_ok_iff

/-- Stepping over the operands of an opcode byte ends right behind the form that stands there. -/
theorem skipOperands_eq_ok_iff {b : UInt8} :
    skipOperands code pos b = .ok next ↔ Passes code (Operands.ofByte b).Form pos next :=
  Operands.skip_eq_ok_iff

end

end WasmMachine
