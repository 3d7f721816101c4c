import WasmMachine.Proofs.Structured.Sequence
import WasmMachine.Session

/-!
# The driver sequence as a tree

An invocation starts in a sequence of calls that the session writes itself. It is an encoding like
any function body: the index of a call is written in its shortest form, and reading it gives it
back.

* `Leb128.decodeU32_encodeU32`: a number is read as it was written, whatever follows it.
* `Session.encodes_driver`: the driver code encodes the driver tree.
-/

namespace WasmMachine

/-! ## Bytes at an offset -/

/-- The bytes of the code from an offset on start with the given ones. -/
def StandsAt (code : Bytes) (pos : Nat) (bytes : List UInt8) : Prop :=
  ∃ rest, code.toList.drop pos = bytes ++ rest

namespace StandsAt

variable {code : Bytes} {pos : Nat} {b : UInt8} {bytes others : List UInt8}

theorem head (h : StandsAt code pos (b :: bytes)) : code[pos]? = some b := by
  obtain ⟨rest, h⟩ := h
  rw [← Array.getElem?_toList]
  have hHead := congrArg List.head? h
  rw [List.head?_drop] at hHead
  exact hHead

theorem append_right (h : StandsAt code pos (bytes ++ others)) :
    StandsAt code (pos + bytes.length) others := by
  obtain ⟨rest, h⟩ := h
  refine ⟨rest, ?_⟩
  rw [← List.drop_drop, h, List.append_assoc, List.drop_left']
  rfl

theorem append_left (h : StandsAt code pos (bytes ++ others)) : StandsAt code pos bytes := by
  obtain ⟨rest, h⟩ := h
  exact ⟨others ++ rest, by rw [h, List.append_assoc]⟩

theorem tail (h : StandsAt code pos (b :: bytes)) : StandsAt code (pos + 1) bytes := by
  have hSplit : StandsAt code pos ([b] ++ bytes) := h
  exact hSplit.append_right

theorem cons (hHead : code[pos]? = some b) (hTail : StandsAt code (pos + 1) bytes) :
    StandsAt code pos (b :: bytes) := by
  obtain ⟨rest, hTail⟩ := hTail
  rw [← Array.getElem?_toList] at hHead
  obtain ⟨hLt, hHere⟩ := List.getElem?_eq_some_iff.1 hHead
  exact ⟨rest, by rw [List.drop_eq_getElem_cons hLt, hHere, hTail, List.cons_append]⟩

theorem append (hFirst : StandsAt code pos bytes)
    (hSecond : StandsAt code (pos + bytes.length) others) :
    StandsAt code pos (bytes ++ others) := by
  induction bytes generalizing pos with
  | nil => exact hSecond
  | cons b rest ih =>
    rw [List.length_cons, ← Nat.add_assoc, Nat.add_right_comm] at hSecond
    exact cons hFirst.head (ih hFirst.tail hSecond)

/-- The bytes of a byte string that others stand in front of. -/
theorem behind (before bytes after : List UInt8) :
    StandsAt (before ++ bytes ++ after).toArray before.length bytes :=
  ⟨after, by rw [List.append_assoc, List.drop_left' rfl]⟩

end StandsAt

/-! ## Numbers -/

namespace Leb128

/-- The groups of a number that has been written are found again. -/
theorem readGroups_encodeUnsigned {code : Bytes} {limit pos n : Nat}
    (h : StandsAt code pos (encodeUnsigned n)) (hLimit : n < Nat.pow 128 (limit + 1)) :
    ∃ groups, readGroups code (limit + 1) pos =
        .ok (groups, pos + (encodeUnsigned n).length) ∧ unsignedValue groups = n := by
  induction limit generalizing pos n with
  | zero =>
    have hSmall : n < 128 := hLimit
    rw [encodeUnsigned, if_pos hSmall] at h ⊢
    have hByte : (UInt8.ofNat n).toNat = n := by
      rw [UInt8.toNat_ofNat']
      omega
    refine ⟨[n], ?_, by simp [unsignedValue]⟩
    rw [readGroups, h.head]
    simp only [hByte, if_pos hSmall, List.length_singleton]
  | succ limit ih =>
    rw [encodeUnsigned] at h ⊢
    split at h
    · rename_i hSmall
      have hByte : (UInt8.ofNat n).toNat = n := by
        rw [UInt8.toNat_ofNat']
        omega
      refine ⟨[n], ?_, by simp [unsignedValue]⟩
      rw [readGroups, h.head, if_pos hSmall]
      simp only [hByte, if_pos hSmall, List.length_singleton]
    · rename_i hLarge
      have hByte : (UInt8.ofNat (n % 128 + 128)).toNat = n % 128 + 128 := by
        rw [UInt8.toNat_ofNat']
        omega
      have hPower : Nat.pow 128 (limit + 1 + 1) = Nat.pow 128 (limit + 1) * 128 := rfl
      obtain ⟨groups, hGroups, hValue⟩ := ih h.tail (by omega)
      refine ⟨n % 128 :: groups, ?_, ?_⟩
      · rw [readGroups, h.head, if_neg hLarge]
        simp only [hByte, if_neg (show ¬ n % 128 + 128 < 128 by omega), hGroups,
          Nat.add_sub_cancel, List.length_cons]
        rw [Nat.add_right_comm, Nat.add_assoc]
      · rw [unsignedValue, hValue]
        omega

/-- A number is read as it was written, whatever follows it. -/
theorem decodeU32_encodeU32 {code : Bytes} {pos : Nat} {v : UInt32}
    (h : StandsAt code pos (encodeU32 v)) :
    decodeU32 code pos = .ok (v, pos + (encodeU32 v).length) := by
  have hLimit : v.toNat < Nat.pow 128 (4 + 1) := Nat.lt_trans v.toNat_lt (by decide)
  obtain ⟨groups, hGroups, hValue⟩ := readGroups_encodeUnsigned h hLimit
  have hWidth : groupLimit 32 = 4 + 1 := rfl
  rw [decodeU32, hWidth, hGroups]
  simp only [hValue, UInt32.ofNat_toNat]
  rfl

end Leb128

/-- A decoded number is an operand. -/
theorem Decoder.u32_of_decodeU32 {code : Bytes} {pos next : Nat} {v : UInt32}
    (h : Leb128.decodeU32 code pos = .ok (v, next)) : Decoder.u32 code pos = .ok (v, next) := by
  have hWide : Kind.u32.wide code pos = .ok (BitVec.ofNat 64 v.toNat, next) := by
    change (Leb128.decodeU32 code pos).map _ = _
    rw [h]
    rfl
  have hNarrow : UInt32.ofNat (BitVec.ofNat 64 v.toNat).toNat = v := by
    rw [BitVec.toNat_ofNat, Nat.mod_eq_of_lt (Nat.lt_trans v.toNat_lt (by decide)),
      UInt32.ofNat_toNat]
  have hNumber : Decoder.number code .u32 pos = .ok (BitVec.ofNat 64 v.toNat, next) := by
    rw [Decoder.number, hWide]
  change (Decoder.number code .u32 pos).bind _ = _
  rw [hNumber]
  simp only [Except.bind]
  rw [hNarrow]
  rfl

namespace Session

/-- The driver sequence as a tree. -/
def driver (start : Option UInt32) (index : UInt32) : Sequence :=
  let request (place : Nat) : Sequence :=
    .leaf place (.call index) (.stop (place + (callCode index).length))
  match start with
  | some start => .leaf 0 (.call start) (request (callCode start).length)
  | none => request 0

theorem decodesTo_call {code : Bytes} {place : Nat} {index : UInt32}
    (h : StandsAt code place (callCode index)) :
    DecodesTo code place (.call index) (place + (callCode index).length) := by
  have hIndex := Decoder.u32_of_decodeU32 (Leb128.decodeU32_encodeU32 h.tail)
  refine ⟨callByte, h.head, ?_⟩
  change (Decoder.u32 code (place + 1)).bind _ = _
  rw [hIndex]
  change Except.ok (Instruction.call index, place + 1 + (Leb128.encodeU32 index).length) = _
  rw [callCode, List.length_cons, Nat.add_assoc, Nat.add_comm 1]

theorem encodes_request {code : Bytes} {place : Nat} {index : UInt32}
    (h : StandsAt code place (callCode index ++ [endByte])) :
    Encodes code endByte place
      (.leaf place (.call index) (.stop (place + (callCode index).length))) :=
  .leaf (decodesTo_call h.append_left) (.stop h.append_right.head)

/-- The driver code encodes the driver tree. -/
theorem encodes_driver (start : Option UInt32) (index : UInt32) :
    Encodes (driverCode start index) endByte 0 (driver start index) := by
  cases start with
  | none =>
    refine encodes_request ⟨[], ?_⟩
    simp [driverCode]
  | some start =>
    have hCode : StandsAt (driverCode (some start) index) 0
        (callCode start ++ (callCode index ++ [endByte])) := ⟨[], by simp [driverCode]⟩
    have hRest := hCode.append_right
    have hFirst := decodesTo_call hCode.append_left
    rw [Nat.zero_add] at hRest hFirst
    exact .leaf hFirst (encodes_request hRest)

end Session

end WasmMachine
