import WasmMachine.Proofs.Code.Instruction

/-!
# Instruction boundaries

The code of a body is a chain of instructions: each starts where the operands of the one before it
end. `Opcode.decode` reads the operands of an opcode from the code bytes alone. Whatever it reads,
it ends where `skipOperands` does (`skipOperands_of_decode`), so the machine and the search for the
end of a block step over the same chain. An offset strictly inside an instruction belongs to that
instruction alone (`Owns.unique`), which fixes how the number at that offset is read.
-/

namespace WasmMachine

open Leb128

/-! ## Decoders -/

/-- Reads from code at an offset and gives the offset past what was read. -/
abbrev Decoder := StateT Nat (Except Trap)

namespace Decoder

/-- How a number in code is read. -/
inductive Kind where
  | u32
  | s32
  | s64
  deriving DecidableEq

/-- Reads a number and widens it to 64 bits. -/
def Kind.wide : Kind → Bytes → Nat → Except VarintError (BitVec 64 × Nat)
  | .u32 => Exec.wideU32
  | .s32 => Exec.wideS32
  | .s64 => decodeS64

/-- Reads a number. -/
def number (code : Bytes) (k : Kind) : Decoder (BitVec 64) := fun pos =>
  match k.wide code pos with
  | .ok (v, next) => .ok (v, next)
  | .error e => .error (.malformedImmediate e)

/-- Reads an unsigned 32-bit number. -/
def u32 (code : Bytes) : Decoder UInt32 := return UInt32.ofNat (← number code .u32).toNat

/-- Reads a signed 32-bit number. -/
def s32 (code : Bytes) : Decoder (BitVec 32) := return (← number code .s32).setWidth 32

/-- Reads some bytes as a little-endian number. -/
def fixed (code : Bytes) (width : Nat) : Decoder Nat := fun pos =>
  match code.slice? pos width with
  | some bytes => .ok (littleEndian bytes.toList, pos + width)
  | none => .error (.malformedImmediate .unexpectedEof)

/-- Reads the type of the block whose opcode stands at `place`. -/
def blockType (code : Bytes) (place : Nat) : Decoder BlockType := do
  let b ← fixed code 1
  match BlockType.ofByte? (UInt8.ofNat b) with
  | some t => return t
  | none => throw (.illFormedStructure place)

/-- Reads alignment and offset of a memory access. -/
def memArg (code : Bytes) : Decoder UInt32 := do
  let _align ← u32 code
  u32 code

/-- Reads `count` label depths and adds them to those found before. -/
def depths (code : Bytes) : (count : Nat) → (found : Array UInt32) → Decoder (Array UInt32)
  | 0, found => pure found
  | count + 1, found => do
    let depth ← u32 code
    depths code count (found.push depth)

/-- Reads the value of a constant. -/
def const (code : Bytes) : ValueType → Decoder Value
  | .i32 => return .i32 (← s32 code)
  | .i64 => return .i64 (← number code .s64)
  | .f32 => return .f32 (BitVec.ofNat 32 (← fixed code 4))
  | .f64 => return .f64 (BitVec.ofNat 64 (← fixed code 8))

end Decoder

open Decoder in
/-- Reads the operands of an opcode that stands at `place`. -/
def Opcode.decode (code : Bytes) (place : Nat) : Opcode → Decoder Instruction
  | .unreachable => return .simple .unreachable
  | .nop => return .simple .nop
  | .block => return .block (← blockType code place)
  | .loop => return .loop (← blockType code place)
  | .ifThen => return .ifThen (← blockType code place)
  | .elseArm => return .elseArm
  | .blockEnd => return .blockEnd
  | .branch => return .branch (← u32 code)
  | .branchIf => return .branchIf (← u32 code)
  | .branchTable => do
    let count ← u32 code
    let found ← depths code count.toNat #[]
    return .branchTable found (← u32 code)
  | .ret => return .ret
  | .call => return .call (← u32 code)
  | .callIndirect => do
    let typeIndex ← u32 code
    let _table ← u32 code
    return .callIndirect typeIndex
  | .drop => return .simple .drop
  | .select => return .simple .select
  | .localGet => return .simple (.localGet (← u32 code))
  | .localSet => return .simple (.localSet (← u32 code))
  | .localTee => return .simple (.localTee (← u32 code))
  | .globalGet => return .simple (.globalGet (← u32 code))
  | .globalSet => return .simple (.globalSet (← u32 code))
  | .load op => return .simple (.load op (← memArg code))
  | .store op => return .simple (.store op (← memArg code))
  | .memorySize => do
    let _memory ← u32 code
    return .simple .memorySize
  | .memoryGrow => do
    let _memory ← u32 code
    return .simple .memoryGrow
  | .const t => return .simple (.const (← Decoder.const code t))
  | .numeric n => return .simple (.numeric n)

/-- The instruction at an offset of the code and the offset past it. -/
def decodeAt (code : Bytes) (place : Nat) (b : UInt8) : Except Trap (Instruction × Nat) :=
  match Opcode.ofByte? b with
  | some op => op.decode code place (place + 1)
  | none => .ok (.invalid b, place + 1)

/-! ## Decoding and skipping -/

namespace Decoder

/-- From a decoder that is a sequence, the two parts. -/
theorem bind_eq_ok {α β : Type} {x : Decoder α} {f : α → Decoder β} {pos next : Nat} {b : β}
    (h : (x >>= f) pos = .ok (b, next)) :
    ∃ a mid, x pos = .ok (a, mid) ∧ f a mid = .ok (b, next) := by
  change (x pos).bind (fun p => f p.1 p.2) = _ at h
  cases hx : x pos with
  | error e => rw [hx] at h; cases h
  | ok p => rw [hx] at h; exact ⟨p.1, p.2, rfl, h⟩

/-- From a decoder whose result is only wrapped, what it read. -/
theorem map_eq_ok {α β : Type} {x : Decoder α} {f : α → β} {pos next : Nat} {b : β}
    (h : (do return f (← x)) pos = .ok (b, next)) :
    ∃ a, x pos = .ok (a, next) ∧ f a = b := by
  obtain ⟨a, mid, hx, hf⟩ := bind_eq_ok h
  cases hf
  exact ⟨a, hx, rfl⟩

theorem readGroups_mono {bytes : Bytes} {limit more pos next : Nat} {groups : List Nat}
    (hLimit : limit ≤ more) (h : readGroups bytes limit pos = .ok (groups, next)) :
    readGroups bytes more pos = .ok (groups, next) := by
  induction limit generalizing more pos groups with
  | zero => unfold readGroups at h; split at h <;> cases h
  | succ limit ih =>
    obtain ⟨more, rfl⟩ : ∃ k, more = k + 1 := ⟨more - 1, by omega⟩
    unfold readGroups at h ⊢
    split at h
    · cases h
    · rename_i b hb
      split at h
      · rename_i hLast
        cases h
        simp [hLast]
      · rename_i hMore
        split at h
        · cases h
        · rename_i hRest
          cases h
          simp [hMore, ih (Nat.le_of_succ_le_succ hLimit) hRest]

/-- Whatever way a number is read, it ends where skipping a number of enough bits does. -/
theorem skipNumber_of_wide {code : Bytes} {k : Kind} {pos next : Nat} {v : BitVec 64}
    (h : k.wide code pos = .ok (v, next)) :
    skipNumber code 64 pos = .ok next ∧ (k = .u32 → skipNumber code 32 pos = .ok next) := by
  have key : ∀ {width : Nat} {groups : List Nat}, width ≤ 64 →
      readGroups code (groupLimit width) pos = .ok (groups, next) →
      skipNumber code 64 pos = .ok next := by
    intro width groups hWidth hGroups
    have hLimit : groupLimit width ≤ groupLimit 64 := by unfold groupLimit; omega
    simp [skipNumber, readGroups_mono hLimit hGroups]
  cases k with
  | u32 =>
    simp only [Kind.wide, Exec.wideU32, decodeU32] at h
    cases hGroups : readGroups code (groupLimit 32) pos with
    | error e => rw [hGroups] at h; cases h
    | ok p =>
      obtain ⟨groups, stop⟩ := p
      rw [hGroups] at h
      cases h
      exact ⟨key (by omega) hGroups, fun _ => by simp [skipNumber, hGroups]⟩
  | s32 =>
    simp only [Kind.wide, Exec.wideS32, decodeSigned] at h
    cases hGroups : readGroups code (groupLimit 32) pos with
    | error e => rw [hGroups] at h; cases h
    | ok p =>
      obtain ⟨groups, stop⟩ := p
      rw [hGroups] at h
      cases h
      exact ⟨key (by omega) hGroups, fun hKind => by cases hKind⟩
  | s64 =>
    simp only [Kind.wide, decodeSigned] at h
    cases hGroups : readGroups code (groupLimit 64) pos with
    | error e => rw [hGroups] at h; cases h
    | ok p =>
      obtain ⟨groups, stop⟩ := p
      rw [hGroups] at h
      cases h
      exact ⟨key (by omega) hGroups, fun hKind => by cases hKind⟩

theorem wide_of_number {code : Bytes} {k : Kind} {pos next : Nat} {v : BitVec 64}
    (h : number code k pos = .ok (v, next)) : k.wide code pos = .ok (v, next) := by
  unfold number at h
  split at h
  · cases h; assumption
  · cases h

theorem skipNumber_of_u32 {code : Bytes} {pos next : Nat} {v : UInt32}
    (h : u32 code pos = .ok (v, next)) : skipNumber code 32 pos = .ok next := by
  obtain ⟨w, hw, -⟩ := map_eq_ok h
  exact (skipNumber_of_wide (wide_of_number hw)).2 rfl

theorem skipNumber_of_s32 {code : Bytes} {pos next : Nat} {v : BitVec 32}
    (h : s32 code pos = .ok (v, next)) : skipNumber code 64 pos = .ok next := by
  obtain ⟨w, hw, -⟩ := map_eq_ok h
  exact (skipNumber_of_wide (wide_of_number hw)).1

theorem skipNumbers_of_depths {code : Bytes} {count pos next : Nat} {found ds : Array UInt32}
    (h : depths code count found pos = .ok (ds, next)) :
    skipNumbers code count pos = .ok next := by
  induction count generalizing pos found with
  | zero => cases h; rfl
  | succ count ih =>
    obtain ⟨depth, mid, hDepth, hRest⟩ := bind_eq_ok h
    simp [skipNumbers, skipNumber_of_u32 hDepth, ih hRest]

theorem skipNumbers_add (code : Bytes) (first second pos : Nat) :
    skipNumbers code (first + second) pos =
      (skipNumbers code first pos).bind (skipNumbers code second) := by
  induction first generalizing pos with
  | zero => simp [skipNumbers, Except.bind]
  | succ first ih =>
    rw [show first + 1 + second = (first + second) + 1 by omega]
    simp only [skipNumbers]
    cases skipNumber code 32 pos with
    | error e => rfl
    | ok next => exact ih next

theorem skipFixed_of_fixed {code : Bytes} {width pos next n : Nat}
    (h : fixed code width pos = .ok (n, next)) : skipFixed code width pos = .ok next := by
  unfold fixed Bytes.slice? at h
  unfold skipFixed
  by_cases hFits : pos + width ≤ code.size
  · simp only [if_pos hFits] at h ⊢
    cases h
    rfl
  · simp only [if_neg hFits] at h
    cases h

/-- The bytes of block types are numbers of one group. -/
theorem toNat_lt_of_ofByte? {b : UInt8} {t : BlockType} (h : BlockType.ofByte? b = some t) :
    b.toNat < 128 := by
  simp only [BlockType.ofByte?, ValueType.ofByte?] at h
  split at h
  · rename_i hb; subst hb; decide
  · split at h
    · rename_i hb; subst hb; decide
    · split at h
      · rename_i hb; subst hb; decide
      · split at h
        · rename_i hb; subst hb; decide
        · split at h
          · rename_i hb; subst hb; decide
          · cases h

/-- A block type is one byte. -/
theorem blockType_eq_ok {code : Bytes} {place pos next : Nat} {t : BlockType}
    (h : blockType code place pos = .ok (t, next)) :
    next = pos + 1 ∧ ∃ b, code[pos]? = some b ∧ BlockType.ofByte? b = some t := by
  obtain ⟨n, mid, hFixed, hType⟩ := bind_eq_ok h
  unfold fixed Bytes.slice? at hFixed
  by_cases hFits : pos + 1 ≤ code.size
  · simp only [if_pos hFits] at hFixed
    cases hFixed
    have hByte : (code.extract pos (pos + 1)).toList = [code[pos]] := by
      rw [Array.toList_extract, List.extract_eq_take_drop]
      simp [List.take_one, List.head?_drop]
    rw [hByte] at hType
    simp only [littleEndian, Nat.mul_zero, Nat.add_zero, UInt8.ofNat_toNat] at hType
    cases hOf : BlockType.ofByte? code[pos] with
    | none => rw [hOf] at hType; cases hType
    | some t' =>
      rw [hOf] at hType
      cases hType
      exact ⟨rfl, code[pos], Array.getElem?_eq_getElem _, hOf⟩
  · simp only [if_neg hFits] at hFixed
    cases hFixed

theorem skipNumber_of_blockType {code : Bytes} {place pos next : Nat} {t : BlockType}
    (h : blockType code place pos = .ok (t, next)) : skipNumber code 64 pos = .ok next := by
  obtain ⟨rfl, b, hByte, hType⟩ := blockType_eq_ok h
  have hSmall := toNat_lt_of_ofByte? hType
  simp [skipNumber, groupLimit, readGroups, hByte, hSmall]

theorem skip_of_const {code : Bytes} {t : ValueType} {pos next : Nat} {v : Value}
    (h : const code t pos = .ok (v, next)) :
    (Opcode.const t).operands.skip code pos = .ok next := by
  cases t with
  | i32 =>
    obtain ⟨w, hw, -⟩ := map_eq_ok h
    exact skipNumber_of_s32 hw
  | i64 =>
    obtain ⟨w, hw, -⟩ := map_eq_ok h
    exact (skipNumber_of_wide (wide_of_number hw)).1
  | f32 =>
    obtain ⟨w, hw, -⟩ := map_eq_ok h
    exact skipFixed_of_fixed hw
  | f64 =>
    obtain ⟨w, hw, -⟩ := map_eq_ok h
    exact skipFixed_of_fixed hw

theorem skipNumbers_two_of_u32 {code : Bytes} {pos mid next : Nat} {v w : UInt32}
    (hFirst : u32 code pos = .ok (v, mid)) (hSecond : u32 code mid = .ok (w, next)) :
    skipNumbers code 2 pos = .ok next := by
  simp [skipNumbers, skipNumber_of_u32 hFirst, skipNumber_of_u32 hSecond]

theorem skipNumbers_of_memArg {code : Bytes} {pos next : Nat} {v : UInt32}
    (h : memArg code pos = .ok (v, next)) : skipNumbers code 2 pos = .ok next := by
  obtain ⟨a, mid, hAlign, hOffset⟩ := bind_eq_ok h
  exact skipNumbers_two_of_u32 hAlign hOffset

/-- The count of a branch table, as the search for block ends reads it. -/
theorem decodeU32_of_u32 {code : Bytes} {pos next : Nat} {v : UInt32}
    (h : u32 code pos = .ok (v, next)) : decodeU32 code pos = .ok (v, next) := by
  obtain ⟨w, hw, hv⟩ := map_eq_ok h
  have hWide := wide_of_number hw
  simp only [Kind.wide, Exec.wideU32] at hWide
  cases hDecode : decodeU32 code pos with
  | error e => rw [hDecode] at hWide; cases hWide
  | ok p =>
    obtain ⟨n, stop⟩ := p
    rw [hDecode] at hWide
    cases hWide
    rw [← hv]
    have hSmall : n.toNat < 18446744073709551616 := by
      have := n.toNat_lt
      omega
    simp [BitVec.toNat_ofNat, Nat.mod_eq_of_lt hSmall]

end Decoder

open Decoder in
/-- Whatever an opcode reads, it ends where stepping over its operands does. -/
theorem skip_of_decode {code : Bytes} {op : Opcode} {place pos next : Nat} {i : Instruction}
    (h : op.decode code place pos = .ok (i, next)) :
    op.operands.skip code pos = .ok next := by
  cases op with
  | block | loop | ifThen =>
    obtain ⟨t, ht, -⟩ := map_eq_ok h
    exact skipNumber_of_blockType ht
  | branch | branchIf | call | localGet | localSet | localTee | globalGet | globalSet =>
    obtain ⟨v, hv, -⟩ := map_eq_ok h
    exact skipNumber_of_u32 hv
  | memorySize | memoryGrow =>
    obtain ⟨v, mid, hv, hEnd⟩ := bind_eq_ok h
    cases hEnd
    exact skipNumber_of_u32 hv
  | load op | store op =>
    obtain ⟨v, hv, -⟩ := map_eq_ok h
    exact skipNumbers_of_memArg hv
  | callIndirect =>
    obtain ⟨v, mid, hv, hRest⟩ := bind_eq_ok h
    obtain ⟨w, stop, hw, hEnd⟩ := bind_eq_ok hRest
    cases hEnd
    exact skipNumbers_two_of_u32 hv hw
  | branchTable =>
    obtain ⟨count, first, hCount, hRest⟩ := bind_eq_ok h
    obtain ⟨ds, last, hDepths, hLast⟩ := bind_eq_ok hRest
    obtain ⟨d, hd, -⟩ := map_eq_ok hLast
    simp only [Opcode.operands, Operands.skip, skipBranchTable, decodeU32_of_u32 hCount]
    rw [skipNumbers_add, skipNumbers_of_depths hDepths]
    simp [Except.bind, skipNumbers, skipNumber_of_u32 hd]
  | const t =>
    obtain ⟨v, hv, -⟩ := map_eq_ok h
    exact skip_of_const hv
  | unreachable | nop | elseArm | blockEnd | ret | drop | select | numeric n =>
    cases h
    rfl

open Decoder in
/-- A block starts past its type, which is one byte. -/
theorem past_blockType {code : Bytes} {op : Opcode} {place pos next : Nat} {i : Instruction}
    {t : BlockType} (h : op.decode code place pos = .ok (i, next))
    (hBlock : i = .block t ∨ i = .ifThen t) : next = pos + 1 := by
  cases op with
  | block | ifThen =>
    obtain ⟨_, hType, -⟩ := map_eq_ok h
    exact (blockType_eq_ok hType).1
  | loop | branch | branchIf | call | localGet | localSet | localTee | globalGet | globalSet |
      load | store | const =>
    obtain ⟨_, _, rfl⟩ := map_eq_ok h
    rcases hBlock with hEq | hEq <;> cases hEq
  | memorySize | memoryGrow =>
    obtain ⟨_, _, _, hRest⟩ := bind_eq_ok h
    cases hRest
    rcases hBlock with hEq | hEq <;> cases hEq
  | callIndirect =>
    obtain ⟨_, _, _, hRest⟩ := bind_eq_ok h
    obtain ⟨_, _, rfl⟩ := map_eq_ok hRest
    rcases hBlock with hEq | hEq <;> cases hEq
  | branchTable =>
    obtain ⟨_, _, _, hCount⟩ := bind_eq_ok h
    obtain ⟨_, _, _, hRest⟩ := bind_eq_ok hCount
    obtain ⟨_, _, rfl⟩ := map_eq_ok hRest
    rcases hBlock with hEq | hEq <;> cases hEq
  | unreachable | nop | elseArm | blockEnd | ret | drop | select | numeric =>
    cases h
    rcases hBlock with hEq | hEq <;> cases hEq

/-- Decoding an instruction and stepping over it end at the same offset. -/
theorem skipOperands_of_decode {code : Bytes} {place next : Nat} {b : UInt8} {i : Instruction}
    (h : decodeAt code place b = .ok (i, next)) :
    skipOperands code (place + 1) b = .ok next := by
  unfold decodeAt at h
  unfold skipOperands Operands.ofByte
  cases hOp : Opcode.ofByte? b with
  | none =>
    rw [hOp] at h
    cases h
    rfl
  | some op =>
    rw [hOp] at h
    exact skip_of_decode h

/-! ## The chain of instructions -/

/-- The offsets at which instructions start: the first one, and from each the one past its
operands. -/
inductive Boundary (code : Bytes) : Nat → Prop
  | start : Boundary code 0
  | next {place next : Nat} {b : UInt8} (hPlace : Boundary code place)
      (hByte : code[place]? = some b) (hSkip : skipOperands code (place + 1) b = .ok next) :
      Boundary code next

theorem size_of_skipNumber {code : Bytes} {width pos next : Nat}
    (h : skipNumber code width pos = .ok next) : next ≤ code.size := by
  unfold skipNumber at h
  split at h
  · cases h
  · rename_i hGroups
    cases h
    exact (readGroups_bounds hGroups).2

theorem size_of_skipNumbers {code : Bytes} {count pos next : Nat}
    (h : skipNumbers code count pos = .ok next) (hPos : pos ≤ code.size) : next ≤ code.size := by
  induction count generalizing pos with
  | zero =>
    cases h
    exact hPos
  | succ count ih =>
    unfold skipNumbers at h
    split at h
    · cases h
    · rename_i hNumber
      exact ih h (size_of_skipNumber hNumber)

theorem size_of_skipFixed {code : Bytes} {width pos next : Nat}
    (h : skipFixed code width pos = .ok next) : next ≤ code.size := by
  unfold skipFixed at h
  split at h
  · rename_i hFits
    cases h
    exact hFits
  · cases h

/-- Stepping over operands stays inside the code. -/
theorem size_of_skipOperands {code : Bytes} {pos next : Nat} {b : UInt8}
    (h : skipOperands code pos b = .ok next) (hPos : pos ≤ code.size) : next ≤ code.size := by
  unfold skipOperands at h
  cases hLayout : Operands.ofByte b <;> rw [hLayout] at h <;> simp only [Operands.skip] at h
  case empty =>
    cases h
    exact hPos
  case blockType | varU32 | varS32 | varS64 | reserved => exact size_of_skipNumber h
  case float32 | float64 => exact size_of_skipFixed h
  case memArg | callIndirect => exact size_of_skipNumbers h hPos
  case branchTable =>
    unfold skipBranchTable at h
    split at h
    · cases h
    · rename_i hCount
      exact size_of_skipNumbers h (decodeU32_bounds hCount).2

/-- The last boundary is at the latest the end of the code. -/
theorem Boundary.le_size {code : Bytes} {place : Nat} (h : Boundary code place) :
    place ≤ code.size := by
  cases h with
  | start => exact Nat.zero_le _
  | next _ hByte hSkip =>
    exact size_of_skipOperands hSkip (Array.getElem?_eq_some_iff.1 hByte).1

/-- Between two boundaries the instruction at the first one ends. -/
theorem Boundary.skip_of_lt {code : Bytes} {first second : Nat} (hFirst : Boundary code first)
    (hSecond : Boundary code second) (hLt : first < second) :
    ∃ b next, code[first]? = some b ∧ skipOperands code (first + 1) b = .ok next ∧
      next ≤ second := by
  induction second using Nat.strongRecOn generalizing first with
  | ind second ih =>
    cases hSecond with
    | start => omega
    | @next place _ b hPlace hByte hSkip =>
      have hForward := le_of_skipOperands hSkip
      rcases Nat.lt_trichotomy first place with hBefore | rfl | hAfter
      · obtain ⟨c, stop, hc, hStop, hLe⟩ := ih place (by omega) hFirst hPlace hBefore
        exact ⟨c, stop, hc, hStop, by omega⟩
      · exact ⟨b, second, hByte, hSkip, Nat.le_refl _⟩
      · -- A boundary strictly inside the instruction at `place` would end that instruction early.
        obtain ⟨c, stop, hc, hStop, hLe⟩ := ih first hLt hPlace hFirst hAfter
        rw [hByte] at hc
        cases hc
        rw [hSkip] at hStop
        cases hStop
        omega

/-- How the numbers among the operands of an opcode are read. -/
def Opcode.kind : Opcode → Decoder.Kind
  | .const .i32 => .s32
  | .const .i64 => .s64
  | _ => .u32

/-- The offset lies strictly inside the instruction at a boundary, whose numbers are read as `k`.
An instruction without an end has all that follows it. -/
def Owns (code : Bytes) (pos : Nat) (k : Decoder.Kind) : Prop :=
  ∃ place b op, Boundary code place ∧ code[place]? = some b ∧ Opcode.ofByte? b = some op ∧
    op.kind = k ∧ place < pos ∧ ∀ next, skipOperands code (place + 1) b = .ok next → pos < next

/-- No boundary stands between an opcode and an offset inside its instruction. -/
theorem Boundary.le_of_inside {code : Bytes} {place other pos : Nat} {b : UInt8}
    (hPlace : Boundary code place) (hOther : Boundary code other)
    (hByte : code[place]? = some b)
    (hInside : ∀ next, skipOperands code (place + 1) b = .ok next → pos < next)
    (hPos : other ≤ pos) : other ≤ place := by
  rcases Nat.lt_or_ge place other with hLt | hLe
  · obtain ⟨c, next, hc, hSkip, hNext⟩ := hPlace.skip_of_lt hOther hLt
    rw [hByte] at hc
    cases hc
    have := hInside next hSkip
    omega
  · exact hLe

/-- No offset is inside two instructions, so the number at an offset is read in one way only. -/
theorem Owns.unique {code : Bytes} {pos : Nat} {k k' : Decoder.Kind} (h : Owns code pos k)
    (h' : Owns code pos k') : k = k' := by
  obtain ⟨place, b, op, hPlace, hByte, hOp, hKind, hPos, hInside⟩ := h
  obtain ⟨place', b', op', hPlace', hByte', hOp', hKind', hPos', hInside'⟩ := h'
  have hSame : place = place' := Nat.le_antisymm
    (hPlace'.le_of_inside hPlace hByte' hInside' (Nat.le_of_lt hPos))
    (hPlace.le_of_inside hPlace' hByte hInside (Nat.le_of_lt hPos'))
  subst hSame
  rw [hByte] at hByte'
  cases hByte'
  rw [hOp] at hOp'
  cases hOp'
  exact hKind.symm.trans hKind'

/-! ## Delimiters of blocks -/

/-- One step of a walk over the instruction of an opcode byte. -/
theorem scanBlock_next {code : Bytes} {start pos next : Nat} {b : UInt8} {scan : BlockScan}
    (hByte : code[pos]? = some b) (hSkip : skipOperands code (pos + 1) b = .ok next) :
    scanBlock code start pos scan =
      match scan.advance pos (Nesting.ofByte b) with
      | .inl scan => scanBlock code start next scan
      | .inr targets => .ok targets := by
  rw [scanBlock]
  split
  · rename_i hNone
    rw [hByte] at hNone
    cases hNone
  · rename_i c hc
    rw [hByte] at hc
    cases hc
    split
    · rename_i e hError
      rw [hSkip] at hError
      cases hError
    · rename_i stop hStop
      rw [hSkip] at hStop
      cases hStop
      rfl

/-- A delimiter has no operands: past its byte the next instruction starts. -/
theorem Boundary.past_delimiter {code : Bytes} {place : Nat} {b : UInt8}
    (hPlace : Boundary code place) (hByte : code[place]? = some b)
    (hDelimiter : Nesting.ofByte b = .middle ∨ Nesting.ofByte b = .closes) :
    Boundary code (place + 1) := by
  refine hPlace.next hByte ?_
  unfold Nesting.ofByte at hDelimiter
  unfold skipOperands Operands.ofByte
  split at hDelimiter <;> simp_all [Opcode.operands, Operands.skip]

theorem scanBlock_boundary {code : Bytes} {start pos : Nat} {scan : BlockScan}
    {targets : BlockTargets} (hPos : Boundary code pos)
    (hElse : ∀ e, scan.elsePos = some e → Boundary code (e + 1))
    (h : scanBlock code start pos scan = .ok targets) :
    Boundary code targets.endPos ∧ Boundary code (targets.endPos + 1) ∧
      ∀ e, targets.elsePos = some e → Boundary code (e + 1) := by
  fun_induction scanBlock code start pos scan with
  | case1 pos scan hByte => cases h
  | case2 pos scan b hByte e hSkip => cases h
  | case3 pos scan b hByte next hSkip hForward hInside scan' hAdvance ih =>
    refine ih (hPos.next hByte hSkip) ?_ h
    intro e he
    cases hNesting : Nesting.ofByte b <;>
      simp only [hNesting, BlockScan.advance] at hAdvance
    · cases hAdvance
      exact hElse e he
    · cases hAdvance
      split at he
      · cases hOld : scan.elsePos with
        | some old =>
          rw [hOld] at he
          cases he
          exact hElse e hOld
        | none =>
          rw [hOld] at he
          cases he
          exact hPos.past_delimiter hByte (.inl hNesting)
      · exact hElse e he
    · split at hAdvance <;> cases hAdvance
      exact hElse e he
    · cases hAdvance
      exact hElse e he
  | case4 pos scan b hByte next hSkip hForward hInside targets' hAdvance =>
    cases h
    cases hNesting : Nesting.ofByte b <;>
      simp only [hNesting, BlockScan.advance] at hAdvance
    · cases hAdvance
    · cases hAdvance
    · split at hAdvance <;> cases hAdvance
      exact ⟨hPos, hPos.past_delimiter hByte (.inr hNesting), hElse⟩
    · cases hAdvance

/-- The delimiters of a block stand on instruction boundaries. -/
theorem resolve_boundary {code : Bytes} {start : Nat} {targets : BlockTargets}
    (hStart : Boundary code start) (h : resolve code start = .ok targets) :
    Boundary code targets.endPos ∧ Boundary code (targets.endPos + 1) ∧
      ∀ e, targets.elsePos = some e → Boundary code (e + 1) :=
  scanBlock_boundary hStart (fun e he => by cases he) h

end WasmMachine
