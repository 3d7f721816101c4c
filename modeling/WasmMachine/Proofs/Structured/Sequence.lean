import WasmMachine.Proofs.Code.Boundary

/-!
# Well-nested code

A sequence of instructions as a tree: blocks, loops and conditionals hold their bodies. Every node
knows the offset of its opcode, and every sequence the offset of the delimiter that closes it, so a
tree says where in the code a fault occurs. `Encodes` is the relation between code bytes and trees;
operands may be written in every form that the decoders accept.

* `Encodes.scan`: walking over an encoded sequence leads to its delimiter.
* `Encodes.resolve_end`, `Encodes.resolve_else`: the delimiters of an encoded block are found.
-/

namespace WasmMachine

/-- An instruction without a body. -/
inductive Leaf where
  | simple (s : Simple)
  | branch (depth : UInt32)
  | branchIf (depth : UInt32)
  | branchTable (depths : Array UInt32) (default : UInt32)
  | ret
  | call (index : UInt32)
  | callIndirect (typeIndex : UInt32)
  | invalid (b : UInt8)

/-- A leaf as an instruction. -/
def Leaf.instruction : Leaf → Instruction
  | .simple s => .simple s
  | .branch depth => .branch depth
  | .branchIf depth => .branchIf depth
  | .branchTable depths default => .branchTable depths default
  | .ret => .ret
  | .call index => .call index
  | .callIndirect typeIndex => .callIndirect typeIndex
  | .invalid b => .invalid b

/-- A sequence of instructions, up to the delimiter that closes it. Each node has the offset of its
opcode. -/
inductive Sequence where
  | stop (place : Nat)
  | leaf (place : Nat) (i : Leaf) (rest : Sequence)
  | block (place : Nat) (t : BlockType) (body rest : Sequence)
  | loop (place : Nat) (t : BlockType) (body rest : Sequence)
  | ifThen (place : Nat) (t : BlockType) (arm rest : Sequence)
  | ifElse (place : Nat) (t : BlockType) (arm other rest : Sequence)

/-- The offset of the delimiter that closes a sequence. -/
def Sequence.closing : Sequence → Nat
  | .stop place => place
  | .leaf _ _ rest => rest.closing
  | .block _ _ _ rest => rest.closing
  | .loop _ _ _ rest => rest.closing
  | .ifThen _ _ _ rest => rest.closing
  | .ifElse _ _ _ _ rest => rest.closing

/-- The opcode byte of `else`. -/
def elseByte : UInt8 := 0x05

/-- The instruction at an offset of the code, which ends before `next`. -/
def DecodesTo (code : Bytes) (place : Nat) (i : Instruction) (next : Nat) : Prop :=
  ∃ b, code[place]? = some b ∧ decodeAt code place b = .ok (i, next)

/-- The code bytes from an offset on encode a sequence, which the given delimiter closes. -/
inductive Encodes (code : Bytes) : (delimiter : UInt8) → (start : Nat) → Sequence → Prop
  | stop {d : UInt8} {place : Nat} (byte : code[place]? = some d) :
      Encodes code d place (.stop place)
  | leaf {d : UInt8} {place next : Nat} {i : Leaf} {rest : Sequence}
      (head : DecodesTo code place i.instruction next) (tail : Encodes code d next rest) :
      Encodes code d place (.leaf place i rest)
  | block {d : UInt8} {place next : Nat} {t : BlockType} {body rest : Sequence}
      (head : DecodesTo code place (.block t) next) (inside : Encodes code endByte next body)
      (tail : Encodes code d (body.closing + 1) rest) :
      Encodes code d place (.block place t body rest)
  | loop {d : UInt8} {place next : Nat} {t : BlockType} {body rest : Sequence}
      (head : DecodesTo code place (.loop t) next) (inside : Encodes code endByte next body)
      (tail : Encodes code d (body.closing + 1) rest) :
      Encodes code d place (.loop place t body rest)
  | ifThen {d : UInt8} {place next : Nat} {t : BlockType} {arm rest : Sequence}
      (head : DecodesTo code place (.ifThen t) next) (inside : Encodes code endByte next arm)
      (tail : Encodes code d (arm.closing + 1) rest) :
      Encodes code d place (.ifThen place t arm rest)
  | ifElse {d : UInt8} {place next : Nat} {t : BlockType} {arm other rest : Sequence}
      (head : DecodesTo code place (.ifThen t) next) (first : Encodes code elseByte next arm)
      (second : Encodes code endByte (arm.closing + 1) other)
      (tail : Encodes code d (other.closing + 1) rest) :
      Encodes code d place (.ifElse place t arm other rest)

/-- The delimiter stands where a sequence closes. -/
theorem Encodes.delimiter {code : Bytes} {d : UInt8} {start : Nat} {s : Sequence}
    (h : Encodes code d start s) : code[s.closing]? = some d := by
  induction h with
  | stop byte => exact byte
  | leaf _ _ ih => exact ih
  | block _ _ _ _ ih => exact ih
  | loop _ _ _ _ ih => exact ih
  | ifThen _ _ _ _ ih => exact ih
  | ifElse _ _ _ _ _ _ ih => exact ih

/-! ## Walking over a sequence -/

/-- What an instruction does to the nesting of blocks. -/
def Instruction.nesting : Instruction → Nesting
  | .block _ => .opens
  | .loop _ => .opens
  | .ifThen _ => .opens
  | .elseArm => .middle
  | .blockEnd => .closes
  | _ => .plain

open Decoder in
theorem nesting_of_decode {code : Bytes} {op : Opcode} {place pos next : Nat} {i : Instruction}
    (h : op.decode code place pos = .ok (i, next)) :
    i.nesting = match op with
      | .block => .opens
      | .loop => .opens
      | .ifThen => .opens
      | .elseArm => .middle
      | .blockEnd => .closes
      | _ => .plain := by
  cases op with
  | block | loop | ifThen | branch | branchIf | call | localGet | localSet | localTee | globalGet
    | globalSet | load | store | const =>
    obtain ⟨_, _, rfl⟩ := map_eq_ok h
    rfl
  | memorySize | memoryGrow =>
    obtain ⟨_, _, _, hRest⟩ := bind_eq_ok h
    cases hRest
    rfl
  | callIndirect =>
    obtain ⟨_, _, _, hRest⟩ := bind_eq_ok h
    obtain ⟨_, _, rfl⟩ := map_eq_ok hRest
    rfl
  | branchTable =>
    obtain ⟨_, _, _, hCount⟩ := bind_eq_ok h
    obtain ⟨_, _, _, hRest⟩ := bind_eq_ok hCount
    obtain ⟨_, _, rfl⟩ := map_eq_ok hRest
    rfl
  | unreachable | nop | elseArm | blockEnd | ret | drop | select | numeric =>
    cases h
    rfl

/-- The byte of an opcode says what its instruction does to the nesting. -/
theorem nesting_of_decodeAt {code : Bytes} {place next : Nat} {b : UInt8} {i : Instruction}
    (h : decodeAt code place b = .ok (i, next)) : Nesting.ofByte b = i.nesting := by
  unfold decodeAt at h
  unfold Nesting.ofByte
  cases hOp : Opcode.ofByte? b with
  | none =>
    rw [hOp] at h
    cases h
    rfl
  | some op =>
    rw [hOp] at h
    rw [nesting_of_decode h]
    cases op <;> rfl

theorem Leaf.nesting_instruction (i : Leaf) : i.instruction.nesting = .plain := by
  cases i <;> rfl

/-- One step of a walk over the instruction at an offset. -/
theorem scanBlock_step {code : Bytes} {start pos next : Nat} {i : Instruction} {scan : BlockScan}
    (h : DecodesTo code pos i next) :
    scanBlock code start pos scan =
      match scan.advance pos i.nesting with
      | .inl scan => scanBlock code start next scan
      | .inr targets => .ok targets := by
  obtain ⟨b, hByte, hDecode⟩ := h
  rw [← nesting_of_decodeAt hDecode]
  exact scanBlock_next hByte (skipOperands_of_decode hDecode)

/-- The instruction of an opcode byte, from the operands after it. -/
theorem decodesTo_of_opcode {code : Bytes} {place next : Nat} {b : UInt8} {i : Instruction}
    (op : Opcode) (hByte : code[place]? = some b) (hOp : Opcode.ofByte? b = some op)
    (hDecode : op.decode code place (place + 1) = .ok (i, next)) :
    DecodesTo code place i next := by
  refine ⟨b, hByte, ?_⟩
  rw [decodeAt, hOp]
  exact hDecode

theorem decodesTo_end {code : Bytes} {place : Nat} (h : code[place]? = some endByte) :
    DecodesTo code place .blockEnd (place + 1) := ⟨_, h, rfl⟩

theorem decodesTo_else {code : Bytes} {place : Nat} (h : code[place]? = some elseByte) :
    DecodesTo code place .elseArm (place + 1) := ⟨_, h, rfl⟩

/-- Walking over an encoded sequence leads to its delimiter and changes nothing. -/
theorem Encodes.scan {code : Bytes} {d : UInt8} {pos : Nat} {s : Sequence}
    (h : Encodes code d pos s) (start : Nat) (scan : BlockScan) :
    scanBlock code start pos scan = scanBlock code start s.closing scan := by
  induction h generalizing scan with
  | stop byte => rfl
  | @leaf d place next i rest head _ ih =>
    rw [scanBlock_step head, i.nesting_instruction]
    exact ih scan
  | block head body _ ihBody ihTail | loop head body _ ihBody ihTail
    | ifThen head body _ ihBody ihTail =>
    rw [scanBlock_step head]
    change scanBlock code start _ { scan with depth := scan.depth + 1 } = _
    rw [ihBody, scanBlock_step (decodesTo_end body.delimiter)]
    exact ihTail scan
  | ifElse head arm other _ ihArm ihOther ihTail =>
    rw [scanBlock_step head]
    change scanBlock code start _ { scan with depth := scan.depth + 1 } = _
    rw [ihArm, scanBlock_step (decodesTo_else arm.delimiter)]
    change scanBlock code start _ { scan with depth := scan.depth + 1 } = _
    rw [ihOther, scanBlock_step (decodesTo_end other.delimiter)]
    exact ihTail scan

/-- The end of a block that has no `else`. -/
theorem Encodes.resolve_end {code : Bytes} {start : Nat} {body : Sequence}
    (h : Encodes code endByte start body) :
    resolve code start = .ok { elsePos := none, endPos := body.closing } := by
  rw [resolve, h.scan, scanBlock_step (decodesTo_end h.delimiter)]
  rfl

/-- The delimiters of a conditional with two arms. -/
theorem Encodes.resolve_else {code : Bytes} {start : Nat} {arm other : Sequence}
    (hArm : Encodes code elseByte start arm)
    (hOther : Encodes code endByte (arm.closing + 1) other) :
    resolve code start = .ok { elsePos := some arm.closing, endPos := other.closing } := by
  rw [resolve, hArm.scan, scanBlock_step (decodesTo_else hArm.delimiter)]
  change scanBlock code start _ { depth := 0, elsePos := some arm.closing } = _
  rw [hOther.scan, scanBlock_step (decodesTo_end hOther.delimiter)]
  rfl

end WasmMachine
