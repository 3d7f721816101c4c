import WasmMachine.Operands
import WasmMachine.Trap

/-!
# Ends of blocks

Code stays in its binary form, so the end of a block is found by walking over its instructions
until the nesting closes. `resolve` gives the offset of the matching `end` and, for a block
that has one, of its `else`.
-/

namespace WasmMachine

/-- The delimiters of a structured block. -/
structure BlockTargets where
  /-- The offset of the first `else` that belongs to the block itself. -/
  elsePos : Option Nat
  /-- The offset of the matching `end`. -/
  endPos : Nat
  deriving DecidableEq, Repr

/-- What an opcode byte does to the nesting of blocks. -/
inductive Nesting where
  | opens
  | middle
  | closes
  | plain
  deriving DecidableEq, Repr

/-- The effect of an opcode byte on the nesting of blocks. -/
def Nesting.ofByte (b : UInt8) : Nesting :=
  match Opcode.ofByte? b with
  | some .block => .opens
  | some .loop => .opens
  | some .ifThen => .opens
  | some .elseArm => .middle
  | some .blockEnd => .closes
  | _ => .plain

/-- A walk over the body of a block: how many inner blocks are open, and the first `else` that
belongs to the block itself. -/
structure BlockScan where
  depth : Nat := 0
  elsePos : Option Nat := none
  deriving DecidableEq, Repr

/-- The walk after the instruction at `pos`, or the delimiters when that instruction closes the
block. -/
def BlockScan.advance (scan : BlockScan) (pos : Nat) : Nesting → BlockScan ⊕ BlockTargets
  | .opens => .inl { scan with depth := scan.depth + 1 }
  | .middle =>
    .inl (if scan.depth = 0 then { scan with elsePos := scan.elsePos.or (some pos) } else scan)
  | .closes =>
    if scan.depth = 0 then .inr { elsePos := scan.elsePos, endPos := pos }
    else .inl { scan with depth := scan.depth - 1 }
  | .plain => .inl scan

/-- Walks on from `pos` to the end of the block whose body starts at `start`. -/
def scanBlock (code : Bytes) (start pos : Nat) (scan : BlockScan) : Except Trap BlockTargets :=
  match hByte : code[pos]? with
  | none => .error (.illFormedStructure start)
  | some b =>
    match hSkip : skipOperands code (pos + 1) b with
    | .error e => .error (.malformedImmediate e)
    | .ok next =>
      have : pos + 1 ≤ next := le_of_skipOperands hSkip
      have : pos < code.size := (Array.getElem?_eq_some_iff.1 hByte).1
      match scan.advance pos (Nesting.ofByte b) with
      | .inl scan => scanBlock code start next scan
      | .inr targets => .ok targets
termination_by code.size - pos

/-- Finds the delimiters of the block whose body starts at `start`, just past its block type. -/
def resolve (code : Bytes) (start : Nat) : Except Trap BlockTargets :=
  scanBlock code start start {}

end WasmMachine
