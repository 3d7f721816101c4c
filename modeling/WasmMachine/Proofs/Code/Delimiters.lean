import WasmMachine.Proofs.Code.Forms

/-!
# Delimiters of blocks

The search for the end of a block walks over the code once and counts how many inner blocks are
open. On well-nested code it finds the `end` that closes the block, and the `else` of a conditional,
whatever stands before and behind the block and whatever the operands inside look like. On any code
at all it finds the first `end` on an instruction boundary at which no inner block is open, and the
first such `else` before it, or it fails where the instructions stop.

* `RawSequence`: well-nested code in binary form. Opcodes and operands are of any kind that the walk
  accepts, so this is more than what the machine executes.
* `Walk`: the instruction boundaries that follow an offset, with their nesting levels.
* `Delimits`, `Unclosed`: the two outcomes, described by the boundaries alone.
* `resolve_exact`: the search on well-nested code, and on any code.
-/

namespace WasmMachine

/-! ## Well-nested code -/

/-- An instruction in binary form: an opcode byte, which need not be known, and operands that may
stand behind it. -/
structure RawInstruction where
  opcode : UInt8
  operands : List UInt8
  form : (Operands.ofByte opcode).Form operands

namespace RawInstruction

def bytes (i : RawInstruction) : List UInt8 := i.opcode :: i.operands

def nesting (i : RawInstruction) : Nesting := Nesting.ofByte i.opcode

end RawInstruction

/-- A well-nested sequence of instructions in binary form. A block, a loop or a conditional with one
arm holds a sequence, and a conditional with two arms holds two. -/
inductive RawSequence where
  | nil
  | plain (i : RawInstruction) (isPlain : i.nesting = .plain) (rest : RawSequence)
  | block (i : RawInstruction) (opens : i.nesting = .opens) (body rest : RawSequence)
  | ifElse (i : RawInstruction) (isIf : Opcode.ofByte? i.opcode = some .ifThen)
      (arm other rest : RawSequence)

/-- The code bytes of a sequence. -/
def RawSequence.bytes : RawSequence → List UInt8
  | .nil => []
  | .plain i _ rest => i.bytes ++ rest.bytes
  | .block i _ body rest => i.bytes ++ body.bytes ++ [endByte] ++ rest.bytes
  | .ifElse i _ arm other rest =>
    i.bytes ++ arm.bytes ++ [elseByte] ++ other.bytes ++ [endByte] ++ rest.bytes

section

variable {code : Bytes} {start pos : Nat} {w : BlockScan}

/-- One step of the walk over an instruction that stands in the code. -/
theorem RawInstruction.scan (i : RawInstruction) (h : StandsAt code pos i.bytes) :
    scanBlock code start pos w =
      match w.advance pos i.nesting with
      | .inl scan => scanBlock code start (pos + i.bytes.length) scan
      | .inr targets => .ok targets := by
  have hSkip : skipOperands code (pos + 1) i.opcode = .ok (pos + i.bytes.length) := by
    refine skipOperands_eq_ok_iff.2 ⟨i.operands, i.form, h.tail, ?_⟩
    rw [RawInstruction.bytes, List.length_cons]
    omega
  exact scanBlock_next h.head hSkip

theorem scanBlock_at_end (h : StandsAt code pos [endByte]) :
    scanBlock code start pos w =
      if w.depth = 0 then .ok { elsePos := w.elsePos, endPos := pos }
      else scanBlock code start (pos + 1) { w with depth := w.depth - 1 } := by
  rw [scanBlock_step (decodesTo_end h.head)]
  simp only [Instruction.nesting, BlockScan.advance]
  by_cases hDepth : w.depth = 0
  · rw [if_pos hDepth, if_pos hDepth]
  · rw [if_neg hDepth, if_neg hDepth]

theorem scanBlock_at_else (h : StandsAt code pos [elseByte]) :
    scanBlock code start pos w =
      scanBlock code start (pos + 1)
        (if w.depth = 0 then { w with elsePos := w.elsePos.or (some pos) } else w) := by
  rw [scanBlock_step (decodesTo_else h.head)]
  rfl

/-- The walk passes over well-nested code and remembers nothing of it. -/
theorem RawSequence.scan (s : RawSequence) (h : StandsAt code pos s.bytes) :
    scanBlock code start pos w = scanBlock code start (pos + s.bytes.length) w := by
  induction s generalizing pos w with
  | nil => rfl
  | plain i isPlain rest ih =>
    rw [i.scan h.append_left, isPlain]
    change scanBlock code start (pos + i.bytes.length) w = _
    rw [ih h.append_right, RawSequence.bytes, List.length_append, Nat.add_assoc]
  | block i opens body rest ihBody ihRest =>
    -- Inside the body one more block is open, and the `end` behind it closes this one.
    have hHead := h.append_left.append_left.append_left
    have hBody := h.append_left.append_left.append_right
    have hEnd := h.append_left.append_right
    have hRest := h.append_right
    simp only [List.length_append, ← Nat.add_assoc, List.length_singleton] at hBody hEnd hRest
    rw [i.scan hHead, opens]
    change scanBlock code start _ { w with depth := w.depth + 1 } = _
    rw [ihBody hBody, scanBlock_at_end hEnd, if_neg (Nat.succ_ne_zero _), Nat.add_sub_cancel,
      ihRest hRest]
    simp only [RawSequence.bytes, List.length_append, ← Nat.add_assoc, List.length_singleton]
  | ifElse i isIf arm other rest ihArm ihOther ihRest =>
    -- The `else` belongs to this conditional, which is open: the walk does not remember it.
    have hHead := h.append_left.append_left.append_left.append_left.append_left
    have hArm := h.append_left.append_left.append_left.append_left.append_right
    have hElse := h.append_left.append_left.append_left.append_right
    have hOther := h.append_left.append_left.append_right
    have hEnd := h.append_left.append_right
    have hRest := h.append_right
    simp only [List.length_append, ← Nat.add_assoc, List.length_singleton]
      at hArm hElse hOther hEnd hRest
    have hOpens : i.nesting = .opens := by
      unfold RawInstruction.nesting Nesting.ofByte
      rw [isIf]
    rw [i.scan hHead, hOpens]
    change scanBlock code start _ { w with depth := w.depth + 1 } = _
    rw [ihArm hArm, scanBlock_at_else hElse, if_neg (Nat.succ_ne_zero _), ihOther hOther,
      scanBlock_at_end hEnd, if_neg (Nat.succ_ne_zero _), Nat.add_sub_cancel, ihRest hRest]
    simp only [RawSequence.bytes, List.length_append, ← Nat.add_assoc, List.length_singleton]

end

/-- The end of well-nested code that an `end` closes. -/
theorem resolve_closed (before after : List UInt8) (body : RawSequence) :
    resolve (before ++ body.bytes ++ [endByte] ++ after).toArray before.length =
      .ok { elsePos := none, endPos := before.length + body.bytes.length } := by
  have hStands := StandsAt.behind before (body.bytes ++ [endByte]) after
  rw [← List.append_assoc] at hStands
  rw [resolve, body.scan hStands.append_left, scanBlock_at_end hStands.append_right]
  rfl

/-- The delimiters of two arms of well-nested code. -/
theorem resolve_divided (before after : List UInt8) (arm other : RawSequence) :
    resolve (before ++ arm.bytes ++ [elseByte] ++ other.bytes ++ [endByte] ++ after).toArray
        before.length =
      .ok { elsePos := some (before.length + arm.bytes.length)
            endPos := before.length + arm.bytes.length + 1 + other.bytes.length } := by
  have hStands := StandsAt.behind before (arm.bytes ++ [elseByte] ++ other.bytes ++ [endByte]) after
  simp only [← List.append_assoc] at hStands
  have hArm := hStands.append_left.append_left.append_left
  have hElse := hStands.append_left.append_left.append_right
  have hOther := hStands.append_left.append_right
  have hEnd := hStands.append_right
  simp only [List.length_append, ← Nat.add_assoc, List.length_singleton] at hElse hOther hEnd
  rw [resolve, arm.scan hArm, scanBlock_at_else hElse]
  change scanBlock _ _ _ { depth := 0, elsePos := some (before.length + arm.bytes.length) } = _
  rw [other.scan hOther, scanBlock_at_end hEnd]
  rfl

/-! ## Boundaries and nesting levels -/

/-- How an instruction changes the number of open blocks. -/
def Nesting.change : Nesting → Int
  | .opens => 1
  | .middle => 0
  | .closes => -1
  | .plain => 0

/-- Instruction by instruction the code leads from one offset to another, and from one nesting level
to another. -/
inductive Walk (code : Bytes) : (pos : Nat) → (level : Int) → (place : Nat) → (level' : Int) → Prop
  | here {pos : Nat} {level : Int} : Walk code pos level pos level
  | step {pos next place : Nat} {level level' : Int} {b : UInt8} (byte : code[pos]? = some b)
      (skip : skipOperands code (pos + 1) b = .ok next)
      (rest : Walk code next (level + (Nesting.ofByte b).change) place level') :
      Walk code pos level place level'

/-- From an offset at a nesting level the code leads to a byte on an instruction boundary at level
zero. -/
def Meets (code : Bytes) (pos : Nat) (level : Int) (b : UInt8) (place : Nat) : Prop :=
  Walk code pos level place 0 ∧ code[place]? = some b

/-- No instruction starts at an offset, or its operands are cut off or too long. -/
def StuckAt (code : Bytes) (start place : Nat) (e : Trap) : Prop :=
  (code[place]? = none ∧ e = .illFormedStructure start) ∨
    ∃ b cause, code[place]? = some b ∧ skipOperands code (place + 1) b = .error cause ∧
      e = .malformedImmediate cause

/-- What a walk that has come to an offset finds: the first `end` at level zero, and the first
`else` at level zero before it, unless one is remembered. -/
structure Finds (code : Bytes) (pos : Nat) (w : BlockScan) (t : BlockTargets) : Prop where
  closes : Meets code pos w.depth endByte t.endPos
  first : ∀ place < t.endPos, ¬ Meets code pos w.depth endByte place
  elseArm : ∀ place, t.elsePos = some place ↔
    w.elsePos = some place ∨
      w.elsePos = none ∧ Meets code pos w.depth elseByte place ∧ place < t.endPos ∧
        ∀ earlier < place, ¬ Meets code pos w.depth elseByte earlier

/-- The delimiters of the block whose body starts at an offset: the first `end` at level zero, and
the first `else` at level zero before it. -/
structure Delimits (code : Bytes) (start : Nat) (t : BlockTargets) : Prop where
  closes : Meets code start 0 endByte t.endPos
  first : ∀ place < t.endPos, ¬ Meets code start 0 endByte place
  elseArm : ∀ place, t.elsePos = some place ↔
    Meets code start 0 elseByte place ∧ place < t.endPos ∧
      ∀ earlier < place, ¬ Meets code start 0 elseByte earlier

/-- The block whose body starts at an offset has no `end` at level zero, and the instructions stop
with the given trap. -/
structure Unclosed (code : Bytes) (start : Nat) (e : Trap) : Prop where
  endless : ∀ place, ¬ Meets code start 0 endByte place
  stuck : ∃ place level, Walk code start 0 place level ∧ StuckAt code start place e

/-! ### Steps of a walk -/

section

variable {code : Bytes} {start pos next place : Nat} {level level' : Int} {b c : UInt8}

theorem Walk.le (h : Walk code pos level place level') : pos ≤ place := by
  induction h with
  | here => exact Nat.le_refl _
  | step _ skip _ ih =>
    have hForward := le_of_skipOperands skip
    omega

/-- Where there is no instruction, a walk stays. -/
theorem Walk.eq_of_stuck {e : Trap} (hStuck : StuckAt code start pos e)
    (h : Walk code pos level place level') : place = pos ∧ level' = level := by
  cases h with
  | here => exact ⟨rfl, rfl⟩
  | step byte skip _ =>
    rcases hStuck with ⟨hNone, -⟩ | ⟨c, cause, hByte, hSkip, -⟩
    · rw [byte] at hNone
      cases hNone
    · rw [byte] at hByte
      cases hByte
      rw [skip] at hSkip
      cases hSkip

/-- From an instruction a walk stays or goes on behind it. -/
theorem walk_iff (hByte : code[pos]? = some b) (hSkip : skipOperands code (pos + 1) b = .ok next) :
    Walk code pos level place level' ↔
      (place = pos ∧ level' = level) ∨
        Walk code next (level + (Nesting.ofByte b).change) place level' := by
  constructor
  · intro h
    cases h with
    | here => exact .inl ⟨rfl, rfl⟩
    | step byte skip rest =>
      rw [hByte] at byte
      cases byte
      rw [hSkip] at skip
      cases skip
      exact .inr rest
  · rintro (⟨rfl, rfl⟩ | hRest)
    · exact .here
    · exact .step hByte hSkip hRest

theorem meets_iff (hByte : code[pos]? = some b) (hSkip : skipOperands code (pos + 1) b = .ok next) :
    Meets code pos level c place ↔
      (place = pos ∧ level = 0 ∧ b = c) ∨
        Meets code next (level + (Nesting.ofByte b).change) c place := by
  unfold Meets
  rw [walk_iff hByte hSkip]
  constructor
  · rintro ⟨⟨rfl, hLevel⟩ | hRest, hPlace⟩
    · rw [hByte] at hPlace
      exact .inl ⟨rfl, hLevel.symm, Option.some.inj hPlace⟩
    · exact .inr ⟨hRest, hPlace⟩
  · rintro (⟨rfl, rfl, rfl⟩ | ⟨hRest, hPlace⟩)
    · exact ⟨.inl ⟨rfl, rfl⟩, hByte⟩
    · exact ⟨.inr hRest, hPlace⟩

/-- An `end` has no operands that could be malformed. -/
theorem not_meets_of_stuck {e : Trap} (hStuck : StuckAt code start pos e) :
    ¬ Meets code pos level endByte place := by
  rintro ⟨hWalk, hByte⟩
  obtain ⟨rfl, -⟩ := hWalk.eq_of_stuck hStuck
  rcases hStuck with ⟨hNone, -⟩ | ⟨b, cause, hHere, hSkip, -⟩
  · rw [hByte] at hNone
    cases hNone
  · rw [hByte] at hHere
    cases hHere
    cases hSkip

end

/-! ### Bytes of delimiters -/

/-- The bytes that close a block, and those that divide it. -/
theorem eq_of_nesting (b : UInt8) :
    (Nesting.ofByte b = .closes ↔ b = endByte) ∧ (Nesting.ofByte b = .middle ↔ b = elseByte) := by
  have hAll : ∀ n : Fin 256,
      (Nesting.ofByte (UInt8.ofNat n.val) = .closes ↔ UInt8.ofNat n.val = endByte) ∧
      (Nesting.ofByte (UInt8.ofNat n.val) = .middle ↔ UInt8.ofNat n.val = elseByte) := by
    decide +kernel
  have hHere := hAll ⟨b.toNat, b.toNat_lt⟩
  rwa [UInt8.ofNat_toNat] at hHere

/-! ### The search for the end -/

section

variable {code : Bytes} {start pos next : Nat} {w : BlockScan} {b : UInt8} {t : BlockTargets}

/-- An instruction that is no delimiter of the block itself is not met. -/
theorem meets_iff_next (hByte : code[pos]? = some b)
    (hSkip : skipOperands code (pos + 1) b = .ok next) {level : Int} {c : UInt8}
    (hOther : level ≠ 0 ∨ b ≠ c) (place : Nat) :
    Meets code pos level c place ↔ Meets code next (level + (Nesting.ofByte b).change) c place := by
  rw [meets_iff hByte hSkip]
  refine or_iff_right ?_
  rintro ⟨-, hLevel, hSame⟩
  exact hOther.elim (fun h => h hLevel) (fun h => h hSame)

/-- The walk goes on behind an instruction that is no delimiter of the block itself. -/
theorem finds_iff_next (hByte : code[pos]? = some b)
    (hSkip : skipOperands code (pos + 1) b = .ok next) {w' : BlockScan}
    (hDepth : (w'.depth : Int) = w.depth + (Nesting.ofByte b).change)
    (hElse : w'.elsePos = w.elsePos) (hEnd : (w.depth : Int) ≠ 0 ∨ b ≠ endByte)
    (hDivider : (w.depth : Int) ≠ 0 ∨ b ≠ elseByte) :
    Finds code pos w t ↔ Finds code next w' t := by
  have hEnds := meets_iff_next hByte hSkip hEnd
  have hElses := meets_iff_next hByte hSkip hDivider
  rw [← hDepth] at hEnds hElses
  constructor
  · rintro ⟨hCloses, hFirst, hArm⟩
    simp only [hEnds, hElses] at hCloses hFirst hArm
    exact ⟨hCloses, hFirst, by rwa [hElse]⟩
  · rintro ⟨hCloses, hFirst, hArm⟩
    rw [hElse] at hArm
    refine ⟨?_, ?_, ?_⟩
    all_goals simp only [hEnds, hElses]
    · exact hCloses
    · exact hFirst
    · exact hArm

/-- An `else` of the block itself where the walk stands is the first one. -/
theorem first_else_iff (hByte : code[pos]? = some elseByte) (hDepth : w.depth = 0)
    (hCloses : Meets code pos w.depth endByte t.endPos) (place : Nat) :
    (Meets code pos w.depth elseByte place ∧ place < t.endPos ∧
        ∀ earlier < place, ¬ Meets code pos w.depth elseByte earlier) ↔ pos = place := by
  have hHere : Meets code pos w.depth elseByte pos := by
    rw [hDepth]
    exact ⟨.here, hByte⟩
  constructor
  · rintro ⟨hMeets, -, hFirst⟩
    have hLe := hMeets.1.le
    have hNot : ¬ pos < place := fun hLt => hFirst pos hLt hHere
    omega
  · rintro rfl
    have hLe := hCloses.1.le
    have hNe : pos ≠ t.endPos := by
      rintro hEq
      have hEnd := hCloses.2
      rw [← hEq, hByte] at hEnd
      cases hEnd
    exact ⟨hHere, by omega, fun earlier hLt hMeets => Nat.not_le.2 hLt hMeets.1.le⟩

/-- At an `else` of the block itself, which is remembered unless there was one before. -/
theorem finds_iff_else (hByte : code[pos]? = some elseByte)
    (hSkip : skipOperands code (pos + 1) elseByte = .ok next) (hDepth : w.depth = 0) :
    Finds code pos w t ↔ Finds code next { w with elsePos := w.elsePos.or (some pos) } t := by
  have hEnds : ∀ place, Meets code pos w.depth endByte place ↔
      Meets code next w.depth endByte place := by
    intro place
    rw [meets_iff_next hByte hSkip (.inr (by decide))]
    exact Int.add_zero (w.depth : Int) ▸ Iff.rfl
  have hArms : Meets code pos w.depth endByte t.endPos → ∀ place,
      ((w.elsePos = some place ∨ w.elsePos = none ∧ Meets code pos w.depth elseByte place ∧
        place < t.endPos ∧ ∀ earlier < place, ¬ Meets code pos w.depth elseByte earlier) ↔
      (w.elsePos.or (some pos) = some place ∨ w.elsePos.or (some pos) = none ∧
        Meets code next w.depth elseByte place ∧ place < t.endPos ∧
        ∀ earlier < place, ¬ Meets code next w.depth elseByte earlier)) := by
    intro hCloses place
    cases hOld : w.elsePos with
    | some old => simp
    | none =>
      rw [first_else_iff hByte hDepth hCloses place]
      simp
  constructor
  · rintro ⟨hCloses, hFirst, hArm⟩
    refine ⟨(hEnds _).1 hCloses, fun place hLt h => hFirst place hLt ((hEnds place).2 h), ?_⟩
    exact fun place => (hArm place).trans (hArms hCloses place)
  · rintro ⟨hCloses, hFirst, hArm⟩
    have hCloses' := (hEnds _).2 hCloses
    refine ⟨hCloses', fun place hLt h => hFirst place hLt ((hEnds place).1 h), ?_⟩
    exact fun place => (hArm place).trans (hArms hCloses' place).symm

/-- At the `end` of the block itself, which is found. -/
theorem finds_iff_end (hByte : code[pos]? = some endByte) (hDepth : w.depth = 0) :
    Finds code pos w t ↔ { elsePos := w.elsePos, endPos := pos } = t := by
  have hHere : Meets code pos w.depth endByte pos := by
    rw [hDepth]
    exact ⟨.here, hByte⟩
  constructor
  · rintro ⟨hCloses, hFirst, hArm⟩
    obtain ⟨elsePos, endPos⟩ := t
    have hLe := hCloses.1.le
    have hNot : ¬ pos < endPos := fun hLt => hFirst pos hLt hHere
    obtain rfl : pos = endPos := by
      simp only at hLe
      omega
    have hElse : elsePos = w.elsePos := by
      refine Option.ext fun place => (hArm place).trans (or_iff_left ?_)
      rintro ⟨-, hMeets, hLt, -⟩
      exact Nat.not_le.2 hLt hMeets.1.le
    rw [hElse]
  · rintro rfl
    refine ⟨hHere, fun place hLt h => Nat.not_le.2 hLt h.1.le, fun place => ?_⟩
    refine (or_iff_left ?_).symm
    rintro ⟨-, hMeets, hLt, -⟩
    exact Nat.not_le.2 hLt hMeets.1.le

/-- An instruction behind which the walk goes on is not the `end` of the block itself. -/
theorem depth_of_advance {w' : BlockScan}
    (h : w.advance pos (Nesting.ofByte b) = .inl w') :
    (w'.depth : Int) = w.depth + (Nesting.ofByte b).change ∧
      ((w.depth : Int) ≠ 0 ∨ b ≠ endByte) := by
  have hEnd := (eq_of_nesting b).1
  have hOther : Nesting.ofByte b ≠ .closes → b ≠ endByte := fun hNot hEq => hNot (hEnd.2 hEq)
  cases hNesting : Nesting.ofByte b with
  | opens =>
    rw [hNesting] at h hOther
    cases h
    exact ⟨Int.natCast_add w.depth 1, .inr (hOther (by decide))⟩
  | plain =>
    rw [hNesting] at h hOther
    cases h
    exact ⟨(Int.add_zero _).symm, .inr (hOther (by decide))⟩
  | middle =>
    rw [hNesting] at h hOther
    cases h
    refine ⟨?_, .inr (hOther (by decide))⟩
    split <;> exact (Int.add_zero _).symm
  | closes =>
    rw [hNesting, BlockScan.advance] at h
    split at h
    · cases h
    · rename_i hDepth
      cases h
      simp only [Nesting.change]
      omega

theorem elsePos_of_advance {w' : BlockScan} (h : w.advance pos (Nesting.ofByte b) = .inl w')
    (hOther : ¬ (w.depth = 0 ∧ b = elseByte)) : w'.elsePos = w.elsePos := by
  cases hNesting : Nesting.ofByte b with
  | opens | plain =>
    rw [hNesting] at h
    cases h
    rfl
  | middle =>
    have hDepth : w.depth ≠ 0 := fun hZero => hOther ⟨hZero, (eq_of_nesting b).2.1 hNesting⟩
    rw [hNesting, BlockScan.advance, if_neg hDepth] at h
    cases h
    rfl
  | closes =>
    rw [hNesting, BlockScan.advance] at h
    split at h <;> cases h
    rfl

theorem closed_of_advance {t' : BlockTargets}
    (h : w.advance pos (Nesting.ofByte b) = .inr t') :
    w.depth = 0 ∧ b = endByte ∧ t' = { elsePos := w.elsePos, endPos := pos } := by
  cases hNesting : Nesting.ofByte b with
  | opens | plain | middle =>
    rw [hNesting] at h
    cases h
  | closes =>
    rw [hNesting, BlockScan.advance] at h
    split at h
    · rename_i hDepth
      cases h
      exact ⟨hDepth, (eq_of_nesting b).1.1 hNesting, rfl⟩
    · cases h

/-- One step of the walk finds what the walk finds. -/
theorem finds_iff_advance (hByte : code[pos]? = some b)
    (hSkip : skipOperands code (pos + 1) b = .ok next) :
    Finds code pos w t ↔
      match w.advance pos (Nesting.ofByte b) with
      | .inl w' => Finds code next w' t
      | .inr t' => t' = t := by
  by_cases hDivides : w.depth = 0 ∧ b = elseByte
  · obtain ⟨hDepth, rfl⟩ := hDivides
    have hAdvance : w.advance pos (Nesting.ofByte elseByte) =
        .inl { w with elsePos := w.elsePos.or (some pos) } := congrArg Sum.inl (if_pos hDepth)
    rw [hAdvance]
    exact finds_iff_else hByte hSkip hDepth
  · cases hAdvance : w.advance pos (Nesting.ofByte b) with
    | inl w' =>
      obtain ⟨hDepth, hEnd⟩ := depth_of_advance hAdvance
      have hDivider : (w.depth : Int) ≠ 0 ∨ b ≠ elseByte := by
        rw [← not_and_or]
        exact_mod_cast hDivides
      exact finds_iff_next hByte hSkip hDepth (elsePos_of_advance hAdvance hDivides) hEnd hDivider
    | inr t' =>
      obtain ⟨hDepth, rfl, rfl⟩ := closed_of_advance hAdvance
      exact finds_iff_end hByte hDepth

theorem not_finds_of_stuck (start : Nat) {e : Trap} (hStuck : StuckAt code start pos e) :
    ¬ Finds code pos w t := fun h => not_meets_of_stuck hStuck h.closes

/-- The walk gives the delimiters that it finds. -/
theorem scanBlock_eq_ok_iff : scanBlock code start pos w = .ok t ↔ Finds code pos w t := by
  fun_induction scanBlock code start pos w with
  | case1 pos w hNone =>
    exact iff_of_false (fun h => by cases h) (not_finds_of_stuck start (.inl ⟨hNone, rfl⟩))
  | case2 pos w b hByte e hSkip =>
    exact iff_of_false (fun h => by cases h)
      (not_finds_of_stuck start (.inr ⟨b, e, hByte, hSkip, rfl⟩))
  | case3 pos w b hByte next hSkip hForward hInside w' hAdvance ih =>
    rw [ih, finds_iff_advance hByte hSkip, hAdvance]
  | case4 pos w b hByte next hSkip hForward hInside t' hAdvance =>
    rw [finds_iff_advance hByte hSkip, hAdvance, Except.ok.injEq]

/-- An offset at which instructions stop has one trap. -/
theorem StuckAt.unique {e e' : Trap} (h : StuckAt code start pos e)
    (h' : StuckAt code start pos e') : e = e' := by
  rcases h with ⟨hNone, rfl⟩ | ⟨b, cause, hByte, hSkip, rfl⟩ <;>
    rcases h' with ⟨hNone', rfl⟩ | ⟨b', cause', hByte', hSkip', rfl⟩
  · rfl
  · rw [hNone] at hByte'
    cases hByte'
  · rw [hNone'] at hByte
    cases hByte
  · rw [hByte] at hByte'
    cases hByte'
    rw [hSkip] at hSkip'
    cases hSkip'
    rfl

theorem not_stuck_of_skip {e : Trap} (hByte : code[pos]? = some b)
    (hSkip : skipOperands code (pos + 1) b = .ok next) : ¬ StuckAt code start pos e := by
  rintro (⟨hNone, -⟩ | ⟨c, cause, hHere, hError, -⟩)
  · rw [hByte] at hNone
    cases hNone
  · rw [hByte] at hHere
    cases hHere
    rw [hSkip] at hError
    cases hError

/-- Walking on from an offset meets no `end` at level zero, and leads to where the instructions stop
with the given trap. -/
def Fails (code : Bytes) (start pos : Nat) (w : BlockScan) (e : Trap) : Prop :=
  (∀ place, ¬ Meets code pos w.depth endByte place) ∧
    ∃ place level, Walk code pos w.depth place level ∧ StuckAt code start place e

theorem fails_iff_of_stuck {e e' : Trap} (hStuck : StuckAt code start pos e) :
    Fails code start pos w e' ↔ e = e' := by
  constructor
  · rintro ⟨-, place, level, hWalk, hStuck'⟩
    obtain ⟨rfl, -⟩ := hWalk.eq_of_stuck hStuck
    exact hStuck.unique hStuck'
  · rintro rfl
    exact ⟨fun _ => not_meets_of_stuck hStuck, pos, w.depth, .here, hStuck⟩

/-- One step of the walk fails where the walk does. -/
theorem fails_iff_advance {e : Trap} (hByte : code[pos]? = some b)
    (hSkip : skipOperands code (pos + 1) b = .ok next) :
    Fails code start pos w e ↔
      match w.advance pos (Nesting.ofByte b) with
      | .inl w' => Fails code start next w' e
      | .inr _ => False := by
  cases hAdvance : w.advance pos (Nesting.ofByte b) with
  | inl w' =>
    obtain ⟨hDepth, hOther⟩ := depth_of_advance hAdvance
    have hStuck : ∀ place level, Walk code pos w.depth place level ∧ StuckAt code start place e ↔
        Walk code next w'.depth place level ∧ StuckAt code start place e := by
      intro place level
      rw [walk_iff hByte hSkip, hDepth, or_and_right]
      refine or_iff_right ?_
      rintro ⟨⟨rfl, -⟩, hStuck⟩
      exact not_stuck_of_skip hByte hSkip hStuck
    unfold Fails
    simp only [hStuck, meets_iff_next hByte hSkip hOther, hDepth]
  | inr t' =>
    obtain ⟨hDepth, rfl, -⟩ := closed_of_advance hAdvance
    refine iff_of_false (fun h => h.1 pos ?_) id
    rw [hDepth]
    exact ⟨.here, hByte⟩

/-- The walk fails where it gets stuck, if there is no `end` of the block itself. -/
theorem scanBlock_eq_error_iff {e : Trap} :
    scanBlock code start pos w = .error e ↔ Fails code start pos w e := by
  fun_induction scanBlock code start pos w with
  | case1 pos w hNone =>
    rw [fails_iff_of_stuck (.inl ⟨hNone, rfl⟩), Except.error.injEq]
  | case2 pos w b hByte cause hSkip =>
    rw [fails_iff_of_stuck (.inr ⟨b, cause, hByte, hSkip, rfl⟩), Except.error.injEq]
  | case3 pos w b hByte next hSkip hForward hInside w' hAdvance ih =>
    rw [ih, fails_iff_advance hByte hSkip, hAdvance]
  | case4 pos w b hByte next hSkip hForward hInside t' hAdvance =>
    rw [fails_iff_advance hByte hSkip, hAdvance]
    exact iff_of_false (fun h => by cases h) id

end

/-- On any code the search gives the delimiters of the block, if there are any. -/
theorem resolve_eq_ok_iff {code : Bytes} {start : Nat} {t : BlockTargets} :
    resolve code start = .ok t ↔ Delimits code start t := by
  rw [resolve, scanBlock_eq_ok_iff]
  constructor
  · rintro ⟨hCloses, hFirst, hArm⟩
    exact ⟨hCloses, hFirst, fun place => (hArm place).trans (by simp)⟩
  · rintro ⟨hCloses, hFirst, hArm⟩
    exact ⟨hCloses, hFirst, fun place => (hArm place).trans (by simp)⟩

/-- The search fails on a block without an `end`, with the trap of the place where the instructions
stop. -/
theorem resolve_eq_error_iff {code : Bytes} {start : Nat} {e : Trap} :
    resolve code start = .error e ↔ Unclosed code start e := by
  rw [resolve, scanBlock_eq_error_iff]
  exact ⟨fun h => ⟨h.1, h.2⟩, fun h => ⟨h.1, h.2⟩⟩

/-- The search for the delimiters of a block finds the `end` behind well-nested code, and the `else`
between two pieces of it, whatever stands in front of them and behind them. On any code and from any
offset it gives exactly the first `end` at level zero and the first `else` at level zero before it,
and fails exactly if there is no such `end`. One of the two is always the case: the instructions
either come to an `end` at level zero or stop. -/
theorem resolve_exact :
    (∀ (before after : List UInt8) (body : RawSequence),
      resolve (before ++ body.bytes ++ [endByte] ++ after).toArray before.length =
        .ok { elsePos := none, endPos := before.length + body.bytes.length }) ∧
    (∀ (before after : List UInt8) (arm other : RawSequence),
      resolve (before ++ arm.bytes ++ [elseByte] ++ other.bytes ++ [endByte] ++ after).toArray
          before.length =
        .ok { elsePos := some (before.length + arm.bytes.length)
              endPos := before.length + arm.bytes.length + 1 + other.bytes.length }) ∧
    ∀ (code : Bytes) (start : Nat),
      (∀ t, resolve code start = .ok t ↔ Delimits code start t) ∧
      (∀ e, resolve code start = .error e ↔ Unclosed code start e) ∧
      ((∃ t, Delimits code start t) ∨ ∃ e, Unclosed code start e) := by
  refine ⟨resolve_closed, resolve_divided, fun code start => ?_⟩
  refine ⟨fun _ => resolve_eq_ok_iff, fun _ => resolve_eq_error_iff, ?_⟩
  cases hResolve : resolve code start with
  | ok t => exact .inl ⟨t, resolve_eq_ok_iff.1 hResolve⟩
  | error e => exact .inr ⟨e, resolve_eq_error_iff.1 hResolve⟩

end WasmMachine
