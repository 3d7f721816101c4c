import WasmMachine.Proofs.Code.Delimiters
import WasmMachine.Proofs.Instance.Loading
import WasmMachine.Proofs.Machine.Isolation

/-!
# Lengths of instructions

Three readers go over the operands of an instruction: the machine when it executes it, the search
for the end of a block when it steps over it, and the loader when it takes an initializer. Each has
its own way with numbers and block types, and the machine may find a number in its memo table. None
of them disagrees with another on where an instruction ends: wherever the machine or the loader
accepts the operands, they end where stepping over them ends.

* `Opcode.readsAs_decode`: the machine reads operands from the code, whatever it remembers, as long
  as that was read in the same way.
* `Reader.skip_of_initOperands`, `Reader.walk_of_initInstructions`: one instruction of an
  initializer, and all of them.
* `Session.lengths_agree`: all lengths agree, for every code, every opcode and every offset.
-/

namespace WasmMachine

open Exec Decoder

/-! ## Operands read by the machine -/

/-- Every remembered number is the one that a reader of the given kind finds at its place. -/
def ImmediateCache.Decodes (env : Env) (k : Kind) (c : ImmediateCache) : Prop :=
  ∀ place v next, c.find? place = some (v, next) →
    k.wide (env.code place.code) place.offset = .ok (v, next)

theorem ImmediateCache.Decodes.insert {env : Env} {k : Kind} {c : ImmediateCache}
    (h : c.Decodes env k) {place : CodePoint} {v : BitVec 64} {next : Nat}
    (hWide : k.wide (env.code place.code) place.offset = .ok (v, next)) :
    (c.insert place v next).Decodes env k := by
  intro other w stop hFind
  rw [ImmediateCache.find?_insert] at hFind
  split at hFind
  · rename_i hSame
    subst hSame
    cases hFind
    exact hWide
  · exact h other w stop hFind

/-- The machine is still in the same instruction, and what it remembers is right. -/
structure Machine.SameInstruction (env : Env) (k : Kind) (m m' : Machine) : Prop where
  code : m'.pc.code = m.pc.code
  opOffset : m'.opOffset = m.opOffset
  table : m'.immediates.Decodes env k

/-- Where the operation succeeds, it has read from the code what the decoder reads. -/
def ReadsAs {α : Type} (env : Env) (k : Kind) (x : Exec α) (d : Bytes → Nat → Decoder α) : Prop :=
  ∀ ⦃m a m'⦄, m.immediates.Decodes env k → x m = .ok a m' →
    m.SameInstruction env k m' ∧
      d (env.code m.pc.code) m.opOffset m.pc.offset = .ok (a, m'.pc.offset)

namespace ReadsAs

variable {α β : Type} {env : Env} {k : Kind}

theorem pure (a : α) : ReadsAs env k (Pure.pure a) fun _ _ => Pure.pure a := by
  intro m b m' hTable h
  cases h
  exact ⟨⟨rfl, rfl, hTable⟩, rfl⟩

theorem bind {x : Exec α} {d : Bytes → Nat → Decoder α} {f : α → Exec β}
    {g : Bytes → Nat → α → Decoder β} (hx : ReadsAs env k x d)
    (hf : ∀ a, ReadsAs env k (f a) fun code place => g code place a) :
    ReadsAs env k (x >>= f) fun code place => d code place >>= g code place := by
  intro m b m' hTable h
  obtain ⟨a, mid, hFirst, hRest⟩ := exists_of_run_bind_eq_ok h
  obtain ⟨hMid, hRead⟩ := hx hTable hFirst
  obtain ⟨hEnd, hReads⟩ := hf a hMid.table hRest
  rw [hMid.code, hMid.opOffset] at hReads
  refine ⟨⟨hEnd.code.trans hMid.code, hEnd.opOffset.trans hMid.opOffset, hEnd.table⟩, ?_⟩
  change ((d _ _ m.pc.offset).bind fun p => g _ _ p.1 p.2) = _
  rw [hRead]
  exact hReads

theorem number : ReadsAs env k (readNumber env k.wide) fun code _ => Decoder.number code k := by
  intro m v m' hTable h
  unfold readNumber at h
  simp only [Decoder.number]
  split at h
  · rename_i entry v next hFind
    cases h
    have hMemo : m.immediates.find? m.pc = some (v, next) := by
      split at hFind
      · exact hFind
      · cases hFind
    rw [hTable m.pc v next hMemo]
    exact ⟨⟨rfl, rfl, hTable⟩, rfl⟩
  · split at h
    · cases h
    · rename_i v next hWide
      cases h
      rw [hWide]
      refine ⟨⟨rfl, rfl, ?_⟩, rfl⟩
      change (if env.memo then m.immediates.insert m.pc v next else m.immediates).Decodes env k
      split
      · exact hTable.insert hWide
      · exact hTable

theorem fixed (width : Nat) :
    ReadsAs env k (readFixed env width) fun code _ => Decoder.fixed code width := by
  intro m n m' hTable h
  unfold readFixed at h
  simp only [Decoder.fixed]
  split at h
  · cases h
  · rename_i bytes hSlice
    cases h
    rw [hSlice]
    exact ⟨⟨rfl, rfl, hTable⟩, rfl⟩

/-- A plan whose numbers are all of one kind reads what the decoder reads. -/
theorem plan {p : Plan α} {form : OperandForm} (hForm : p.OfForm form)
    (hKind : ∀ {k'}, form = .number k' → k = k') :
    ReadsAs env k (p.run env) fun code place => p.decode code place := by
  induction p with
  | done a => exact pure a
  | illFormed =>
    intro m a m' hTable h
    cases h
  | number k' rest ih =>
    obtain ⟨hNumber, hRest⟩ := hForm
    cases hKind hNumber
    exact bind number fun v => ih v (hRest v)
  | fixed width rest ih => exact bind (fixed width) fun n => ih n (hForm.2 n)

end ReadsAs

/-- Where the machine reads the operands of an opcode, they stand in the code. -/
theorem Opcode.readsAs_decode (env : Env) (op : Opcode) :
    ReadsAs env op.kind (op.read env) fun code place => op.decode code place := by
  simp only [← op.run_plan, ← op.decode_plan]
  exact ReadsAs.plan op.plan_ofForm Opcode.kind_of_form

/-! ## Operands read by the loader -/

namespace Reader

/-- The operands that the loader takes in an initializer end where stepping over them ends. -/
theorem skip_of_initOperands {b : UInt8} {place : Nat} {c c' : Cursor}
    (h : initOperands b place c = .ok () c') :
    c'.bytes = c.bytes ∧ skipOperands c.bytes c.pos b = .ok c'.pos := by
  obtain ⟨op, operands, hOp, hForm, hPassed⟩ := passed_of_initOperands h
  rw [hPassed.pos]
  exact ⟨hPassed.bytes, skip_of_initForm hOp hForm hPassed.stands⟩

/-- The instructions of an initializer are those that a walk from its start goes through, up to an
`end`. -/
theorem walk_of_initInstructions {fuel : Nat} {c c' : Cursor} (level : Int)
    (h : initInstructions fuel c = .ok () c') :
    c'.bytes = c.bytes ∧ ∃ stop level', Walk c.bytes c.pos level stop level' ∧
      c.bytes[stop]? = some endByte ∧ c'.pos = stop + 1 := by
  induction fuel generalizing c level with
  | zero => cases h
  | succ fuel ih =>
    obtain ⟨place, c₀, hPlace, hRest⟩ := exists_of_run_bind_eq_ok h
    cases hPlace
    obtain ⟨b, c₁, hTaken, hRest⟩ := exists_of_run_bind_eq_ok hRest
    obtain ⟨hByte, hBytes, hPos⟩ := byte_eq_ok hTaken
    by_cases hEnd : b = endByte
    · subst hEnd
      rw [if_pos rfl] at hRest
      cases hRest
      exact ⟨hBytes, c.pos, level, .here, hByte, hPos⟩
    · rw [if_neg hEnd] at hRest
      obtain ⟨u, c₂, hOperands, hRest⟩ := exists_of_run_bind_eq_ok hRest
      obtain ⟨hSame, hSkip⟩ := skip_of_initOperands hOperands
      rw [hBytes, hPos] at hSkip
      obtain ⟨hLast, stop, level', hWalk, hStop, hEnd⟩ :=
        ih (level + (Nesting.ofByte b).change) hRest
      rw [hSame, hBytes] at hLast hWalk hStop
      exact ⟨hLast, stop, level', .step hByte hSkip hWalk, hStop, hEnd⟩

/-- An initializer is the code that a walk goes through, and the `end` behind it. -/
theorem walk_of_initExpr {c c' : Cursor} {expr : Bytes} (h : initExpr c = .ok expr c') :
    expr = c.bytes.extract c.pos c'.pos ∧ ∃ stop level, Walk c.bytes c.pos 0 stop level ∧
      c.bytes[stop]? = some endByte ∧ c'.pos = stop + 1 := by
  obtain ⟨start, c₀, hStart, hRest⟩ := exists_of_run_bind_eq_ok h
  cases hStart
  obtain ⟨left, c₁, hLeft, hRest⟩ := exists_of_run_bind_eq_ok hRest
  cases hLeft
  obtain ⟨u, c₂, hInstructions, hEnd⟩ := exists_of_run_bind_eq_ok hRest
  cases hEnd
  obtain ⟨hBytes, hWalk⟩ := walk_of_initInstructions 0 hInstructions
  rw [Cursor.slice, hBytes]
  exact ⟨rfl, hWalk⟩

end Reader

/-! ## Agreement -/

/-- Reading the operands of an opcode byte has led the machine from one place to another: the one
where stepping over them ends, which lies between the operands and the end of the code. -/
structure Machine.StepsOver (env : Env) (b : UInt8) (m m' : Machine) : Prop where
  code : m'.pc.code = m.pc.code
  skip : skipOperands (env.code m.pc.code) m.pc.offset b = .ok m'.pc.offset
  forward : m.pc.offset ≤ m'.pc.offset
  inside : m.pc.offset ≤ (env.code m.pc.code).size → m'.pc.offset ≤ (env.code m.pc.code).size

theorem stepsOver_of_decode {env : Env} {b : UInt8} {op : Opcode}
    (hOp : Opcode.ofByte? b = some op) {m m' : Machine} {place : Nat} {i : Instruction}
    (hCode : m'.pc.code = m.pc.code)
    (hDecode : op.decode (env.code m.pc.code) place m.pc.offset = .ok (i, m'.pc.offset)) :
    m.StepsOver env b m' := by
  have hSkip : skipOperands (env.code m.pc.code) m.pc.offset b = .ok m'.pc.offset := by
    rw [skipOperands, Operands.ofByte, hOp]
    exact skip_of_decode hDecode
  exact ⟨hCode, hSkip, le_of_skipOperands hSkip, size_of_skipOperands hSkip⟩

/-- In the course of an invocation, reading the operands of the fetched opcode leads to where
stepping over them ends. -/
theorem Machine.Runs.stepsOver {env : Env} {m : Machine} {t : Thread} {steps : Nat}
    (hRuns : m.Runs env t steps) (hPlaced : t.WellPlaced env) {b : UInt8} {op : Opcode}
    (hOp : Opcode.ofByte? b = some op) (hFetch : fetch? env m = some b) {i : Instruction}
    {m' : Machine} (hRead : op.read env m.advance = .ok i m') : m.advance.StepsOver env b m' := by
  have hReads := hRuns.reads_fetched hPlaced hFetch hOp
  unfold Reads at hReads
  split at hReads
  · rename_i j next hDecode
    obtain ⟨c, -, hSame⟩ := hReads
    rw [hRead] at hSame
    cases hSame
    exact stepsOver_of_decode hOp rfl hDecode
  · obtain ⟨c, next, -, hSame⟩ := hReads
    rw [hRead] at hSame
    cases hSame

namespace Session

/-- The length of an instruction is the same for all that read it. An opcode is executed by reading
its operands and then acting on them. Wherever its operands stand, in whatever code, if the machine
can read them, without a memo table or with numbers in it that were read in the same way, it comes
to where stepping over them ends; and so it does in every state that an invocation reaches, with
whatever the session remembers. Where the loader accepts the operands in an initializer, it takes
the bytes up to the same end, for each instruction and so up to the final `end`. -/
theorem lengths_agree (b : UInt8) (op : Opcode) (hOp : Opcode.ofByte? b = some op) :
    (∀ env, dispatch env b = op.read env >>= Instruction.exec env) ∧
    (∀ env m i m', m.immediates.Decodes env op.kind → op.read env m = .ok i m' →
      m.StepsOver env b m') ∧
    (∀ (i : Instance) (config : Config) (journal : Journal) (requests : List (Nat × Request))
      (index : UInt32) (arguments : List Value) (m : Machine),
      let s := ((ofInstance i config journal).serve requests).2
      let env := s.environment index
      s.Visits index arguments m → fetch? env m = some b →
        ∀ instruction m', op.read env m.advance = .ok instruction m' →
          m.advance.StepsOver env b m') ∧
    (∀ place c c', Reader.initOperands b place c = .ok () c' →
      c'.bytes = c.bytes ∧ skipOperands c.bytes c.pos b = .ok c'.pos) ∧
    ∀ c c' expr, Reader.initExpr c = .ok expr c' →
      expr = c.bytes.extract c.pos c'.pos ∧ ∃ stop level, Walk c.bytes c.pos 0 stop level ∧
        c.bytes[stop]? = some endByte ∧ c'.pos = stop + 1 := by
  refine ⟨fun env => ?_, ?_, ?_, fun _ _ _ => Reader.skip_of_initOperands,
    fun _ _ _ => Reader.walk_of_initExpr⟩
  · unfold dispatch
    rw [hOp]
    exact exec_eq env op
  · intro env m i m' hTable hRead
    obtain ⟨hSame, hDecode⟩ := op.readsAs_decode env hTable hRead
    exact stepsOver_of_decode hOp hSame.code hDecode
  · intro i config journal requests index arguments m s env hVisits hFetch instruction m' hRead
    obtain ⟨signature, -, hSteps⟩ := hVisits
    have hConsistent := (consistent_ofInstance i config journal).serve requests
    obtain ⟨t, steps, hRuns, hPlaced⟩ := hSteps.runs (fun _ h => h)
      (hConsistent.opening_runs index signature arguments) (Thread.start_wellPlaced _ _ _ _)
    exact hRuns.stepsOver hPlaced hOp hFetch hRead

/-- The longest form of zero, as the operand of a constant. -/
def longZero : Env where
  program := { types := #[], imported := #[], functions := #[], start := none, entry := none }
  config := {}
  driver := #[0x41, 0x80, 0x80, 0x80, 0x80, 0x00, endByte]

/-- The machine that has fetched the opcode of the constant reads five bytes. -/
theorem lengths_agree_longest :
    ∃ m m' : Machine, m.pc = ⟨.driver, 1⟩ ∧ m.immediates.Decodes longZero .s32 ∧
      (Opcode.const .i32).read longZero m = .ok (.simple (.const (.i32 0))) m' ∧
      m'.pc.offset = 6 ∧ m.StepsOver longZero 0x41 m' := by
  let m : Machine := { store := ⟨#[], #[], #[], #[]⟩, pc := ⟨.driver, 1⟩ }
  have hTable : m.immediates.Decodes longZero .s32 := by
    intro place v next hFind
    simp [m, ImmediateCache.find?] at hFind
  have hNone : (if longZero.memo then m.immediates.find? m.pc else none) = none := by
    simp [m, ImmediateCache.find?]
  obtain ⟨m', hRead, hOffset⟩ : ∃ m',
      (Opcode.const .i32).read longZero m = .ok (.simple (.const (.i32 0))) m' ∧
        m'.pc.offset = 6 := by
    have hNumber : ∃ m', readNumber longZero wideS32 m = .ok 0 m' ∧ m'.pc.offset = 6 := by
      have hWide : wideS32 (longZero.code m.pc.code) m.pc.offset = .ok (0, 6) := by decide +kernel
      unfold readNumber
      rw [hNone, hWide]
      exact ⟨_, rfl, rfl⟩
    obtain ⟨m', hNumber, hOffset⟩ := hNumber
    refine ⟨m', ?_, hOffset⟩
    change EStateM.bind (EStateM.bind (EStateM.bind (readNumber longZero wideS32) _) _) _ m = _
    simp only [EStateM.bind, hNumber]
    rfl
  have hOp : Opcode.ofByte? 0x41 = some (.const .i32) := by decide +kernel
  have hAgree := (lengths_agree 0x41 (.const .i32) hOp).2.1 longZero m _ m' hTable hRead
  exact ⟨m, m', rfl, hTable, hRead, hOffset, hAgree⟩

end Session

end WasmMachine
