import WasmMachine.Proofs.Code.Delimiters
import WasmMachine.Proofs.Machine.Callers
import WasmMachine.Proofs.Machine.Isolation

/-!
# Control stays on instruction boundaries

The code is a chain of instructions. Whatever its bytes are, control goes from one link of the chain
to another: all the places that the machine keeps to go on later, in labels and activations, are
links of it, like the one where it is. So an operand is only read by the instruction around it, and
an offset at which an operand is read is never executed, also when its byte looks like an opcode.

* `Machine.OnBoundaries`: all places of a machine are instruction boundaries.
* `OperandRead.OfOpcode`: an operand is read by the opcode that precedes it on the chain.
* `Instance.control_on_boundaries`: both hold in all states that invocations reach.
-/

namespace WasmMachine

/-! ## Places of a machine -/

/-- An instruction starts at the place, or the code ends there. -/
def Env.OnBoundary (env : Env) (place : CodePoint) : Prop :=
  Boundary (env.code place.code) place.offset ∧ place.offset ≤ (env.code place.code).size

/-- All places in some frames, topmost first, are boundaries, where the topmost activation runs
`code`. Labels continue in the code of the activation below them, and an activation returns into the
code of the next one. The last one returns to nothing. -/
def FramesOnBoundaries (env : Env) : (code : CodeRef) → List Frame → Prop
  | _, [] => False
  | code, .value _ :: rest => FramesOnBoundaries env code rest
  | code, .label l :: rest =>
    env.OnBoundary ⟨code, l.continuation⟩ ∧ FramesOnBoundaries env code rest
  | code, .activation a :: rest =>
    env.program.Runs a code ∧
      match a.returnTo with
      | some place => env.OnBoundary place ∧ FramesOnBoundaries env place.code rest
      | none => rest = []

/-- The program counter of a machine, and all places in its frames, are boundaries. -/
structure Machine.OnBoundaries (env : Env) (m : Machine) : Prop where
  pc : env.OnBoundary m.pc
  frames : FramesOnBoundaries env m.pc.code m.frames.reverse

section Frames

variable {env : Env} {code : CodeRef}

theorem Boundary.onBoundary {offset : Nat} (h : Boundary (env.code code) offset) :
    env.OnBoundary ⟨code, offset⟩ := ⟨h, h.le_size⟩

/-- Values have no places. -/
theorem framesOnBoundaries_values (values : List Value) (rest : List Frame) :
    FramesOnBoundaries env code (values.map .value ++ rest) ↔ FramesOnBoundaries env code rest := by
  induction values with
  | nil => exact Iff.rfl
  | cons v values ih => exact ih

theorem framesOnBoundaries_blocks {blocks : List OpenBlock} {rest : List Frame}
    (hBlocks : ∀ b ∈ blocks, Boundary (env.code code) b.label.continuation)
    (hRest : FramesOnBoundaries env code rest) :
    FramesOnBoundaries env code (blocks.flatMap OpenBlock.frames ++ rest) := by
  induction blocks with
  | nil => exact hRest
  | cons b blocks ih =>
    obtain ⟨hFirst, hOthers⟩ := List.forall_mem_cons.1 hBlocks
    rw [List.flatMap_cons, List.append_assoc]
    exact ⟨hFirst.onBoundary, (framesOnBoundaries_values b.outer _).2 (ih hOthers)⟩

/-- The frames of an activity are on boundaries, if those below its activation are. -/
theorem framesOnBoundaries_activity {A : Activity} {rest : List Frame}
    (hBlocks : ∀ b ∈ A.blocks, Boundary (env.code code) b.label.continuation)
    (hBelow : FramesOnBoundaries env code (.activation A.activation :: rest)) :
    FramesOnBoundaries env code (A.frames ++ rest) := by
  rw [Activity.frames, Activity.region, List.append_assoc, List.append_assoc]
  exact (framesOnBoundaries_values _ _).2 (framesOnBoundaries_blocks hBlocks hBelow)

/-- The frames of the activities of a thread are on boundaries. -/
theorem framesOnBoundaries_activities {A : Activity} {rest : List Activity}
    (hStacked : Stacked env code (A :: rest)) (hCalled : CalledFrom env.program code (A :: rest)) :
    FramesOnBoundaries env code ((A :: rest).flatMap Activity.frames) := by
  induction rest generalizing code A with
  | nil =>
    obtain ⟨hBlocks, hReturn⟩ := hStacked
    refine framesOnBoundaries_activity hBlocks ⟨hCalled.runs, ?_⟩
    cases hPlace : A.activation.returnTo with
    | none => rfl
    | some place =>
      rw [hPlace] at hReturn
      exact hReturn.2.elim
  | cons B rest ih =>
    obtain ⟨hBlocks, hReturn⟩ := hStacked
    obtain ⟨hRuns, place, hPlace, hBelow⟩ := hCalled
    rw [hPlace] at hReturn
    refine framesOnBoundaries_activity hBlocks ⟨hRuns, ?_⟩
    rw [hPlace]
    exact ⟨hReturn.1.onBoundary, ih hReturn.2 hBelow⟩

end Frames

theorem Machine.Runs.onBoundaries {env : Env} {m : Machine} {t : Thread} {steps : Nat}
    (hRuns : m.Runs env t steps) (hPlaced : t.WellPlaced env)
    (hCalled : CalledFrom env.program t.pc.code (t.activity :: t.callers)) :
    m.OnBoundaries env := by
  refine ⟨?_, ?_⟩
  · rw [hRuns.pc]
    exact hPlaced.boundary.onBoundary
  · rw [hRuns.pc, hRuns.frames_eq, framesOf, List.reverse_reverse]
    exact framesOnBoundaries_activities hPlaced.stacked hCalled

/-! ## Operands -/

/-- A machine that is about to execute an instruction will read this operand of it. -/
def Machine.ReadsOperand (env : Env) (m : Machine) (r : OperandRead) : Prop :=
  ∃ b op, fetch? env m = some b ∧ Opcode.ofByte? b = some op ∧
    r ∈ op.plan.reads env { m with steps := m.steps + 1 }.advance

/-- The operand is one of the opcode at the place, which is the last instruction boundary before it,
and it is read in the form of the operands of that opcode. -/
structure OperandRead.OfOpcode (env : Env) (r : OperandRead) (place : CodePoint) : Prop where
  code : r.place.code = place.code
  boundary : Boundary (env.code place.code) place.offset
  behind : place.offset < r.place.offset
  last : ∀ other, Boundary (env.code place.code) other → other ≤ r.place.offset →
    other ≤ place.offset
  form : ∃ b op, (env.code place.code)[place.offset]? = some b ∧ Opcode.ofByte? b = some op ∧
    r.form = op.operands.form

namespace OperandRead.OfOpcode

variable {env env' : Env} {r r' : OperandRead} {place place' : CodePoint}

/-- No instruction starts at an operand. -/
theorem not_boundary (h : r.OfOpcode env place) :
    ¬ Boundary (env.code r.place.code) r.place.offset := by
  intro hBoundary
  rw [h.code] at hBoundary
  exact absurd (h.last _ hBoundary (Nat.le_refl _)) (Nat.not_le_of_lt h.behind)

/-- In the same code, an operand belongs to one opcode only. -/
theorem unique (h : r.OfOpcode env place) (h' : r'.OfOpcode env' place')
    (hCode : env'.code r.place.code = env.code r.place.code) (hPlace : r'.place = r.place) :
    place' = place ∧ r' = r := by
  obtain ⟨code, boundary, behind, last, b, op, hByte, hOp, hForm⟩ := h
  obtain ⟨code', boundary', behind', last', b', op', hByte', hOp', hForm'⟩ := h'
  have hSame : place'.code = place.code := by rw [← code', hPlace, code]
  rw [hSame, ← code, hCode, code] at boundary' last' hByte'
  rw [hPlace] at behind' last'
  have hOffset : place'.offset = place.offset := Nat.le_antisymm
    (last _ boundary' (Nat.le_of_lt behind')) (last' _ boundary (Nat.le_of_lt behind))
  rw [hOffset, hByte] at hByte'
  cases hByte'
  rw [hOp] at hOp'
  cases hOp'
  refine ⟨?_, OperandRead.ext hPlace (hForm'.trans hForm.symm)⟩
  change CodePoint.mk place'.code place'.offset = ⟨place.code, place.offset⟩
  rw [hSame, hOffset]

end OperandRead.OfOpcode

/-- A machine of a thread reads each operand as one of the opcode that it has come to. -/
theorem Machine.Runs.ofOpcode {env : Env} {m : Machine} {t : Thread} {steps : Nat}
    (hRuns : m.Runs env t steps) (hPlaced : t.WellPlaced env) {r : OperandRead}
    (hReads : m.ReadsOperand env r) : r.OfOpcode env m.pc := by
  obtain ⟨b, op, hFetch, hOp, hRead⟩ := hReads
  have hBoundary : Boundary (env.code m.pc.code) m.pc.offset := by
    rw [hRuns.pc]
    exact hPlaced.boundary
  have hFetched : Fetched env { m with steps := m.steps + 1 }.advance op :=
    ⟨hBoundary, b, hFetch, hOp⟩
  obtain ⟨hCode, hInside, hForm⟩ := Opcode.reads_inside hFetched rfl hRuns.immediates r hRead
  refine ⟨hCode, hBoundary, hInside.1, fun other hOther hLe => ?_, b, op, hFetch, hOp, hForm⟩
  refine hBoundary.le_of_inside hOther hFetch (fun next hSkip => hInside.2 next ?_) hLe
  rw [skipOperands, Operands.ofByte, hOp] at hSkip
  exact hSkip

/-- All that a machine does after it has read the operands of an opcode is given by these. -/
theorem dispatch_eq_plan (env : Env) {b : UInt8} {op : Opcode} (hOp : Opcode.ofByte? b = some op) :
    dispatch env b = op.plan.run env >>= Instruction.exec env := by
  rw [op.run_plan, ← exec_eq, dispatch, hOp]

/-- The search for the end of a block, which starts behind the instruction that the machine is about
to execute, comes to this offset. -/
def Machine.Searches (env : Env) (m : Machine) (offset : Nat) : Prop :=
  ∃ i next level, m.Decodes env i next ∧ Walk (env.code m.pc.code) next 0 offset level

/-- From a boundary, code only leads to boundaries. -/
theorem Walk.boundary {code : Bytes} {pos place : Nat} {level level' : Int}
    (h : Walk code pos level place level') (hPos : Boundary code pos) : Boundary code place := by
  induction h with
  | here => exact hPos
  | step byte skip _ ih => exact ih (.next hPos byte skip)

/-! ## Invocations -/

namespace Instance

/-- An invocation gets to the machine, in this environment, after requests of any kind. -/
def Reaches (i : Instance) (env : Env) (m : Machine) : Prop :=
  ∃ (config : Config) (journal : Journal) (requests : List (Nat × Session.Request))
      (index : UInt32) (arguments : List Value),
    env = ((Session.ofInstance i config journal).serve requests).2.environment index ∧
    ((Session.ofInstance i config journal).serve requests).2.Visits index arguments m

variable {i : Instance} {env : Env} {m : Machine}

theorem Reaches.program (h : i.Reaches env m) : env.program = i.program := by
  obtain ⟨config, journal, requests, index, arguments, rfl, -⟩ := h
  exact ((Session.ofInstance i config journal).serve_program requests).1

/-- A machine that an invocation gets to has a thread, whose activities call each other. -/
theorem Reaches.thread (h : i.Reaches env m) :
    ∃ t steps, m.Runs env t steps ∧ t.WellPlaced env ∧
      CalledFrom env.program t.pc.code (t.activity :: t.callers) := by
  obtain ⟨config, journal, requests, index, arguments, rfl, signature, -, hSteps⟩ := h
  have hConsistent := (Session.consistent_ofInstance i config journal).serve requests
  exact hSteps.thread CalledFrom.step (hConsistent.opening_runs index signature arguments)
    (Thread.start_wellPlaced _ _ _ _)
    (show CalledFrom (Session.environment _ index).program .driver [_] from ⟨rfl, rfl⟩)

theorem Reaches.onBoundaries (h : i.Reaches env m) : m.OnBoundaries env := by
  obtain ⟨t, steps, hRuns, hPlaced, hCalled⟩ := h.thread
  exact hRuns.onBoundaries hPlaced hCalled

theorem Reaches.ofOpcode (h : i.Reaches env m) {r : OperandRead} (hReads : m.ReadsOperand env r) :
    r.OfOpcode env m.pc := by
  obtain ⟨t, steps, hRuns, hPlaced, -⟩ := h.thread
  exact hRuns.ofOpcode hPlaced hReads

/-- All invocations run the same functions, and two that run the same driver sequence have all their
code in common. -/
theorem Reaches.code_eq {env' : Env} {m' : Machine} (h : i.Reaches env m) (h' : i.Reaches env' m')
    {code : CodeRef} (hDriver : code = .driver → env'.driver = env.driver) :
    env'.code code = env.code code := by
  cases code with
  | driver => exact hDriver rfl
  | function place =>
    have hFunction : CodeRef.function place ≠ .driver := by simp
    exact Env.code_eq_of_program (h'.program.trans h.program.symm) hFunction

/-- Wherever an invocation is about to execute an instruction, whatever the functions and earlier
requests have done: the program counter, the places that activations return to, and the places at
which labels continue are instruction boundaries of their code. Each operand that the instruction
reads belongs to the opcode at the program counter alone. In no state of this or another invocation
is the program counter at the operand, and no other instruction reads it, nor does this one read it
in another form. The search for the end of a block, too, steps from boundary to boundary. -/
theorem control_on_boundaries (i : Instance) (env : Env) (m : Machine) (h : i.Reaches env m) :
    m.OnBoundaries env ∧
    (∀ b op, Opcode.ofByte? b = some op →
      dispatch env b = op.plan.run env >>= Instruction.exec env) ∧
    (∀ r, m.ReadsOperand env r →
      r.OfOpcode env m.pc ∧
      ∀ env' m', i.Reaches env' m' → (r.place.code = .driver → env'.driver = env.driver) →
        m'.pc ≠ r.place ∧
        ∀ r', m'.ReadsOperand env' r' → r'.place = r.place → m'.pc = m.pc ∧ r' = r) ∧
    ∀ offset, m.Searches env offset → Boundary (env.code m.pc.code) offset := by
  refine ⟨h.onBoundaries, fun b op => dispatch_eq_plan env, fun r hReads => ?_, ?_⟩
  · have hOwner := h.ofOpcode hReads
    refine ⟨hOwner, fun env' m' h' hDriver => ?_⟩
    have hCode := h.code_eq h' hDriver
    refine ⟨fun hPc => hOwner.not_boundary ?_, fun r' hReads' hPlace => ?_⟩
    · have hBoundary := h'.onBoundaries.pc.1
      rwa [hPc, hCode] at hBoundary
    · exact hOwner.unique (h'.ofOpcode hReads') hCode hPlace
  · rintro offset ⟨ins, next, level, ⟨b, hFetch, hDecode⟩, hWalk⟩
    exact hWalk.boundary (.next h.onBoundaries.pc.1 hFetch (skipOperands_of_decode hDecode))

/-- An instance with one function, a loop for ever around the constant 11, which is also the byte of
`end`. -/
def decoyInstance : Instance where
  program :=
    { types := #[⟨[], []⟩]
      imported := #[]
      functions := #[{
        index := 0
        typeIndex := 0
        signature := ⟨[], []⟩
        code := #[0x03, 0x40, 0x41, 0x0b, 0x1a, 0x0c, 0x00, endByte, endByte]
        position := 0
        locals := #[] }]
      start := none
      entry := none }
  store := { globals := #[], memories := #[], tables := #[], callCounts := #[0] }

/-- The constant is read as an operand, and no invocation ever executes it as an `end`. -/
theorem control_on_boundaries_decoy :
    ∃ (env : Env) (m : Machine), decoyInstance.Reaches env m ∧ m.pc = ⟨.function 0, 2⟩ ∧
      m.OnBoundaries env ∧ m.ReadsOperand env ⟨⟨.function 0, 3⟩, .number .s32⟩ ∧
      ∀ env' m', decoyInstance.Reaches env' m' → m'.pc ≠ ⟨.function 0, 3⟩ := by
  let s := Session.ofInstance decoyInstance {} {}
  have hRuns := (Session.consistent_ofInstance decoyInstance {} {}).opening_runs 0 ⟨[], []⟩ []
  have hPlaced := Thread.start_wellPlaced (s.environment 0) ⟨[], []⟩ [] s.machine.store
  obtain ⟨t, t', hCall, hLoop, hPlace⟩ : ∃ (t t' : Thread),
      (Thread.start ⟨[], []⟩ [] s.machine.store).tick (s.environment 0) 0 =
        (.ok (.running t), 1) ∧
      t.tick (s.environment 0) 1 = (.ok (.running t'), 2) ∧ t'.pc = ⟨.function 0, 2⟩ := by
    rw [Session.environment_zero rfl]
    exact ⟨_, _, rfl, rfl, rfl⟩
  have hFirst := step_follows hRuns hPlaced
  change Arrives _ _ ((Thread.start _ _ _).tick (s.environment 0) 0) _ at hFirst
  rw [hCall] at hFirst
  obtain ⟨m₁, hStep₁, hRuns₁⟩ := hFirst
  have hSecond := step_follows hRuns₁ (hPlaced.step (Thread.tick_running hCall))
  rw [hLoop] at hSecond
  obtain ⟨m, hStep, hRuns'⟩ := hSecond
  have hPc : m.pc = ⟨.function 0, 2⟩ := hRuns'.pc.trans hPlace
  have hReaches : decoyInstance.Reaches (s.environment 0) m :=
    ⟨{}, {}, [], 0, [], rfl, _, rfl,
      .tail (.tail (.refl rfl) hStep₁ hRuns₁.halted) hStep hRuns'.halted⟩
  obtain ⟨hOn, -, hOperands, -⟩ := control_on_boundaries decoyInstance (s.environment 0) m hReaches
  have hReads : m.ReadsOperand (s.environment 0) ⟨⟨.function 0, 3⟩, .number .s32⟩ := by
    refine ⟨0x41, .const .i32, ?_, by decide +kernel, ?_⟩
    · rw [fetch?, hPc]
      rfl
    · have hAdvance : { m with steps := m.steps + 1 }.advance.pc = ⟨.function 0, 3⟩ := by
        rw [Machine.advance, hPc]
      change _ ∈ Plan.reads _ (.number .s32 _) _
      rw [← hAdvance, Plan.reads]
      exact List.mem_cons_self
  refine ⟨_, m, hReaches, hPc, hOn, hReads, fun env' m' h' => ?_⟩
  have hFunction : CodeRef.function 0 ≠ .driver := by decide
  exact ((hOperands _ hReads).2 env' m' h' fun hDriver => absurd hDriver hFunction).1

end Instance

end WasmMachine
