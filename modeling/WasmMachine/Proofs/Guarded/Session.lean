import WasmMachine.Proofs.Guarded.Loading
import WasmMachine.Proofs.Guarded.Machine
import WasmMachine.Proofs.Typing.Instances

/-!
# Sessions with guards

Instantiation and sessions with guards, and what becomes of them: whatever the bytes of a module,
the settings and the requests, loading, instantiation and invocation do what they do without guards.
An instance starts out sound, since its functions have locals for their parameters and its memories
are created by the page, and requests leave it sound.

* `Guarded.sound_ofInstance`: the session of a new instance is sound.
* `Guarded.serve_eq`: any requests, one after the other.
* `unchecked_operations_in_range`: no condition of an unchecked operation ever fails.
-/

namespace WasmMachine

open Stack Session

namespace Guarded

open GuardedM

/-! ## Guarded instantiation -/

def writeData (memories : Array Memory) (d : DataSegment) : Except (Stop Trap) (Array Memory) := do
  let offset ← Stop.ofExcept (evaluateOffset d.offset)
  match memories[d.memory.toNat]? with
  | none => .error (.raised .noMemory)
  | some memory =>
    match writeBytes offset.toNat d.bytes.toList memory with
    | .ok _ memory => return memories.setIfInBounds d.memory.toNat memory
    | .error (.raised _) memory =>
      .error (.raised (.dataExceedsMemory offset.toNat d.bytes.size memory.size))
    | .error (.broken op) _ => .error (.broken op)

def createMemories (m : Module) (config : Config) : GuardedM Trap Journal (Array Memory) := do
  let empty ←
    lift (ofExcept (m.memories.mapM fun l => Memory.create l.min l.max config.maxPages))
  let memories ← ofExcept (m.data.foldlM writeData empty)
  lift (Instantiation.note (.memoriesReady memories.size m.data.size))
  return memories

def build (m : Module) (config : Config) : GuardedM Trap Journal Instance := do
  let imported ← lift (ofExcept (Instantiation.importFunctions m))
  let globals ← lift (ofExcept (m.globals.mapM Instantiation.createGlobal))
  lift (Instantiation.note (.globalsReady globals.size))
  let functions ← lift (ofExcept (Instantiation.createFunctions m imported.size))
  lift (Instantiation.note (.functionsReady functions.size))
  let memories ← createMemories m config
  let functionCount := imported.size + functions.size
  let tables ← lift (ofExcept (Instantiation.createTables m config functionCount))
  lift (ofExcept (Instantiation.checkStart m functionCount))
  let entry ← lift (Instantiation.findEntry m config)
  return {
    program := { types := m.types, imported, functions, start := m.start, entry }
    store := { globals, memories, tables, callCounts := functions.map fun _ => 0 } }

def instantiate (m : Module) (config : Config) : Except (Stop Trap) Instance :=
  match build m config {} with
  | .ok i _ => .ok i
  | .error e _ => .error e

/-! ## Guarded sessions -/

def checkArguments (s : Session) (index : UInt32) (arguments : List Value) :
    Except (Stop Trap) FunctionType := do
  let signature ← signature s.program index
  let types := arguments.map Value.type
  if types = signature.parameters then return signature
  else .error (.raised (.missingFunctionParams signature (.arguments types)))

/-- Runs a function whose arguments have been checked. The values on the stack are taken whatever
the outcome. -/
def runChecked (fuel : Nat) (index : UInt32) (signature : FunctionType) (arguments : List Value)
    (s : Session) : Except Unchecked (Answer × Session) := do
  let r ← run (s.environment index) fuel (s.opening signature arguments)
    (s.journal.note (.invoking index signature arguments.length))
  match values r.machine.stack with
  | .error (.broken op) _ => .error op
  | _ => return s.close index r

def invoke (fuel : Nat) (index : UInt32) (arguments : List Value) (s : Session) :
    Except Unchecked (Answer × Session) :=
  match checkArguments s index arguments with
  | .ok signature => runChecked fuel index signature arguments s
  | .error (.raised trap) => .ok (.failed ⟨trap, none⟩, s)
  | .error (.broken op) => .error op

def execute (fuel : Nat) (index : Option UInt32) (s : Session) :
    Except Unchecked (Answer × Session) :=
  match index.or s.program.entry with
  | some index => invoke fuel index [] s
  | none => .ok (.failed ⟨.entryNotFound s.config.entry, none⟩, s)

def answer (s : Session) (fuel : Nat) : Request → Except Unchecked (Answer × Session)
  | .invoke index arguments => invoke fuel index arguments s
  | .execute index => execute fuel index s

def serve (s : Session) : List (Nat × Request) → Except Unchecked (List Answer × Session)
  | [] => .ok ([], s)
  | (fuel, request) :: rest => do
    let (first, s) ← answer s fuel request
    let (others, s) ← serve s rest
    return (first :: others, s)

/-! ## Instances -/

theorem writeData_eq (memories : Array Memory) (d : DataSegment) :
    writeData memories d = Stop.ofExcept (Instantiation.writeData memories d) := by
  unfold writeData Instantiation.writeData
  cases evaluateOffset d.offset with
  | error e => rfl
  | ok offset =>
    change (match memories[d.memory.toNat]? with
      | none => _
      | some memory => _) = Stop.ofExcept (match memories[d.memory.toNat]? with
      | none => _
      | some memory => _)
    cases memories[d.memory.toNat]? with
    | none => rfl
    | some memory =>
      simp only [writeBytes_eq, GuardedM.lift]
      cases Memory.writeBytes offset.toNat d.bytes.toList memory <;> rfl

theorem foldlM_ofExcept {α β : Type} {g : β → α → Except (Stop Trap) β}
    {f : β → α → Except Trap β} (h : ∀ b x, g b x = Stop.ofExcept (f b x)) (xs : Array α)
    (init : β) : xs.foldlM g init = Stop.ofExcept (xs.foldlM f init) := by
  rw [← Array.foldlM_toList, ← Array.foldlM_toList]
  generalize xs.toList = l
  induction l generalizing init with
  | nil => rfl
  | cons x rest ih =>
    rw [List.foldlM_cons, List.foldlM_cons, h]
    cases f init x with
    | error e => rfl
    | ok b => exact ih b

section

variable {m : Module} {config : Config}

/-- Recording and building keep no invariant. -/
theorem unbroken_any {ε σ α : Type} (x : EStateM ε σ α) (s : σ) :
    Unbroken (fun _ => True) (GuardedM.lift x) x s := ⟨rfl, trivial⟩

theorem unbroken_createMemories (j : Journal) :
    Unbroken (fun _ => True) (createMemories m config) (Instantiation.createMemories m config)
      j := by
  refine (unbroken_any _ j).bind fun empty j₁ _ _ => ?_
  refine Unbroken.bind (x := ofExcept (m.data.foldlM Instantiation.writeData empty)) ?_
    fun memories j₂ _ _ => ?_
  · rw [foldlM_ofExcept writeData_eq]
    cases m.data.foldlM Instantiation.writeData empty <;> exact ⟨rfl, trivial⟩
  · exact (unbroken_any _ j₂).bind fun _ _ _ _ => Unbroken.pure _ trivial

theorem unbroken_build (j : Journal) :
    Unbroken (fun _ => True) (build m config) (Instantiation.run m config) j := by
  refine (unbroken_any _ j).bind fun imported j₁ _ _ => ?_
  refine (unbroken_any _ j₁).bind fun globals j₂ _ _ => ?_
  refine (unbroken_any _ j₂).bind fun _ j₃ _ _ => ?_
  refine (unbroken_any _ j₃).bind fun functions j₄ _ _ => ?_
  refine (unbroken_any _ j₄).bind fun _ j₅ _ _ => ?_
  refine (unbroken_createMemories j₅).bind fun memories j₆ _ _ => ?_
  refine (unbroken_any _ j₆).bind fun tables j₇ _ _ => ?_
  refine (unbroken_any _ j₇).bind fun _ j₈ _ _ => ?_
  refine (unbroken_any _ j₈).bind fun entry j₉ _ _ => ?_
  exact Unbroken.pure _ trivial

/-- Guarded instantiation is instantiation, whatever the module. -/
theorem instantiate_eq (m : Module) (config : Config) :
    instantiate m config = Stop.ofExcept (WasmMachine.instantiate m config) := by
  have hBuild : build m config {} = GuardedM.lift (Instantiation.run m config) {} :=
    (unbroken_build {}).eq
  unfold GuardedM.lift at hBuild
  unfold instantiate WasmMachine.instantiate instantiateRecorded
  rw [hBuild]
  cases Instantiation.run m config {} <;> rfl

end

/-! ## Sound instances -/

theorem memory_sound_of_create {initial : UInt32} {max : Option UInt32} {ceiling : UInt32}
    {memory : Memory} (h : Memory.create initial max ceiling = .ok memory) : memory.Sound := by
  obtain ⟨-, -, -, rfl⟩ := Memory.create_eq_ok_iff.1 h
  exact Memory.size_zeros _

theorem memories_sound_of_writeData {memories memories' : Array Memory} {d : DataSegment}
    (hSound : ∀ memory ∈ memories, memory.Sound)
    (h : Instantiation.writeData memories d = .ok memories') :
    ∀ memory ∈ memories', memory.Sound := by
  obtain ⟨offset, -, h⟩ := exists_of_bind_eq_ok h
  split at h
  · cases h
  · rename_i memory hMemory
    split at h
    · rename_i changed hWrite
      cases h
      have hKeeps := keeps_writeBytes offset.toNat d.bytes.toList memory
        (hSound memory (Array.mem_of_getElem? hMemory))
      rw [hWrite] at hKeeps
      intro other hOther
      rcases Array.mem_or_eq_of_mem_setIfInBounds hOther with hOld | rfl
      · exact hSound other hOld
      · exact hKeeps
    · cases h

section

variable {m : Module} {config : Config} {i : Instance}

theorem store_sound_of_instantiated (h : Instantiated m config i) :
    i.store.Sound i.program := by
  refine ⟨by rw [h.callCounts, Array.size_map], ?_⟩
  obtain ⟨empty, hEmpty, hData⟩ := h.memories
  refine foldlM_invariant (P := fun memories => ∀ memory ∈ memories, memory.Sound) hData ?_
    fun memories d memories' hSound hWrite => memories_sound_of_writeData hSound hWrite
  intro memory hMemory
  obtain ⟨k, hk⟩ := Array.mem_iff_getElem?.1 hMemory
  obtain ⟨l, -, hCreate⟩ := exists_left_of_forall₂ (forall₂_of_mapM_eq_ok hEmpty) hk
  exact memory_sound_of_create hCreate

/-- The locals of a function begin with its parameters. -/
theorem holdsParameters_of_instantiated (h : Instantiated m config i) :
    i.program.HoldsParameters := by
  intro f hf
  obtain ⟨place, hPlace⟩ := Array.mem_iff_getElem?.1 hf
  obtain ⟨_, body, -, -, -, -, hLocals⟩ := function_of_createFunctions h.functions hPlace
  rw [hLocals, Array.size_append, Array.size_map, List.size_toArray]
  exact Nat.le_add_right _ _

end

/-! ## Sessions -/

/-- The functions have locals for their parameters, and the store is sound. -/
structure SoundSession (s : Session) : Prop where
  parameters : s.program.HoldsParameters
  store : s.machine.store.Sound s.program

theorem sound_ofInstance {m : Module} {config : Config} {i : Instance}
    (h : WasmMachine.instantiate m config = .ok i) (config' : Config) (journal : Journal) :
    SoundSession (ofInstance i config' journal) :=
  ⟨holdsParameters_of_instantiated (instantiated_of_eq_ok h),
    store_sound_of_instantiated (instantiated_of_eq_ok h)⟩

theorem built_initialStack (signature : FunctionType) (arguments : List Value) :
    (initialStack signature arguments).Built :=
  Built.pushValues (Built.push ⟨[], rfl⟩ _) arguments

section

variable {s : Session}

theorem checkArguments_eq (s : Session) (index : UInt32) (arguments : List Value) :
    checkArguments s index arguments = Stop.ofExcept (s.checkArguments index arguments) := by
  unfold checkArguments Session.checkArguments
  rw [signature_eq]
  cases s.program.signature index with
  | error e => rfl
  | ok signature =>
    change (if _ then _ else _) = Stop.ofExcept (if _ then _ else _)
    split <;> rfl

/-- What an invocation leaves is sound again, whatever its outcome. -/
theorem sound_close (hs : SoundSession s) (index : UInt32) {r : RunResult}
    (hr : r.machine.store.Sound s.program) : SoundSession (s.close index r).2 := by
  unfold close
  cases r.outcome <;> exact ⟨hs.parameters, hr⟩

theorem runChecked_eq_ok (hs : SoundSession s) (fuel : Nat) (index : UInt32)
    (signature : FunctionType) (arguments : List Value) :
    runChecked fuel index signature arguments s =
        .ok (Session.runChecked fuel index signature arguments s) ∧
      SoundSession (Session.runChecked fuel index signature arguments s).2 := by
  have hOpening : (s.opening signature arguments).Sound (s.environment index).program :=
    ⟨built_initialStack signature arguments, hs.store⟩
  have hParameters : (s.environment index).program.HoldsParameters := hs.parameters
  obtain ⟨hRun, hEnd⟩ : run (s.environment index) fuel (s.opening signature arguments)
        (s.journal.note (.invoking index signature arguments.length)) =
          .ok (s.result fuel index signature arguments) ∧
      (s.result fuel index signature arguments).machine.Sound s.program :=
    run_eq hParameters hOpening fuel _
  rw [Session.runChecked_eq]
  refine ⟨?_, sound_close hs index hEnd.store⟩
  unfold runChecked
  rw [hRun]
  change (match values (s.result fuel index signature arguments).machine.stack with
    | .error (.broken op) _ => Except.error op
    | _ => .ok (s.close index (s.result fuel index signature arguments))) = _
  have hValues := values_eq_ok hEnd.stack
  simp only [hValues]

theorem invoke_eq_ok (hs : SoundSession s) (fuel : Nat) (index : UInt32)
    (arguments : List Value) :
    invoke fuel index arguments s = .ok (s.invoke fuel index arguments) ∧
      SoundSession (s.invoke fuel index arguments).2 := by
  unfold invoke Session.invoke
  rw [checkArguments_eq]
  cases s.checkArguments index arguments with
  | error trap => exact ⟨rfl, hs⟩
  | ok signature => exact runChecked_eq_ok hs fuel index signature arguments

theorem answer_eq_ok (hs : SoundSession s) (fuel : Nat) (request : Request) :
    answer s fuel request = .ok (s.answer fuel request) ∧
      SoundSession (s.answer fuel request).2 := by
  cases request with
  | invoke index arguments => exact invoke_eq_ok hs fuel index arguments
  | execute index =>
    unfold answer execute Session.answer Session.execute
    simp only
    cases index.or s.program.entry with
    | none => exact ⟨rfl, hs⟩
    | some index => exact invoke_eq_ok hs fuel index []

/-- Any requests, one after the other: each leaves a sound session for the next. -/
theorem serve_eq (hs : SoundSession s) (requests : List (Nat × Request)) :
    serve s requests = .ok (s.serve requests) := by
  induction requests generalizing s with
  | nil => rfl
  | cons head rest ih =>
    obtain ⟨fuel, request⟩ := head
    obtain ⟨hAnswer, hNext⟩ := answer_eq_ok hs fuel request
    unfold serve Session.serve
    rw [hAnswer]
    change (serve (s.answer fuel request).2 rest).bind _ = _
    rw [ih hNext]
    rfl

end

end Guarded

/-- No condition of an unchecked operation ever fails: with guards, loading any bytes, instantiating
any module and serving any requests to an instance give what they give without. -/
theorem unchecked_operations_in_range :
    (∀ (name : String) (bytes : Bytes),
      Guarded.loadModule name bytes = Stop.ofExcept (Module.load name bytes)) ∧
    (∀ (m : Module) (config : Config),
      Guarded.instantiate m config = Stop.ofExcept (instantiate m config)) ∧
    ∀ (m : Module) (config : Config) (i : Instance), instantiate m config = .ok i →
      ∀ (journal : Journal) (requests : List (Nat × Request)),
        Guarded.serve (ofInstance i config journal) requests =
          .ok ((ofInstance i config journal).serve requests) :=
  ⟨Guarded.loadModule_eq, Guarded.instantiate_eq, fun _ config _ h journal requests =>
    Guarded.serve_eq (Guarded.sound_ofInstance h config journal) requests⟩

/-- A module whose function of type `[] → [i32]` ends with an `i64` on the stack. -/
def mistypedModule : Module where
  name := "mistyped"
  types := #[⟨[], [.i32]⟩]
  functions := #[0]
  code := #[{ locals := #[], code := #[0x42, 0x01, endByte], position := 0 }]

/-- The mistyped module has an instance. Calling its function fails at the end of the body and
breaks no guard. -/
theorem unchecked_operations_in_range_mistyped : ∃ i, instantiate mistypedModule {} = .ok i ∧
    Guarded.serve (ofInstance i {} {}) [(10, .invoke 0 []), (10, .execute none)] =
      .ok ((ofInstance i {} {}).serve [(10, .invoke 0 []), (10, .execute none)]) := by
  have hOk : (instantiate mistypedModule {}).isOk = true := by decide +kernel
  cases hInstance : instantiate mistypedModule {} with
  | error e =>
    rw [hInstance] at hOk
    cases hOk
  | ok i =>
    exact ⟨i, rfl, unchecked_operations_in_range.2.2 mistypedModule {} i hInstance {} _⟩

end WasmMachine
