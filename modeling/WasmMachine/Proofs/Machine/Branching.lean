import WasmMachine.Proofs.Machine.Isolation
import WasmMachine.Proofs.Stack.Unwinding

/-!
# Branches go where a scan of the stack leads

A branch looks up its target in the index of the stack, whose labels are those of all callers
together, and the count of those above the topmost activation tells which of them it may reach. One
could do without the index: go down the frames, count the labels up to the first activation, and
take the label that the depth says. Both lead to the same frame and leave the same frames.

* `Machine.Leaves`: an operation leaves a frame with the values on top, or changes nothing.
* `Machine.BranchesAsScanned`: branches, ends of blocks and returns, told by scans of the frames.
* `Session.branches_as_scanned`: they are so wherever an invocation executes one.
-/

namespace WasmMachine

open Stack

/-! ## Scans down to the topmost activation -/

theorem eq_of_scanActivation? {fs : List Frame} {position : Nat} {a : ActivationFrame}
    (h : scanActivation? fs = some (position, a)) :
    ∃ above below, fs = above ++ .activation a :: below ∧ position = below.length ∧
      ∀ f ∈ above, f.isActivation = false := by
  rcases AllActivations.exists_topmost fs with hNone | ⟨above, b, below, rfl, hAbove⟩
  · rw [scanActivation?_eq_none hNone] at h
    cases h
  · rw [scanActivation?_append b below hAbove] at h
    cases h
    exact ⟨above, below, rfl, rfl, hAbove⟩

theorem labelsOnTop_eq {frames above below : List Frame} {a : ActivationFrame}
    (hFrames : frames.reverse = above ++ .activation a :: below)
    (hAbove : ∀ f ∈ above, f.isActivation = false) :
    labelsOnTop frames = above.countP Frame.isLabel := by
  unfold labelsOnTop
  rw [hFrames, List.takeWhile_append_of_pos]
  · simp
  · intro f hMem
    simp [hAbove f hMem]

/-- A label is found above whatever stands below enough labels. -/
theorem scanLabel?_append {above : List Frame} {depth : Nat}
    (h : depth < above.countP Frame.isLabel) (rest : List Frame) :
    ∃ position l, scanLabel? (above ++ rest) depth = some (position, l) ∧
      rest.length ≤ position := by
  induction above generalizing depth with
  | nil => simp at h
  | cons f above ih =>
    cases f with
    | value v => exact ih (by simpa using h)
    | activation a => exact ih (by simpa using h)
    | label l =>
      cases depth with
      | zero => exact ⟨_, l, rfl, by simp⟩
      | succ depth => exact ih (by simpa [List.countP_cons] using h)

theorem lt_length_of_scanLabel? {fs : List Frame} {depth position : Nat} {l : LabelFrame}
    (h : scanLabel? fs depth = some (position, l)) : position < fs.length := by
  obtain ⟨above, below, rfl, -, rfl⟩ := eq_of_scanLabel? h
  rw [List.length_append, List.length_cons]
  omega

/-! ## Leaving a frame -/

namespace Machine

/-- The operation leaves the frame at a position with values of the given types. If these values
stand on top, above the position and with no label among them, it leaves the frames below the
position followed by the values, and `go` is what it does besides. Otherwise it fails because of the
values and changes nothing. -/
structure Leaves (m : Machine) (op : Exec Unit) (position : Nat) (arity : List ValueType)
    (go : Machine → Machine) : Prop where
  carried : ∀ values, m.stack.Carries position arity values →
    ∃ s : Stack, op m = .ok () (go { m with stack := s }) ∧ s.Indexed ∧
      s.frames.toList = m.frames.take position ++ values.map .value
  mismatch : (∀ values, ¬ m.stack.Carries position arity values) →
    ∃ found, op m = .error (.arityMismatch arity found) m

/-- Goes on at an offset of the same code. -/
def goOnAt (offset : Nat) (m : Machine) : Machine := { m with pc := { m.pc with offset } }

/-- Goes on in the caller, or halts if there is none. -/
def goBackTo (place : Option CodePoint) (m : Machine) : Machine :=
  match place with
  | some place => { m with pc := place }
  | none => { m with halted := true }

/-- An operation that unwinds to a position leaves the frame there. -/
theorem leaves_of_unwindTo {m : Machine} (hIndexed : m.stack.Indexed) {position : Nat}
    (hPosition : position < m.stack.size) {arity : List ValueType} {op : Exec Unit}
    {go : Machine → Machine}
    (hOk : ∀ f s, m.stack.frames[position]? = some f →
      unwindTo position arity m.stack = .ok f s → op m = .ok () (go { m with stack := s }))
    (hError : ∀ e, unwindTo position arity m.stack = .error e m.stack → op m = .error e m) :
    m.Leaves op position arity go := by
  constructor
  · intro values hValues
    obtain ⟨f, s, hFrame, hRun, hStep, hFrames⟩ := unwindTo_of_carries hIndexed hValues
    exact ⟨s, hOk f s hFrame hRun, hStep, hFrames⟩
  · intro hNone
    obtain ⟨found, hRun⟩ := unwindTo_of_not_carries hIndexed hPosition hNone
    exact ⟨found, hError _ hRun⟩

/-- An operation that unwinds to a position and then does `next`, which cannot fail. -/
theorem leaves_of_unwindTo_then {m : Machine} (hIndexed : m.stack.Indexed) {position : Nat}
    (hPosition : position < m.stack.size) {arity : List ValueType} {op : Exec Unit}
    {go : Machine → Machine} (next : Exec Unit)
    (hOp : op m = (Exec.onStack (unwindTo position arity) >>= fun _ => next) m)
    (hNext : ∀ m', next m' = .ok () (go m')) : m.Leaves op position arity go := by
  change op m = EStateM.bind (Exec.onStack (unwindTo position arity)) _ m at hOp
  refine leaves_of_unwindTo hIndexed hPosition ?_ ?_
  · intro f s _ hRun
    simp only [hOp, EStateM.bind, Exec.onStack, hRun, hNext]
  · intro e hRun
    simp only [hOp, EStateM.bind, Exec.onStack, hRun]

/-! ## Branches -/

/-- What branches, ends of blocks and returns do in a machine, told by what a scan of its frames
finds: the topmost activation `a` at position `base`, the labels above it, and the label that a
depth leads to. -/
structure BranchesAsScanned (m : Machine) (base : Nat) (a : ActivationFrame) : Prop where
  /-- A branch to a label of the activation. -/
  inside : ∀ depth, depth < labelsOnTop m.frames →
    ∃ position l, scanLabel? m.frames.reverse depth = some (position, l) ∧ base < position ∧
      m.Leaves (Exec.branch depth) position l.branchArity (goOnAt l.continuation)
  /-- A branch past all labels of the activation. -/
  outermost : Exec.branch (labelsOnTop m.frames) m = Exec.doReturn m
  beyond : ∀ depth, labelsOnTop m.frames < depth →
    Exec.branch depth m = .error (.breakLevelExceeded depth (labelsOnTop m.frames)) m
  /-- The end of a block goes on behind it. -/
  blockEnd : 0 < labelsOnTop m.frames →
    ∃ position l, scanLabel? m.frames.reverse 0 = some (position, l) ∧ base < position ∧
      m.Leaves Exec.blockEnd position l.resultArity id
  functionEnd : labelsOnTop m.frames = 0 → Exec.blockEnd m = Exec.doReturn m
  returns : m.Leaves Exec.doReturn base a.resultArity (goBackTo a.returnTo)

section

variable {m : Machine} {base : Nat} {a : ActivationFrame}

/-- The label that a scan finds is found by the index. -/
theorem findLabel_of_scan (hScanned : m.stack.Scanned) {depth position : Nat} {l : LabelFrame}
    (hLabel : scanLabel? m.frames.reverse depth = some (position, l)) :
    Exec.findLabel depth m = .ok (position, l) m := by
  have hPosition := hScanned.labelPosition depth
  have hFrame := hScanned.label depth
  rw [← Machine.frames, hLabel] at hPosition hFrame
  simp only [Exec.findLabel, hPosition, hFrame, Option.map_some]

theorem lt_size_of_scanLabel? {depth position : Nat} {l : LabelFrame}
    (hLabel : scanLabel? m.frames.reverse depth = some (position, l)) :
    position < m.stack.size := by
  have hLt := lt_length_of_scanLabel? hLabel
  rwa [List.length_reverse, Machine.frames, Array.length_toList] at hLt

theorem branch_leaves (hIndexed : m.stack.Indexed) {depth position : Nat} {l : LabelFrame}
    (hDepth : depth < labelsOnTop m.frames)
    (hLabel : scanLabel? m.frames.reverse depth = some (position, l)) :
    m.Leaves (Exec.branch depth) position l.branchArity (goOnAt l.continuation) := by
  have hCount : m.stack.labelsAboveActivation = labelsOnTop m.frames := hIndexed.labelsAbove
  refine leaves_of_unwindTo_then hIndexed (lt_size_of_scanLabel? hLabel)
    (Exec.jump l.continuation) ?_ fun _ => rfl
  change (if depth = m.stack.labelsAboveActivation then _ else _ : Exec Unit) m = _
  rw [if_neg (by omega), if_neg (by omega)]
  change EStateM.bind (Exec.findLabel depth) _ m = _
  simp only [EStateM.bind, findLabel_of_scan hIndexed.built.scanned hLabel]

theorem blockEnd_leaves (hIndexed : m.stack.Indexed) {position : Nat} {l : LabelFrame}
    (hLabels : 0 < labelsOnTop m.frames)
    (hLabel : scanLabel? m.frames.reverse 0 = some (position, l)) :
    m.Leaves Exec.blockEnd position l.resultArity id := by
  have hCount : m.stack.labelsAboveActivation = labelsOnTop m.frames := hIndexed.labelsAbove
  refine leaves_of_unwindTo_then hIndexed (lt_size_of_scanLabel? hLabel)
    (pure ()) ?_ fun _ => rfl
  change (if m.stack.labelsAboveActivation = 0 then _ else _ : Exec Unit) m = _
  rw [if_neg (by omega)]
  change EStateM.bind (Exec.findLabel 0) _ m = _
  simp only [EStateM.bind, findLabel_of_scan hIndexed.built.scanned hLabel]

theorem doReturn_leaves (hIndexed : m.stack.Indexed)
    (hActivation : scanActivation? m.frames.reverse = some (base, a)) :
    m.Leaves Exec.doReturn base a.resultArity (goBackTo a.returnTo) := by
  have hPosition := hIndexed.built.scanned.activationPosition
  have hFound := hIndexed.built.scanned.activation
  rw [← Machine.frames, hActivation, Option.map_some] at hPosition hFound
  obtain ⟨above, below, hFrames, rfl, -⟩ := eq_of_scanActivation? hActivation
  have hFrame : m.stack.frames[below.length]? = some (.activation a) := by
    obtain ⟨fs, hs⟩ := hIndexed.built
    have hReverse : m.frames.reverse = fs := by
      rw [Machine.frames, hs, frames_ofFrames, List.reverse_reverse]
    rw [hs, ← hReverse, hFrames]
    exact getElem?_frames_ofFrames above (.activation a) below
  refine leaves_of_unwindTo hIndexed (Array.getElem?_eq_some_iff.1 hFrame).1 ?_ ?_
  · intro f s hf hRun
    rw [hFrame] at hf
    cases hf
    simp only [Exec.doReturn, hPosition, hFound, Exec.onStack, hRun]
    obtain ⟨function, locals, returnTo, signature⟩ := a
    cases returnTo <;> rfl
  · intro e hRun
    simp only [Exec.doReturn, hPosition, hFound, Exec.onStack, hRun]

/-- Branches of a machine whose index is in step with its frames. -/
theorem branchesAsScanned_of_indexed (hIndexed : m.stack.Indexed)
    (hActivation : scanActivation? m.frames.reverse = some (base, a)) :
    m.BranchesAsScanned base a := by
  have hCount : m.stack.labelsAboveActivation = labelsOnTop m.frames := hIndexed.labelsAbove
  obtain ⟨above, below, hFrames, hBase, hAbove⟩ := eq_of_scanActivation? hActivation
  have hFinds : ∀ depth, depth < labelsOnTop m.frames →
      ∃ position l, scanLabel? m.frames.reverse depth = some (position, l) ∧ base < position := by
    intro depth hDepth
    rw [labelsOnTop_eq hFrames hAbove] at hDepth
    obtain ⟨position, l, hLabel, hOver⟩ := scanLabel?_append hDepth (.activation a :: below)
    rw [List.length_cons] at hOver
    exact ⟨position, l, by rw [hFrames, hLabel], by omega⟩
  refine ⟨?_, ?_, ?_, ?_, ?_, doReturn_leaves hIndexed hActivation⟩
  · intro depth hDepth
    obtain ⟨position, l, hLabel, hOver⟩ := hFinds depth hDepth
    exact ⟨position, l, hLabel, hOver, branch_leaves hIndexed hDepth hLabel⟩
  · change (if labelsOnTop m.frames = m.stack.labelsAboveActivation then _ else _ : Exec Unit) m = _
    rw [if_pos hCount.symm]
  · intro depth hDepth
    change (if depth = m.stack.labelsAboveActivation then _ else _ : Exec Unit) m = _
    rw [if_neg (by omega), if_pos (by omega), hCount]
    rfl
  · intro hLabels
    obtain ⟨position, l, hLabel, hOver⟩ := hFinds 0 hLabels
    exact ⟨position, l, hLabel, hOver, blockEnd_leaves hIndexed hLabels hLabel⟩
  · intro hNone
    change (if m.stack.labelsAboveActivation = 0 then _ else _ : Exec Unit) m = _
    rw [if_pos (by omega)]

end

end Machine

/-! ## Invocations -/

namespace Session

/-- A machine in the course of an invocation: where an opcode is fetched, or in the middle of an
instruction, which has read on in the code and may have taken frames off the stack. -/
def Amid (s : Session) (index : UInt32) (arguments : List Value) (m : Machine) : Prop :=
  ∃ fetched count, s.Visits index arguments fetched ∧ m.stack = fetched.stack.dropTop count

theorem indexed_of_amid {i : Instance} {config : Config} {journal : Journal}
    {requests : List (Nat × Request)} {index : UInt32} {arguments : List Value} {m : Machine}
    (h : ((ofInstance i config journal).serve requests).2.Amid index arguments m) :
    m.stack.Indexed := by
  obtain ⟨fetched, count, hVisits, hStack⟩ := h
  have hConsistent := (consistent_ofInstance i config journal).serve requests
  obtain ⟨t, steps, hRuns, -⟩ := hConsistent.runs_of_visits hVisits
  have hBuilt : fetched.stack.Built := ⟨_, hRuns.stack⟩
  rw [hStack]
  exact (hBuilt.dropTop count).indexed

/-- Wherever an invocation is, whatever the functions and earlier requests have done, with an
activation on the stack: a branch to a depth below the number of labels above the topmost
activation leaves the label that is found by counting down the frames, with the values that it
carries, and goes on where the label says; one to that number returns from the activation; one
beyond it fails. The end of a block leaves the first label with the results of the block and goes
on behind it, or returns if there is no label. None of them changes anything when it fails. -/
theorem branches_as_scanned (i : Instance) (config : Config) (journal : Journal)
    (requests : List (Nat × Request)) (index : UInt32) (arguments : List Value) (m : Machine)
    (hAmid : ((ofInstance i config journal).serve requests).2.Amid index arguments m)
    (base : Nat) (a : ActivationFrame)
    (hActivation : scanActivation? m.frames.reverse = some (base, a)) :
    m.BranchesAsScanned base a :=
  Machine.branchesAsScanned_of_indexed (indexed_of_amid hAmid) hActivation

/-- An instance with one function, a loop that is to leave a number and goes on for ever. -/
def spinInstance : Instance where
  program :=
    { types := #[⟨[], []⟩]
      imported := #[]
      functions := #[{
        index := 0
        typeIndex := 0
        signature := ⟨[], []⟩
        code := #[0x03, 0x7f, 0x0c, 0x00, endByte, endByte]
        position := 0
        locals := #[] }]
      start := none
      entry := none }
  store := { globals := #[], memories := #[], tables := #[], callCounts := #[0] }

/-- Inside the loop a branch to it carries nothing, while its end lacks the number. -/
theorem branches_as_scanned_spin :
    let s := ofInstance spinInstance {} {}
    ∃ m, s.Amid 0 [] m ∧ labelsOnTop m.frames = 1 ∧
      (∃ m', Exec.branch 0 m = .ok () m' ∧ m'.pc.offset = 0 ∧ m'.frames = m.frames.take 2) ∧
      Exec.branch 1 m = Exec.doReturn m ∧
      Exec.branch 2 m = .error (.breakLevelExceeded 2 1) m ∧
      ∃ found, Exec.blockEnd m = .error (.arityMismatch [.i32] found) m := by
  intro s
  have hRuns := (consistent_ofInstance spinInstance {} {}).opening_runs 0 ⟨[], []⟩ []
  have hPlaced := Thread.start_wellPlaced (s.environment 0) ⟨[], []⟩ [] s.machine.store
  obtain ⟨t, t', a, a', hCall, hLoop, hStack⟩ : ∃ (t t' : Thread) (a a' : ActivationFrame),
      (Thread.start ⟨[], []⟩ [] s.machine.store).tick (s.environment 0) 0 =
        (.ok (.running t), 1) ∧
      t.tick (s.environment 0) 1 = (.ok (.running t'), 2) ∧
      ofActivities (t'.activity :: t'.callers) =
        ofFrames [.label ⟨.loop, .value .i32, 0⟩, .activation a, .activation a'] := by
    rw [environment_zero rfl]
    exact ⟨_, _, _, _, rfl, rfl, rfl⟩
  have hFirst := step_follows hRuns hPlaced
  change Arrives _ _ ((Thread.start _ _ _).tick (s.environment 0) 0) _ at hFirst
  rw [hCall] at hFirst
  obtain ⟨m₁, hStep₁, hRuns₁⟩ := hFirst
  have hSecond := step_follows hRuns₁ (hPlaced.step (Thread.tick_running hCall))
  rw [hLoop] at hSecond
  obtain ⟨m, hStep, hRuns'⟩ := hSecond
  have hFrames : m.frames =
      [.activation a', .activation a, .label ⟨.loop, .value .i32, 0⟩] := by
    rw [Machine.frames, hRuns'.stack, hStack, frames_ofFrames]
    rfl
  have hAmid : s.Amid 0 [] m :=
    ⟨m, 0, ⟨_, rfl, .tail (.tail (.refl rfl) hStep₁ hRuns₁.halted) hStep hRuns'.halted⟩, rfl⟩
  have hActivation : scanActivation? m.frames.reverse = some (1, a) := by
    rw [hFrames]
    rfl
  have hLabels : labelsOnTop m.frames = 1 := by
    rw [hFrames]
    rfl
  have hBranches := branches_as_scanned spinInstance {} {} [] 0 [] m hAmid 1 a hActivation
  have hLabel : scanLabel? m.frames.reverse 0 = some (2, ⟨.loop, .value .i32, 0⟩) := by
    rw [hFrames]
    rfl
  have hSize : m.stack.size = 3 := congrArg List.length hFrames
  refine ⟨m, hAmid, hLabels, ?_, ?_, ?_, ?_⟩
  · obtain ⟨position, l, hFound, -, hLeaves⟩ := hBranches.inside 0 (by omega)
    cases hLabel.symm.trans hFound
    have hNothing : m.stack.Carries 2 [] [] := ⟨by simp [hSize], rfl, by simp [size]⟩
    obtain ⟨left, hRun, -, hLeft⟩ := hLeaves.carried [] hNothing
    rw [List.map_nil, List.append_nil] at hLeft
    exact ⟨_, hRun, rfl, hLeft⟩
  · rw [← hLabels]
    exact hBranches.outermost
  · rw [← hLabels]
    exact hBranches.beyond 2 (by omega)
  · obtain ⟨position, l, hFound, -, hLeaves⟩ := hBranches.blockEnd (by omega)
    cases hLabel.symm.trans hFound
    refine hLeaves.mismatch fun values hValues => ?_
    have hAbove := hValues.above
    rw [hSize] at hAbove
    exact absurd hAbove (by decide)

end Session

end WasmMachine
