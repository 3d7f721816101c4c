import WasmMachine.Proofs.Machine.Causes
import WasmMachine.Proofs.Machine.Isolation
import WasmMachine.Proofs.Structured.Nesting
import WasmMachine.Proofs.Structured.Refinement

/-!
# Labels mirror the syntax

In a program of encoded trees the labels of an activation are those of the constructs around the
place where it goes on: the program counter for the current one, the place past its call for a
caller. The invariant says more than that, so that it can be kept: from that place on the code
encodes a sequence, whose delimiter closes the innermost open construct, and the code after that
delimiter and the code that a branch to the construct leads to are inside the constructs that are
left.

* `Thread.InTrees`: the invariant, for the current activity and all callers.
* `Thread.InTrees.step`: steps keep it and do not blame the structure of the code.
* `Session.labels_mirror_nesting`: what it says about the frames of every state of an invocation.
-/

namespace WasmMachine

open Stack

/-! ## The invariant -/

/-- Inside open constructs, the code goes on at an offset with a sequence; how it closes is up to
what encloses it. -/
def Proceeds (code : Bytes) (root : Sequence) (closes : UInt8 → Nat → Prop)
    (labels : List LabelFrame) (offset : Nat) : Prop :=
  ∃ d s, Encodes code d offset s ∧ Mirrors root labels offset s ∧ closes d s.closing

/-- A sequence inside open constructs may close at an offset. Inside none this is the end of the
tree. Else the code goes on inside the outer constructs where a branch to the innermost one leads,
and past the delimiter if it is an `end`; an `else` stands before the place that the branch leads
to. -/
def Surrounds (code : Bytes) (root : Sequence) :
    List LabelFrame → (delimiter : UInt8) → (closing : Nat) → Prop
  | [], d, closing => d = endByte ∧ closing = root.closing
  | l :: outside, d, closing =>
    Proceeds code root (Surrounds code root outside) outside l.continuation ∧
      (d = endByte ∧ Proceeds code root (Surrounds code root outside) outside (closing + 1) ∨
        d = elseByte ∧ closing < l.continuation)

/-- The code goes on at an offset inside open constructs. -/
def ProceedsIn (code : Bytes) (root : Sequence) (labels : List LabelFrame) (offset : Nat) : Prop :=
  Proceeds code root (Surrounds code root labels) labels offset

/-- The labels of an activity, innermost first. -/
def Activity.labels (A : Activity) : List LabelFrame := A.blocks.map OpenBlock.label

/-- An activity goes on at a place of the tree of its code, which is the body of its function. -/
structure Activity.InTree (env : Env) (trees : CodeRef → Sequence) (A : Activity)
    (place : CodePoint) : Prop where
  proceeds : ProceedsIn (env.code place.code) (trees place.code) A.labels place.offset
  body : ∀ index, A.activation.function = some index →
    ∃ k f, env.program.callee index = .ok (.defined k f) ∧ place.code = .function k

/-- Activities go on one after the other, the first one at the given place. Only the outermost one
returns to nothing. -/
def AllInTrees (env : Env) (trees : CodeRef → Sequence) : Option CodePoint → List Activity → Prop
  | none, rest => rest = []
  | some _, [] => False
  | some place, A :: rest =>
    A.InTree env trees place ∧ AllInTrees env trees A.activation.returnTo rest

/-- A thread in encoded trees. -/
def Thread.InTrees (env : Env) (trees : CodeRef → Sequence) (t : Thread) : Prop :=
  AllInTrees env trees (some t.pc) (t.activity :: t.callers)

/-- All code consists of encodings of the given trees. -/
def Env.Encoded (env : Env) (trees : CodeRef → Sequence) : Prop :=
  ∀ {index k f}, env.program.callee index = .ok (.defined k f) →
    Encodes (env.code (.function k)) endByte 0 (trees (.function k))

/-- What a step of a thread in encoded trees may lead to. -/
def Next.InTrees (env : Env) (trees : CodeRef → Sequence) : Except Trap Next → Prop
  | .error e => ¬ e.Structural
  | .ok (.running t) => t.InTrees env trees
  | .ok (.halted _ _) => True

/-! ## Branches -/

/-- A branch out of open constructs leads to code inside those that are left. By induction on the
labels: what encloses the code after a construct is what encloses the construct. -/
theorem Surrounds.target {code : Bytes} {root : Sequence} {labels outside : List LabelFrame}
    {d : UInt8} {closing depth : Nat} {l : LabelFrame} (h : Surrounds code root labels d closing)
    (hDrop : labels.drop depth = l :: outside) : ProceedsIn code root outside l.continuation := by
  induction labels generalizing d closing depth with
  | nil =>
    rw [List.drop_nil] at hDrop
    cases hDrop
  | cons first rest ih =>
    obtain ⟨hProceeds, -⟩ := h
    cases depth with
    | zero =>
      cases hDrop
      exact hProceeds
    | succ depth =>
      obtain ⟨_, _, -, -, hOutside⟩ := hProceeds
      exact ih hOutside hDrop

/-- All that open constructs surround stands before the end of the tree. By induction on the labels:
the code after a construct closes later than the construct does. -/
theorem Surrounds.closing_le {code : Bytes} {root : Sequence} {labels : List LabelFrame} {d : UInt8}
    {closing : Nat} (h : Surrounds code root labels d closing) : closing ≤ root.closing := by
  induction labels generalizing d closing with
  | nil => exact Nat.le_of_eq h.2
  | cons l outside ih =>
    obtain ⟨⟨_, s, hBack, -, hOutside⟩, ⟨-, _, s', hAfter, -, hOutside'⟩ | ⟨-, hBefore⟩⟩ := h
    · have hStart := hAfter.start_le_closing
      have hClosing := ih hOutside'
      omega
    · have hStart := hBack.start_le_closing
      have hClosing := ih hOutside
      omega

namespace Site

/-- The labels of a site, innermost first. -/
def labels (S : Site) : List LabelFrame := S.blocks.map OpenBlock.label

/-- At a site, the code goes on at an offset. -/
def Proceeds (env : Env) (trees : CodeRef → Sequence) (S : Site) (offset : Nat) : Prop :=
  ProceedsIn (env.code S.code) (trees S.code) S.labels offset

/-- What a site has around its code: the function that it belongs to, and callers that go on when it
returns. -/
structure Settled (env : Env) (trees : CodeRef → Sequence) (S : Site) : Prop where
  body : ∀ index, S.activation.function = some index →
    ∃ k f, env.program.callee index = .ok (.defined k f) ∧ S.code = .function k
  callers : AllInTrees env trees S.activation.returnTo S.callers

variable {env : Env} {trees : CodeRef → Sequence} {S : Site} {σ : Region} {offset : Nat}

theorem Settled.inside (h : S.Settled env trees) (b : OpenBlock) :
    (S.inside b).Settled env trees := ⟨h.body, h.callers⟩

theorem Settled.outside (h : S.Settled env trees) (blocks : List OpenBlock) :
    ({ S with blocks } : Site).Settled env trees := ⟨h.body, h.callers⟩

theorem thread_inTrees (hSettled : S.Settled env trees) (hProceeds : S.Proceeds env trees offset) :
    (S.thread offset σ).InTrees env trees :=
  ⟨⟨hProceeds, hSettled.body⟩, hSettled.callers⟩

/-- Leaving an activation. -/
theorem leave_inTrees (hSettled : S.Settled env trees) (top : List Value) (store : Store) :
    Next.InTrees env trees (.ok (S.leave top store)) := by
  have hCallers := hSettled.callers
  unfold Site.leave
  cases hReturn : S.activation.returnTo with
  | none => exact True.intro
  | some place =>
    rw [hReturn] at hCallers
    cases hList : S.callers with
    | nil =>
      rw [hList] at hCallers
      exact hCallers.elim
    | cons caller rest =>
      rw [hList] at hCallers
      obtain ⟨⟨hProceeds, hBody⟩, hRest⟩ := hCallers
      exact ⟨⟨hProceeds, hBody⟩, hRest⟩

/-- Taking a branch. -/
theorem target_inTrees {d : UInt8} {closing depth : Nat} (hSettled : S.Settled env trees)
    (hSurrounds : Surrounds (env.code S.code) (trees S.code) S.labels d closing)
    (top : List Value) : Next.InTrees env trees (.ok (S.target depth top σ)) := by
  unfold Site.target
  cases hDrop : S.blocks.drop depth with
  | nil => exact leave_inTrees hSettled top σ.store
  | cons b outside =>
    have hLabels : S.labels.drop depth = b.label :: outside.map OpenBlock.label := by
      rw [labels, ← List.map_drop, hDrop, List.map_cons]
    exact thread_inTrees (hSettled.outside outside) (hSurrounds.target hLabels)

/-! ## Steps -/

/-- A delimiter hands up results or traps, and the trap is about the operands. -/
theorem Closes.inTrees {results : List ValueType} {closing : Nat}
    {after : List Value → Region → Next} (h : S.Closes env results closing after)
    (hAfter : ∀ top τ, Next.InTrees env trees (.ok (after top τ))) :
    Next.InTrees env trees ((S.thread closing σ).step env) := by
  rw [h σ]
  cases carried? results σ.operands with
  | none => simp [Next.InTrees, Trap.structural_iff]
  | some top => exact hAfter top σ

/-- At a delimiter. -/
theorem stop_inTrees {d : UInt8} (hByte : (env.code S.code)[offset]? = some d)
    (hSurrounds : Surrounds (env.code S.code) (trees S.code) S.labels d offset)
    (hSettled : S.Settled env trees) : Next.InTrees env trees ((S.thread offset σ).step env) := by
  obtain ⟨code, blocks, activation, callers⟩ := S
  cases blocks with
  | nil =>
    obtain ⟨rfl, -⟩ := hSurrounds
    refine (closes_function _ rfl hByte).inTrees fun top τ => ?_
    exact leave_inTrees hSettled top τ.store
  | cons b outside =>
    obtain ⟨hBack, hDelimiter⟩ := hSurrounds
    have hOutside := hSettled.outside outside
    rcases hDelimiter with ⟨rfl, hAfter⟩ | ⟨rfl, -⟩
    · refine (closes_end ⟨code, outside, activation, callers⟩ hByte).inTrees fun top τ => ?_
      exact thread_inTrees hOutside hAfter
    · refine (closes_else ⟨code, outside, activation, callers⟩ hByte).inTrees fun top τ => ?_
      exact thread_inTrees hOutside hBack

/-- An instruction without a body. -/
theorem leaf_inTrees (hEncoded : env.Encoded trees) {place next : Nat} {i : Leaf}
    (hDecodes : DecodesTo (env.code S.code) place i.instruction next)
    (hRest : S.Proceeds env trees next) (hSettled : S.Settled env trees) :
    Next.InTrees env trees ((S.thread place σ).step env) := by
  have hPerforms := S.act_performs env place next i σ
  rw [← S.step_eq σ hDecodes] at hPerforms
  rcases hAction : i.act env S.scope σ with
    e | (τ | ⟨depth, top⟩ | ⟨index, callee, f, arguments, left⟩)
  · rw [hAction] at hPerforms
    rw [hPerforms]
    exact Leaf.act_blameless hAction
  · rw [hAction] at hPerforms
    rw [hPerforms]
    exact thread_inTrees hSettled hRest
  · rw [hAction] at hPerforms
    rw [hPerforms.2]
    obtain ⟨_, _, -, -, hSurrounds⟩ := hRest
    exact target_inTrees hSettled hSurrounds top
  · rw [hAction] at hPerforms
    obtain ⟨hCallee, hStep⟩ := hPerforms
    rw [hStep]
    refine thread_inTrees (S := S.called index callee f left σ.locals next) ⟨?_, ?_⟩ ?_
    · intro index' hIndex
      cases hIndex
      exact ⟨callee, f, hCallee, rfl⟩
    · exact ⟨⟨hRest, hSettled.body⟩, hSettled.callers⟩
    · exact ⟨endByte, _, hEncoded hCallee, .root _, rfl, rfl⟩

/-- The body of a construct, which has been entered. -/
theorem inside_inTrees {b : OpenBlock} {d : UInt8} {body : Sequence}
    (hBody : Encodes (env.code S.code) d offset body)
    (hMirrors : Mirrors (trees S.code) (b.label :: S.labels) offset body)
    (hBack : S.Proceeds env trees b.label.continuation)
    (hEnd : d = endByte ∧ S.Proceeds env trees (body.closing + 1) ∨
      d = elseByte ∧ body.closing < b.label.continuation)
    (hSettled : S.Settled env trees) :
    ((S.inside b).thread offset σ).InTrees env trees :=
  thread_inTrees (hSettled.inside b) ⟨d, body, hBody, hMirrors, hBack, hEnd⟩

/-- Taking the condition of a conditional, when both arms can be run. -/
theorem arm_inTrees {place next : Nat} {t : BlockType} {targets : BlockTargets}
    (hDecodes : DecodesTo (env.code S.code) place (.ifThen t) next)
    (hResolve : resolve (env.code S.code) next = .ok targets)
    (hArm : ∀ (condition : BitVec 32) (outer : List Value),
      ((S.inside ⟨⟨.ifThen, t, targets.endPos + 1⟩, outer⟩).thread
        (Thread.armOffset condition targets next) { σ with operands := [] }).InTrees env trees) :
    Next.InTrees env trees ((S.thread place σ).step env) := by
  rw [S.step_ifThen σ hDecodes hResolve]
  cases hPop : onOperands popI32 σ.operands with
  | error e => exact (StackM.Blameless.popInt .i32).onOperands hPop
  | ok p => exact hArm p.1 p.2

/-- A step in an encoded tree, by the form of the code. -/
theorem step_inTrees (hEncoded : env.Encoded trees) (hProceeds : S.Proceeds env trees offset)
    (hSettled : S.Settled env trees) : Next.InTrees env trees ((S.thread offset σ).step env) := by
  obtain ⟨d, s, hEncodes, hMirrors, hSurrounds⟩ := hProceeds
  have hAgain : S.Proceeds env trees offset := ⟨d, s, hEncodes, hMirrors, hSurrounds⟩
  cases hEncodes with
  | stop byte => exact stop_inTrees byte hSurrounds hSettled
  | @leaf _ _ next i rest head tail =>
    have hRest : S.Proceeds env trees next := ⟨d, rest, tail, hMirrors.leaf head.lt, hSurrounds⟩
    exact leaf_inTrees hEncoded head hRest hSettled
  | @block _ _ next t body rest head inside tail =>
    have hOpens := Sequence.opens_block offset t body rest
    have hAfter : S.Proceeds env trees (body.closing + 1) :=
      ⟨d, rest, tail, hMirrors.past hOpens head.lt inside, hSurrounds⟩
    rw [S.step_block σ head inside]
    exact inside_inTrees inside (hMirrors.inside hOpens head.lt tail) hAfter
      (.inl ⟨rfl, hAfter⟩) hSettled
  | @loop _ _ next t body rest head inside tail =>
    have hOpens := Sequence.opens_loop offset t body rest
    have hAfter : S.Proceeds env trees (body.closing + 1) :=
      ⟨d, rest, tail, hMirrors.past hOpens head.lt inside, hSurrounds⟩
    rw [S.step_loop σ head]
    exact inside_inTrees inside (hMirrors.inside hOpens head.lt tail) hAgain
      (.inl ⟨rfl, hAfter⟩) hSettled
  | @ifThen _ _ next t arm rest head inside tail =>
    have hOpens := Sequence.opens_ifThen offset t arm rest
    have hAfter : S.Proceeds env trees (arm.closing + 1) :=
      ⟨d, rest, tail, hMirrors.past hOpens head.lt inside, hSurrounds⟩
    have hInside := hMirrors.inside hOpens head.lt tail
    refine arm_inTrees head inside.resolve_end fun condition outer => ?_
    by_cases hZero : condition = 0
    · -- without an `else`, a condition of zero leads to the `end` of the conditional itself
      rw [Thread.armOffset, if_pos hZero]
      exact inside_inTrees (.stop inside.delimiter) (hInside.stop inside) hAfter
        (.inl ⟨rfl, hAfter⟩) hSettled
    · rw [Thread.armOffset, if_neg hZero]
      exact inside_inTrees inside hInside hAfter (.inl ⟨rfl, hAfter⟩) hSettled
  | @ifElse _ _ next t arm other rest head first second tail =>
    have hAfter : S.Proceeds env trees (other.closing + 1) :=
      ⟨d, rest, tail, hMirrors.ifElse_past head.lt first second, hSurrounds⟩
    refine arm_inTrees head (first.resolve_else second) fun condition outer => ?_
    by_cases hZero : condition = 0
    · rw [Thread.armOffset, if_pos hZero]
      exact inside_inTrees second (hMirrors.second head.lt first tail) hAfter
        (.inl ⟨rfl, hAfter⟩) hSettled
    · rw [Thread.armOffset, if_neg hZero]
      have hBefore : arm.closing < other.closing + 1 :=
        Nat.lt_of_lt_of_le (Nat.lt_succ_self _) (Nat.le_succ_of_le second.start_le_closing)
      exact inside_inTrees first (hMirrors.first head.lt second tail) hAfter
        (.inr ⟨rfl, hBefore⟩) hSettled

end Site

namespace Thread

variable {env : Env} {trees : CodeRef → Sequence} {t : Thread}

/-- A step of a thread in encoded trees stays in them, and does not blame the structure of the
code. -/
theorem InTrees.step (hEncoded : env.Encoded trees) (h : t.InTrees env trees) :
    Next.InTrees env trees (t.step env) :=
  Site.step_inTrees (S := ⟨t.pc.code, t.activity.blocks, t.activity.activation, t.callers⟩)
    (σ := t.activity.currentRegion t.store) hEncoded h.1.proceeds ⟨h.1.body, h.2⟩

theorem start_inTrees {signature : FunctionType} {arguments : List Value} {store : Store}
    (h : Encodes (env.code .driver) endByte 0 (trees .driver)) :
    (Thread.start signature arguments store).InTrees env trees := by
  refine ⟨⟨⟨endByte, trees .driver, h, .root _, rfl, rfl⟩, ?_⟩, rfl⟩
  intro index hIndex
  cases hIndex

/-- A thread in encoded trees has an opcode to fetch, and it is not past the end of its tree. -/
theorem InTrees.fetches (h : t.InTrees env trees) :
    (∃ b, (env.code t.pc.code)[t.pc.offset]? = some b) ∧
      t.pc.offset ≤ (trees t.pc.code).closing := by
  obtain ⟨d, s, hEncodes, -, hSurrounds⟩ := h.1.proceeds
  refine ⟨?_, Nat.le_trans hEncodes.start_le_closing hSurrounds.closing_le⟩
  cases hEncodes with
  | stop byte => exact ⟨d, byte⟩
  | leaf head _ | block head _ _ | loop head _ _ | ifThen head _ _ | ifElse head _ _ _ =>
    obtain ⟨b, hByte, -⟩ := head
    exact ⟨b, hByte⟩

end Thread

/-- The labels of an activity are those of the constructs around the place where it goes on. -/
theorem Activity.InTree.labelsAt_eq {env : Env} {trees : CodeRef → Sequence} {A : Activity}
    {place : CodePoint} (h : A.InTree env trees place) :
    (trees place.code).labelsAt place.offset = A.labels.reverse := by
  obtain ⟨d, s, hEncodes, hMirrors, -⟩ := h.proceeds
  exact hMirrors.labelsAt_eq hEncodes

/-! ## Branch levels -/

/-- A branch fails for its depth exactly when it would leave more than the open blocks and the
function. -/
theorem Thread.branch_exceeds_iff (t : Thread) (depth : Nat) :
    (∃ e, t.branch depth = .error e ∧ e.code = "BREAK_LEVEL_EXCEEDED") ↔
      t.activity.blocks.length < depth := by
  constructor
  · rintro ⟨e, hBranch, hCode⟩
    by_contra hLe
    have hOther : e.code ≠ "BREAK_LEVEL_EXCEEDED" := by
      unfold Thread.branch Thread.leave at hBranch
      split at hBranch
      · split at hBranch <;> cases hBranch
        simp [Trap.code]
      · rename_i hDrop
        have hLength : t.activity.blocks.length ≤ depth := List.drop_eq_nil_iff.1 hDrop
        rw [if_pos (by omega)] at hBranch
        split at hBranch
        · cases hBranch
          simp [Trap.code]
        · split at hBranch <;> cases hBranch
    exact hOther hCode
  · intro hLt
    refine ⟨.breakLevelExceeded depth t.activity.blocks.length, ?_, rfl⟩
    unfold Thread.branch
    rw [List.drop_of_length_le (by omega)]
    exact if_neg (by omega)

namespace Machine

/-- The instruction at the program counter takes a branch of the given depth: it always does, or the
condition on top of the stack is not zero, or the index on top of the stack chooses that depth. -/
def Branches (env : Env) (m : Machine) (depth : Nat) : Prop :=
  ∃ i next, m.Decodes env i next ∧
    ((∃ d, i = .branch d ∧ depth = d.toNat) ∨
      (∃ d below condition, i = .branchIf d ∧ depth = d.toNat ∧ condition ≠ 0 ∧
        m.frames = below ++ [.value (.i32 condition)]) ∨
      ∃ depths default below index, i = .branchTable depths default ∧
        depth = (depths[index.toNat]?.getD default).toNat ∧
        m.frames = below ++ [.value (.i32 index)])

/-- A value on top of the stack is an operand of the current activity. -/
theorem Runs.operands_of_top {env : Env} {m : Machine} {t : Thread} {steps : Nat}
    (h : m.Runs env t steps) {below : List Frame} {v : Value}
    (hFrames : m.frames = below ++ [.value v]) : ∃ left, t.activity.operands = v :: left := by
  rw [h.frames_eq, framesOf, List.reverse_eq_iff, List.reverse_append, List.flatMap_cons,
    Activity.frames, Activity.region] at hFrames
  cases hOperands : t.activity.operands with
  | cons first left =>
    rw [hOperands] at hFrames
    cases (List.cons.inj hFrames).1
    exact ⟨left, rfl⟩
  | nil =>
    rw [hOperands] at hFrames
    cases hBlocks : t.activity.blocks with
    | nil =>
      rw [hBlocks] at hFrames
      cases (List.cons.inj hFrames).1
    | cons b rest =>
      rw [hBlocks] at hFrames
      cases (List.cons.inj hFrames).1

/-- A machine that takes a branch does what its thread does at the branch, with the operands that
are left. -/
theorem Runs.step_of_branches {env : Env} {m : Machine} {t : Thread} {steps depth : Nat}
    (h : m.Runs env t steps) (hBranches : m.Branches env depth) :
    ∃ t' : Thread, t'.activity.blocks = t.activity.blocks ∧ t.step env = t'.branch depth := by
  obtain ⟨i, next, ⟨b, hFetch, hDecode⟩, hKind⟩ := hBranches
  rw [fetch?, h.pc] at hFetch
  rw [h.pc] at hDecode
  have hStep : t.step env = Thread.exec env t.pc.offset i (t.jump next) := by
    unfold Thread.step
    simp only [hFetch, hDecode]
  have hJump : (t.jump next).activity = t.activity := rfl
  rcases hKind with ⟨d, rfl, rfl⟩ | ⟨d, below, condition, rfl, rfl, hCondition, hFrames⟩ |
    ⟨depths, default, below, index, rfl, rfl, hFrames⟩
  · exact ⟨t.jump next, rfl, hStep⟩
  · obtain ⟨left, hOperands⟩ := h.operands_of_top hFrames
    have hPop : onOperands popI32 (.i32 condition :: left) = .ok (condition, left) :=
      onOperands_popInt_ofInt .i32 condition left
    refine ⟨(t.jump next).withOperands left, rfl, ?_⟩
    rw [hStep]
    simp only [Thread.exec, hJump, hOperands, hPop, if_pos hCondition]
  · obtain ⟨left, hOperands⟩ := h.operands_of_top hFrames
    have hPop : onOperands popI32 (.i32 index :: left) = .ok (index, left) :=
      onOperands_popInt_ofInt .i32 index left
    refine ⟨(t.jump next).withOperands left, rfl, ?_⟩
    rw [hStep]
    simp only [Thread.exec, hJump, hOperands, hPop]

/-- A machine fails where its thread does, with the same fault. -/
theorem Runs.step_error_iff {env : Env} {m : Machine} {t : Thread} {steps : Nat}
    (h : m.Runs env t steps) (hPlaced : t.WellPlaced env) (f : Fault) :
    (∃ m', step env m = .error f m') ↔ (t.tick env steps).1 = .error f := by
  have hFollows := step_follows h hPlaced
  rcases hTick : t.tick env steps with ⟨f' | (t' | ⟨values, store⟩), steps'⟩
  · rw [hTick] at hFollows
    obtain ⟨m₁, hStep, -⟩ := hFollows
    rw [hStep]
    constructor
    · rintro ⟨m', hError⟩
      cases hError
      rfl
    · intro hFault
      cases hFault
      exact ⟨m₁, rfl⟩
  all_goals
    rw [hTick] at hFollows
    obtain ⟨m₁, hStep, -⟩ := hFollows
    rw [hStep]
    constructor
    · rintro ⟨m', hError⟩
      cases hError
    · intro hFault
      cases hFault

/-! ## Frames -/

/-- Where an activation goes on that stands below the given frames: where the next activation above
it returns to, or at the program counter if there is none. -/
def resumption (pc : CodePoint) (above : List Frame) : Option CodePoint :=
  match above.filterMap Frame.activation? with
  | [] => some pc
  | next :: _ => next.returnTo

/-- The labels that belong to an activation below the given frames, outermost first: those before
the next activation. -/
def ownLabels (above : List Frame) : List LabelFrame :=
  (above.takeWhile (!·.isActivation)).filterMap Frame.label?

/-- For every activation of a function on the stack, its labels are those of the constructs of its
body around the place where it goes on. -/
def LabelsMirror (env : Env) (bodies : Nat → Sequence) (m : Machine) : Prop :=
  ∀ below a above index, m.frames = below ++ .activation a :: above → a.function = some index →
    ∃ k f offset, env.program.callee index = .ok (.defined k f) ∧
      resumption m.pc above = some ⟨.function k, offset⟩ ∧
      ownLabels above = ((bodies k).enclosing offset).map Construct.label

end Machine

namespace Activity

theorem filterMap_activation?_region (A : Activity) :
    A.region.reverse.filterMap Frame.activation? = [] := by
  rw [List.filterMap_eq_nil_iff]
  intro f hf
  have hKind := isActivation_of_mem_region (List.mem_reverse.1 hf)
  cases f with
  | activation a => cases hKind
  | value v => rfl
  | label l => rfl

theorem filterMap_label?_blocks (blocks : List OpenBlock) :
    (blocks.flatMap OpenBlock.frames).filterMap Frame.label? = blocks.map OpenBlock.label := by
  induction blocks with
  | nil => rfl
  | cons b rest ih =>
    rw [List.flatMap_cons, List.filterMap_append, ih, OpenBlock.frames, List.filterMap_cons]
    simp [List.filterMap_map, Function.comp_def, Frame.label?]

/-- The labels above an activation are those of its open blocks. -/
theorem ownLabels_region (A : Activity) :
    Machine.ownLabels A.region.reverse = A.labels.reverse := by
  have hAll : A.region.reverse.takeWhile (!·.isActivation) = A.region.reverse := by
    have hOwn : ∀ f ∈ A.region.reverse, (!f.isActivation) = true := by
      intro f hf
      rw [isActivation_of_mem_region (List.mem_reverse.1 hf)]
      rfl
    have hTake : (A.region.reverse ++ []).takeWhile (!·.isActivation) = A.region.reverse ++ [] :=
      List.takeWhile_append_of_pos hOwn
    rwa [List.append_nil] at hTake
  rw [Machine.ownLabels, hAll, List.filterMap_reverse, region, List.filterMap_append,
    filterMap_label?_blocks]
  simp [List.filterMap_map, Function.comp_def, Frame.label?, labels]

end Activity

namespace Machine

/-- The labels of an activation end at the next activation. -/
theorem ownLabels_append (above others : List Frame) (a : ActivationFrame) :
    ownLabels (above ++ .activation a :: others) = ownLabels above := by
  have hTake : (above ++ .activation a :: others).takeWhile (!·.isActivation) =
      above.takeWhile (!·.isActivation) := by
    induction above with
    | nil => rfl
    | cons f rest ih =>
      rw [List.cons_append, List.takeWhile_cons, List.takeWhile_cons, ih]
  rw [ownLabels, hTake, ownLabels]

theorem resumption_region (pc : CodePoint) (A : Activity) :
    resumption pc A.region.reverse = some pc := by
  rw [resumption, A.filterMap_activation?_region]

/-- An activation below an activity goes on where the activity returns to, unless there is another
one in between. -/
theorem resumption_append (pc place : CodePoint) (above : List Frame) (A : Activity)
    (hReturn : A.activation.returnTo = some place) :
    resumption pc (above ++ .activation A.activation :: A.region.reverse) =
      resumption place above := by
  unfold resumption
  rw [List.filterMap_append, List.filterMap_cons, A.filterMap_activation?_region]
  cases above.filterMap Frame.activation? with
  | nil => exact hReturn
  | cons next others => rfl

end Machine

/-- An activation among the frames of some activities belongs to one of them, which has its labels
and goes on where it does. By induction on the activities: the current one has no activation above
its own, and each of its callers goes on where the activity above it returns to. -/
theorem AllInTrees.exists_inTree {env : Env} {trees : CodeRef → Sequence} {pc : CodePoint}
    {activities : List Activity} (h : AllInTrees env trees (some pc) activities)
    {below above : List Frame} {a : ActivationFrame}
    (hFrames : framesOf activities = below ++ .activation a :: above) :
    ∃ (A : Activity) (place : CodePoint), A.InTree env trees place ∧ A.activation = a ∧
      Machine.ownLabels above = A.labels.reverse ∧
      Machine.resumption pc above = some place := by
  induction activities generalizing pc above with
  | nil => exact h.elim
  | cons A rest ih =>
    obtain ⟨hTree, hRest⟩ := h
    rw [framesOf_cons] at hFrames
    have hCurrent : a = A.activation → above = A.region.reverse →
        ∃ (A : Activity) (place : CodePoint), A.InTree env trees place ∧ A.activation = a ∧
          Machine.ownLabels above = A.labels.reverse ∧
          Machine.resumption pc above = some place := by
      rintro rfl rfl
      exact ⟨A, pc, hTree, rfl, A.ownLabels_region, Machine.resumption_region pc A⟩
    rcases List.append_eq_append_iff.1 hFrames with
      ⟨between, -, hRegion⟩ | ⟨between, hBelow, hAbove⟩
    · cases between with
      | nil =>
        obtain ⟨hHead, hTail⟩ := List.cons.inj hRegion
        cases hHead
        exact hCurrent rfl hTail.symm
      | cons f others =>
        obtain ⟨-, hTail⟩ := List.cons.inj hRegion
        have hMem : Frame.activation a ∈ A.region.reverse := by
          rw [hTail]
          simp
        cases Activity.isActivation_of_mem_region (List.mem_reverse.1 hMem)
    · cases between with
      | nil =>
        obtain ⟨hHead, hTail⟩ := List.cons.inj hAbove
        cases hHead
        exact hCurrent rfl hTail
      | cons f others =>
        obtain ⟨rfl, hTail⟩ := List.cons.inj hAbove
        cases hReturn : A.activation.returnTo with
        | none =>
          rw [hReturn] at hRest
          cases rest with
          | nil => cases below <;> cases hBelow
          | cons B others => cases hRest
        | some place =>
          rw [hReturn] at hRest
          change above = others ++ _ at hTail
          rw [hTail, Machine.ownLabels_append, Machine.resumption_append pc place others A hReturn]
          exact ih hRest hBelow

/-! ## Machines and invocations -/

namespace Machine

variable {env : Env} {trees : CodeRef → Sequence} {m m' : Machine} {t : Thread} {steps : Nat}

/-- The frames of a machine whose thread is in encoded trees. -/
theorem Runs.labelsMirror (h : m.Runs env t steps) (hTrees : t.InTrees env trees) :
    m.LabelsMirror env fun k => trees (.function k) := by
  intro below a above index hFrames hFunction
  rw [h.frames_eq] at hFrames
  obtain ⟨A, place, hTree, rfl, hLabels, hPlace⟩ := AllInTrees.exists_inTree hTrees hFrames
  obtain ⟨k, f, hCallee, hCode⟩ := hTree.body index hFunction
  obtain ⟨code, offset⟩ := place
  obtain rfl : code = .function k := hCode
  refine ⟨k, f, offset, hCallee, ?_, ?_⟩
  · rw [h.pc]
    exact hPlace
  · rw [hLabels, ← hTree.labelsAt_eq]
    rfl

/-- All machines of a run have threads in encoded trees, when the first one has. -/
theorem StepsThrough.inTrees (hEncoded : env.Encoded trees)
    (h : StepsThrough env (fun m => m.halted = false) m m') (hRuns : m.Runs env t steps)
    (hPlaced : t.WellPlaced env) (hTrees : t.InTrees env trees) :
    ∃ t' steps', m'.Runs env t' steps' ∧ t'.WellPlaced env ∧ t'.InTrees env trees := by
  induction h with
  | refl _ => exact ⟨t, steps, hRuns, hPlaced, hTrees⟩
  | tail _ last holds ih =>
    obtain ⟨t', steps', hRuns', hPlaced', hTrees'⟩ := ih
    obtain ⟨next, hStep, hNext⟩ := step_thread hRuns' hPlaced' last
    have hInTrees := hTrees'.step hEncoded
    rw [hStep] at hInTrees
    cases next with
    | running t'' => exact ⟨t'', _, hNext.1, hNext.2, hInTrees⟩
    | halted values store =>
      have hHalted := hNext.halted
      rw [holds] at hHalted
      cases hHalted

/-- Without a step limit, a step of a thread is a step of its machine. -/
theorem Runs.step_running (h : m.Runs env t steps) (hPlaced : t.WellPlaced env)
    (hLimit : env.config.maxSteps = none) {t' : Thread} (hStep : t.step env = .ok (.running t')) :
    ∃ m', step env m = .ok () m' ∧ m'.Runs env t' (steps + 1) := by
  have hFollows := step_follows h hPlaced
  rw [Thread.tick_of_step hLimit hStep] at hFollows
  exact hFollows

/-- A step of a machine in encoded trees does not blame the structure of the code. -/
theorem Runs.step_blameless (h : m.Runs env t steps) (hPlaced : t.WellPlaced env)
    (hEncoded : env.Encoded trees) (hTrees : t.InTrees env trees) {f : Fault}
    (hStep : step env m = .error f m') : ¬ f.trap.Structural := by
  have hTick := (h.step_error_iff hPlaced f).1 ⟨m', hStep⟩
  obtain ⟨⟨b, hByte⟩, -⟩ := hTrees.fetches
  unfold Thread.tick at hTick
  simp only [hByte] at hTick
  split at hTick
  · cases hTick
    simp [Trap.structural_iff]
  · have hInTrees := hTrees.step hEncoded
    split at hTick
    · cases hTick
    · rename_i e hError
      cases hTick
      rw [hError] at hInTrees
      exact hInTrees

/-- A branch of a machine fails for its depth exactly when it exceeds the number of open blocks. -/
theorem Runs.branch_exceeds_iff (h : m.Runs env t steps) (hPlaced : t.WellPlaced env)
    (hLimit : exceededLimit? env (m.steps + 1) = none) {depth : Nat}
    (hBranches : m.Branches env depth) :
    (∃ f m', step env m = .error f m' ∧ f.trap.code = "BREAK_LEVEL_EXCEEDED") ↔
      t.activity.blocks.length < depth := by
  obtain ⟨t', hBlocks, hStep⟩ := h.step_of_branches hBranches
  obtain ⟨_, _, ⟨b, hFetch, -⟩, -⟩ := hBranches
  rw [fetch?, h.pc] at hFetch
  rw [h.steps] at hLimit
  rw [← hBlocks, ← t'.branch_exceeds_iff depth, ← hStep]
  have hTick : ∀ f, (t.tick env steps).1 = .error f ↔
      t.step env = .error f.trap ∧ f.offset = some (env.program.modulePosition t.pc) := by
    intro f
    unfold Thread.tick
    simp only [hFetch, hLimit]
    cases t.step env with
    | ok next => simp
    | error e =>
      obtain ⟨trap, offset⟩ := f
      simp [eq_comm]
  constructor
  · rintro ⟨f, m', hError, hCode⟩
    have hFault := (h.step_error_iff hPlaced f).1 ⟨m', hError⟩
    exact ⟨f.trap, ((hTick f).1 hFault).1, hCode⟩
  · rintro ⟨e, hError, hCode⟩
    obtain ⟨m', hFails⟩ := (h.step_error_iff hPlaced ⟨e, _⟩).2 ((hTick ⟨e, _⟩).2 ⟨hError, rfl⟩)
    exact ⟨_, m', hFails, hCode⟩

end Machine

namespace Session

/-- The trees of an invocation: the driver sequence and the bodies of the functions. -/
def trees (s : Session) (bodies : Nat → Sequence) (index : UInt32) : CodeRef → Sequence
  | .driver => driver (if s.started then none else s.program.start) index
  | .function k => bodies k

/-- In every state that an invocation of encoded trees reaches, whatever earlier requests have done:
the labels of every activated function are, from the outermost to the innermost, those of the
constructs around the place where it goes on. So there is an opcode to fetch, inside the body of its
function; a step does not blame the structure of the code; and a branch fails for its depth exactly
when it exceeds the number of constructs around it. -/
theorem labels_mirror_nesting (i : Instance) (bodies : Nat → Sequence)
    (hEncoded : i.program.Encoded bodies) (config : Config) (journal : Journal)
    (requests : List (Nat × Request)) (index : UInt32) (arguments : List Value) (m : Machine)
    (hVisits : ((ofInstance i config journal).serve requests).2.Visits index arguments m) :
    let env := ((ofInstance i config journal).serve requests).2.environment index
    m.LabelsMirror env bodies ∧
      (∃ b, fetch? env m = some b) ∧
      (∀ k, m.pc.code = .function k → m.pc.offset ≤ (bodies k).closing) ∧
      (∀ f m', step env m = .error f m' → f.trap.code ≠ "ILLFORMED_STRUCTURE") ∧
      ∀ k depth, m.pc.code = .function k → exceededLimit? env (m.steps + 1) = none →
        m.Branches env depth →
        ((∃ f m', step env m = .error f m' ∧ f.trap.code = "BREAK_LEVEL_EXCEEDED") ↔
          ((bodies k).enclosing m.pc.offset).length < depth) := by
  intro env
  obtain ⟨signature, -, hSteps⟩ := hVisits
  obtain ⟨hProgram, -⟩ := (ofInstance i config journal).serve_program requests
  have hConsistent := (consistent_ofInstance i config journal).serve requests
  have hBodies : env.program.Encoded bodies := by
    change ((ofInstance i config journal).serve requests).2.program.Encoded bodies
    rw [hProgram]
    exact hEncoded
  have hTrees : env.Encoded (((ofInstance i config journal).serve requests).2.trees bodies index) :=
    fun hCallee => hBodies.called hCallee
  obtain ⟨t, steps, hRuns, hPlaced, hInTrees⟩ := hSteps.inTrees hTrees
    (hConsistent.opening_runs index signature arguments) (Thread.start_wellPlaced _ _ _ _)
    (Thread.start_inTrees (encodes_driver _ _))
  obtain ⟨⟨b, hByte⟩, hClosing⟩ := hInTrees.fetches
  refine ⟨hRuns.labelsMirror hInTrees, ⟨b, ?_⟩, ?_, ?_, ?_⟩
  · rw [fetch?, hRuns.pc]
    exact hByte
  · intro k hCode
    rw [hRuns.pc] at hCode ⊢
    rw [hCode] at hClosing
    exact hClosing
  · intro f m' hStep
    exact hRuns.step_blameless hPlaced hTrees hInTrees hStep
  · intro k depth hCode hLimit hBranches
    have hLabels := hInTrees.1.labelsAt_eq
    rw [hRuns.pc] at hCode ⊢
    rw [hCode] at hLabels
    have hLength : ((bodies k).enclosing t.pc.offset).length = t.activity.blocks.length := by
      have hCount := congrArg List.length hLabels
      rw [List.length_reverse, Activity.labels, List.length_map, Sequence.labelsAt,
        List.length_map] at hCount
      exact hCount
    rw [hLength]
    exact hRuns.branch_exceeds_iff hPlaced hLimit hBranches

theorem environment_doublingInstance :
    (ofInstance doublingInstance {} {}).environment 0 =
      ⟨doublingInstance.program, {}, #[callByte, 0, endByte], true⟩ := by
  have hZero : Leb128.encodeU32 0 = [0] := by
    rw [Leb128.encodeU32, Leb128.encodeUnsigned]
    rfl
  simp [environment, ofInstance, driverCode, callCode, hZero, doublingInstance]

/-- Two steps into an invocation the machine is inside the block of the function, and has its
label. -/
theorem labels_mirror_nesting_doubling :
    let s := ofInstance doublingInstance {} {}
    ∃ m, s.Visits 0 [.i32 7] m ∧ m.pc = ⟨.function 0, 2⟩ ∧
      doublingBody.enclosing 2 = [⟨.block, .value .i32, 0, 17⟩] ∧
      m.LabelsMirror (s.environment 0) fun _ => doublingBody := by
  intro s
  have hRuns := (consistent_ofInstance doublingInstance {} {}).opening_runs 0 ⟨[.i32], [.i32]⟩
    [.i32 7]
  have hPlaced := Thread.start_wellPlaced (s.environment 0) ⟨[.i32], [.i32]⟩ [.i32 7]
    s.machine.store
  obtain ⟨⟨A, callers, store, pc⟩, hCall, hPc⟩ : ∃ t₁ : Thread,
      (Thread.start ⟨[.i32], [.i32]⟩ [.i32 7] s.machine.store).step (s.environment 0) =
        .ok (.running t₁) ∧ t₁.pc = ⟨.function 0, 0⟩ := by
    rw [environment_doublingInstance]
    exact ⟨_, rfl, rfl⟩
  obtain rfl : pc = ⟨.function 0, 0⟩ := hPc
  have hBody : Encodes ((s.environment 0).code (.function 0)) endByte 0 doublingBody :=
    encoded_doublingInstance 0 _ rfl
  cases hBody with
  | @block _ _ next _ _ _ head inside _ =>
    obtain rfl : next = 2 := by
      cases inside
      rfl
    have hBlock := Site.step_block ⟨.function 0, A.blocks, A.activation, callers⟩
      (A.currentRegion store) head inside
    obtain ⟨m₁, hStep₁, hRuns₁⟩ := hRuns.step_running hPlaced rfl hCall
    obtain ⟨m₂, hStep₂, hRuns₂⟩ := hRuns₁.step_running (hPlaced.step hCall) rfl hBlock
    have hVisits : s.Visits 0 [.i32 7] m₂ :=
      ⟨_, rfl, .tail (.tail (.refl hRuns.halted) hStep₁ hRuns₁.halted) hStep₂ hRuns₂.halted⟩
    refine ⟨m₂, hVisits, ?_, by decide, ?_⟩
    · rw [hRuns₂.pc]
      rfl
    · exact (labels_mirror_nesting doublingInstance (fun _ => doublingBody) encoded_doublingInstance
        {} {} [] 0 [.i32 7] m₂ hVisits).1

end Session

end WasmMachine
