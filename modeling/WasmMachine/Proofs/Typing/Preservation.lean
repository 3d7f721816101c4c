import WasmMachine.Proofs.Typing.Instructions

/-!
# Typed threads

A thread is typed when the code that each of its activities goes on with is valid for the operands
that it will find there. For the current activity this is the code at the program counter, for a
caller the code after its call, with the results of the callee on top. Inside an activity the same
holds for every open block: the code after its delimiter, and the code that branches to it lead to.

* `Thread.Typed`: the invariant.
* `Thread.Typed.step`: a step of a typed thread raises a dynamic trap, or leads to a typed thread,
  or halts with values of the types that were asked for.
* `Thread.Typed.run`: so does a run, under every step limit and for every fuel.
-/

namespace WasmMachine

open Stack

namespace Context

/-- The context of code inside open blocks of a function. -/
def around (C : Context) (blocks : List OpenBlock) : Context :=
  { C with labels := blocks.map (·.label.branchArity) ++ [C.results] }

/-- The context of the body of an activated function. -/
def activated (C : Context) (a : ActivationFrame) : Context :=
  { C with locals := a.locals.map Value.type, results := a.resultArity }

theorem last_around (C : Context) (blocks : List OpenBlock) :
    (C.around blocks).labels[(C.around blocks).labels.length - 1]? = some C.results := by
  simp [around]

end Context

/-! ## The invariant -/

/-- The code from an offset on is valid for operands of the types `ts`; how it closes is up to what
encloses it. -/
def Continues (C : Context) (code : Bytes) (closes : UInt8 → Nat → List ValueType → Prop)
    (offset : Nat) (ts : List ValueType) : Prop :=
  ∃ d s us, Encodes code d offset s ∧ Sequence.Typed C ts s us ∧ closes d s.closing us

/-- Code inside open blocks may close at an offset with operands of the types `us`. It hands up the
results of the innermost block, and the code goes on as the delimiter says: after an `end`, or, when
the first arm of a conditional is done, where a branch to the conditional leads. -/
def Enclosed (C : Context) (code : Bytes) :
    List OpenBlock → (delimiter : UInt8) → (closing : Nat) → List ValueType → Prop
  | [], d, _, us => d = endByte ∧ us = C.results.reverse
  | b :: outside, d, closing, us =>
    us = b.label.resultArity.reverse ∧
      Continues (C.around outside) code (Enclosed C code outside) b.label.continuation
        (b.label.branchArity.reverse ++ Value.types b.outer) ∧
      (d = endByte ∧ Continues (C.around outside) code (Enclosed C code outside) (closing + 1)
          (us ++ Value.types b.outer) ∨
        d = elseByte ∧ b.label.kind ≠ .loop)

/-- Inside open blocks, the code from an offset on is valid for operands of the types `ts`. -/
def ContinuesIn (C : Context) (code : Bytes) (blocks : List OpenBlock) (offset : Nat)
    (ts : List ValueType) : Prop :=
  Continues (C.around blocks) code (Enclosed C code blocks) offset ts

/-- An activity goes on at a place, where it finds operands of the types `top` on top of its own. -/
def Activity.Continues (C : Context) (env : Env) (A : Activity) (place : CodePoint)
    (top : List ValueType) : Prop :=
  ContinuesIn (C.activated A.activation) (env.code place.code) A.blocks place.offset
    (top ++ Value.types A.operands)

/-- The callers of an activation wait for its results; the outermost one gives results of the types
`final`. -/
def Waiting (C : Context) (env : Env) (final : List ValueType) :
    (results : List ValueType) → Option CodePoint → List Activity → Prop
  | results, none, [] => results = final
  | _, none, _ :: _ => False
  | _, some _, [] => False
  | results, some place, A :: rest =>
    A.Continues C env place results.reverse ∧
      Waiting C env final A.activation.resultArity A.activation.returnTo rest

/-- A thread that runs valid code. -/
structure Thread.Typed (C : Context) (env : Env) (final : List ValueType) (t : Thread) : Prop where
  continues : t.activity.Continues C env t.pc []
  callers : Waiting C env final t.activity.activation.resultArity t.activity.activation.returnTo
    t.callers
  store : t.store.Typed C

/-- What a step of a typed thread may lead to. -/
def Next.Typed (C : Context) (env : Env) (final : List ValueType) : Except Trap Next → Prop
  | .error e => e.Dynamic
  | .ok (.running t) => t.Typed C env final
  | .ok (.halted values store) => Value.types values = final.reverse ∧ store.Typed C

/-! ## Branches -/

/-- A branch out of open blocks leads to valid code. By induction on the blocks: what encloses the
code after a block is what encloses the block. -/
theorem Enclosed.target {C : Context} {code : Bytes} {blocks outside : List OpenBlock} {d : UInt8}
    {closing depth : Nat} {us : List ValueType} {b : OpenBlock}
    (h : Enclosed C code blocks d closing us) (hDrop : blocks.drop depth = b :: outside) :
    ContinuesIn C code outside b.label.continuation
      (b.label.branchArity.reverse ++ Value.types b.outer) := by
  induction blocks generalizing d closing depth us with
  | nil =>
    rw [List.drop_nil] at hDrop
    cases hDrop
  | cons first rest ih =>
    obtain ⟨-, hContinues, -⟩ := h
    cases depth with
    | zero =>
      cases hDrop
      exact hContinues
    | succ depth =>
      obtain ⟨_, _, _, -, -, hOutside⟩ := hContinues
      exact ih hOutside hDrop

namespace Site

/-- The context of the code of a site. -/
def context (C : Context) (S : Site) (σ : Region) : Context :=
  C.activated { S.activation with locals := σ.locals }

/-- At a site, the code from an offset on is valid for operands of the types `ts`. -/
def Continues (C : Context) (env : Env) (S : Site) (σ : Region) (offset : Nat)
    (ts : List ValueType) : Prop :=
  ContinuesIn (S.context C σ) (env.code S.code) S.blocks offset ts

/-- The callers of a site wait for its results. -/
def Waits (C : Context) (env : Env) (final : List ValueType) (S : Site) : Prop :=
  Waiting C env final S.activation.resultArity S.activation.returnTo S.callers

variable {C : Context} {env : Env} {final : List ValueType} {S : Site} {σ : Region}

/-- Leaving an activation with its results. -/
theorem leave_typed (hCallers : S.Waits C env final) {top : List Value}
    (hTop : Value.types top = S.activation.resultArity.reverse) {store : Store}
    (hStore : store.Typed C) : Next.Typed C env final (.ok (S.leave top store)) := by
  unfold Waits at hCallers
  unfold Site.leave
  cases hReturn : S.activation.returnTo with
  | none =>
    rw [hReturn] at hCallers
    cases hList : S.callers with
    | nil =>
      rw [hList] at hCallers
      exact ⟨hTop.trans (congrArg List.reverse hCallers), hStore⟩
    | cons caller rest =>
      rw [hList] at hCallers
      exact hCallers.elim
  | some place =>
    rw [hReturn] at hCallers
    cases hList : S.callers with
    | nil =>
      rw [hList] at hCallers
      exact hCallers.elim
    | cons caller rest =>
      rw [hList] at hCallers
      obtain ⟨hContinues, hRest⟩ := hCallers
      refine ⟨?_, hRest, hStore⟩
      rw [← hTop] at hContinues
      unfold Activity.Continues at hContinues ⊢
      rw [← Value.types_append] at hContinues
      exact hContinues

theorem thread_typed {offset : Nat}
    (hContinues : S.Continues C env σ offset (Value.types σ.operands))
    (hCallers : S.Waits C env final) (hStore : σ.store.Typed C) :
    (S.thread offset σ).Typed C env final :=
  ⟨hContinues, hCallers, hStore⟩

/-- Taking a branch with the values that it carries. -/
theorem target_typed {d : UInt8} {closing depth : Nat} {us arity : List ValueType}
    (hEnclosed : Enclosed (S.context C σ) (env.code S.code) S.blocks d closing us)
    (hCallers : S.Waits C env final)
    (hLabel : ((S.context C σ).around S.blocks).labels[depth]? = some arity) {top : List Value}
    (hTop : Value.types top = arity.reverse) (hStore : σ.store.Typed C) :
    Next.Typed C env final (.ok (S.target depth top σ)) := by
  have hLabels : ((S.context C σ).around S.blocks).labels =
      S.blocks.map (·.label.branchArity) ++ [S.activation.resultArity] := rfl
  rw [hLabels] at hLabel
  unfold Site.target
  cases hDrop : S.blocks.drop depth with
  | nil =>
    -- only the label of the function is left
    have hLength : S.blocks.length ≤ depth := List.drop_eq_nil_iff.1 hDrop
    rw [List.getElem?_append_right (by simpa using hLength)] at hLabel
    have hArity : arity = S.activation.resultArity :=
      List.mem_singleton.1 (List.mem_of_getElem? hLabel)
    rw [hArity] at hTop
    exact leave_typed hCallers hTop hStore
  | cons b outside =>
    have hLength : depth < S.blocks.length := by
      by_contra hNot
      rw [List.drop_of_length_le (by omega)] at hDrop
      cases hDrop
    have hHead : S.blocks[depth] = b := by
      have hCons := List.drop_eq_getElem_cons hLength
      rw [hDrop] at hCons
      exact (List.cons.inj hCons).1.symm
    rw [List.getElem?_append_left (by simpa using hLength), List.getElem?_map,
      List.getElem?_eq_getElem hLength, hHead] at hLabel
    cases hLabel
    have hContinues := hEnclosed.target hDrop
    rw [← hTop, ← Value.types_append] at hContinues
    exact thread_typed (S := { S with blocks := outside }) hContinues hCallers hStore

/-! ## Steps -/

theorem branchArity_of_kind {l : LabelFrame} (h : l.kind ≠ .loop) :
    l.branchArity = l.resultArity := by
  unfold LabelFrame.branchArity
  cases hKind : l.kind with
  | loop => exact absurd hKind h
  | block => rfl
  | ifThen => rfl

/-- At a delimiter the operands are exactly the results. -/
theorem stop_typed {d : UInt8} {offset : Nat} (hByte : (env.code S.code)[offset]? = some d)
    (hEnclosed : Enclosed (S.context C σ) (env.code S.code) S.blocks d offset
      (Value.types σ.operands))
    (hCallers : S.Waits C env final) (hStore : σ.store.Typed C) :
    Next.Typed C env final ((S.thread offset σ).step env) := by
  cases hBlocks : S.blocks with
  | nil =>
    rw [hBlocks] at hEnclosed
    obtain ⟨rfl, hTypes⟩ := hEnclosed
    have hResults : Value.types σ.operands = S.activation.resultArity.reverse := hTypes
    obtain ⟨top, hCarried, hTop⟩ := carried?_of_results hResults
    rw [S.closes_function hBlocks hByte σ, hCarried]
    exact leave_typed hCallers hTop hStore
  | cons b outside =>
    rw [hBlocks] at hEnclosed
    obtain ⟨hTypes, hBack, hDelimiter⟩ := hEnclosed
    have hInside : S = { S with blocks := outside }.inside b := by
      rw [Site.inside, ← hBlocks]
    rcases hDelimiter with ⟨rfl, hAfter⟩ | ⟨rfl, hKind⟩
    · obtain ⟨top, hCarried, hTop⟩ := carried?_of_results hTypes
      have hStep := { S with blocks := outside }.closes_end (b := b) hByte σ
      rw [← hInside, hCarried] at hStep
      rw [hTypes, ← hTop, ← Value.types_append] at hAfter
      rw [hStep]
      exact thread_typed (S := { S with blocks := outside }) hAfter hCallers hStore
    · rw [← branchArity_of_kind hKind] at hTypes
      obtain ⟨top, hCarried, hTop⟩ := carried?_of_results hTypes
      have hStep := { S with blocks := outside }.closes_else (b := b) hByte σ
      rw [← hInside, hCarried] at hStep
      rw [← hTop, ← Value.types_append] at hBack
      rw [hStep]
      exact thread_typed (S := { S with blocks := outside }) hBack hCallers hStore

/-- A new activation finds its arguments as the first locals, and its caller goes on with its
results. -/
theorem called_typed (hProgram : env.program.Typed C) {index : UInt32} {place : Nat} {f : Function}
    (hCallee : env.program.callee index = .ok (.defined place f)) {arguments left : List Value}
    (hArguments : Value.types arguments = f.signature.parameters) {next : Nat}
    (hRest : S.Continues C env σ next (f.signature.results.reverse ++ Value.types left))
    (hCallers : S.Waits C env final) (hStore : σ.store.Typed C) :
    ((S.called index place f left σ.locals next).thread 0 (σ.called place f arguments)).Typed
      C env final := by
  have hFunction := Program.functions_of_callee hCallee
  have hBody := hProgram.bodies place f hFunction
  have hLocals := hBody.types_locals hArguments
  obtain ⟨-, s, hEncodes, hTyped⟩ := hBody
  refine thread_typed (S := S.called index place f left σ.locals next)
    ⟨endByte, s, f.signature.results.reverse, ?_, ?_, rfl, rfl⟩ ⟨hRest, hCallers⟩ ?_
  · have hCode : env.code (.function place) = f.code := by
      rw [Env.code, Program.codeOf, hFunction]
    change Encodes (env.code (.function place)) endByte 0 s
    rw [hCode]
    exact hEncodes
  · rw [← hLocals] at hTyped
    exact hTyped
  · exact ⟨hStore.globals, hStore.memories, hStore.tables, hStore.slots⟩

/-- The thread in the body of a construct, which starts without operands. -/
theorem inside_typed {b : OpenBlock} {d : UInt8} {offset : Nat} {body : Sequence}
    (hBody : Encodes (env.code S.code) d offset body)
    (hTyped : Sequence.Typed (((S.context C σ).around S.blocks).inside b.label.branchArity) [] body
      b.label.resultArity.reverse)
    (hBack : S.Continues C env σ b.label.continuation
      (b.label.branchArity.reverse ++ Value.types b.outer))
    (hEnd : d = endByte ∧ S.Continues C env σ (body.closing + 1)
        (b.label.resultArity.reverse ++ Value.types b.outer) ∨
      d = elseByte ∧ b.label.kind ≠ .loop)
    (hCallers : S.Waits C env final) (hStore : σ.store.Typed C) :
    ((S.inside b).thread offset { σ with operands := [] }).Typed C env final :=
  thread_typed (S := S.inside b) ⟨d, body, _, hBody, hTyped, rfl, hBack, hEnd⟩ hCallers hStore

/-- An instruction without a body. -/
theorem leaf_typed (hProgram : env.program.Typed C) {place next : Nat} {i : Leaf}
    {ins outs ts : List ValueType} (hDecodes : DecodesTo (env.code S.code) place i.instruction next)
    (hLeaf : i.Typed ((S.context C σ).around S.blocks) ins outs)
    (hOperands : Value.types σ.operands = ins ++ ts)
    (hRest : S.Continues C env σ next (outs ++ ts))
    (hCallers : S.Waits C env final) (hStore : σ.store.Typed C) :
    Next.Typed C env final ((S.thread place σ).step env) := by
  have hRegion : σ.Typed ((S.context C σ).around S.blocks) (ins ++ ts) :=
    ⟨hOperands, rfl, hStore.localize _ _ _⟩
  have hAct := hLeaf.act (hProgram.localize _ _ _) (Γ := S.scope) rfl (Context.last_around _ _)
    hRegion
  have hPerforms := S.act_performs env place next i σ
  rw [← S.step_eq σ hDecodes] at hPerforms
  rcases hAction : i.act env S.scope σ with
    e | (τ | ⟨depth, top⟩ | ⟨index, callee, f, arguments, left⟩)
  · rw [hAction] at hPerforms hAct
    rw [hPerforms]
    exact hAct
  · rw [hAction] at hPerforms hAct
    rw [hPerforms]
    have hContext : S.context C τ = S.context C σ := by
      have hLocals : τ.locals.map Value.type = σ.locals.map Value.type := hAct.locals
      simp only [Site.context, Context.activated, hLocals]
      rfl
    refine thread_typed ?_ hCallers (hAct.store.localize C.locals C.labels C.results)
    rw [Continues, hContext, hAct.operands]
    exact hRest
  · rw [hAction] at hPerforms hAct
    rw [hPerforms.2]
    obtain ⟨arity, hLabel, hTop⟩ := hAct
    obtain ⟨_, _, _, -, -, hEnclosed⟩ := hRest
    exact target_typed hEnclosed hCallers hLabel hTop hStore
  · rw [hAction] at hPerforms hAct
    obtain ⟨hCallee, hStep⟩ := hPerforms
    obtain ⟨-, hArguments, hLeft⟩ := hAct
    rw [hStep]
    rw [← hLeft] at hRest
    exact called_typed hProgram hCallee hArguments hRest hCallers hStore

/-- Taking the condition of a conditional, when both arms can be run. -/
theorem arm_typed {place next : Nat} {t : BlockType} {targets : BlockTargets}
    {ts : List ValueType} (hDecodes : DecodesTo (env.code S.code) place (.ifThen t) next)
    (hResolve : resolve (env.code S.code) next = .ok targets)
    (hOperands : Value.types σ.operands = .i32 :: ts)
    (hArm : ∀ (condition : BitVec 32) (outer : List Value), Value.types outer = ts →
      ((S.inside ⟨⟨.ifThen, t, targets.endPos + 1⟩, outer⟩).thread
        (Thread.armOffset condition targets next) { σ with operands := [] }).Typed C env final) :
    Next.Typed C env final ((S.thread place σ).step env) := by
  obtain ⟨condition, outer, hPop, hOuter⟩ := popI32_of_types hOperands
  rw [S.step_ifThen σ hDecodes hResolve, hPop]
  exact hArm condition outer hOuter

/-- A step in valid code, by the form of the code. -/
theorem step_typed (hProgram : env.program.Typed C) {offset : Nat}
    (hContinues : S.Continues C env σ offset (Value.types σ.operands))
    (hCallers : S.Waits C env final) (hStore : σ.store.Typed C) :
    Next.Typed C env final ((S.thread offset σ).step env) := by
  obtain ⟨d, s, us, hEncodes, hTyped, hEnclosed⟩ := hContinues
  generalize hOperands : Value.types σ.operands = ts at hTyped
  cases hEncodes with
  | stop byte =>
    cases hTyped with
    | stop =>
      rw [← hOperands] at hEnclosed
      exact stop_typed byte hEnclosed hCallers hStore
  | @leaf _ _ next i rest head tail =>
    cases hTyped with
    | leaf ins outs below hHead hTail =>
      exact leaf_typed hProgram head hHead hOperands ⟨d, rest, us, tail, hTail, hEnclosed⟩ hCallers
        hStore
  | @block _ _ next t body rest head inside tail =>
    cases hTyped with
    | block hInside hTail =>
      have hAfter : S.Continues C env σ (body.closing + 1)
          (t.results.reverse ++ Value.types σ.operands) :=
        ⟨d, rest, us, tail, hOperands ▸ hTail, hEnclosed⟩
      rw [S.step_block σ head inside]
      exact inside_typed inside hInside hAfter (.inl ⟨rfl, hAfter⟩) hCallers hStore
  | @loop _ _ next t body rest head inside tail =>
    have hAgain : S.Continues C env σ offset (Value.types σ.operands) :=
      ⟨d, _, us, .loop head inside tail, hOperands ▸ hTyped, hEnclosed⟩
    cases hTyped with
    | loop hInside hTail =>
      have hAfter : S.Continues C env σ (body.closing + 1)
          (t.results.reverse ++ Value.types σ.operands) :=
        ⟨d, rest, us, tail, hOperands ▸ hTail, hEnclosed⟩
      rw [S.step_loop σ head]
      exact inside_typed inside hInside hAgain (.inl ⟨rfl, hAfter⟩) hCallers hStore
  | @ifThen _ _ next t arm rest head inside tail =>
    cases hTyped with
    | ifThen hInside hTail =>
      refine arm_typed head inside.resolve_end hOperands fun condition outer hOuter => ?_
      have hAfter : S.Continues C env σ (arm.closing + 1) (Value.types outer) :=
        ⟨d, rest, us, tail, hOuter ▸ hTail, hEnclosed⟩
      by_cases hZero : condition = 0
      · rw [Thread.armOffset, if_pos hZero]
        exact inside_typed (.stop inside.delimiter) (.stop []) hAfter (.inl ⟨rfl, hAfter⟩) hCallers
          hStore
      · rw [Thread.armOffset, if_neg hZero]
        exact inside_typed inside hInside hAfter (.inl ⟨rfl, hAfter⟩) hCallers hStore
  | @ifElse _ _ next t arm other rest head first second tail =>
    cases hTyped with
    | ifElse hFirst hSecond hTail =>
      refine arm_typed head (first.resolve_else second) hOperands fun condition outer hOuter => ?_
      have hAfter : S.Continues C env σ (other.closing + 1)
          (t.results.reverse ++ Value.types outer) :=
        ⟨d, rest, us, tail, hOuter ▸ hTail, hEnclosed⟩
      by_cases hZero : condition = 0
      · rw [Thread.armOffset, if_pos hZero]
        exact inside_typed second hSecond hAfter (.inl ⟨rfl, hAfter⟩) hCallers hStore
      · rw [Thread.armOffset, if_neg hZero]
        exact inside_typed first hFirst hAfter (.inr ⟨rfl, LabelKind.noConfusion⟩) hCallers hStore

end Site

namespace Thread

variable {C : Context} {env : Env} {final : List ValueType} {t : Thread}

/-- Progress and preservation: a step of a typed thread leads to a typed thread, halts with values
of the types that were asked for, or raises a dynamic trap. -/
theorem Typed.step (hProgram : env.program.Typed C) (h : t.Typed C env final) :
    Next.Typed C env final (t.step env) :=
  Site.step_typed (S := ⟨t.pc.code, t.activity.blocks, t.activity.activation, t.callers⟩)
    (σ := t.activity.currentRegion t.store) hProgram h.continues h.callers h.store

/-! ## Runs -/

/-- How a run of a typed thread may end. -/
def End.Typed (C : Context) (env : Env) (final : List ValueType) : End → Prop
  | .halted values store => Value.types values = final.reverse ∧ store.Typed C
  | .failed f store => f.trap.Dynamic ∧ store.Typed C
  | .outOfFuel t => t.Typed C env final

/-- The step limit adds a dynamic trap and nothing else. -/
theorem Typed.tick (hProgram : env.program.Typed C) (h : t.Typed C env final) (steps : Nat) :
    match (t.tick env steps).1 with
    | .error f => f.trap.Dynamic
    | .ok next => Next.Typed C env final (.ok next) := by
  have hStep := h.step hProgram
  unfold Thread.tick
  cases hByte : (env.code t.pc.code)[t.pc.offset]? with
  | none =>
    -- valid code has an opcode here, since the trap for its absence is not dynamic
    have hEnd : t.step env = .error (.illFormedStructure t.pc.offset) := by
      unfold Thread.step
      rw [hByte]
    rw [hEnd] at hStep
    cases hStep
  | some b =>
    simp only
    cases hLimit : exceededLimit? env (steps + 1) with
    | some limit => exact .stepLimitExceeded limit
    | none =>
      simp only
      cases hResult : t.step env with
      | error e =>
        rw [hResult] at hStep
        exact hStep
      | ok next =>
        rw [hResult] at hStep
        exact hStep

/-- A run of a typed thread ends as validation promises. By induction on the fuel, with the typing
of threads as the invariant. -/
theorem Typed.run (hProgram : env.program.Typed C) (h : t.Typed C env final) (fuel steps : Nat) :
    End.Typed C env final (t.run env fuel steps).1 := by
  induction fuel generalizing t steps with
  | zero => exact h
  | succ fuel ih =>
    have hTick := h.tick hProgram steps
    rw [Thread.run]
    rcases hResult : t.tick env steps with ⟨f | (t' | ⟨values, store⟩), steps'⟩
    · rw [hResult] at hTick
      exact ⟨hTick, h.store⟩
    · rw [hResult] at hTick
      exact ih hTick steps'
    · rw [hResult] at hTick
      exact hTick

end Thread

end WasmMachine
