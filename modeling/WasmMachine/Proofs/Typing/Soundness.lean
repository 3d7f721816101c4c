import WasmMachine.Proofs.Structured.Refinement
import WasmMachine.Proofs.Typing.Instances
import WasmMachine.Proofs.Typing.Preservation

/-!
# Soundness of validation

An invocation of a function of a valid module, with arguments of its parameter types, gives values
of its result types or fails with a dynamic trap, under all settings and whatever the session was
asked before. The driver sequence of an invocation is valid code itself, so a thread is typed from
its start; what a request leaves in the store is typed for the next one.

* `Session.Typed`: the invariant of a session.
* `Session.invoke_sound`: invocations of valid modules.
-/

namespace WasmMachine

open Stack

/-- What validation promises of an invocation of a function. -/
def Answer.Sound (signature : FunctionType) : Answer → Prop
  | .values vs => vs.toList.map Value.type = signature.results
  | .failed f => f.trap.Dynamic
  | .outOfFuel => True

namespace Session

/-- A session on an instance of a valid module. -/
structure Typed (C : Context) (s : Session) : Prop where
  program : s.program.Typed C
  start : ∀ index, s.program.start = some index → C.signature? index = some ⟨[], []⟩
  store : s.machine.store.Typed C

theorem typed_ofInstance {m : Module} {config : Config} {i : Instance} (hValid : m.Valid)
    (h : instantiate m config = .ok i) (journal : Journal) :
    (ofInstance i config journal).Typed m.context := by
  have hPhases := instantiated_of_eq_ok h
  refine ⟨hPhases.program_typed hValid, ?_, hPhases.store_typed⟩
  intro index hStart
  apply hValid.start
  rw [← hPhases.start]
  exact hStart

/-! ## The driver sequence -/

theorem request_typed {C : Context} {index : UInt32} {signature : FunctionType}
    (h : C.signature? index = some signature) (place stop : Nat) :
    Sequence.Typed C signature.parameters.reverse (.leaf place (.call index) (.stop stop))
      signature.results.reverse := by
  have hTail : Sequence.Typed C (signature.results.reverse ++ []) (.stop stop)
      signature.results.reverse := by
    rw [List.append_nil]
    exact .stop _
  have hRequest : Sequence.Typed C (signature.parameters.reverse ++ [])
      (.leaf place (.call index) (.stop stop)) signature.results.reverse :=
    .leaf _ _ [] (.call h) hTail
  rw [List.append_nil] at hRequest
  exact hRequest

theorem driver_typed {C : Context} {start : Option UInt32} {index : UInt32}
    {signature : FunctionType} (h : C.signature? index = some signature)
    (hStart : ∀ index, start = some index → C.signature? index = some ⟨[], []⟩) :
    Sequence.Typed C signature.parameters.reverse (driver start index)
      signature.results.reverse := by
  cases start with
  | none => exact request_typed h _ _
  | some first => exact .leaf [] [] _ (.call (hStart first rfl)) (request_typed h _ _)

/-- The thread of an invocation is typed when it starts. -/
theorem Typed.start_typed {C : Context} {s : Session} (h : s.Typed C) {index : UInt32}
    {arguments : List Value} {signature : FunctionType}
    (hSignature : C.signature? index = some signature)
    (hArguments : arguments.map Value.type = signature.parameters) :
    (Thread.start signature arguments s.machine.store).Typed C (s.environment index)
      signature.results := by
  have hOperands : Value.types arguments.reverse = signature.parameters.reverse := by
    rw [Value.types, List.map_reverse, hArguments]
  have hDue : ∀ first, (if s.started then none else s.program.start) = some first →
      C.signature? first = some ⟨[], []⟩ := by
    intro first hFirst
    split at hFirst
    · cases hFirst
    · exact h.start first hFirst
  refine ⟨?_, rfl, h.store⟩
  refine ⟨endByte, driver (if s.started then none else s.program.start) index,
    signature.results.reverse, encodes_driver _ _, ?_, rfl, rfl⟩
  change Sequence.Typed _ (Value.types arguments.reverse) _ _
  rw [hOperands]
  exact driver_typed hSignature hDue

/-! ## Requests -/

theorem checkArguments_eq_ok {s : Session} {index : UInt32} {arguments : List Value}
    {signature : FunctionType} :
    s.checkArguments index arguments = .ok signature ↔
      s.program.signature index = .ok signature ∧
        arguments.map Value.type = signature.parameters := by
  unfold checkArguments
  constructor
  · intro h
    obtain ⟨found, hFound, hRest⟩ := exists_of_bind_eq_ok h
    simp only at hRest
    split at hRest
    · rename_i hTypes
      cases hRest
      exact ⟨hFound, hTypes⟩
    · cases hRest
  · rintro ⟨hSignature, hTypes⟩
    rw [hSignature]
    simp only [bind, Except.bind, if_pos hTypes]
    rfl

/-- An invocation that passes its argument check: its answer, and the store that it leaves. -/
theorem Typed.invoke_checked {C : Context} {s : Session} (h : s.Typed C)
    (hConsistent : s.Consistent) {index : UInt32} {arguments : List Value}
    {signature : FunctionType} (hCheck : s.checkArguments index arguments = .ok signature)
    (fuel : Nat) :
    (s.invoke fuel index arguments).1.Sound signature ∧
      (s.invoke fuel index arguments).2.machine.store.Typed C := by
  obtain ⟨hSignature, hArguments⟩ := checkArguments_eq_ok.1 hCheck
  rw [← h.program.signatures] at hSignature
  have hEnd := (h.start_typed hSignature hArguments).run h.program fuel s.machine.steps
  have hInvoke := hConsistent.invoke_eq hCheck fuel
  rcases hRun : ((Thread.start signature arguments s.machine.store).run (s.environment index) fuel
    s.machine.steps).1 with ⟨values, store⟩ | ⟨f, store⟩ | t
  · rw [hRun] at hEnd hInvoke
    obtain ⟨hAnswer, hStore⟩ := Prod.mk.inj hInvoke
    rw [hAnswer, hStore]
    refine ⟨?_, hEnd.2⟩
    change values.reverse.map Value.type = signature.results
    rw [List.map_reverse]
    exact List.reverse_eq_iff.2 hEnd.1
  · rw [hRun] at hEnd hInvoke
    obtain ⟨hAnswer, hStore⟩ := Prod.mk.inj hInvoke
    rw [hAnswer, hStore]
    exact hEnd
  · rw [hRun] at hEnd hInvoke
    obtain ⟨hAnswer, hStore⟩ := Prod.mk.inj hInvoke
    rw [hAnswer, hStore]
    exact ⟨trivial, hEnd.store⟩

theorem Typed.invoke {C : Context} {s : Session} (h : s.Typed C) (hConsistent : s.Consistent)
    (fuel : Nat) (index : UInt32) (arguments : List Value) :
    (s.invoke fuel index arguments).2.Typed C := by
  cases hCheck : s.checkArguments index arguments with
  | error e =>
    unfold Session.invoke
    rw [hCheck]
    exact h
  | ok signature =>
    obtain ⟨hProgram, -⟩ := s.serve_program [(fuel, .invoke index arguments)]
    change (s.invoke fuel index arguments).2.program = s.program at hProgram
    refine ⟨?_, ?_, (h.invoke_checked hConsistent hCheck fuel).2⟩
    · rw [hProgram]
      exact h.program
    · rw [hProgram]
      exact h.start

/-- Requests of all kinds leave a session typed, by induction on their sequence. -/
theorem Typed.serve {C : Context} {s : Session} (h : s.Typed C) (hConsistent : s.Consistent)
    (requests : List (Nat × Request)) : (s.serve requests).2.Typed C := by
  induction requests generalizing s with
  | nil => exact h
  | cons first rest ih =>
    obtain ⟨fuel, request⟩ := first
    have hAnswer : (s.answer fuel request).2.Typed C := by
      cases request with
      | invoke index arguments => exact h.invoke hConsistent fuel index arguments
      | execute index =>
        change (s.execute fuel index).2.Typed C
        unfold Session.execute
        split
        · exact h.invoke hConsistent fuel _ []
        · exact h
    exact ih hAnswer (hConsistent.answer fuel request)

/-- Type soundness. Take an instance of a valid module, under any settings, and make any requests
of it. An invocation of a function with arguments of its parameter types then gives values of its
result types or fails with a dynamic trap, if it ends. -/
theorem invoke_sound (m : Module) (hValid : m.Valid) (config : Config) (i : Instance)
    (hInstance : instantiate m config = .ok i) (journal : Journal)
    (requests : List (Nat × Request)) (fuel : Nat) (index : UInt32) (signature : FunctionType)
    (hFunction : m.functionType? index = some signature) (arguments : List Value)
    (hArguments : arguments.map Value.type = signature.parameters) :
    (((ofInstance i config journal).serve requests).2.invoke fuel index arguments).1.Sound
      signature := by
  have hConsistent := (consistent_ofInstance i config journal).serve requests
  have hTyped := (typed_ofInstance hValid hInstance journal).serve
    (consistent_ofInstance i config journal) requests
  have hSignature := (hTyped.program.signatures index signature).1 hFunction
  exact (hTyped.invoke_checked hConsistent (checkArguments_eq_ok.2 ⟨hSignature, hArguments⟩) fuel).1

/-! ## An instance of the theorem -/

/-- Adds one to a global. -/
def countingBody : Sequence :=
  .leaf 0 (.simple (.globalGet 0)) <| .leaf 2 (.simple (.const (.i32 1))) <|
    .leaf 4 (.simple (.numeric (.binaryInt .i32 .add))) <| .leaf 5 (.simple (.globalSet 0)) <|
    .stop 7

def countingCode : Bytes := #[0x23, 0x00, 0x41, 0x01, 0x6a, 0x24, 0x00, 0x0b]

/-- Divides its arguments. -/
def divisionBody : Sequence :=
  .leaf 0 (.simple (.localGet 0)) <| .leaf 2 (.simple (.localGet 1)) <|
    .leaf 4 (.simple (.numeric (.binaryInt .i32 (.div .signed)))) <| .stop 5

def divisionCode : Bytes := #[0x20, 0x00, 0x20, 0x01, 0x6d, 0x0b]

/-- Calls the function in a slot of the table and branches out of a block with its result. -/
def dispatchBody : Sequence :=
  .block 0 (.value .i32)
    (.leaf 2 (.simple (.localGet 0)) <| .leaf 4 (.simple (.localGet 1)) <|
      .leaf 6 (.simple (.const (.i32 0))) <| .leaf 8 (.callIndirect 1) <| .leaf 11 (.branch 0) <|
      .stop 13)
    (.stop 14)

def dispatchCode : Bytes :=
  #[0x02, 0x7f, 0x20, 0x00, 0x20, 0x01, 0x41, 0x00, 0x11, 0x01, 0x00, 0x0c, 0x00, 0x0b, 0x0b]

/-- A module with a start function, a global and a table. -/
def dispatchModule : Module where
  name := "dispatch"
  types := #[⟨[], []⟩, ⟨[.i32, .i32], [.i32]⟩]
  functions := #[0, 1, 1]
  tables := #[⟨1, some 1⟩]
  globals := #[⟨⟨.i32, true⟩, #[0x41, 0x00, 0x0b]⟩]
  start := some 0
  elements := #[⟨0, #[0x41, 0x00, 0x0b], #[1]⟩]
  code := #[⟨#[], countingCode, 0⟩, ⟨#[], divisionCode, 8⟩, ⟨#[], dispatchCode, 14⟩]

theorem countingBody_typed :
    FunctionBody.Typed dispatchModule.context ⟨[], []⟩ ⟨#[], countingCode, 0⟩ := by
  refine ⟨countingBody, ?_, ?_⟩
  · refine .leaf ⟨_, rfl, rfl⟩ (.leaf ?_ (.leaf ?_ (.leaf ⟨_, rfl, rfl⟩ (.stop rfl))))
    · exact decodesTo_of_opcode (.const .i32) rfl (by decide +kernel) rfl
    · exact decodesTo_of_opcode (.numeric (.binaryInt .i32 .add)) rfl (by decide +kernel) rfl
  · have hGlobal : dispatchModule.context.globals[(0 : UInt32).toNat]? = some ⟨.i32, true⟩ := by
      decide +kernel
    refine .leaf [] [.i32] [] (.simple (@Simple.Typed.globalGet _ _ ⟨.i32, true⟩ hGlobal)) ?_
    refine .leaf [] [.i32] [.i32] (.simple (.const _)) ?_
    refine .leaf [.i32, .i32] [.i32] [] (.simple (.numeric _)) ?_
    refine .leaf [.i32] [] [] (.simple ?_) (.stop [])
    exact @Simple.Typed.globalSet _ _ ⟨.i32, true⟩ hGlobal rfl

theorem divisionBody_typed :
    FunctionBody.Typed dispatchModule.context ⟨[.i32, .i32], [.i32]⟩ ⟨#[], divisionCode, 8⟩ := by
  refine ⟨divisionBody, ?_, ?_⟩
  · refine .leaf ⟨_, rfl, rfl⟩ (.leaf ⟨_, rfl, rfl⟩ (.leaf ?_ (.stop rfl)))
    exact decodesTo_of_opcode (.numeric (.binaryInt .i32 (.div .signed))) rfl (by decide +kernel)
      rfl
  · refine .leaf [] [.i32] [] (.simple (.localGet rfl)) ?_
    refine .leaf [] [.i32] [.i32] (.simple (.localGet rfl)) ?_
    exact .leaf [.i32, .i32] [.i32] [] (.simple (.numeric _)) (.stop [.i32])

theorem dispatchBody_typed :
    FunctionBody.Typed dispatchModule.context ⟨[.i32, .i32], [.i32]⟩ ⟨#[], dispatchCode, 14⟩ := by
  refine ⟨dispatchBody, ?_, ?_⟩
  · refine .block ⟨_, rfl, rfl⟩ (.leaf ⟨_, rfl, rfl⟩ (.leaf ⟨_, rfl, rfl⟩ (.leaf ?_
      (.leaf ⟨_, rfl, rfl⟩ (.leaf ?_ (.stop rfl)))))) (.stop rfl)
    · exact decodesTo_of_opcode (.const .i32) rfl (by decide +kernel) rfl
    · exact decodesTo_of_opcode .branch rfl rfl rfl
  · refine .block ?_ (.stop [.i32])
    refine .leaf [] [.i32] [] (.simple (.localGet rfl)) ?_
    refine .leaf [] [.i32] [.i32] (.simple (.localGet rfl)) ?_
    refine .leaf [] [.i32] [.i32, .i32] (.simple (.const _)) ?_
    refine .leaf [.i32, .i32, .i32] [.i32] [] ?_ ?_
    · exact @Leaf.Typed.callIndirect _ 1 ⟨[.i32, .i32], [.i32]⟩ (by decide) rfl
    · exact .leaf [.i32] [.i32] [] (@Leaf.Typed.branch _ 0 [.i32] rfl [] [.i32]) (.stop [.i32])

theorem valid_dispatchModule : dispatchModule.Valid := by
  refine ⟨rfl, ?_, ?_⟩
  · intro place typeIndex body hType hBody
    match place with
    | 0 =>
      cases hType
      cases hBody
      exact ⟨_, rfl, countingBody_typed⟩
    | 1 =>
      cases hType
      cases hBody
      exact ⟨_, rfl, divisionBody_typed⟩
    | 2 =>
      cases hType
      cases hBody
      exact ⟨_, rfl, dispatchBody_typed⟩
    | place + 3 => cases hType
  · intro index hIndex
    cases hIndex
    rfl

/-- The module has an instance, and after one division another one, by zero, is sound. -/
theorem invoke_sound_dispatch : ∃ i, instantiate dispatchModule {} = .ok i ∧
    (((ofInstance i {} {}).serve [(50, .invoke 2 [.i32 7, .i32 2])]).2.invoke 50 2
      [.i32 7, .i32 0]).1.Sound ⟨[.i32, .i32], [.i32]⟩ := by
  have hOk : (instantiate dispatchModule {}).isOk = true := by decide +kernel
  cases hInstance : instantiate dispatchModule {} with
  | error e =>
    rw [hInstance] at hOk
    cases hOk
  | ok i =>
    exact ⟨i, rfl, invoke_sound dispatchModule valid_dispatchModule {} i hInstance {}
      [(50, .invoke 2 [.i32 7, .i32 2])] 50 2 ⟨[.i32, .i32], [.i32]⟩ rfl [.i32 7, .i32 0] rfl⟩

end Session

end WasmMachine
