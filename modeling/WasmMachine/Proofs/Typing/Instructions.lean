import WasmMachine.Proofs.Machine.OperandLaws
import WasmMachine.Proofs.Structured.Simulation
import WasmMachine.Proofs.Typing.Rules

/-!
# Typed instructions

An instruction of valid code, on operands of the types that its rule asks for, leaves operands of
the types that its rule promises, or raises a trap that validation does not exclude. Locals and
globals keep their types, and memories and tables stay.

* `OperandsTyped`, `RegionTyped`: programs on operands and on regions that follow a typing, with
  one rule for each primitive and one for sequences.
* `Simple.Typed.run`: instructions without control follow their rules.
* `Leaf.Typed.act`: all instructions without a body do.
-/

namespace WasmMachine

open Stack

def Value.types (values : List Value) : List ValueType := values.map Value.type

namespace Value

@[simp] theorem types_cons (v : Value) (rest : List Value) :
    types (v :: rest) = v.type :: types rest := rfl

@[simp] theorem types_append (first second : List Value) :
    types (first ++ second) = types first ++ types second := List.map_append

theorem types_eq_cons {values : List Value} {t : ValueType} {ts : List ValueType}
    (h : types values = t :: ts) : ∃ v rest, values = v :: rest ∧ v.type = t ∧ types rest = ts :=
  List.map_eq_cons_iff.1 h

end Value

/-! ## Typings of operand programs -/

/-- On operands of the types `ts`, the operation leaves operands of the types `us` and gives a
result as described, or raises a dynamic trap. -/
def OperandsTyped {α : Type} (op : StackM α) (ts us : List ValueType) (gives : α → Prop) : Prop :=
  ∀ operands, Value.types operands = ts →
    match onOperands op operands with
    | .ok (a, left) => Value.types left = us ∧ gives a
    | .error e => e.Dynamic

namespace OperandsTyped

variable {α β : Type} {ts us vs : List ValueType}

protected theorem bind {x : StackM α} {f : α → StackM β} {P : α → Prop} {Q : β → Prop}
    (hValues : ValuesOnly x) (hx : OperandsTyped x ts us P)
    (hf : ∀ a, P a → OperandsTyped (f a) us vs Q) : OperandsTyped (x >>= f) ts vs Q := by
  intro operands hOperands
  have hFirst := hx operands hOperands
  rw [onOperands_bind hValues]
  cases hRun : onOperands x operands with
  | error e =>
    rw [hRun] at hFirst
    exact hFirst
  | ok p =>
    obtain ⟨a, left⟩ := p
    rw [hRun] at hFirst
    obtain ⟨hLeft, hGives⟩ := hFirst
    exact hf a hGives left hLeft

protected theorem throw {e : Trap} {P : α → Prop} (h : e.Dynamic) :
    OperandsTyped (throw e : StackM α) ts us P := by
  intro operands _
  rw [onOperands_throw]
  exact h

theorem pushValue {v : Value} {t : ValueType} (h : v.type = t) :
    OperandsTyped (pushValue v) ts (t :: ts) fun _ => True := by
  intro operands hOperands
  rw [onOperands_pushValue]
  refine ⟨?_, trivial⟩
  rw [Value.types_cons, h, hOperands]

theorem popValue (t : ValueType) : OperandsTyped popValue (t :: ts) ts (·.type = t) := by
  intro operands hOperands
  obtain ⟨v, rest, rfl, hType, hRest⟩ := Value.types_eq_cons hOperands
  rw [onOperands_popValue_cons]
  exact ⟨hRest, hType⟩

theorem popTyped (t : ValueType) : OperandsTyped (popTyped t) (t :: ts) ts (·.type = t) := by
  intro operands hOperands
  obtain ⟨v, rest, rfl, hType, hRest⟩ := Value.types_eq_cons hOperands
  rw [onOperands_popTyped_cons, if_pos hType]
  exact ⟨hRest, hType⟩

theorem popInt (t : IntType) :
    OperandsTyped (popInt t) (t.valueType :: ts) ts fun _ => True := by
  intro operands hOperands
  obtain ⟨v, rest, rfl, hType, hRest⟩ := Value.types_eq_cons hOperands
  obtain ⟨bits, rfl⟩ := exists_ofInt_of_type hType
  rw [onOperands_popInt_ofInt]
  exact ⟨hRest, trivial⟩

theorem popFloat (t : FloatType) :
    OperandsTyped (popFloat t) (t.valueType :: ts) ts fun _ => True := by
  intro operands hOperands
  obtain ⟨v, rest, rfl, hType, hRest⟩ := Value.types_eq_cons hOperands
  obtain ⟨bits, rfl⟩ := exists_ofFloat_of_type hType
  rw [onOperands_popFloat_ofFloat]
  exact ⟨hRest, trivial⟩

theorem popAddress (offset : UInt32) :
    OperandsTyped (popAddress offset) (.i32 :: ts) ts fun _ => True := by
  refine (popInt .i32).bind (.popInt .i32) fun bits _ => ?_
  intro operands hOperands
  rw [onOperands_pure]
  exact ⟨hOperands, trivial⟩

/-! ### Numeric operations -/

theorem int {t : IntType} {f : BitVec t.width → StackM Unit} {u : ValueType}
    (h : ∀ bits, OperandsTyped (f bits) ts (u :: vs) fun _ => True) :
    OperandsTyped (Stack.popInt t >>= f) (t.valueType :: ts) (u :: vs) fun _ => True :=
  (popInt t).bind (.popInt t) fun bits _ => h bits

theorem float {t : FloatType} {f : BitVec t.width → StackM Unit} {u : ValueType}
    (h : ∀ bits, OperandsTyped (f bits) ts (u :: vs) fun _ => True) :
    OperandsTyped (Stack.popFloat t >>= f) (t.valueType :: ts) (u :: vs) fun _ => True :=
  (popFloat t).bind (.popFloat t) fun bits _ => h bits

theorem conversion (c : Conversion) :
    OperandsTyped c.run (c.source :: ts) (c.target :: ts) fun _ => True := by
  cases c with
  | wrap => exact int (t := .i64) fun _ => pushValue rfl
  | extend s => cases s <;> exact int (t := .i32) fun _ => pushValue rfl
  | trunc target source s =>
    refine float fun bits => ?_
    cases truncToInt? target source s bits with
    | some v => exact pushValue (Value.type_ofInt target v)
    | none => exact OperandsTyped.throw (.floatUnrepresentable _)
  | convert target source s => exact int fun _ => pushValue (Value.type_ofFloat target _)
  | demote => exact float (t := .f64) fun _ => pushValue rfl
  | promote => exact float (t := .f32) fun _ => pushValue rfl
  | bitsOfFloat target =>
    cases target with
    | i32 => exact float (t := .f32) fun _ => pushValue rfl
    | i64 => exact float (t := .f64) fun _ => pushValue rfl
  | floatOfBits target =>
    cases target with
    | f32 => exact int (t := .i32) fun _ => pushValue rfl
    | f64 => exact int (t := .i64) fun _ => pushValue rfl

theorem numeric (n : Numeric) :
    OperandsTyped n.run (n.operandTypes ++ ts) (n.resultType :: ts) fun _ => True := by
  cases n with
  | eqz t => exact int fun _ => pushValue rfl
  | compareInt t r => exact int fun _ => int fun _ => pushValue rfl
  | compareFloat t r => exact float fun _ => float fun _ => pushValue rfl
  | unaryInt t op => exact int fun _ => pushValue (Value.type_ofInt t _)
  | binaryInt t op =>
    refine int fun b => int fun a => ?_
    cases Integer.binary op a b with
    | ok v => exact pushValue (Value.type_ofInt t v)
    | error e =>
      cases e with
      | divisionByZero => exact OperandsTyped.throw .divisionByZero
      | notRepresentable => exact OperandsTyped.throw .notRepresentable
  | unaryFloat t op => exact float fun _ => pushValue (Value.type_ofFloat t _)
  | binaryFloat t op => exact float fun _ => float fun _ => pushValue (Value.type_ofFloat t _)
  | convert c => exact conversion c

theorem drop (t : ValueType) : OperandsTyped Stack.drop (t :: ts) ts fun _ => True := by
  refine (popValue t).bind .popValue fun v _ => ?_
  intro operands hOperands
  rw [onOperands_pure]
  exact ⟨hOperands, trivial⟩

theorem select (t : ValueType) :
    OperandsTyped Stack.select (.i32 :: t :: t :: ts) (t :: ts) fun _ => True := by
  refine (popInt .i32).bind (.popInt .i32) fun condition _ => ?_
  refine (popValue t).bind .popValue fun second hSecond => ?_
  rw [hSecond]
  refine (popTyped t).bind (.popTyped t) fun first hFirst => pushValue ?_
  split
  · exact hFirst
  · exact hSecond

end OperandsTyped

/-! ## Typings of region programs -/

def Global.type (g : Global) : GlobalType := { type := g.value.type, isMutable := g.isMutable }

/-- A store has what a context says: the globals with their types and mutability, the memories and
the tables. The slots of tables hold functions of the context. -/
structure Store.Typed (C : Context) (s : Store) : Prop where
  globals : s.globals.map Global.type = C.globals
  memories : s.memories.size = C.memories
  tables : s.tables.size = C.tables
  slots : ∀ table ∈ s.tables, ∀ function, some function ∈ table.slots →
    ∃ signature, C.signature? function = some signature

/-- A region that instructions of a context can work on. -/
structure Region.Typed (C : Context) (ts : List ValueType) (σ : Region) : Prop where
  operands : Value.types σ.operands = ts
  locals : σ.locals.map Value.type = C.locals
  store : σ.store.Typed C

/-- On a region with operands of the types `ts`, the program leads to one with operands of the
types `us` and gives a result as described, or raises a dynamic trap. -/
def RegionTyped {α : Type} (C : Context) (f : RegionM α) (ts us : List ValueType)
    (gives : α → Prop) : Prop :=
  ∀ σ : Region, σ.Typed C ts →
    match f σ with
    | .ok (a, τ) => τ.Typed C us ∧ gives a
    | .error e => e.Dynamic

/-- A store knows nothing of locals, labels and results. -/
theorem Store.Typed.localize {C : Context} {s : Store} (h : s.Typed C) (locals : Array ValueType)
    (labels : List (List ValueType)) (results : List ValueType) :
    s.Typed { C with locals, labels, results } :=
  ⟨h.globals, h.memories, h.tables, h.slots⟩

theorem Store.Typed.memory {C : Context} {s : Store} (h : s.Typed C) (hMemory : 0 < C.memories) :
    ∃ memory, s.memories[0]? = some memory := by
  have hSize : 0 < s.memories.size := by
    rw [h.memories]
    exact hMemory
  exact ⟨s.memories[0], Array.getElem?_eq_getElem hSize⟩

theorem Store.Typed.global {C : Context} {s : Store} (h : s.Typed C) {index : Nat}
    {t : GlobalType} (hDeclared : C.globals[index]? = some t) :
    ∃ g, s.globals[index]? = some g ∧ g.type = t := by
  rw [← h.globals, Array.getElem?_map] at hDeclared
  exact Option.map_eq_some_iff.1 hDeclared

namespace RegionTyped

variable {α β : Type} {C : Context} {ts us vs : List ValueType}

protected theorem bind {f : RegionM α} {g : α → RegionM β} {P : α → Prop} {Q : β → Prop}
    (hf : RegionTyped C f ts us P) (hg : ∀ a, P a → RegionTyped C (g a) us vs Q) :
    RegionTyped C (f >>= g) ts vs Q := by
  intro σ hσ
  have hFirst := hf σ hσ
  change match (f σ).bind (fun p => g p.1 p.2) with
    | .ok (b, τ) => τ.Typed C vs ∧ Q b
    | .error e => e.Dynamic
  cases hRun : f σ with
  | error e =>
    rw [hRun] at hFirst
    exact hFirst
  | ok p =>
    obtain ⟨a, ρ⟩ := p
    rw [hRun] at hFirst
    obtain ⟨hρ, hGives⟩ := hFirst
    exact hg a hGives ρ hρ

protected theorem throw {e : Trap} {P : α → Prop} (h : e.Dynamic) :
    RegionTyped C (throw e : RegionM α) ts us P := fun _ _ => h

protected theorem pure {a : α} {P : α → Prop} (h : P a) :
    RegionTyped C (pure a : RegionM α) ts ts P := fun _ hσ => ⟨hσ, h⟩

theorem operands {op : StackM α} {P : α → Prop} (h : OperandsTyped op ts us P) :
    RegionTyped C (RegionM.operands op) ts us P := by
  intro σ hσ
  have hRun := h σ.operands hσ.operands
  unfold RegionM.operands
  cases hResult : onOperands op σ.operands with
  | error e =>
    rw [hResult] at hRun
    exact hRun
  | ok p =>
    rw [hResult] at hRun
    exact ⟨⟨hRun.1, hσ.locals, hσ.store⟩, hRun.2⟩

theorem push {v : Value} {t : ValueType} (h : v.type = t) :
    RegionTyped C (RegionM.push v) ts (t :: ts) fun _ => True := by
  intro σ hσ
  refine ⟨⟨?_, hσ.locals, hσ.store⟩, trivial⟩
  rw [Value.types_cons, h, hσ.operands]

/-! ### Locals and globals -/

theorem readLocal {index : UInt32} {t : ValueType} (h : C.locals[index.toNat]? = some t) :
    RegionTyped C (RegionM.readLocal index) ts ts (·.type = t) := by
  intro σ hσ
  rw [← hσ.locals, Array.getElem?_map] at h
  obtain ⟨v, hLocal, hType⟩ := Option.map_eq_some_iff.1 h
  unfold RegionM.readLocal
  rw [hLocal]
  exact ⟨hσ, hType⟩

/-- Writing a value of the type that stands there changes no type. -/
theorem map_setIfInBounds {γ δ : Type} (f : γ → δ) {xs : Array γ} {index : Nat} {x : γ} {y : δ}
    (h : (xs.map f)[index]? = some y) (hx : f x = y) :
    (xs.setIfInBounds index x).map f = xs.map f := by
  rw [Array.map_setIfInBounds, hx]
  apply Array.ext_getElem?
  intro k
  rw [Array.getElem?_setIfInBounds]
  split
  · rename_i hSame
    subst hSame
    split
    · exact h.symm
    · rename_i hBound
      exact (Array.getElem?_eq_none (Nat.le_of_not_lt hBound)).symm
  · rfl

theorem assignLocal {index : UInt32} {t : ValueType} (h : C.locals[index.toNat]? = some t) :
    RegionTyped C (RegionM.assignLocal index) (t :: ts) ts fun _ => True := by
  refine (readLocal h).bind fun old hOld => ?_
  rw [hOld]
  refine (operands (.popTyped t)).bind fun v hv => ?_
  intro σ hσ
  refine ⟨⟨hσ.operands, ?_, hσ.store⟩, trivial⟩
  rw [← hσ.locals] at h
  exact (map_setIfInBounds Value.type h hv).trans hσ.locals

theorem readGlobal {index : UInt32} {g : GlobalType} (h : C.globals[index.toNat]? = some g) :
    RegionTyped C (RegionM.readGlobal index) ts ts (·.type = g) := by
  intro σ hσ
  obtain ⟨found, hFound, hType⟩ := hσ.store.global h
  unfold RegionM.readGlobal
  rw [hFound]
  exact ⟨hσ, hType⟩

theorem assignGlobal {index : UInt32} {g : GlobalType} (h : C.globals[index.toNat]? = some g)
    (hMutable : g.isMutable = true) :
    RegionTyped C (RegionM.assignGlobal index) (g.type :: ts) ts fun _ => True := by
  refine (readGlobal h).bind fun found hFound => ?_
  subst hFound
  have hOpen : ¬ (!found.isMutable) = true := by
    rw [show found.isMutable = true from hMutable]
    decide
  rw [if_neg hOpen]
  refine (operands (.popTyped _)).bind fun v hv => ?_
  intro σ hσ
  have hSame : Global.type { found with value := v } = found.type := by
    rw [Global.type, hv]
    rfl
  rw [← hσ.store.globals] at h
  refine ⟨⟨hσ.operands, hσ.locals, ?_, hσ.store.memories, hσ.store.tables, hσ.store.slots⟩, trivial⟩
  exact (map_setIfInBounds Global.type h hSame).trans hσ.store.globals

/-! ### Memory -/

theorem readMemory (h : 0 < C.memories) :
    RegionTyped C RegionM.readMemory ts ts fun _ => True := by
  intro σ hσ
  obtain ⟨memory, hMemory⟩ := hσ.store.memory h
  unfold RegionM.readMemory Store.memory
  rw [hMemory]
  exact ⟨hσ, trivial⟩

theorem onMemory {op : MemoryM α} (h : 0 < C.memories)
    (hOp : ∀ memory e after, op memory = .error e after → e.Dynamic) :
    RegionTyped C (RegionM.onMemory op) ts ts fun _ => True := by
  intro σ hσ
  obtain ⟨memory, hMemory⟩ := hσ.store.memory h
  unfold RegionM.onMemory
  rw [hMemory]
  cases hRun : op memory with
  | error e after =>
    simp only [hRun]
    exact hOp memory e after hRun
  | ok a after =>
    simp only [hRun]
    refine ⟨⟨hσ.operands, hσ.locals, hσ.store.globals, ?_, hσ.store.tables, hσ.store.slots⟩,
      trivial⟩
    rw [Array.size_setIfInBounds]
    exact hσ.store.memories

theorem loadNumber (h : 0 < C.memories) (address width : Nat) :
    RegionTyped C (RegionM.loadNumber address width) ts ts fun _ => True := by
  refine (readMemory h).bind fun memory _ => ?_
  cases hLoad : memory.load address width with
  | ok n => exact RegionTyped.pure trivial
  | error e =>
    refine RegionTyped.throw ?_
    unfold Memory.load Memory.readBytes at hLoad
    split at hLoad
    · cases hLoad
    · cases hLoad
      exact .memoryAccessOutOfBounds _ _ _

theorem storeNumber (h : 0 < C.memories) (address width n : Nat) :
    RegionTyped C (RegionM.onMemory (Memory.store address width n)) ts ts fun _ => True := by
  refine onMemory h fun memory e after hError => ?_
  unfold Memory.store Memory.writeBytes at hError
  split at hError
  · cases hError
  · cases hError
    exact .memoryAccessOutOfBounds _ _ _

end RegionTyped

theorem LoadOp.type_value (op : LoadOp) (n : Nat) : (op.value n).type = op.type := by
  cases op with
  | full t => cases t <;> rfl
  | packed t p s => cases s <;> exact Value.type_ofInt t _

open RegionTyped in
/-- Instructions without control follow their rules. -/
theorem Simple.Typed.run {C : Context} {s : Simple} {ins outs : List ValueType}
    (h : s.Typed C ins outs) (ts : List ValueType) :
    RegionTyped C s.run (ins ++ ts) (outs ++ ts) fun _ => True := by
  cases h with
  | unreachable => exact RegionTyped.throw .unreachable
  | nop => exact RegionTyped.pure trivial
  | drop t => exact operands (.drop t)
  | select t => exact operands (.select t)
  | localGet declared => exact (readLocal declared).bind fun v hv => push hv
  | localSet declared => exact assignLocal declared
  | localTee declared =>
    refine (assignLocal declared).bind fun _ _ => ?_
    exact (readLocal declared).bind fun v hv => push hv
  | globalGet declared =>
    exact (readGlobal declared).bind fun g hg => push (congrArg GlobalType.type hg)
  | globalSet declared assignable => exact assignGlobal declared assignable
  | @load op offset memory =>
    refine (readMemory memory).bind fun _ _ => ?_
    refine (operands (.popAddress offset)).bind fun address _ => ?_
    refine (loadNumber memory address op.bytes).bind fun n _ => ?_
    exact push (op.type_value n)
  | @store op offset memory =>
    refine (readMemory memory).bind fun _ _ => ?_
    refine (operands (.popTyped op.type)).bind fun v _ => ?_
    refine (operands (.popAddress offset)).bind fun address _ => ?_
    exact storeNumber memory address op.bytes v.toNat
  | memorySize memory => exact (readMemory memory).bind fun _ _ => push rfl
  | memoryGrow memory =>
    refine (readMemory memory).bind fun _ _ => ?_
    refine (operands (.popInt .i32)).bind fun delta _ => ?_
    refine (onMemory memory fun m e after hError => ?_).bind fun previous _ => push rfl
    unfold Exec.growMemory at hError
    split at hError <;> cases hError
  | const v => exact push rfl
  | numeric n => exact operands (.numeric n)

/-! ## Control -/

/-- The body of a defined function has its type. The arguments of a call take the place of the
first locals. -/
def Function.Typed (C : Context) (f : Function) : Prop :=
  (∃ declared, f.locals.map Value.type = f.signature.parameters.toArray ++ declared) ∧
    ∃ s : Sequence, Encodes f.code endByte 0 s ∧
      s.Typed (C.within (f.locals.map Value.type) f.signature.results) []
        f.signature.results.reverse

/-- A program has what a context says. -/
structure Program.Typed (C : Context) (p : Program) : Prop where
  types : p.types = C.types
  signatures : ∀ index signature, C.signature? index = some signature ↔
    p.signature index = .ok signature
  bodies : ∀ (place : Nat) (f : Function), p.functions[place]? = some f → f.Typed C

theorem Program.Typed.localize {C : Context} {p : Program} (h : p.Typed C)
    (locals : Array ValueType) (labels : List (List ValueType)) (results : List ValueType) :
    p.Typed { C with locals, labels, results } :=
  ⟨h.types, h.signatures, h.bodies⟩

/-- Arguments of the parameter types in the place of the first locals leave all types as they
were. -/
theorem Function.types_locals {f : Function} {declared : Array ValueType}
    (hLocals : f.locals.map Value.type = f.signature.parameters.toArray ++ declared)
    {arguments : List Value} (hArguments : Value.types arguments = f.signature.parameters) :
    (arguments.toArray ++ f.locals.extract arguments.length f.locals.size).map Value.type =
      f.locals.map Value.type := by
  have hTypes : arguments.toArray.map Value.type = f.signature.parameters.toArray := by
    rw [List.map_toArray]
    exact congrArg List.toArray hArguments
  have hCount : arguments.length = f.signature.parameters.toArray.size := by
    rw [← hTypes, Array.size_map, List.size_toArray]
  have hSize : f.locals.size = f.signature.parameters.toArray.size + declared.size := by
    rw [← Array.size_append, ← hLocals, Array.size_map]
  rw [Array.map_append, Array.map_extract, hLocals, hTypes, hCount, hSize,
    Array.extract_append_right, Array.extract_size]

theorem Function.Typed.types_locals {C : Context} {f : Function} (h : f.Typed C)
    {arguments : List Value} (hArguments : Value.types arguments = f.signature.parameters) :
    (arguments.toArray ++ f.locals.extract arguments.length f.locals.size).map Value.type =
      f.locals.map Value.type := by
  obtain ⟨⟨declared, hLocals⟩, -⟩ := h
  exact Function.types_locals hLocals hArguments

/-- What an instruction may make its sequence do: the instructions after it find operands of the
types `us`, at once or when a call returns. -/
def Action.Typed (env : Env) (C : Context) (us : List ValueType) : Except Trap Action → Prop
  | .error e => e.Dynamic
  | .ok (.next τ) => τ.Typed C us
  | .ok (.branch depth top) =>
    ∃ arity, C.labels[depth]? = some arity ∧ Value.types top = arity.reverse
  | .ok (.enter index place f arguments left) =>
    env.program.callee index = .ok (.defined place f) ∧
      Value.types arguments = f.signature.parameters ∧
      f.signature.results.reverse ++ Value.types left = us

/-- Operands of the right types are carried. -/
theorem carried?_of_types {arity ts : List ValueType} {operands : List Value}
    (h : Value.types operands = arity.reverse ++ ts) :
    ∃ top, carried? arity operands = some top ∧ Value.types top = arity.reverse := by
  have hTop : Value.types (operands.take arity.length) = arity.reverse := by
    have hLength : arity.length = arity.reverse.length := List.length_reverse.symm
    have hTake := congrArg (List.take arity.length) h
    rw [hLength, List.take_left, ← hLength, Value.types, ← List.map_take] at hTake
    exact hTake
  refine ⟨operands.take arity.length, ?_, hTop⟩
  unfold carried?
  rw [if_pos]
  change (Value.types (operands.take arity.length)).reverse = arity
  rw [hTop, List.reverse_reverse]

theorem carried?_of_results {results : List ValueType} {operands : List Value}
    (h : Value.types operands = results.reverse) :
    ∃ top, carried? results operands = some top ∧ Value.types top = results.reverse := by
  apply carried?_of_types
  rw [List.append_nil]
  exact h

theorem popParams_of_types (signature : FunctionType) {types ts : List ValueType}
    {operands : List Value} (h : Value.types operands = types ++ ts) (found : List Value) :
    ∃ p, onOperands (popParams signature types found) operands = .ok p := by
  induction types generalizing operands found with
  | nil => exact ⟨_, onOperands_pure found operands⟩
  | cons t rest ih =>
    obtain ⟨v, others, rfl, hType, hOthers⟩ := Value.types_eq_cons h
    obtain ⟨p, hp⟩ := ih hOthers (v :: found)
    refine ⟨p, ?_⟩
    unfold popParams
    rw [onOperands_bind (.popParam signature t), onOperands_popParam_cons, if_pos hType]
    exact hp

section Control

variable {env : Env} {C : Context} {Γ : Scope} {ts us : List ValueType}

theorem branch_typed (hLabels : Γ.labels = C.labels) {depth : Nat} {arity : List ValueType}
    (hLabel : C.labels[depth]? = some arity) {operands : List Value}
    (h : Value.types operands = arity.reverse ++ ts) :
    Action.Typed env C us (Γ.branch depth operands) := by
  obtain ⟨top, hTop, hTypes⟩ := carried?_of_types h
  unfold Scope.branch
  rw [hLabels, hLabel]
  simp only [hTop]
  exact ⟨arity, hLabel, hTypes⟩

theorem call_typed {index : UInt32} {signature : FunctionType}
    (hSignature : env.program.signature index = .ok signature) {operands : List Value}
    (h : Value.types operands = signature.parameters.reverse ++ ts) :
    Action.Typed env C (signature.results.reverse ++ ts) (Γ.call env index operands) := by
  unfold Program.signature at hSignature
  unfold Scope.call
  cases hCallee : env.program.callee index with
  | error e =>
    rw [hCallee] at hSignature
    cases hSignature
  | ok callee =>
    rw [hCallee] at hSignature
    cases hSignature
    cases callee with
    | imported f => exact .unresolvedImport f.module f.name
    | defined place f =>
      simp only
      by_cases hDeep : env.config.maxCallDepth.toNat < Γ.depth
      · rw [if_pos hDeep]
        exact .callStackExhausted Γ.depth
      · rw [if_neg hDeep]
        obtain ⟨p, hTake⟩ := popParams_of_types f.signature h []
        have hTake' : Thread.takeArguments f.signature operands = .ok (p.1, p.2) := hTake
        obtain ⟨hOperands, hArguments⟩ := popParams_eq_ok hTake'
        rw [hTake']
        refine ⟨hCallee, hArguments, ?_⟩
        -- what the arguments leave is what stood below them
        have hSplit : Value.types p.1.reverse ++ Value.types p.2 =
            f.signature.parameters.reverse ++ ts := by
          rw [← Value.types_append, ← hOperands, h]
          rfl
        have hReverse : Value.types p.1.reverse = f.signature.parameters.reverse := by
          rw [Value.types, List.map_reverse, hArguments]
        rw [hReverse] at hSplit
        rw [List.append_cancel_left hSplit]
        rfl

theorem slotFunction_typed {s : Store} (hStore : s.Typed C) (hTable : 0 < C.tables)
    (slot : UInt32) :
    match s.slotFunction slot with
    | .ok function => ∃ signature, C.signature? function = some signature
    | .error e => e.Dynamic := by
  have hSize : 0 < s.tables.size := by
    rw [hStore.tables]
    exact hTable
  have hFirst : s.table = .ok s.tables[0] := by
    unfold Store.table
    rw [Array.getElem?_eq_getElem hSize]
  unfold Store.slotFunction
  rw [hFirst]
  simp only [bind, Except.bind]
  unfold Table.get
  cases hSlot : s.tables[0].slots[slot.toNat]? with
  | none => exact .tableAccessOutOfBounds slot
  | some entry =>
    cases entry with
    | none => exact .uninitializedElement slot
    | some function =>
      have hMem : some function ∈ s.tables[0].slots := Array.mem_of_getElem? hSlot
      exact hStore.slots _ (Array.getElem_mem hSize) function hMem

theorem indirectCallee_typed (hProgram : env.program.Typed C) {s : Store} (hStore : s.Typed C)
    (hTable : 0 < C.tables) (expected : FunctionType) (slot : BitVec 32) :
    match indirectCallee env s expected slot with
    | .ok function => env.program.signature function = .ok expected
    | .error e => e.Dynamic := by
  have hSlot := slotFunction_typed hStore hTable (UInt32.ofNat slot.toNat)
  unfold indirectCallee
  cases hFound : s.slotFunction (UInt32.ofNat slot.toNat) with
  | error e =>
    rw [hFound] at hSlot
    exact hSlot
  | ok function =>
    rw [hFound] at hSlot
    obtain ⟨actual, hDeclared⟩ := hSlot
    have hActual := (hProgram.signatures function actual).1 hDeclared
    simp only [bind, Except.bind, hActual]
    by_cases hSame : actual = expected
    · subst hSame
      simp only [ne_eq, not_true_eq_false, if_false]
      exact hActual
    · simp only [ne_eq, hSame, not_false_eq_true, if_true]
      exact .indirectCallTypeMismatch expected actual

theorem popI32_of_types {operands : List Value} (h : Value.types operands = .i32 :: ts) :
    ∃ bits left, onOperands popI32 operands = .ok (bits, left) ∧ Value.types left = ts := by
  obtain ⟨v, left, rfl, hType, hLeft⟩ := Value.types_eq_cons h
  obtain ⟨bits, rfl⟩ := exists_ofInt_of_type (t := .i32) hType
  exact ⟨bits, left, onOperands_popInt_ofInt .i32 bits left, hLeft⟩

/-- Instructions without a body follow their rules. The scope has the labels of the context, of
which the last is the function itself. -/
theorem Leaf.Typed.act {i : Leaf} {ins outs : List ValueType} (h : i.Typed C ins outs)
    (hProgram : env.program.Typed C) (hLabels : Γ.labels = C.labels)
    (hLast : C.labels[C.labels.length - 1]? = some C.results) {σ : Region}
    (hσ : σ.Typed C (ins ++ ts)) : Action.Typed env C (outs ++ ts) (i.act env Γ σ) := by
  cases h with
  | @simple s _ _ typed =>
    have hRun := typed.run ts σ hσ
    simp only [Leaf.act]
    cases hResult : s.run σ with
    | error e =>
      rw [hResult] at hRun
      exact hRun
    | ok p =>
      rw [hResult] at hRun
      exact hRun.1
  | branch label below us =>
    have hOperands := hσ.operands
    rw [List.append_assoc] at hOperands
    exact branch_typed hLabels label hOperands
  | @branchIf depth arity label =>
    obtain ⟨condition, left, hPop, hLeft⟩ := popI32_of_types hσ.operands
    simp only [Leaf.act, hPop]
    split
    · exact branch_typed hLabels label hLeft
    · exact ⟨hLeft, hσ.locals, hσ.store⟩
  | @branchTable depths default arity label labels below us =>
    obtain ⟨index, left, hPop, hLeft⟩ := popI32_of_types hσ.operands
    have hChosen : C.labels[(depths[index.toNat]?.getD default).toNat]? = some arity := by
      cases hEntry : depths[index.toNat]? with
      | none => exact label
      | some depth => exact labels depth (Array.mem_of_getElem? hEntry)
    rw [List.append_eq, List.append_assoc] at hLeft
    simp only [Leaf.act, hPop]
    exact branch_typed hLabels hChosen hLeft
  | ret below us =>
    have hOperands := hσ.operands
    rw [List.append_assoc] at hOperands
    simp only [Leaf.act, hLabels]
    exact branch_typed hLabels hLast hOperands
  | call declared =>
    exact call_typed ((hProgram.signatures _ _).1 declared) hσ.operands
  | @callIndirect typeIndex signature table declared =>
    obtain ⟨slot, left, hPop, hLeft⟩ := popI32_of_types hσ.operands
    have hCallee := indirectCallee_typed hProgram hσ.store table signature slot
    have hType : env.program.types[typeIndex.toNat]? = some signature := by
      rw [hProgram.types]
      exact declared
    simp only [Leaf.act, hType, hPop]
    cases hFound : indirectCallee env σ.store signature slot with
    | error e =>
      rw [hFound] at hCallee
      exact hCallee
    | ok function =>
      rw [hFound] at hCallee
      exact call_typed hCallee hLeft

end Control

end WasmMachine
