import WasmMachine.Proofs.Machine.Thread
import WasmMachine.Proofs.Structured.Sequence

/-!
# The recursive evaluator

Structured code evaluated as a tree, without offsets, labels or frames. A construct evaluates its
body on an operand region of its own and hands its results to the region outside. A branch leaves
the constructs around it, one after the other, until it comes to its target; there a loop starts
again, and every other construct ends. Leaving the function itself is the outermost branch.

The fuel bounds the depth of the recursion, and running out of it is an exit of its own.

* `Sequence.eval`: the evaluator.
* `Exit.leave`: what a construct makes of the exit of its body.
-/

namespace WasmMachine

open Stack

/-- Where a sequence stands. -/
structure Scope where
  code : CodeRef
  /-- The types of the values that branches to the enclosing constructs carry, innermost first. The
  last of them is the function. -/
  labels : List (List ValueType)
  /-- The number of activations. -/
  depth : Nat

/-- How an evaluation ends. -/
inductive Exit where
  /-- The sequence came to its end. -/
  | done (σ : Region)
  /-- A branch to an enclosing construct carries values, topmost first. -/
  | branch (depth : Nat) (top : List Value) (σ : Region)
  | trap (f : Fault) (store : Store)
  | outOfFuel

/-- What an instruction without a body makes its sequence do. -/
inductive Action where
  | next (σ : Region)
  | branch (depth : Nat) (top : List Value)
  /-- Calls a defined function; `left` are the operands below its arguments. -/
  | enter (index : UInt32) (place : Nat) (f : Function) (arguments left : List Value)

namespace Scope

/-- The scope of the body of a construct. -/
def inside (Γ : Scope) (arity : List ValueType) : Scope := { Γ with labels := arity :: Γ.labels }

/-- The scope of the body of a called function. -/
def called (Γ : Scope) (place : Nat) (f : Function) : Scope :=
  { code := .function place, labels := [f.signature.results], depth := Γ.depth + 1 }

/-- Branches to an enclosing construct. -/
def branch (Γ : Scope) (depth : Nat) (operands : List Value) : Except Trap Action :=
  match Γ.labels[depth]? with
  | some arity =>
    match carried? arity operands with
    | some top => .ok (.branch depth top)
    | none => .error (.arityMismatch arity (foundTypes arity operands))
  | none => .error (.breakLevelExceeded depth (Γ.labels.length - 1))

/-- Calls the function of an index. -/
def call (env : Env) (Γ : Scope) (index : UInt32) (operands : List Value) : Except Trap Action :=
  match env.program.callee index with
  | .error e => .error e
  | .ok (.imported f) => .error (.unresolvedImport f.module f.name)
  | .ok (.defined place f) =>
    if env.config.maxCallDepth.toNat < Γ.depth then .error (.callStackExhausted Γ.depth)
    else
      match Thread.takeArguments f.signature operands with
      | .error e => .error e
      | .ok (arguments, left) => .ok (.enter index place f arguments left)

end Scope

/-- What an instruction without a body does on a region. -/
def Leaf.act (env : Env) (Γ : Scope) : Leaf → Region → Except Trap Action
  | .simple s, σ =>
    match s.run σ with
    | .error e => .error e
    | .ok (_, τ) => .ok (.next τ)
  | .branch depth, σ => Γ.branch depth.toNat σ.operands
  | .branchIf depth, σ =>
    match onOperands popI32 σ.operands with
    | .error e => .error e
    | .ok (condition, left) =>
      if condition ≠ 0 then Γ.branch depth.toNat left
      else .ok (.next { σ with operands := left })
  | .branchTable depths default, σ =>
    match onOperands popI32 σ.operands with
    | .error e => .error e
    | .ok (index, left) => Γ.branch (depths[index.toNat]?.getD default).toNat left
  | .ret, σ => Γ.branch (Γ.labels.length - 1) σ.operands
  | .call index, σ => Γ.call env index σ.operands
  | .callIndirect typeIndex, σ =>
    match env.program.types[typeIndex.toNat]? with
    | none => .error (.typeIndexOutOfBounds typeIndex)
    | some expected =>
      match onOperands popI32 σ.operands with
      | .error e => .error e
      | .ok (slot, left) =>
        match indirectCallee env σ.store expected slot with
        | .error e => .error e
        | .ok function => Γ.call env function left
  | .invalid b, _ => .error (.invalidOpcode b)

/-- The region that a called function starts with. -/
def Region.called (σ : Region) (place : Nat) (f : Function) (arguments : List Value) : Region :=
  { operands := []
    locals := arguments.toArray ++ f.locals.extract arguments.length f.locals.size
    store := { σ.store with callCounts := σ.store.callCounts.modify place (· + 1) } }

/-- A trap at an offset of the current code. -/
def Scope.trap (env : Env) (Γ : Scope) (place : Nat) (e : Trap) (store : Store) : Exit :=
  .trap ⟨e, some (env.program.modulePosition ⟨Γ.code, place⟩)⟩ store

/-- What a construct makes of the exit of its body. A body that came to its end at `closing` hands
up exactly the results; a branch to the construct itself is up to the construct. -/
def Exit.leave (env : Env) (Γ : Scope) (results : List ValueType) (closing : Nat)
    (ended branched : List Value → Region → Exit) : Exit → Exit
  | .done σ =>
    match carried? results σ.operands with
    | some top => ended top σ
    | none => Γ.trap env closing (.arityMismatch results (foundTypes results σ.operands)) σ.store
  | .branch 0 top σ => branched top σ
  | .branch (depth + 1) top σ => .branch depth top σ
  | .trap f store => .trap f store
  | .outOfFuel => .outOfFuel

/-- Evaluates a sequence on a region. The functions of the program have the given bodies. -/
def Sequence.eval (env : Env) (bodies : Nat → Sequence) :
    (fuel : Nat) → Scope → Sequence → Region → Exit
  | 0, _, _, _ => .outOfFuel
  | _ + 1, _, .stop _, σ => .done σ
  | fuel + 1, Γ, .leaf place i rest, σ =>
    match i.act env Γ σ with
    | .error e => Γ.trap env place e σ.store
    | .ok (.next τ) => eval env bodies fuel Γ rest τ
    | .ok (.branch depth top) => .branch depth top σ
    | .ok (.enter _ callee f arguments left) =>
      let ended := fun top (τ : Region) =>
        eval env bodies fuel Γ rest { τ with operands := top ++ left, locals := σ.locals }
      (eval env bodies fuel (Γ.called callee f) (bodies callee) (σ.called callee f arguments)).leave
        env (Γ.called callee f) f.signature.results (bodies callee).closing ended ended
  | fuel + 1, Γ, .block _ t body rest, σ =>
    let ended := fun top (τ : Region) =>
      eval env bodies fuel Γ rest { τ with operands := top ++ σ.operands }
    (eval env bodies fuel (Γ.inside t.results) body { σ with operands := [] }).leave
      env Γ t.results body.closing ended ended
  | fuel + 1, Γ, .loop place t body rest, σ =>
    let ended := fun top (τ : Region) =>
      eval env bodies fuel Γ rest { τ with operands := top ++ σ.operands }
    let again := fun top (τ : Region) =>
      eval env bodies fuel Γ (.loop place t body rest) { τ with operands := top ++ σ.operands }
    (eval env bodies fuel (Γ.inside []) body { σ with operands := [] }).leave
      env Γ t.results body.closing ended again
  | fuel + 1, Γ, .ifThen place t arm rest, σ =>
    match onOperands popI32 σ.operands with
    | .error e => Γ.trap env place e σ.store
    | .ok (condition, outer) =>
      let ended := fun top (τ : Region) =>
        eval env bodies fuel Γ rest { τ with operands := top ++ outer }
      (if condition ≠ 0 then eval env bodies fuel (Γ.inside t.results) arm { σ with operands := [] }
        else .done { σ with operands := [] }).leave env Γ t.results arm.closing ended ended
  | fuel + 1, Γ, .ifElse place t arm other rest, σ =>
    match onOperands popI32 σ.operands with
    | .error e => Γ.trap env place e σ.store
    | .ok (condition, outer) =>
      let ended := fun top (τ : Region) =>
        eval env bodies fuel Γ rest { τ with operands := top ++ outer }
      let chosen := if condition ≠ 0 then arm else other
      (eval env bodies fuel (Γ.inside t.results) chosen { σ with operands := [] }).leave
        env Γ t.results chosen.closing ended ended

end WasmMachine
