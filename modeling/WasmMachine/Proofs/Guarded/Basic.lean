import WasmMachine.Session

/-!
# Unchecked operations

Slices, differences, indexed accesses and divisions have no result when their operands are out of
range. Where the loader or the machine performs one without a check of its own, it relies on what
was established elsewhere: that a position is inside the bytes, that the index of the stack is in
step with its frames, that a function has room for its parameters. The definitions of this library
give such an operation some result for all operands, so they do not show whether it was in range.

A guarded version of a definition does the same, but performs each of these operations under its
condition and is broken where the condition fails. A definition is safe when its guarded version
agrees with it, for then no condition ever fails.

* `Unchecked`: the operations.
* `Unbroken`: a guarded operation on a state does what the plain one does, and keeps an invariant.
-/

namespace WasmMachine

/-- The operations that are performed without a check of their own. -/
inductive Unchecked where
  /-- The difference between the end of the bytes and the position of a reader. -/
  | bytesLeft
  /-- The slice of the bytes that a reader takes. -/
  | bytesTaken
  /-- The slice of the operands in an initializer. -/
  | operandBytes
  /-- The difference between two positions of a section reader. -/
  | bytesUsed
  /-- Taking one from the number of labels above the topmost activation. -/
  | labelCount
  /-- The position of a label in the index. -/
  | labelAt
  /-- The frame at a position. -/
  | frameAt
  /-- The slice of the frames above a position. -/
  | framesAbove
  /-- The imported function of an index. -/
  | importedFunction
  /-- The local that holds a parameter. -/
  | parameterLocal
  /-- The defined function that is called. -/
  | calledFunction
  /-- The slice of a memory that is read or written. -/
  | memoryBytes
  /-- The difference between the new size and the old one of a memory that grows. -/
  | memoryGrowth
  /-- A quotient or a remainder. -/
  | division
  deriving DecidableEq, Repr

/-- Why a guarded operation has no result. -/
inductive Stop (ε : Type) where
  | raised (e : ε)
  | broken (op : Unchecked)

section

variable {ε σ α β : Type}

/-- A result without unchecked operations. -/
def Stop.ofExcept (x : Except ε α) : Except (Stop ε) α := x.mapError .raised

/-- Performs an unchecked operation under its condition. -/
def Stop.require (op : Unchecked) (p : Prop) [Decidable p] : Except (Stop ε) Unit :=
  if p then .ok () else .error (.broken op)

theorem Stop.require_bind {op : Unchecked} {p : Prop} [Decidable p] (h : p)
    (f : Unit → Except (Stop ε) α) : (Stop.require op p >>= f) = f () := by
  rw [require, if_pos h]
  rfl

/-- Guarded operations on a state. -/
abbrev GuardedM (ε σ : Type) := EStateM (Stop ε) σ

namespace GuardedM

/-- An operation without unchecked parts. -/
def lift (x : EStateM ε σ α) : GuardedM ε σ α := fun s =>
  match x s with
  | .ok a s => .ok a s
  | .error e s => .error (.raised e) s

/-- Performs an unchecked operation under its condition, which may depend on the state. -/
def require (op : Unchecked) (p : σ → Prop) [DecidablePred p] : GuardedM ε σ Unit := fun s =>
  if p s then .ok () s else .error (.broken op) s

theorem bind_of_ok {g : GuardedM ε σ α} {k : α → GuardedM ε σ β} {s s' : σ} {a : α}
    (h : g s = .ok a s') : (g >>= k) s = k a s' := by
  change EStateM.bind g k s = _
  simp only [EStateM.bind, h]

theorem get_bind (k : σ → GuardedM ε σ α) (s : σ) : (get >>= k) s = k s s := rfl

theorem require_eq_ok {op : Unchecked} {p : σ → Prop} [DecidablePred p] {s : σ} (h : p s) :
    (require op p : GuardedM ε σ Unit) s = .ok () s := if_pos h

end GuardedM

/-- The state that an operation leaves, whether it fails or not. -/
def finalState : EStateM.Result ε σ α → σ
  | .ok _ s => s
  | .error _ s => s

/-- An operation keeps a property of states, whether it fails or not. -/
def Keeps (I : σ → Prop) (x : EStateM ε σ α) : Prop := ∀ s, I s → I (finalState (x s))

/-- At a state, a guarded operation does what the plain one does, so it is not broken, and leaves a
state of the property. -/
structure Unbroken (I : σ → Prop) (g : GuardedM ε σ α) (x : EStateM ε σ α) (s : σ) : Prop where
  eq : g s = GuardedM.lift x s
  keeps : I (finalState (x s))

namespace Keeps

variable {I : σ → Prop}

protected theorem pure (a : α) : Keeps I (pure a : EStateM ε σ α) := fun _ hs => hs

protected theorem throw (e : ε) : Keeps I (throw e : EStateM ε σ α) := fun _ hs => hs

/-- One operation after the other at a state. The second one starts in the state that the first one
leaves. -/
theorem bind_at {x : EStateM ε σ α} {f : α → EStateM ε σ β} {s : σ} (hx : I (finalState (x s)))
    (hf : ∀ a s', x s = .ok a s' → I s' → I (finalState (f a s'))) :
    I (finalState ((x >>= f) s)) := by
  change I (finalState (EStateM.bind x f s))
  unfold EStateM.bind
  cases hResult : x s with
  | ok a s' =>
    rw [hResult] at hx
    exact hf a s' hResult hx
  | error e s' =>
    rw [hResult] at hx
    exact hx

protected theorem bind {x : EStateM ε σ α} {f : α → EStateM ε σ β} (hx : Keeps I x)
    (hf : ∀ a, Keeps I (f a)) : Keeps I (x >>= f) :=
  fun s hs => bind_at (hx s hs) fun a s' _ hs' => hf a s' hs'

protected theorem ite {p : Prop} [Decidable p] {x y : EStateM ε σ α} (hx : Keeps I x)
    (hy : Keeps I y) : Keeps I (if p then x else y) := by
  split
  · exact hx
  · exact hy

end Keeps

namespace Unbroken

variable {I : σ → Prop} {s : σ}

/-- An operation without unchecked parts. -/
theorem lift {x : EStateM ε σ α} (hx : Keeps I x) (hs : I s) :
    Unbroken I (GuardedM.lift x) x s := ⟨rfl, hx s hs⟩

protected theorem pure (a : α) (hs : I s) : Unbroken (ε := ε) I (pure a) (pure a) s := ⟨rfl, hs⟩

protected theorem throw (e : ε) (hs : I s) :
    Unbroken (α := α) I (throw (.raised e)) (throw e) s := ⟨rfl, hs⟩

/-- One operation after the other. The second one starts in the state that the first one leaves. -/
protected theorem bind {g : GuardedM ε σ α} {x : EStateM ε σ α} {k : α → GuardedM ε σ β}
    {f : α → EStateM ε σ β} (hx : Unbroken I g x s)
    (hf : ∀ a s', x s = .ok a s' → I s' → Unbroken I (k a) (f a) s') :
    Unbroken I (g >>= k) (x >>= f) s := by
  obtain ⟨hEq, hKeeps⟩ := hx
  have hLeft : (g >>= k) s = EStateM.bind g k s := rfl
  have hRight : (x >>= f) s = EStateM.bind x f s := rfl
  unfold EStateM.bind at hLeft hRight
  unfold GuardedM.lift at hEq
  cases hResult : x s with
  | ok a s' =>
    rw [hResult] at hEq hKeeps hRight
    rw [hEq] at hLeft
    obtain ⟨hNext, hLast⟩ := hf a s' hResult hKeeps
    simp only at hLeft hRight
    refine ⟨?_, by rw [hRight]; exact hLast⟩
    rw [hLeft, hNext]
    unfold GuardedM.lift
    rw [hRight]
  | error e s' =>
    rw [hResult] at hEq hKeeps hRight
    rw [hEq] at hLeft
    simp only at hLeft hRight
    refine ⟨?_, by rw [hRight]; exact hKeeps⟩
    rw [hLeft]
    unfold GuardedM.lift
    rw [hRight]

/-- Both operations give the same result and the same state. -/
theorem of_ok {g : GuardedM ε σ α} {x : EStateM ε σ α} {a : α} {t : σ} (hg : g s = .ok a t)
    (hx : x s = .ok a t) (ht : I t) : Unbroken I g x s := by
  refine ⟨?_, by rw [hx]; exact ht⟩
  unfold GuardedM.lift
  rw [hg, hx]

/-- Both operations fail alike. -/
theorem of_error {g : GuardedM ε σ α} {x : EStateM ε σ α} {e : ε} {t : σ}
    (hg : g s = .error (.raised e) t) (hx : x s = .error e t) (ht : I t) : Unbroken I g x s := by
  refine ⟨?_, by rw [hx]; exact ht⟩
  unfold GuardedM.lift
  rw [hg, hx]

/-- Only what the plain operation does at the state matters. -/
theorem congr {g : GuardedM ε σ α} {x y : EStateM ε σ α} (h : Unbroken I g x s)
    (hSame : x s = y s) : Unbroken I g y s := by
  obtain ⟨hEq, hKeeps⟩ := h
  unfold GuardedM.lift at hEq
  refine ⟨?_, by rw [← hSame]; exact hKeeps⟩
  unfold GuardedM.lift
  rw [hEq, hSame]

/-- A guarded operation that gives a result and changes nothing, which the plain operation has at
hand. -/
theorem look {g : GuardedM ε σ α} {k : α → GuardedM ε σ β} {x : EStateM ε σ β} {a : α}
    (h : g s = .ok a s) (hk : Unbroken I (k a) x s) : Unbroken I (g >>= k) x s :=
  ⟨(GuardedM.bind_of_ok h).trans hk.eq, hk.keeps⟩

/-- An unchecked operation whose condition holds. -/
protected theorem require {op : Unchecked} {p : σ → Prop} [DecidablePred p]
    {k : Unit → GuardedM ε σ α} {x : EStateM ε σ α} (hp : p s) (hk : Unbroken I (k ()) x s) :
    Unbroken I (GuardedM.require op p >>= k) x s := look (GuardedM.require_eq_ok hp) hk

/-- A choice that does not depend on guards. -/
protected theorem ite {p : Prop} [Decidable p] {g g' : GuardedM ε σ α} {x x' : EStateM ε σ α}
    (h : p → Unbroken I g x s) (h' : ¬ p → Unbroken I g' x' s) :
    Unbroken I (if p then g else g') (if p then x else x') s := by
  by_cases hp : p
  · rw [if_pos hp, if_pos hp]
    exact h hp
  · rw [if_neg hp, if_neg hp]
    exact h' hp

end Unbroken

end

end WasmMachine
