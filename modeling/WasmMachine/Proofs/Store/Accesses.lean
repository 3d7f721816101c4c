import WasmMachine.Machine.Step
import WasmMachine.Proofs.Stack.Frames
import WasmMachine.Proofs.Store.Numbers

/-!
# Loads and stores

The load and store instructions see the first memory as a map from places to bytes. An access
succeeds exactly if all its bytes are inside the memory. A load gives the number that stands in the
bytes, widened as the instruction says. A store puts the low bytes of its value there.

* `Access`: a load or a store with its operands.
* `Access.Does`: what an access does to a memory that it fits in.
* `Access.run_of_fits`, `Access.run_of_not_fits`: how an access runs on a machine.
* `Access.attempt_comm`: accesses to different bytes can change places.
-/

namespace WasmMachine

open Stack

/-! ## Programs that go on -/

section Running

variable {ε σ α β : Type} {x : EStateM ε σ α} {s s' : σ}

theorem run_bind_of_ok {a : α} (h : x s = .ok a s') (f : α → EStateM ε σ β) :
    (x >>= f) s = f a s' := by
  change EStateM.bind x f s = _
  simp only [EStateM.bind, h]

theorem run_bind_of_error {e : ε} (h : x s = .error e s') (f : α → EStateM ε σ β) :
    (x >>= f) s = .error e s' := by
  change EStateM.bind x f s = _
  simp only [EStateM.bind, h]

end Running

/-! ## Taking operands -/

namespace Stack

theorem popValue_push (s : Stack) (v : Value) : popValue (s.push (.value v)) = .ok v s := by
  simp [popValue, peek?, top?, Frame.value?]

theorem popTyped_push (s : Stack) (v : Value) :
    popTyped v.type (s.push (.value v)) = .ok v s := by
  unfold popTyped
  rw [run_bind_of_ok (popValue_push s v), if_pos rfl]
  rfl

theorem popI32_push (s : Stack) (bits : BitVec 32) :
    popI32 (s.push (.value (.i32 bits))) = .ok bits s :=
  run_bind_of_ok (popTyped_push s (.i32 bits)) _

theorem popAddress_push (s : Stack) (address : BitVec 32) (offset : UInt32) :
    popAddress offset (s.push (.value (.i32 address))) =
      .ok (address.toNat + offset.toNat) s :=
  run_bind_of_ok (popI32_push s address) _

end Stack

/-! ## The first memory -/

namespace Machine

/-- The machine with another first memory. -/
def withMemory (m : Machine) (memory : Memory) : Machine :=
  { m with store := { m.store with memories := m.store.memories.setIfInBounds 0 memory } }

/-- The machine with a value on top of its stack. -/
def push (m : Machine) (v : Value) : Machine := { m with stack := m.stack.push (.value v) }

variable {m : Machine} {memory : Memory}

theorem withMemory_self (h : m.store.memories[0]? = some memory) : m.withMemory memory = m := by
  obtain ⟨hSize, hGet⟩ := Array.getElem?_eq_some_iff.1 h
  have hSame : m.store.memories.setIfInBounds 0 memory = m.store.memories := by
    rw [Array.setIfInBounds, dif_pos hSize, ← hGet, Array.set_getElem_self]
  rw [withMemory, hSame]

theorem withMemory_withMemory (m : Machine) (memory after : Memory) :
    (m.withMemory memory).withMemory after = m.withMemory after := by
  simp only [withMemory, Array.setIfInBounds_setIfInBounds]

theorem memories_withMemory (h : m.store.memories[0]? = some memory) (after : Memory) :
    (m.withMemory after).store.memories[0]? = some after := by
  obtain ⟨hSize, -⟩ := Array.getElem?_eq_some_iff.1 h
  change (m.store.memories.setIfInBounds 0 after)[0]? = some after
  rw [Array.getElem?_setIfInBounds, if_pos rfl, if_pos hSize]

end Machine

namespace Exec

variable {m : Machine} {memory : Memory}

/-- An operation that takes the value on top leaves the machine below it. -/
theorem onStack_push {α : Type} {op : StackM α} {a : α} {v : Value}
    (h : op (m.stack.push (.value v)) = .ok a m.stack) : onStack op (m.push v) = .ok a m := by
  simp only [onStack, Machine.push, h]

theorem readMemory_of_some (h : m.store.memories[0]? = some memory) :
    readMemory m = .ok memory m := by
  unfold readMemory Store.memory
  rw [h]

theorem requireMemory_of_some (h : m.store.memories[0]? = some memory) :
    requireMemory m = .ok () m :=
  run_bind_of_ok (readMemory_of_some h) _

theorem onMemory_of_ok {α : Type} {op : MemoryM α} {a : α} {after : Memory}
    (h : m.store.memories[0]? = some memory) (hOp : op memory = .ok a after) :
    onMemory op m = .ok a (m.withMemory after) := by
  unfold onMemory
  simp only [h, hOp, Array.setIfInBounds_setIfInBounds]
  rfl

theorem onMemory_of_error {α : Type} {op : MemoryM α} {e : Trap} {after : Memory}
    (h : m.store.memories[0]? = some memory) (hOp : op memory = .error e after) :
    onMemory op m = .error e (m.withMemory after) := by
  unfold onMemory
  simp only [h, hOp, Array.setIfInBounds_setIfInBounds]
  rfl

/-! ## The instructions on their operands -/

theorem load_eq (h : m.store.memories[0]? = some memory) (op : LoadOp) (address : BitVec 32)
    (offset : UInt32) :
    Exec.load op offset (m.push (.i32 address)) =
      (ofExcept (memory.load (address.toNat + offset.toNat) op.bytes) >>= fun n =>
        onStack (pushValue (op.value n))) m := by
  have hReady : (m.push (.i32 address)).store.memories[0]? = some memory := h
  unfold Exec.load
  rw [run_bind_of_ok (requireMemory_of_some hReady),
    run_bind_of_ok (onStack_push (popAddress_push m.stack address offset)),
    run_bind_of_ok (readMemory_of_some h)]

theorem store_eq (h : m.store.memories[0]? = some memory) {op : StoreOp} {v : Value}
    (hType : v.type = op.type) (address : BitVec 32) (offset : UInt32) :
    Exec.store op offset ((m.push (.i32 address)).push v) =
      onMemory (Memory.store (address.toNat + offset.toNat) op.bytes v.toNat) m := by
  have hReady : ((m.push (.i32 address)).push v).store.memories[0]? = some memory := h
  unfold Exec.store
  rw [run_bind_of_ok (requireMemory_of_some hReady), ← hType,
    run_bind_of_ok (onStack_push (popTyped_push (m.push (.i32 address)).stack v)),
    run_bind_of_ok (onStack_push (popAddress_push m.stack address offset))]

end Exec

/-! ## Widening -/

/-- What a load makes of the number that stands in memory: the same number, bit for bit, or, where
the instruction is signed, the number that has it as its two's complement. -/
def LoadOp.Widens (op : LoadOp) (n : Nat) (v : Value) : Prop :=
  match op with
  | .full t => v.type = t ∧ v.toNat = n
  | .packed t _ .unsigned => ∃ bits : BitVec t.width, v = .ofInt t bits ∧ bits.toNat = n
  | .packed t p .signed => ∃ bits : BitVec t.width, v = .ofInt t bits ∧
      bits.toInt = if 2 * n < Nat.pow 256 p.bytes then (n : Int) else n - Nat.pow 256 p.bytes

theorem Packing.pow_bytes (p : Packing) : Nat.pow 256 p.bytes = Nat.pow 2 (8 * p.bytes) := by
  cases p <;> rfl

theorem Packing.width_le (p : Packing) (t : IntType) : 8 * p.bytes ≤ t.width := by
  cases p <;> cases t <;> decide

theorem LoadOp.widens_value (op : LoadOp) {n : Nat} (h : n < Nat.pow 256 op.bytes) :
    op.Widens n (op.value n) := by
  cases op with
  | full t => cases t <;> exact ⟨rfl, Nat.mod_eq_of_lt h⟩
  | packed t p s =>
    have hBound : n < Nat.pow 2 (8 * p.bytes) := by rwa [← p.pow_bytes]
    have hNumber : (BitVec.ofNat (8 * p.bytes) n).toNat = n := Nat.mod_eq_of_lt hBound
    cases s with
    | unsigned =>
      refine ⟨_, rfl, ?_⟩
      rw [BitVec.toNat_setWidth_of_le (p.width_le t), hNumber]
    | signed =>
      refine ⟨_, rfl, ?_⟩
      rw [BitVec.toInt_signExtend_of_le (p.width_le t), BitVec.toInt_eq_toNat_cond, hNumber,
        p.pow_bytes]
      rfl

/-! ## Accesses -/

/-- A load or a store with the operands that it takes off the stack. -/
inductive Access where
  | load (op : LoadOp) (address : BitVec 32) (offset : UInt32)
  | store (op : StoreOp) (address : BitVec 32) (offset : UInt32) (v : Value)
    (typed : v.type = op.type)

namespace Access

/-- The place of the first byte. The sum is a natural number and does not wrap. -/
def place : Access → Nat
  | load _ address offset => address.toNat + offset.toNat
  | store _ address offset _ _ => address.toNat + offset.toNat

/-- The number of bytes. -/
def width : Access → Nat
  | load op _ _ => op.bytes
  | store op _ _ _ _ => op.bytes

/-- The bytes of one access come before those of the other. -/
def Disjoint (a b : Access) : Prop := a.place + a.width ≤ b.place ∨ b.place + b.width ≤ a.place

/-- What an access that fits does to a memory, and the value that it gives. A load gives the number
in the bytes, widened, and leaves the memory as it is. A store leaves in the bytes the low bytes of
its value, and everything else as it is. -/
def Does (a : Access) (before : Memory) (result : Option Value) (after : Memory) : Prop :=
  match a with
  | load op _ _ => after = before ∧
    ∃ n v, before.Spells a.place a.width n ∧ op.Widens n v ∧ result = some v
  | store _ _ _ v _ => result = none ∧
    after.Spells a.place a.width (v.toNat % Nat.pow 256 a.width) ∧
    (∀ place, place < a.place ∨ a.place + a.width ≤ place →
      after.byte? place = before.byte? place) ∧
    after.size = before.size ∧ after.pages = before.pages ∧ after.max = before.max ∧
    after.ceiling = before.ceiling

/-- Puts the operands on the stack, executes the instruction and takes its result. -/
def run : Access → Exec (Option Value)
  | load op address offset => do
    Exec.onStack (pushValue (.i32 address))
    Exec.load op offset
    return some (← Exec.onStack popValue)
  | store op address offset v _ => do
    Exec.onStack (pushValue (.i32 address))
    Exec.onStack (pushValue v)
    Exec.store op offset
    return none

/-- Runs an access and goes on after a trap, too. -/
def attempt (a : Access) : Exec (Except Trap (Option Value)) := fun m =>
  match a.run m with
  | .ok result m => .ok (.ok result) m
  | .error trap m => .ok (.error trap) m

/-! ### Runs -/

/-- The value that an access gives on a memory that it fits in. -/
def result (a : Access) (memory : Memory) : Option Value :=
  match a with
  | load op _ _ => some (op.value (memory.number a.place a.width))
  | store .. => none

/-- The memory that an access leaves of one that it fits in. -/
def after (a : Access) (memory : Memory) : Memory :=
  match a with
  | load .. => memory
  | store _ _ _ v _ => memory.stored a.place a.width v.toNat

variable {a b : Access} {m : Machine} {memory : Memory}

theorem does_after (hFits : a.place + a.width ≤ memory.size) :
    a.Does memory (a.result memory) (a.after memory) := by
  cases a with
  | load op address offset =>
    have hSpells := Memory.spells_number hFits
    exact ⟨rfl, _, _, hSpells, op.widens_value hSpells.1, rfl⟩
  | store op address offset v typed =>
    exact ⟨rfl, Memory.spells_stored hFits, fun _ => Memory.byte?_stored_of_outside hFits,
      Memory.size_stored .., rfl, rfl, rfl⟩

theorem run_load (m : Machine) (op : LoadOp) (address : BitVec 32) (offset : UInt32) :
    (load op address offset).run m =
      (Exec.load op offset >>= fun _ => Exec.onStack popValue >>= fun v => pure (some v))
        (m.push (.i32 address)) := rfl

theorem run_store (m : Machine) {op : StoreOp} (address : BitVec 32) (offset : UInt32) {v : Value}
    (typed : v.type = op.type) :
    (store op address offset v typed).run m =
      (Exec.store op offset >>= fun _ => pure none) ((m.push (.i32 address)).push v) := rfl

theorem run_of_fits (hMemory : m.store.memories[0]? = some memory)
    (hFits : a.place + a.width ≤ memory.size) :
    a.run m = .ok (a.result memory) (m.withMemory (a.after memory)) := by
  cases a with
  | load op address offset =>
    have hNumber : memory.load (address.toNat + offset.toNat) op.bytes = _ :=
      Memory.load_of_fits hFits
    have hLoad := Exec.load_eq hMemory op address offset
    rw [hNumber] at hLoad
    rw [run_load, run_bind_of_ok hLoad, after, Machine.withMemory_self hMemory]
    exact run_bind_of_ok (Exec.onStack_push (popValue_push m.stack _)) _
  | store op address offset v typed =>
    have hStore := (Exec.store_eq hMemory typed address offset).trans
      (Exec.onMemory_of_ok hMemory (Memory.store_of_fits hFits))
    rw [run_store, run_bind_of_ok hStore]
    rfl

theorem run_of_not_fits (hMemory : m.store.memories[0]? = some memory)
    (hFits : ¬ a.place + a.width ≤ memory.size) :
    a.run m = .error (.memoryAccessOutOfBounds a.place a.width memory.size) m := by
  cases a with
  | load op address offset =>
    have hTrap : memory.load (address.toNat + offset.toNat) op.bytes = _ :=
      Memory.load_of_not_fits hFits
    have hLoad := Exec.load_eq hMemory op address offset
    rw [hTrap] at hLoad
    rw [run_load, run_bind_of_error hLoad]
    rfl
  | store op address offset v typed =>
    have hStore := (Exec.store_eq hMemory typed address offset).trans
      (Exec.onMemory_of_error hMemory (Memory.store_of_not_fits hFits))
    rw [run_store, run_bind_of_error hStore, Machine.withMemory_self hMemory]
    rfl

/-! ### Two accesses -/

theorem size_after (a : Access) (memory : Memory) : (a.after memory).size = memory.size := by
  cases a with
  | load op address offset => rfl
  | store op address offset v typed => exact Memory.size_stored ..

theorem result_after (hA : a.place + a.width ≤ memory.size)
    (hB : b.place + b.width ≤ memory.size) (hApart : a.Disjoint b) :
    a.result (b.after memory) = a.result memory := by
  cases b with
  | load op address offset => rfl
  | store op address offset v typed =>
    have hNumber := Memory.number_stored_of_disjoint (n := v.toNat) hB hA hApart
    cases a with
    | load op' address' offset' => exact congrArg (some <| op'.value ·) hNumber
    | store op' address' offset' v' typed' => rfl

theorem after_comm (hA : a.place + a.width ≤ memory.size)
    (hB : b.place + b.width ≤ memory.size) (hApart : a.Disjoint b) :
    a.after (b.after memory) = b.after (a.after memory) := by
  cases a with
  | load op address offset => rfl
  | store op address offset v typed =>
    cases b with
    | load op' address' offset' => rfl
    | store op' address' offset' v' typed' => exact Memory.stored_comm hB hA hApart _

/-- How an access ends on a memory, and the memory that it leaves. -/
def outcome (a : Access) (memory : Memory) : Except Trap (Option Value) × Memory :=
  if a.place + a.width ≤ memory.size then (.ok (a.result memory), a.after memory)
  else (.error (.memoryAccessOutOfBounds a.place a.width memory.size), memory)

theorem attempt_eq (hMemory : m.store.memories[0]? = some memory) (a : Access) :
    a.attempt m = .ok (a.outcome memory).1 (m.withMemory (a.outcome memory).2) := by
  unfold attempt outcome
  by_cases hFits : a.place + a.width ≤ memory.size
  · rw [run_of_fits hMemory hFits, if_pos hFits]
  · rw [run_of_not_fits hMemory hFits, if_neg hFits, Machine.withMemory_self hMemory]

theorem size_outcome (a : Access) (memory : Memory) : (a.outcome memory).2.size = memory.size := by
  unfold outcome
  split
  · exact size_after a memory
  · rfl

/-- An access does not notice what happens to other bytes, whether it succeeds or traps. -/
theorem outcome_after (memory : Memory) (hApart : a.Disjoint b) :
    (a.outcome (b.outcome memory).2).1 = (a.outcome memory).1 := by
  have hSize := size_outcome b memory
  unfold outcome at hSize ⊢
  rw [hSize]
  by_cases hA : a.place + a.width ≤ memory.size
  · rw [if_pos hA, if_pos hA]
    by_cases hB : b.place + b.width ≤ memory.size
    · rw [if_pos hB]
      exact congrArg Except.ok (result_after hA hB hApart)
    · rw [if_neg hB]
  · rw [if_neg hA, if_neg hA]

theorem outcome_comm (memory : Memory) (hApart : a.Disjoint b) :
    (b.outcome (a.outcome memory).2).2 = (a.outcome (b.outcome memory).2).2 := by
  unfold outcome
  -- An access that traps leaves the memory as it is, so the order matters only where both fit.
  by_cases hA : a.place + a.width ≤ memory.size <;>
    by_cases hB : b.place + b.width ≤ memory.size <;>
    simp only [hA, hB, size_after, if_true, if_false]
  exact (after_comm hA hB hApart).symm

/-- Two accesses to different bytes end in the same ways and leave the same machine, whichever
comes first. -/
theorem attempt_comm (hMemory : m.store.memories[0]? = some memory) (hApart : a.Disjoint b) :
    (do let x ← a.attempt; let y ← b.attempt; return (x, y) : Exec _) m =
      (do let y ← b.attempt; let x ← a.attempt; return (x, y) : Exec _) m := by
  rw [run_bind_of_ok (attempt_eq hMemory a), run_bind_of_ok (attempt_eq hMemory b),
    run_bind_of_ok (attempt_eq (Machine.memories_withMemory hMemory _) b),
    run_bind_of_ok (attempt_eq (Machine.memories_withMemory hMemory _) a),
    Machine.withMemory_withMemory, Machine.withMemory_withMemory, outcome_comm memory hApart,
    outcome_after memory hApart, outcome_after memory hApart.symm]

/-- A load finds the low bytes of the value that was stored at its address. -/
theorem run_load_of_stored (hMemory : m.store.memories[0]? = some memory) {op : StoreOp}
    {address : BitVec 32} {offset : UInt32} {v : Value} {typed : v.type = op.type} {op' : LoadOp}
    {address' : BitVec 32} {offset' : UInt32}
    (hPlace : (load op' address' offset').place = (store op address offset v typed).place)
    (hWidth : op'.bytes = op.bytes)
    (hFits : (store op address offset v typed).place + op.bytes ≤ memory.size) :
    ∃ w m', op'.Widens (v.toNat % Nat.pow 256 op.bytes) w ∧
      ((store op address offset v typed).run >>= fun _ => (load op' address' offset').run) m =
        .ok (some w) m' := by
  obtain ⟨-, hStored, -⟩ := does_after (a := store op address offset v typed) hFits
  have hFits' : (load op' address' offset').place + op'.bytes ≤
      ((store op address offset v typed).after memory).size := by
    rwa [size_after, hPlace, hWidth]
  obtain ⟨-, n, w, hSpells, hWidens, hResult⟩ := does_after (a := load op' address' offset') hFits'
  have hNumber : n = v.toNat % Nat.pow 256 op.bytes := by
    have hWidth' : (load op' address' offset').width = (store op address offset v typed).width :=
      hWidth
    rw [hPlace, hWidth'] at hSpells
    exact hSpells.unique hStored
  subst hNumber
  have hLoad := run_of_fits (a := load op' address' offset')
    (Machine.memories_withMemory hMemory _) hFits'
  rw [hResult] at hLoad
  exact ⟨w, _, hWidens, (run_bind_of_ok (run_of_fits hMemory hFits) _).trans hLoad⟩

/-- Loads and stores see the first memory as a map from places to bytes. An access succeeds exactly
if its bytes are inside the memory, and traps without effect otherwise. What was stored is found by
a load of the same bytes, and accesses to different bytes can change places. -/
theorem byte_map (hMemory : m.store.memories[0]? = some memory) :
    (∀ a : Access,
      (a.place + a.width ≤ memory.size → ∃ result after,
        a.Does memory result after ∧ a.run m = .ok result (m.withMemory after)) ∧
      (memory.size < a.place + a.width →
        a.run m = .error (.memoryAccessOutOfBounds a.place a.width memory.size) m)) ∧
    (∀ (op : StoreOp) (address : BitVec 32) (offset : UInt32) (v : Value) (typed : v.type = op.type)
        (op' : LoadOp) (address' : BitVec 32) (offset' : UInt32),
      (load op' address' offset').place = (store op address offset v typed).place →
      op'.bytes = op.bytes → (store op address offset v typed).place + op.bytes ≤ memory.size →
      ∃ w m', op'.Widens (v.toNat % Nat.pow 256 op.bytes) w ∧
        ((store op address offset v typed).run >>= fun _ => (load op' address' offset').run) m =
          .ok (some w) m') ∧
    ∀ a b : Access, a.Disjoint b →
      (do let x ← a.attempt; let y ← b.attempt; return (x, y) : Exec _) m =
        (do let y ← b.attempt; let x ← a.attempt; return (x, y) : Exec _) m :=
  ⟨fun _ => ⟨fun hFits => ⟨_, _, does_after hFits, run_of_fits hMemory hFits⟩,
      fun hBeyond => run_of_not_fits hMemory (Nat.not_le.2 hBeyond)⟩,
    fun _ _ _ _ _ _ _ _ hPlace hWidth hFits => run_load_of_stored hMemory hPlace hWidth hFits,
    fun _ _ hApart => attempt_comm hMemory hApart⟩

/-- A memory of one page of zeros. -/
def page : Memory :=
  { data := Memory.zeros pageSize, pages := 1, max := none, ceiling := maxPages }

/-- A machine at rest whose first memory is `page`. -/
def pageMachine : Machine :=
  { store := { globals := #[], memories := #[page], tables := #[], callCounts := #[] } }

theorem size_page : page.size = 65536 := Memory.size_zeros _

/-- The last two bytes of a page take the low half of a number, which a signed load widens to a
negative one. One byte further on neither a load nor a store is possible. -/
theorem byte_map_at_end : pageMachine.store.memories[0]? = some page ∧
    (∃ bits : BitVec 32, bits.toInt = -30875 ∧
      ∃ m', ((store (.packed .i32 .bits16) 65500 34 (.i32 0x12348765) rfl).run >>= fun _ =>
        (load (.packed .i32 .bits16 .signed) 65534 0).run) pageMachine =
          .ok (some (.i32 bits)) m') ∧
    (load (.packed .i32 .bits16 .signed) 65534 1).run pageMachine =
      .error (.memoryAccessOutOfBounds 65535 2 65536) pageMachine ∧
    (store (.full .f64) (-1) 0xffffffff (.f64 0x7ff0000000000001) rfl).run pageMachine =
      .error (.memoryAccessOutOfBounds 8589934590 8 65536) pageMachine := by
  have hMemory : pageMachine.store.memories[0]? = some page := rfl
  obtain ⟨hExact, hFound, -⟩ := byte_map hMemory
  refine ⟨hMemory, ?_, ?_, ?_⟩
  · obtain ⟨w, m', ⟨bits, rfl, hBits⟩, hRun⟩ := hFound (.packed .i32 .bits16) 65500 34
      (.i32 0x12348765) rfl (.packed .i32 .bits16 .signed) 65534 0 rfl rfl
      (by rw [size_page]; decide)
    exact ⟨bits, hBits.trans (by decide), m', hRun⟩
  · have hTrap := (hExact (load (.packed .i32 .bits16 .signed) 65534 1)).2
    rw [size_page] at hTrap
    exact hTrap (by decide)
  · have hTrap := (hExact (store (.full .f64) (-1) 0xffffffff (.f64 0x7ff0000000000001) rfl)).2
    rw [size_page] at hTrap
    exact hTrap (by decide)

end Access

end WasmMachine
