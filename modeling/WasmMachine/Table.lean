import WasmMachine.Trap

/-!
# Function tables

A table holds a function index or nothing in each of its slots. Its size is fixed when it is
created; only element segments write to it.
-/

namespace WasmMachine

/-- A function table. -/
structure Table where
  slots : Array (Option UInt32)
  limits : Limits
  deriving DecidableEq, Repr

/-- Operations on a table that may trap. -/
abbrev TableM := EStateM Trap Table

namespace Table

/-- A table of empty slots, unless its size exceeds the declared maximum or the ceiling. -/
def create (limits : Limits) (ceiling : UInt32) : Except Trap Table :=
  let maximum :=
    match limits.max with
    | some max => min max.toNat ceiling.toNat
    | none => ceiling.toNat
  if maximum < limits.min.toNat then .error (.tableExceedsMax limits.min.toNat maximum)
  else .ok { slots := Array.replicate limits.min.toNat none, limits }

/-- The number of slots. -/
def size (t : Table) : Nat := t.slots.size

/-- The function in a slot, or nothing for an empty slot. -/
def get (t : Table) (slot : UInt32) : Except Trap (Option UInt32) :=
  match t.slots[slot.toNat]? with
  | some function => .ok function
  | none => .error (.tableAccessOutOfBounds slot)

/-- Fills slots from `start` on, as far as there are slots. -/
def fill (slots : Array (Option UInt32)) (start : Nat) : List UInt32 → Array (Option UInt32)
  | [] => slots
  | f :: rest => fill (slots.setIfInBounds start (some f)) (start + 1) rest

/-- Writes an element segment, unless it does not fit. -/
def writeElements (offset : UInt32) (functions : List UInt32) : TableM Unit := fun t =>
  if offset.toNat + functions.length ≤ t.size then
    .ok () { t with slots := fill t.slots offset.toNat functions }
  else .error (.elementsExceedTable offset.toNat functions.length t.size) t

end Table

end WasmMachine
