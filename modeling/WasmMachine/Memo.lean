import Std.Data.HashMap
import WasmMachine.Blocks
import WasmMachine.Frame

/-!
# Memo tables

The machine remembers what it decoded at a place in code: the number and the offset past it for
an operand, the delimiters for a block. A body never changes, so its entries stay valid; the
driver sequence changes with every invocation, and its entries are dropped first.

Unsigned 32-bit operands and signed ones share the table. They are widened to 64 bits when they
are stored and narrowed when they are used.
-/

namespace WasmMachine

/-- The operands decoded so far and how often one was found again. -/
structure ImmediateCache where
  entries : Std.HashMap CodePoint (BitVec 64 × Nat) := {}
  hits : Nat := 0

namespace ImmediateCache

/-- The entry of a place. -/
def find? (c : ImmediateCache) (place : CodePoint) : Option (BitVec 64 × Nat) :=
  c.entries[place]?

/-- Counts a hit. -/
def countHit (c : ImmediateCache) : ImmediateCache := { c with hits := c.hits + 1 }

/-- The entry of a place, with the hit counted if there is one. -/
def lookup (c : ImmediateCache) (place : CodePoint) :
    Option (BitVec 64 × Nat) × ImmediateCache :=
  match c.find? place with
  | some entry => (some entry, c.countHit)
  | none => (none, c)

/-- Remembers a number and the offset past it. -/
def insert (c : ImmediateCache) (place : CodePoint) (value : BitVec 64) (next : Nat) :
    ImmediateCache :=
  { c with entries := c.entries.insert place (value, next) }

/-- Forgets all entries of a code buffer. -/
def invalidate (c : ImmediateCache) (code : CodeRef) : ImmediateCache :=
  { c with entries := c.entries.filter fun place _ => place.code ≠ code }

/-- The number of entries. -/
def size (c : ImmediateCache) : Nat := c.entries.size

/-- Whether there are no entries. -/
def isEmpty (c : ImmediateCache) : Bool := c.entries.isEmpty

end ImmediateCache

/-- The block delimiters found so far. -/
structure TargetCache where
  entries : Std.HashMap CodePoint BlockTargets := {}

namespace TargetCache

/-- The entry of a place. -/
def find? (c : TargetCache) (place : CodePoint) : Option BlockTargets := c.entries[place]?

/-- Remembers the delimiters of the block whose opcode stands at a place. -/
def insert (c : TargetCache) (place : CodePoint) (targets : BlockTargets) : TargetCache :=
  { c with entries := c.entries.insert place targets }

/-- Forgets all entries of a code buffer. -/
def invalidate (c : TargetCache) (code : CodeRef) : TargetCache :=
  { c with entries := c.entries.filter fun place _ => place.code ≠ code }

/-- The number of entries. -/
def size (c : TargetCache) : Nat := c.entries.size

/-- Whether there are no entries. -/
def isEmpty (c : TargetCache) : Bool := c.entries.isEmpty

end TargetCache

end WasmMachine
