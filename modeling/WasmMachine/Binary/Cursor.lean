import WasmMachine.Binary.Error

/-!
# Reading a byte string

A cursor is a byte string with a position inside it. Readers run in `Reader`, which keeps the
cursor as a failing reader left it. A number that cannot be read is reported at its start, all
else at the position that the cursor has reached.
-/

namespace WasmMachine

/-- A byte string and a position in it. -/
structure Cursor where
  bytes : Bytes
  pos : Nat
  /-- The position is at most the end. -/
  pos_le_size : pos ≤ bytes.size

/-- Readers, which move a cursor and may fail. -/
abbrev Reader := EStateM LoadError Cursor

namespace Cursor

/-- The cursor at the start of a byte string. -/
def start (bytes : Bytes) : Cursor := ⟨bytes, 0, Nat.zero_le _⟩

/-- The number of bytes that are left. -/
def remaining (c : Cursor) : Nat := c.bytes.size - c.pos

/-- Moves to a position, or to the end for a position beyond it. -/
def moveTo (c : Cursor) (pos : Nat) : Cursor :=
  ⟨c.bytes, min pos c.bytes.size, Nat.min_le_right _ _⟩

/-- The bytes between two positions. -/
def slice (c : Cursor) (first last : Nat) : Bytes := c.bytes.extract first last

end Cursor

namespace Reader

/-! ## Bytes -/

/-- The position that has been reached. -/
def position : Reader Nat := fun c => .ok c.pos c

/-- Fails at the position that has been reached. -/
def failHere {α : Type} (fault : LoadFault) : Reader α := fun c => .error ⟨fault, c.pos⟩ c

/-- Fails at a position. -/
def failAt {α : Type} (fault : LoadFault) (offset : Nat) : Reader α := throw ⟨fault, offset⟩

/-- Whether at least `count` bytes are left. -/
def hasAtLeast (count : Nat) : Reader Bool := fun c => .ok (decide (count ≤ c.remaining)) c

/-- The next byte, or nothing at the end. -/
def next? : Reader (Option UInt8) := fun c =>
  if h : c.pos < c.bytes.size then
    .ok (some c.bytes[c.pos]) { c with pos := c.pos + 1, pos_le_size := h }
  else .ok none c

/-- The next byte. -/
def byte : Reader UInt8 := do
  match ← next? with
  | some b => return b
  | none => failHere .unexpectedEof

/-- The next `len` bytes. -/
def bytes (len : Nat) : Reader Bytes := fun c =>
  if len ≤ c.remaining then .ok (c.slice c.pos (c.pos + len)) (c.moveTo (c.pos + len))
  else .error ⟨.unexpectedEof, c.pos⟩ c

/-- A little-endian number of `width` bytes. -/
def fixed (width : Nat) : Reader Nat := do
  return littleEndian (← bytes width).toList

/-! ## Numbers -/

/-- Runs a LEB128 decoder for numbers of `width` bits at the position of the cursor. -/
def varint {α : Type} (width : Nat) (decode : Bytes → Nat → Except VarintError (α × Nat)) :
    Reader α := fun c =>
  match decode c.bytes c.pos with
  | .ok (v, next) => .ok v (c.moveTo next)
  | .error e => .error ⟨.varint e, c.pos⟩ (c.moveTo (Leb128.stopAfter c.bytes width c.pos e))

/-- An unsigned 32-bit number. -/
def u32 : Reader UInt32 := varint 32 Leb128.decodeU32

/-- A signed 32-bit number. -/
def s32 : Reader (BitVec 32) := varint 32 Leb128.decodeS32

/-- A signed 64-bit number. -/
def s64 : Reader (BitVec 64) := varint 64 Leb128.decodeS64

/-! ## Strings and vectors -/

/-- A byte string after its length. -/
def byteVector : Reader Bytes := do
  let len ← u32
  bytes len.toNat

/-- A text in UTF-8 after its length in bytes. -/
def string : Reader String := do
  let len ← u32
  let start ← position
  let content ← bytes len.toNat
  match String.fromUTF8? ⟨content⟩ with
  | some text => return text
  | none => failAt .invalidUtf8 start

/-- Runs a reader `count` times and adds what it gives to `found`. -/
def collect {α : Type} (item : Reader α) : (count : Nat) → (found : Array α) → Reader (Array α)
  | 0, found => pure found
  | count + 1, found => do
    let a ← item
    collect item count (found.push a)

/-- Items after their number. -/
def vector {α : Type} (item : Reader α) : Reader (Array α) := do
  let count ← u32
  collect item count.toNat #[]

end Reader

end WasmMachine
