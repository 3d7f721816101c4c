import WasmMachine.Trap

/-!
# Linear memory

One growable buffer of bytes, counted in pages of 64 KiB and zero where nothing was written.
Every access is checked against the current size before the buffer is touched, so an access
that does not fit traps and changes nothing. Numbers are stored with their least significant
byte first.

* `Memory.create` and `Memory.grow` keep the size within the declared maximum and the ceiling.
* `Memory.load` and `Memory.store` read and write a number of some bytes at an address.
-/

namespace WasmMachine

/-- The size of a page in bytes. -/
def pageSize : Nat := 65536

/-- The greatest page count of a 32-bit address space. -/
def maxPages : Nat := 65536

/-- A linear memory. -/
structure Memory where
  data : ByteArray
  /-- The current size in pages. -/
  pages : Nat
  /-- The declared maximum in pages. -/
  max : Option UInt32
  /-- A bound on the size that holds beside the declared maximum. -/
  ceiling : Nat

/-- Operations on a memory that may trap. -/
abbrev MemoryM := EStateM Trap Memory

namespace Memory

/-- A buffer of zeros. -/
def zeros (count : Nat) : ByteArray := ⟨Array.replicate count 0⟩

/-- The greatest size in pages that a declared maximum and a ceiling allow. -/
def pageLimit (max : Option UInt32) (ceiling : Nat) : Nat :=
  match max with
  | some max => min max.toNat ceiling
  | none => ceiling

/-- The greatest size in pages that a memory may reach. -/
def limit (m : Memory) : Nat := pageLimit m.max m.ceiling

/-- A memory of zeros, unless its size exceeds what it is allowed. -/
def create (initial : UInt32) (max : Option UInt32) (ceiling : UInt32) : Except Trap Memory :=
  let ceiling := min ceiling.toNat maxPages
  let limit := pageLimit max ceiling
  if limit < initial.toNat then .error (.memoryExceedsMax initial.toNat limit)
  else
    .ok { data := zeros (initial.toNat * pageSize), pages := initial.toNat, max, ceiling }

/-- The size in bytes. -/
def size (m : Memory) : Nat := m.data.size

/-- Grows by some pages of zeros and gives the previous size in pages, or gives nothing and
leaves the memory as it is when the new size would exceed the limit. -/
def grow (m : Memory) (delta : UInt32) : Option Nat × Memory :=
  let current := m.pages
  let pages := current + delta.toNat
  if m.limit < pages then (none, m)
  else
    let missing := pages * pageSize - m.data.size
    (some current, { m with data := m.data ++ zeros missing, pages })

/-! ## Access -/

/-- Whether an access of `width` bytes at an address stays inside the memory. -/
def fits (m : Memory) (address width : Nat) : Bool := address + width ≤ m.size

/-- The trap of an access that does not fit. -/
def outOfBounds (m : Memory) (address width : Nat) : Trap :=
  .memoryAccessOutOfBounds address width m.size

/-- The bytes from an address on, at most `count` of them. -/
def bytesFrom (data : ByteArray) : (address count : Nat) → List UInt8
  | _, 0 => []
  | address, count + 1 =>
    if h : address < data.size then data.get address h :: bytesFrom data (address + 1) count
    else []

/-- Writes bytes one after the other from an address on. -/
def setBytes (data : ByteArray) (address : Nat) : List UInt8 → ByteArray
  | [] => data
  | b :: rest =>
    if h : address < data.size then setBytes (data.set address b h) (address + 1) rest
    else data

/-- Reads `len` bytes at an address. -/
def readBytes (m : Memory) (address len : Nat) : Except Trap (List UInt8) :=
  if m.fits address len then .ok (bytesFrom m.data address len)
  else .error (m.outOfBounds address len)

/-- Reads the little-endian number in `width` bytes at an address. -/
def load (m : Memory) (address width : Nat) : Except Trap Nat :=
  (m.readBytes address width).map littleEndian

/-- Writes bytes at an address. -/
def writeBytes (address : Nat) (bytes : List UInt8) : MemoryM Unit := fun m =>
  if m.fits address bytes.length then .ok () { m with data := setBytes m.data address bytes }
  else .error (m.outOfBounds address bytes.length) m

/-- Writes the low `width` bytes of a number at an address, least significant byte first. -/
def store (address width n : Nat) : MemoryM Unit := writeBytes address (toLittleEndian width n)

end Memory

end WasmMachine
