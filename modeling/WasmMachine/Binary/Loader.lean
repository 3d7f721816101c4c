import WasmMachine.Binary.Section
import WasmMachine.Journal

/-!
# Loading a module

The loader checks the header, then reads section after section: the declared length must be
there, the ids of all but custom sections must ascend, and a section must consume exactly its
length. At the end there must be as many bodies as functions.

* `loadSections` goes from one section to the next; it ends because every section takes at
  least the byte of its id.
* `Module.loadRecorded` also gives the events of the sections that were read, for a failed load
  too; `Module.load` gives the module alone.
-/

namespace WasmMachine

/-- The four bytes that open a binary module, as a number. -/
def magicNumber : Nat := 0x6d736100

/-- The version that is understood. -/
def supportedVersion : Nat := 1

/-- The greatest section id. -/
def maxSectionId : UInt8 := 11

/-- What has been loaded after some sections. -/
structure LoadProgress where
  module : Module
  /-- The last id of a section that was not a custom one. -/
  previous : UInt8 := 0
  journal : Journal

/-- Where a section starts and what its header says. -/
structure SectionHeader where
  id : UInt8
  len : UInt32
  /-- The offset of the payload. -/
  payload : Nat
  deriving DecidableEq, Repr

/-- Reads the id and the length of the section at `pos`, whose payload must be there. -/
def readSectionHeader (bytes : Bytes) (pos : Nat) : Except LoadError SectionHeader :=
  match bytes[pos]? with
  | none => .error ⟨.unexpectedEof, pos⟩
  | some id =>
    match Leb128.decodeU32 bytes (pos + 1) with
    | .error e => .error ⟨.varint e, pos + 1⟩
    | .ok (len, payload) =>
      if payload + len.toNat ≤ bytes.size then .ok { id, len, payload }
      else .error ⟨.unexpectedEof, payload⟩

/-- A header that is read ends beyond the start of the section and inside the bytes. -/
theorem readSectionHeader_bounds {bytes : Bytes} {pos : Nat} {header : SectionHeader}
    (h : readSectionHeader bytes pos = .ok header) :
    pos < header.payload ∧ header.payload + header.len.toNat ≤ bytes.size := by
  unfold readSectionHeader at h
  split at h
  · cases h
  · split at h
    · cases h
    · rename_i hDecode
      split at h
      · rename_i hFits
        cases h
        exact ⟨Nat.lt_of_succ_lt (Leb128.decodeU32_bounds hDecode).1, hFits⟩
      · cases h

/-- The id that later sections must exceed, unless the section is out of order. -/
def checkOrder (previous : UInt8) (pos : Nat) (id : UInt8) : Except LoadError UInt8 :=
  if id = 0 then .ok previous
  else if maxSectionId < id then .error ⟨.invalidSectionId id, pos⟩
  else if id ≤ previous then .error ⟨.sectionOutOfOrder id previous, pos⟩
  else .ok id

/-- Reads the payload of a section and checks that it consumes exactly the declared length. -/
def readPayload (bytes : Bytes) (header : SectionHeader) (typeCount : Nat) :
    Except LoadError Section :=
  match readSection header.id header.len.toNat typeCount
      ((Cursor.start bytes).moveTo header.payload) with
  | .error e _ => .error e
  | .ok content c =>
    let consumed := c.pos - header.payload
    if consumed = header.len.toNat then .ok content
    else
      .error ⟨.sectionSizeMismatch header.id header.len.toNat consumed, header.payload⟩

/-- The events of a section that was read. -/
def sectionEvents (header : SectionHeader) : Section → List Event
  | .custom c =>
    [.customSection c.name c.bytes.size, .sectionRead header.id header.len.toNat]
  | _ => [.sectionRead header.id header.len.toNat]

/-- The progress after the section with the given header. -/
def loadSection (bytes : Bytes) (pos : Nat) (header : SectionHeader) (p : LoadProgress) :
    Except LoadError LoadProgress := do
  let previous ← checkOrder p.previous pos header.id
  let content ← readPayload bytes header p.module.types.size
  return {
    module := p.module.extend content
    previous
    journal := p.journal.noteAll (sectionEvents header content) }

/-- Loads all sections from `pos` on. Gives the progress up to the end or up to the section that
failed, with its error. -/
def loadSections (bytes : Bytes) (pos : Nat) (p : LoadProgress) :
    LoadProgress × Option LoadError :=
  if pos < bytes.size then
    match hHeader : readSectionHeader bytes pos with
    | .error e => (p, some e)
    | .ok header =>
      have := readSectionHeader_bounds hHeader
      match loadSection bytes pos header p with
      | .error e => (p, some e)
      | .ok p => loadSections bytes (header.payload + header.len.toNat) p
  else (p, none)
termination_by bytes.size - pos

/-- Checks the eight bytes of the header. -/
def readHeader : Reader Unit := do
  let magic ← Reader.fixed 4
  if magic ≠ magicNumber then Reader.failAt (.invalidMagic magic) 0
  else
    let version ← Reader.fixed 4
    if version ≠ supportedVersion then Reader.failAt (.invalidVersion version) 4

namespace Module

/-- Loads a module and records the phases of loading. -/
def loadRecorded (name : String) (bytes : Bytes) (journal : Journal) :
    Except LoadError Module × Journal :=
  match readHeader (Cursor.start bytes) with
  | .error e _ => (.error e, journal)
  | .ok _ c =>
    match loadSections bytes c.pos { module := { name }, journal } with
    | (p, some e) => (.error e, p.journal)
    | (p, none) =>
      let m := p.module
      if m.functions.size ≠ m.code.size then
        (.error ⟨.functionCountMismatch m.functions.size m.code.size, bytes.size⟩, p.journal)
      else
        (.ok m,
          p.journal.note
            (.moduleLoaded m.name m.types.size m.functions.size m.exports.size))

/-- Loads a module from its bytes. -/
def load (name : String) (bytes : Bytes) : Except LoadError Module :=
  (loadRecorded name bytes {}).1

end Module

end WasmMachine
