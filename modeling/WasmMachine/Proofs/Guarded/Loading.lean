import WasmMachine.Proofs.Binary.Readers
import WasmMachine.Proofs.Guarded.Basic

/-!
# Loading with guards

The readers once more, on a byte string with a position that nothing keeps inside it. The number of
bytes that are left, the bytes that are taken and the differences between positions are guarded.
They are in range for every byte string, because a reader moves by bytes that it has found, and
never back.

* `ScanM.Agrees`: at a cursor, a guarded reader does what the reader does.
* `ScanM.agrees_readSection`: the guarded section readers.
* `Guarded.loadModule_eq`: guarded loading is loading.
-/

namespace WasmMachine

/-- A byte string and any position. -/
structure Scan where
  bytes : Bytes
  pos : Nat

/-- Guarded readers. -/
abbrev ScanM := StateT Scan (Except (Stop LoadError))

namespace ScanM

variable {α β : Type}

/-! ## Guarded readers -/

/-- Performs an unchecked operation under its condition. -/
def require (op : Unchecked) (p : Scan → Prop) [DecidablePred p] : ScanM Unit := fun c =>
  if p c then .ok ((), c) else .error (.broken op)

def position : ScanM Nat := fun c => .ok (c.pos, c)

def failAt (fault : LoadFault) (offset : Nat) : ScanM α := fun _ => .error (.raised ⟨fault, offset⟩)

def failHere (fault : LoadFault) : ScanM α := fun c => .error (.raised ⟨fault, c.pos⟩)

/-- The number of bytes that are left. -/
def remaining : ScanM Nat := do
  require .bytesLeft fun c => c.pos ≤ c.bytes.size
  return (← get).bytes.size - (← get).pos

def hasAtLeast (count : Nat) : ScanM Bool := do return decide (count ≤ (← remaining))

def next? : ScanM (Option UInt8) := fun c =>
  if h : c.pos < c.bytes.size then .ok (some c.bytes[c.pos], { c with pos := c.pos + 1 })
  else .ok (none, c)

def byte : ScanM UInt8 := do
  match ← next? with
  | some b => return b
  | none => failHere .unexpectedEof

/-- The bytes between two positions. -/
def slice (op : Unchecked) (first last : Nat) : ScanM Bytes := do
  require op fun c => first ≤ last ∧ last ≤ c.bytes.size
  return (← get).bytes.extract first last

/-- Goes on at a position, whether or not it is inside the bytes. -/
def moveTo (pos : Nat) : ScanM Unit := modify fun c => { c with pos }

def bytes (len : Nat) : ScanM Bytes := do
  if ← hasAtLeast len then
    let start ← position
    let taken ← slice .bytesTaken start (start + len)
    moveTo (start + len)
    return taken
  else failHere .unexpectedEof

def fixed (width : Nat) : ScanM Nat := do return littleEndian (← bytes width).toList

def varint (decode : Bytes → Nat → Except VarintError (α × Nat)) : ScanM α := fun c =>
  match decode c.bytes c.pos with
  | .ok (v, next) => .ok (v, { c with pos := next })
  | .error e => .error (.raised ⟨.varint e, c.pos⟩)

def u32 : ScanM UInt32 := varint Leb128.decodeU32

def s32 : ScanM (BitVec 32) := varint Leb128.decodeS32

def s64 : ScanM (BitVec 64) := varint Leb128.decodeS64

def byteVector : ScanM Bytes := do
  let len ← u32
  bytes len.toNat

def string : ScanM String := do
  let len ← u32
  let start ← position
  let content ← bytes len.toNat
  match String.fromUTF8? ⟨content⟩ with
  | some text => return text
  | none => failAt .invalidUtf8 start

def collect (item : ScanM α) : (count : Nat) → (found : Array α) → ScanM (Array α)
  | 0, found => pure found
  | count + 1, found => do
    let a ← item
    collect item count (found.push a)

def vector (item : ScanM α) : ScanM (Array α) := do
  let count ← u32
  collect item count.toNat #[]

def valueType : ScanM ValueType := do
  let pos ← position
  let b ← byte
  match ValueType.ofByte? b with
  | some t => return t
  | none => failAt (.invalidValueType b) pos

def resultTypes : ScanM (List ValueType) := do return (← vector valueType).toList

def functionType : ScanM FunctionType := do
  let pos ← position
  let form ← byte
  if form ≠ 0x60 then failAt (.invalidFunctionType form) pos
  else
    let parameters ← resultTypes
    let results ← resultTypes
    return { parameters, results }

def limits : ScanM Limits := do
  let pos ← position
  let flag ← byte
  if flag = 0 then
    let min ← u32
    return { min, max := none }
  else if flag = 1 then
    let min ← u32
    let max ← u32
    return { min, max := some max }
  else failAt (.invalidLimits flag) pos

def tableType : ScanM Limits := do
  let pos ← position
  let element ← byte
  if element ≠ 0x70 then failAt (.invalidElementType element) pos else limits

def globalType : ScanM GlobalType := do
  let type ← valueType
  let pos ← position
  let flag ← byte
  if flag = 0 then return { type, isMutable := false }
  else if flag = 1 then return { type, isMutable := true }
  else failAt (.invalidGlobalSignature flag) pos

def initOperands (opcode : UInt8) (pos : Nat) : ScanM Unit :=
  match (Opcode.ofByte? opcode).map Opcode.operands with
  | some .empty => pure ()
  | some .varU32 => do let _ ← u32
  | some .varS32 => do let _ ← s32
  | some .varS64 => do let _ ← s64
  | some .float32 => do let _ ← bytes 4
  | some .float64 => do let _ ← bytes 8
  | _ => failAt (.invalidInitExpr opcode) pos

/-- Reads instructions up to the first `end`. The operands of each one are taken as a slice. -/
def initInstructions : (fuel : Nat) → ScanM Unit
  | 0 => failHere .unexpectedEof
  | fuel + 1 => do
    let pos ← position
    let opcode ← byte
    if opcode = endByte then return
    else
      let operands ← position
      initOperands opcode pos
      let _ ← slice .operandBytes operands (← position)
      initInstructions fuel

def initExpr : ScanM Bytes := do
  let start ← position
  let left ← remaining
  initInstructions (left + 1)
  slice .operandBytes start (← position)

def importEntry : ScanM Import := do
  let module ← string
  let name ← string
  let pos ← position
  let kind ← byte
  if kind = 0 then return { module, name, kind := .function (← u32) }
  else if kind = 1 then return { module, name, kind := .table (← tableType) }
  else if kind = 2 then return { module, name, kind := .memory (← limits) }
  else if kind = 3 then return { module, name, kind := .global (← globalType) }
  else failAt (.invalidExternalKind kind) pos

def typeIndex (typeCount : Nat) : ScanM UInt32 := do
  let pos ← position
  let index ← u32
  if typeCount ≤ index.toNat then failAt (.typeIndexOutOfBounds index) pos else return index

def globalEntry : ScanM GlobalDecl := do
  let type ← globalType
  let init ← initExpr
  return { type, init }

def exportEntry : ScanM Export := do
  let name ← string
  let pos ← position
  let kind ← byte
  let index ← u32
  if kind = 0 then return { name, target := .function index }
  else if kind = 1 then return { name, target := .table index }
  else if kind = 2 then return { name, target := .memory index }
  else if kind = 3 then return { name, target := .global index }
  else failAt (.invalidExternalKind kind) pos

def elementEntry : ScanM ElementSegment := do
  let table ← u32
  let offset ← initExpr
  let functions ← vector u32
  return { table, offset, functions }

def dataEntry : ScanM DataSegment := do
  let memory ← u32
  let offset ← initExpr
  let bytes ← byteVector
  return { memory, offset, bytes }

def localRuns : (count : Nat) → (found : Array ValueType) → ScanM (Array ValueType)
  | 0, found => pure found
  | count + 1, found => do
    let pos ← position
    let n ← u32
    let total := found.size + n.toNat
    if maxLocals < total then failAt (.tooManyLocals total) pos
    else
      let type ← valueType
      localRuns count (found ++ Array.replicate n.toNat type)

/-- The number of bytes since a position. -/
def usedSince (start : Nat) : ScanM Nat := do
  require .bytesUsed fun c => start ≤ c.pos
  return (← get).pos - start

def bodyEntry : ScanM FunctionBody := do
  let size ← u32
  let start ← position
  if !(← hasAtLeast size.toNat) then failHere .unexpectedEof
  else
    let runs ← u32
    let locals ← localRuns runs.toNat #[]
    let position ← position
    let used ← usedSince start
    if size.toNat < used then failHere .unexpectedEof
    else
      let code ← bytes (size.toNat - used)
      if code.back? ≠ some endByte then failHere .unexpectedEof
      else return { locals, code, position }

def customSection (len : Nat) : ScanM CustomSection := do
  let start ← position
  let name ← string
  let used ← usedSince start
  if len < used then failHere .unexpectedEof
  else
    let bytes ← bytes (len - used)
    return { name, bytes }

def readSection (id : UInt8) (len typeCount : Nat) : ScanM Section :=
  match id.toNat with
  | 0 => return .custom (← customSection len)
  | 1 => return .types (← vector functionType)
  | 2 => return .imports (← vector importEntry)
  | 3 => return .functions (← vector (typeIndex typeCount))
  | 4 => return .tables (← vector tableType)
  | 5 => return .memories (← vector limits)
  | 6 => return .globals (← vector globalEntry)
  | 7 => return .exports (← vector exportEntry)
  | 8 => return .start (← u32)
  | 9 => return .elements (← vector elementEntry)
  | 10 => return .code (← vector bodyEntry)
  | 11 => return .data (← vector dataEntry)
  | _ => failHere (.invalidSectionId id)

def readHeader : ScanM Unit := do
  let magic ← fixed 4
  if magic ≠ magicNumber then failAt (.invalidMagic magic) 0
  else
    let version ← fixed 4
    if version ≠ supportedVersion then failAt (.invalidVersion version) 4

def sectionHeader : ScanM SectionHeader := do
  let id ← byte
  let len ← u32
  if ← hasAtLeast len.toNat then return { id, len, payload := ← position }
  else failHere .unexpectedEof

/-- A result without unchecked operations. -/
def ofExcept (x : Except LoadError α) : ScanM α := fun s => (Stop.ofExcept x).map (·, s)

/-- The content of a section whose payload starts at the position. -/
def readPayload (header : SectionHeader) (typeCount : Nat) : ScanM Section := do
  let start ← position
  let content ← readSection header.id header.len.toNat typeCount
  let consumed ← usedSince start
  if consumed = header.len.toNat then return content
  else failAt (.sectionSizeMismatch header.id header.len.toNat consumed) start

/-- The progress after the section at the position. -/
def nextSection (p : LoadProgress) : ScanM LoadProgress := do
  let pos ← position
  let header ← sectionHeader
  let previous ← ofExcept (checkOrder p.previous pos header.id)
  let content ← readPayload header p.module.types.size
  return {
    module := p.module.extend content
    previous
    journal := p.journal.noteAll (sectionEvents header content) }

/-- Reads sections as long as there are bytes, at most `fuel` of them. -/
def sections : (fuel : Nat) → LoadProgress → ScanM LoadProgress
  | 0, p => pure p
  | fuel + 1, p => do
    if ← hasAtLeast 1 then
      let p ← nextSection p
      sections fuel p
    else return p

/-- A module. Every section takes a byte at least, so there are never more sections than bytes. -/
def module (name : String) : ScanM Module := do
  let left ← remaining
  readHeader
  let { module := m, .. } ← sections (left + 1) { module := { name }, journal := {} }
  if m.functions.size ≠ m.code.size then
    failHere (.functionCountMismatch m.functions.size m.code.size)
  else return m

/-! ## Agreement -/

/-- At a cursor, a guarded reader does what the reader does. -/
def Agrees (g : ScanM α) (x : Reader α) (c : Cursor) : Prop :=
  g ⟨c.bytes, c.pos⟩ =
    match x c with
    | .ok a c' => .ok (a, ⟨c'.bytes, c'.pos⟩)
    | .error e _ => .error (.raised e)

variable {c : Cursor}

theorem agrees_pure (a : α) : Agrees (pure a) (pure a) c := rfl

theorem agrees_failAt (fault : LoadFault) (offset : Nat) :
    Agrees (failAt fault offset : ScanM α) (Reader.failAt fault offset) c := rfl

theorem agrees_failHere (fault : LoadFault) :
    Agrees (failHere fault : ScanM α) (Reader.failHere fault) c := rfl

theorem agrees_position : Agrees position Reader.position c := rfl

/-- A position that only the guarded reader looks at. -/
theorem agrees_at {k : Nat → ScanM α} {x : Reader α} (hk : Agrees (k c.pos) x c) :
    Agrees (position >>= k) x c := hk

/-- One reader after the other. The second one starts where the first one stopped. -/
theorem agrees_bind {g : ScanM α} {x : Reader α} {k : α → ScanM β} {f : α → Reader β}
    (hx : Agrees g x c) (hf : ∀ a c', x c = .ok a c' → Agrees (k a) (f a) c') :
    Agrees (g >>= k) (x >>= f) c := by
  unfold Agrees at hx ⊢
  change (g ⟨c.bytes, c.pos⟩).bind (fun p => k p.1 p.2) = match EStateM.bind x f c with
    | .ok a c' => _
    | .error e _ => _
  unfold EStateM.bind
  cases hResult : x c with
  | ok a c' =>
    rw [hResult] at hx
    rw [hx]
    exact hf a c' hResult
  | error e c' =>
    rw [hResult] at hx
    rw [hx]
    rfl

theorem agrees_ite {p : Prop} [Decidable p] {g g' : ScanM α} {x x' : Reader α}
    (h : p → Agrees g x c) (h' : ¬ p → Agrees g' x' c) :
    Agrees (if p then g else g') (if p then x else x') c := by
  by_cases hp : p
  · rw [if_pos hp, if_pos hp]
    exact h hp
  · rw [if_neg hp, if_neg hp]
    exact h' hp

/-- An unchecked operation whose condition holds. -/
theorem agrees_require {op : Unchecked} {p : Scan → Prop} [DecidablePred p] {k : Unit → ScanM α}
    {x : Reader α} (hp : p ⟨c.bytes, c.pos⟩) (hk : Agrees (k ()) x c) :
    Agrees (require op p >>= k) x c := by
  have hPass : (require op p >>= k) ⟨c.bytes, c.pos⟩ = k () ⟨c.bytes, c.pos⟩ := by
    change (require op p ⟨c.bytes, c.pos⟩).bind _ = _
    rw [require, if_pos hp]
    rfl
  exact hPass.trans hk

/-! ### Bytes and numbers -/

theorem agrees_remaining : Agrees remaining Reader.remaining c := agrees_require c.pos_le_size rfl

theorem agrees_hasAtLeast (count : Nat) :
    Agrees (hasAtLeast count) (Reader.hasAtLeast count) c := by
  have hBind : Agrees (hasAtLeast count)
      (Reader.remaining >>= fun left => pure (decide (count ≤ left))) c :=
    agrees_bind agrees_remaining fun _ _ _ => agrees_pure _
  exact hBind

theorem agrees_next? : Agrees next? Reader.next? c := by
  unfold Agrees next? Reader.next?
  split <;> rfl

theorem agrees_byte : Agrees byte Reader.byte c := by
  refine agrees_bind agrees_next? fun found c₁ _ => ?_
  cases found with
  | none => exact agrees_failHere _
  | some b => exact agrees_pure b

theorem slice_eq_ok {op : Unchecked} {first last : Nat} {s : Scan} (hOrder : first ≤ last)
    (hInside : last ≤ s.bytes.size) :
    slice op first last s = .ok (s.bytes.extract first last, s) := by
  change (require op (fun s => first ≤ last ∧ last ≤ s.bytes.size) s).bind _ = _
  have hPass : first ≤ last ∧ last ≤ s.bytes.size := ⟨hOrder, hInside⟩
  simp only [require, hPass, and_self, if_true]
  rfl

/-- Bytes that are taken are there: their number was compared with what is left. -/
theorem agrees_bytes (len : Nat) : Agrees (bytes len) (Reader.bytes len) c := by
  have hTest : Agrees (bytes len) (Reader.hasAtLeast len >>= fun enough =>
      if enough then Reader.bytes len else Reader.failHere .unexpectedEof) c := by
    refine agrees_bind (agrees_hasAtLeast len) fun enough c₁ hTest => ?_
    cases hTest
    refine agrees_ite (fun hEnough => ?_) fun _ => agrees_failHere _
    have hFits : len ≤ c.remaining := of_decide_eq_true hEnough
    have hInside : c.pos + len ≤ c.bytes.size := by
      have hPos := c.pos_le_size
      unfold Cursor.remaining at hFits
      omega
    have hTaken : Reader.bytes len c =
        .ok (c.bytes.extract c.pos (c.pos + len)) (c.moveTo (c.pos + len)) := if_pos hFits
    unfold Agrees
    rw [hTaken]
    change (slice .bytesTaken c.pos (c.pos + len) ⟨c.bytes, c.pos⟩).bind _ = _
    rw [slice_eq_ok (Nat.le_add_right _ _) hInside]
    change Except.ok (_, (⟨c.bytes, c.pos + len⟩ : Scan)) =
      .ok (_, ⟨c.bytes, (c.moveTo (c.pos + len)).pos⟩)
    rw [Cursor.pos_moveTo hInside]
  have hSame : (Reader.hasAtLeast len >>= fun enough =>
      if enough then Reader.bytes len else Reader.failHere .unexpectedEof) c =
        Reader.bytes len c := by
    change (if decide (len ≤ c.remaining) = true then Reader.bytes len
      else Reader.failHere .unexpectedEof : Reader Bytes) c = _
    by_cases hFits : len ≤ c.remaining
    · rw [if_pos (decide_eq_true hFits)]
    · rw [if_neg (by simpa using hFits), Reader.bytes, if_neg hFits]
      rfl
  unfold Agrees at hTest ⊢
  rw [hTest, hSame]

theorem agrees_fixed (width : Nat) : Agrees (fixed width) (Reader.fixed width) c :=
  agrees_bind (agrees_bytes width) fun _ _ _ => agrees_pure _

/-- Reading a number stays inside the bytes, so the position need not be kept there. -/
theorem agrees_varint {width : Nat} {decode : Bytes → Nat → Except VarintError (α × Nat)}
    (hBounds : ∀ {bytes pos v next}, decode bytes pos = .ok (v, next) → next ≤ bytes.size) :
    Agrees (varint decode) (Reader.varint width decode) c := by
  unfold Agrees varint Reader.varint
  simp only
  cases hDecode : decode c.bytes c.pos with
  | error e => rfl
  | ok p =>
    change Except.ok (p.1, (⟨c.bytes, p.2⟩ : Scan)) = .ok (p.1, ⟨c.bytes, (c.moveTo p.2).pos⟩)
    rw [Cursor.pos_moveTo (hBounds hDecode)]

theorem agrees_u32 : Agrees u32 Reader.u32 c :=
  agrees_varint fun h => (Leb128.decodeU32_bounds h).2

theorem agrees_s32 : Agrees s32 Reader.s32 c :=
  agrees_varint fun h => (Leb128.decodeSigned_bounds h).2

theorem agrees_s64 : Agrees s64 Reader.s64 c :=
  agrees_varint fun h => (Leb128.decodeSigned_bounds h).2

/-! ### Strings and vectors -/

theorem agrees_byteVector : Agrees byteVector Reader.byteVector c :=
  agrees_bind agrees_u32 fun _ _ _ => agrees_bytes _

theorem agrees_string : Agrees string Reader.string c := by
  refine agrees_bind agrees_u32 fun len c₁ _ => ?_
  refine agrees_bind agrees_position fun start c₂ _ => ?_
  refine agrees_bind (agrees_bytes _) fun content c₃ _ => ?_
  cases String.fromUTF8? ⟨content⟩ with
  | some text => exact agrees_pure text
  | none => exact agrees_failAt _ _

theorem agrees_collect {g : ScanM α} {x : Reader α} (h : ∀ c, Agrees g x c) (count : Nat)
    (found : Array α) : Agrees (collect g count found) (Reader.collect x count found) c := by
  induction count generalizing found c with
  | zero => exact agrees_pure found
  | succ count ih => exact agrees_bind (h c) fun a _ _ => ih (found.push a)

theorem agrees_vector {g : ScanM α} {x : Reader α} (h : ∀ c, Agrees g x c) :
    Agrees (vector g) (Reader.vector x) c :=
  agrees_bind agrees_u32 fun count _ _ => agrees_collect h count.toNat #[]

/-! ### Types -/

theorem agrees_valueType : Agrees valueType Reader.valueType c := by
  refine agrees_bind agrees_position fun pos c₁ _ => ?_
  refine agrees_bind agrees_byte fun b c₂ _ => ?_
  cases ValueType.ofByte? b with
  | some t => exact agrees_pure t
  | none => exact agrees_failAt _ _

theorem agrees_resultTypes : Agrees resultTypes Reader.resultTypes c :=
  agrees_bind (agrees_vector fun _ => agrees_valueType) fun _ _ _ => agrees_pure _

theorem agrees_functionType : Agrees functionType Reader.functionType c := by
  refine agrees_bind agrees_position fun pos c₁ _ => ?_
  refine agrees_bind agrees_byte fun form c₂ _ => ?_
  refine agrees_ite (fun _ => agrees_failAt _ _) fun _ => ?_
  refine agrees_bind agrees_resultTypes fun parameters c₃ _ => ?_
  exact agrees_bind agrees_resultTypes fun results _ _ => agrees_pure _

theorem agrees_limits : Agrees limits Reader.limits c := by
  refine agrees_bind agrees_position fun pos c₁ _ => ?_
  refine agrees_bind agrees_byte fun flag c₂ _ => ?_
  refine agrees_ite (fun _ => agrees_bind agrees_u32 fun _ _ _ => agrees_pure _) fun _ => ?_
  refine agrees_ite (fun _ => ?_) fun _ => agrees_failAt _ _
  exact agrees_bind agrees_u32 fun _ _ _ => agrees_bind agrees_u32 fun _ _ _ => agrees_pure _

theorem agrees_tableType : Agrees tableType Reader.tableType c := by
  refine agrees_bind agrees_position fun pos c₁ _ => ?_
  refine agrees_bind agrees_byte fun element c₂ _ => ?_
  exact agrees_ite (fun _ => agrees_failAt _ _) fun _ => agrees_limits

theorem agrees_globalType : Agrees globalType Reader.globalType c := by
  refine agrees_bind agrees_valueType fun type c₁ _ => ?_
  refine agrees_bind agrees_position fun pos c₂ _ => ?_
  refine agrees_bind agrees_byte fun flag c₃ _ => ?_
  refine agrees_ite (fun _ => agrees_pure _) fun _ => ?_
  exact agrees_ite (fun _ => agrees_pure _) fun _ => agrees_failAt _ _

/-! ### Initializers -/

theorem agrees_initOperands (opcode : UInt8) (pos : Nat) :
    Agrees (initOperands opcode pos) (Reader.initOperands opcode pos) c := by
  unfold initOperands Reader.initOperands
  cases (Opcode.ofByte? opcode).map Opcode.operands with
  | none => exact agrees_failAt _ _
  | some operands =>
    cases operands with
    | empty => exact agrees_pure ()
    | varU32 => exact agrees_bind agrees_u32 fun _ _ _ => agrees_pure ()
    | varS32 => exact agrees_bind agrees_s32 fun _ _ _ => agrees_pure ()
    | varS64 => exact agrees_bind agrees_s64 fun _ _ _ => agrees_pure ()
    | float32 => exact agrees_bind (agrees_bytes 4) fun _ _ _ => agrees_pure ()
    | float64 => exact agrees_bind (agrees_bytes 8) fun _ _ _ => agrees_pure ()
    | blockType | memArg | callIndirect | branchTable | reserved => exact agrees_failAt _ _

/-- A slice up to the position of a reader. -/
theorem agrees_slice (op : Unchecked) {first : Nat} (h : first ≤ c.pos) :
    Agrees (position >>= slice op first) (Reader.consumedSince first) c := by
  change slice op first c.pos ⟨c.bytes, c.pos⟩ = _
  rw [slice_eq_ok h c.pos_le_size]
  rfl

/-- A slice that is dropped has no part in the plain reader. -/
theorem agrees_slice_bind (op : Unchecked) {first : Nat} {k : ScanM α} {x : Reader α}
    (h : first ≤ c.pos) (hk : Agrees k x c) :
    Agrees (position >>= fun last => slice op first last >>= fun _ => k) x c := by
  change (slice op first c.pos ⟨c.bytes, c.pos⟩).bind _ = _
  rw [slice_eq_ok h c.pos_le_size]
  exact hk

theorem agrees_initInstructions (fuel : Nat) :
    Agrees (initInstructions fuel) (Reader.initInstructions fuel) c := by
  induction fuel generalizing c with
  | zero => exact agrees_failHere _
  | succ fuel ih =>
    refine agrees_bind agrees_position fun pos c₁ _ => ?_
    refine agrees_bind agrees_byte fun opcode c₂ _ => ?_
    refine agrees_ite (fun _ => agrees_pure ()) fun _ => ?_
    -- The operands start where the opcode was read, and reading them never goes back.
    refine agrees_at ?_
    refine agrees_bind (agrees_initOperands opcode pos) fun _ c₃ hOperands => ?_
    have hOrder := (Reader.advances_initOperands opcode pos hOperands).pos_le
    exact agrees_slice_bind .operandBytes hOrder ih

theorem agrees_initExpr : Agrees initExpr Reader.initExpr c := by
  refine agrees_bind agrees_position fun start c₁ hStart => ?_
  cases hStart
  refine agrees_bind agrees_remaining fun left c₂ hLeft => ?_
  cases hLeft
  refine agrees_bind (agrees_initInstructions _) fun _ c₃ hInstructions => ?_
  exact agrees_slice _ (Reader.advances_initInstructions _ hInstructions).pos_le

/-! ### Entries -/

theorem agrees_importEntry : Agrees importEntry Reader.importEntry c := by
  refine agrees_bind agrees_string fun module c₁ _ => ?_
  refine agrees_bind agrees_string fun name c₂ _ => ?_
  refine agrees_bind agrees_position fun pos c₃ _ => ?_
  refine agrees_bind agrees_byte fun kind c₄ _ => ?_
  refine agrees_ite (fun _ => agrees_bind agrees_u32 fun _ _ _ => agrees_pure _) fun _ => ?_
  refine agrees_ite (fun _ => agrees_bind agrees_tableType fun _ _ _ => agrees_pure _) fun _ => ?_
  refine agrees_ite (fun _ => agrees_bind agrees_limits fun _ _ _ => agrees_pure _) fun _ => ?_
  refine agrees_ite (fun _ => agrees_bind agrees_globalType fun _ _ _ => agrees_pure _) fun _ => ?_
  exact agrees_failAt _ _

theorem agrees_typeIndex (typeCount : Nat) :
    Agrees (typeIndex typeCount) (Reader.typeIndex typeCount) c := by
  refine agrees_bind agrees_position fun pos c₁ _ => ?_
  refine agrees_bind agrees_u32 fun index c₂ _ => ?_
  exact agrees_ite (fun _ => agrees_failAt _ _) fun _ => agrees_pure _

theorem agrees_globalEntry : Agrees globalEntry Reader.globalEntry c := by
  refine agrees_bind agrees_globalType fun type c₁ _ => ?_
  exact agrees_bind agrees_initExpr fun init _ _ => agrees_pure _

theorem agrees_exportEntry : Agrees exportEntry Reader.exportEntry c := by
  refine agrees_bind agrees_string fun name c₁ _ => ?_
  refine agrees_bind agrees_position fun pos c₂ _ => ?_
  refine agrees_bind agrees_byte fun kind c₃ _ => ?_
  refine agrees_bind agrees_u32 fun index c₄ _ => ?_
  refine agrees_ite (fun _ => agrees_pure _) fun _ => ?_
  refine agrees_ite (fun _ => agrees_pure _) fun _ => ?_
  refine agrees_ite (fun _ => agrees_pure _) fun _ => ?_
  exact agrees_ite (fun _ => agrees_pure _) fun _ => agrees_failAt _ _

theorem agrees_elementEntry : Agrees elementEntry Reader.elementEntry c := by
  refine agrees_bind agrees_u32 fun table c₁ _ => ?_
  refine agrees_bind agrees_initExpr fun offset c₂ _ => ?_
  exact agrees_bind (agrees_vector fun _ => agrees_u32) fun functions _ _ => agrees_pure _

theorem agrees_dataEntry : Agrees dataEntry Reader.dataEntry c := by
  refine agrees_bind agrees_u32 fun memory c₁ _ => ?_
  refine agrees_bind agrees_initExpr fun offset c₂ _ => ?_
  exact agrees_bind agrees_byteVector fun bytes _ _ => agrees_pure _

/-! ### Bodies and sections -/

theorem agrees_localRuns (count : Nat) (found : Array ValueType) :
    Agrees (localRuns count found) (Reader.localRuns count found) c := by
  induction count generalizing found c with
  | zero => exact agrees_pure found
  | succ count ih =>
    refine agrees_bind agrees_position fun pos c₁ _ => ?_
    refine agrees_bind agrees_u32 fun n c₂ _ => ?_
    refine agrees_ite (fun _ => agrees_failAt _ _) fun _ => ?_
    exact agrees_bind agrees_valueType fun type _ _ => ih _

/-- The difference between the position of a reader and an earlier one. -/
theorem agrees_usedSince {start : Nat} {k : Nat → ScanM α} {x : Reader α} (h : start ≤ c.pos)
    (hk : Agrees (k (c.pos - start)) x c) : Agrees (usedSince start >>= k) x c := by
  have hUsed : usedSince start ⟨c.bytes, c.pos⟩ = .ok (c.pos - start, ⟨c.bytes, c.pos⟩) := by
    change (require .bytesUsed (fun s => start ≤ s.pos) ⟨c.bytes, c.pos⟩).bind _ = _
    simp only [require, h, if_true]
    rfl
  change (usedSince start ⟨c.bytes, c.pos⟩).bind _ = _
  rw [hUsed]
  exact hk

theorem agrees_bodyEntry : Agrees bodyEntry Reader.bodyEntry c := by
  refine agrees_bind agrees_u32 fun size c₁ _ => ?_
  refine agrees_bind agrees_position fun start c₂ hStart => ?_
  cases hStart
  refine agrees_bind (agrees_hasAtLeast _) fun enough c₃ hEnough => ?_
  cases hEnough
  refine agrees_ite (fun _ => agrees_failHere _) fun _ => ?_
  refine agrees_bind agrees_u32 fun runs c₄ hRuns => ?_
  refine agrees_bind (agrees_localRuns _ _) fun locals c₅ hLocals => ?_
  have hOrder := ((Reader.advances_u32 hRuns).trans (Reader.advances_localRuns _ _ hLocals)).pos_le
  refine agrees_bind agrees_position fun position c₆ hPosition => ?_
  cases hPosition
  refine agrees_usedSince hOrder ?_
  refine agrees_ite (fun _ => agrees_failHere _) fun _ => ?_
  refine agrees_bind (agrees_bytes _) fun code c₇ _ => ?_
  exact agrees_ite (fun _ => agrees_failHere _) fun _ => agrees_pure _

theorem agrees_customSection (len : Nat) :
    Agrees (customSection len) (Reader.customSection len) c := by
  refine agrees_bind agrees_position fun start c₁ hStart => ?_
  cases hStart
  refine agrees_bind agrees_string fun name c₂ hName => ?_
  refine agrees_usedSince (Reader.advances_string hName).pos_le ?_
  refine agrees_ite (fun _ => agrees_failHere _) fun _ => ?_
  exact agrees_bind (agrees_bytes _) fun bytes _ _ => agrees_pure _

theorem agrees_readSection (id : UInt8) (len typeCount : Nat) :
    Agrees (readSection id len typeCount) (WasmMachine.readSection id len typeCount) c := by
  unfold readSection WasmMachine.readSection
  generalize id.toNat = n
  match n with
  | 0 => exact agrees_bind (agrees_customSection len) fun _ _ _ => agrees_pure _
  | 1 => exact agrees_bind (agrees_vector fun _ => agrees_functionType) fun _ _ _ => agrees_pure _
  | 2 => exact agrees_bind (agrees_vector fun _ => agrees_importEntry) fun _ _ _ => agrees_pure _
  | 3 => exact agrees_bind (agrees_vector fun _ => agrees_typeIndex _) fun _ _ _ => agrees_pure _
  | 4 => exact agrees_bind (agrees_vector fun _ => agrees_tableType) fun _ _ _ => agrees_pure _
  | 5 => exact agrees_bind (agrees_vector fun _ => agrees_limits) fun _ _ _ => agrees_pure _
  | 6 => exact agrees_bind (agrees_vector fun _ => agrees_globalEntry) fun _ _ _ => agrees_pure _
  | 7 => exact agrees_bind (agrees_vector fun _ => agrees_exportEntry) fun _ _ _ => agrees_pure _
  | 8 => exact agrees_bind agrees_u32 fun _ _ _ => agrees_pure _
  | 9 => exact agrees_bind (agrees_vector fun _ => agrees_elementEntry) fun _ _ _ => agrees_pure _
  | 10 => exact agrees_bind (agrees_vector fun _ => agrees_bodyEntry) fun _ _ _ => agrees_pure _
  | 11 => exact agrees_bind (agrees_vector fun _ => agrees_dataEntry) fun _ _ _ => agrees_pure _
  | n + 12 => exact agrees_failHere _

theorem agrees_readHeader : Agrees readHeader WasmMachine.readHeader c := by
  refine agrees_bind (agrees_fixed 4) fun magic c₁ _ => ?_
  refine agrees_ite (fun _ => agrees_failAt _ _) fun _ => ?_
  refine agrees_bind (agrees_fixed 4) fun version c₂ _ => ?_
  exact agrees_ite (fun _ => agrees_failAt _ _) fun _ => agrees_pure ()

/-! ## Modules -/

theorem leads_of_readHeader {c' : Cursor} (h : WasmMachine.readHeader c = .ok () c') :
    c.Leads c' := by
  have hFixed : ∀ width, Reader.Advances (Reader.fixed width) := fun width =>
    Reader.advances_bind (Reader.advances_bytes width) fun _ => Reader.advances_pure _
  have hHeader : Reader.Advances WasmMachine.readHeader := by
    refine Reader.advances_bind (hFixed 4) fun magic => ?_
    split
    · exact Reader.advances_failAt _ _
    · refine Reader.advances_bind (hFixed 4) fun version => ?_
      split
      · exact Reader.advances_failAt _ _
      · exact Reader.advances_pure ()
  exact hHeader h

section

variable {bytes : Bytes} {pos : Nat} {s s' : Scan}

theorem bind_of_ok {g : ScanM α} {k : α → ScanM β} {a : α} (h : g s = .ok (a, s')) :
    (g >>= k) s = k a s' := by
  change (g s).bind _ = _
  rw [h]
  rfl

theorem bind_of_error {g : ScanM α} {k : α → ScanM β} {e : Stop LoadError} (h : g s = .error e) :
    (g >>= k) s = .error e := by
  change (g s).bind _ = _
  rw [h]
  rfl

theorem hasAtLeast_eq_ok (h : pos ≤ bytes.size) (count : Nat) :
    hasAtLeast count ⟨bytes, pos⟩ = .ok (decide (count ≤ bytes.size - pos), ⟨bytes, pos⟩) :=
  agrees_hasAtLeast (c := ⟨bytes, pos, h⟩) count

theorem byte_eq_ok (h : pos < bytes.size) :
    byte ⟨bytes, pos⟩ = .ok (bytes[pos], ⟨bytes, pos + 1⟩) := by
  have hNext : next? ⟨bytes, pos⟩ = .ok (some bytes[pos], ⟨bytes, pos + 1⟩) := dif_pos h
  exact bind_of_ok hNext

/-- The header of a section that starts inside the bytes. -/
theorem sectionHeader_eq (h : pos < bytes.size) :
    sectionHeader ⟨bytes, pos⟩ =
      match readSectionHeader bytes pos with
      | .ok header => .ok (header, ⟨bytes, header.payload⟩)
      | .error e => .error (.raised e) := by
  unfold readSectionHeader sectionHeader
  rw [bind_of_ok (byte_eq_ok h), Array.getElem?_eq_getElem h]
  simp only
  cases hDecode : Leb128.decodeU32 bytes (pos + 1) with
  | error e =>
    have hLength : u32 ⟨bytes, pos + 1⟩ = .error (.raised ⟨.varint e, pos + 1⟩) := by
      simp only [u32, varint, hDecode]
    exact bind_of_error hLength
  | ok found =>
    obtain ⟨len, payload⟩ := found
    have hLength : u32 ⟨bytes, pos + 1⟩ = .ok (len, ⟨bytes, payload⟩) := by
      simp only [u32, varint, hDecode]
    have hInside : payload ≤ bytes.size := (Leb128.decodeU32_bounds hDecode).2
    rw [bind_of_ok hLength, bind_of_ok (hasAtLeast_eq_ok hInside _)]
    by_cases hFits : payload + len.toNat ≤ bytes.size
    · rw [if_pos (by simp only [decide_eq_true_eq]; omega)]
      simp only [if_pos hFits]
      rfl
    · rw [if_neg (by simp only [decide_eq_true_eq]; omega)]
      simp only [if_neg hFits]
      rfl

/-- The content of a section whose header was read. Reading it never goes back, so it ends at or
after its start. -/
theorem readPayload_eq {header : SectionHeader} (hInside : header.payload ≤ bytes.size)
    (typeCount : Nat) :
    readPayload header typeCount ⟨bytes, header.payload⟩ =
      match WasmMachine.readPayload bytes header typeCount with
      | .ok content => .ok (content, ⟨bytes, header.payload + header.len.toNat⟩)
      | .error e => .error (.raised e) := by
  let c := (Cursor.start bytes).moveTo header.payload
  have hStart : c.pos = header.payload := Cursor.pos_moveTo hInside
  have hAgrees := agrees_readSection (c := c) header.id header.len.toNat typeCount
  unfold Agrees at hAgrees
  rw [hStart] at hAgrees
  change readSection header.id header.len.toNat typeCount ⟨bytes, header.payload⟩ = _ at hAgrees
  have hGo : readPayload header typeCount ⟨bytes, header.payload⟩ =
    (readSection header.id header.len.toNat typeCount >>= fun content =>
      usedSince header.payload >>= fun consumed =>
        if consumed = header.len.toNat then pure content
        else failAt (.sectionSizeMismatch header.id header.len.toNat consumed) header.payload)
      ⟨bytes, header.payload⟩ := rfl
  rw [hGo]
  unfold WasmMachine.readPayload
  rw [show (Cursor.start bytes).moveTo header.payload = c from rfl]
  cases hRead : WasmMachine.readSection header.id header.len.toNat typeCount c with
  | error e c' =>
    rw [hRead] at hAgrees
    exact bind_of_error hAgrees
  | ok content c' =>
    rw [hRead] at hAgrees
    obtain ⟨hBytes, hOrder⟩ := Reader.advances_readSection _ _ _ hRead
    rw [hStart] at hOrder
    change c'.bytes = bytes at hBytes
    have hUsed : usedSince header.payload ⟨c'.bytes, c'.pos⟩ =
        .ok (c'.pos - header.payload, ⟨c'.bytes, c'.pos⟩) := by
      have hPass := agrees_usedSince (x := pure (c'.pos - header.payload)) hOrder (agrees_pure _)
      rwa [bind_pure] at hPass
    rw [bind_of_ok hAgrees, bind_of_ok hUsed]
    simp only
    by_cases hConsumed : c'.pos - header.payload = header.len.toNat
    · have hEnd : c'.pos = header.payload + header.len.toNat := by omega
      rw [if_pos hConsumed, if_pos hConsumed, ← hEnd, ← hBytes]
      rfl
    · rw [if_neg hConsumed, if_neg hConsumed]
      rfl

theorem nextSection_eq (h : pos < bytes.size) (p : LoadProgress) :
    nextSection p ⟨bytes, pos⟩ =
      match readSectionHeader bytes pos with
      | .error e => .error (.raised e)
      | .ok header =>
        match loadSection bytes pos header p with
        | .error e => .error (.raised e)
        | .ok p => .ok (p, ⟨bytes, header.payload + header.len.toNat⟩) := by
  have hHead := sectionHeader_eq h
  unfold nextSection
  rw [bind_of_ok (show position ⟨bytes, pos⟩ = .ok (pos, ⟨bytes, pos⟩) from rfl)]
  cases hHeader : readSectionHeader bytes pos with
  | error e =>
    rw [hHeader] at hHead
    exact bind_of_error hHead
  | ok header =>
    rw [hHeader] at hHead
    rw [bind_of_ok hHead]
    simp only [loadSection]
    cases hOrder : checkOrder p.previous pos header.id with
    | error e => rfl
    | ok previous =>
      have hChecked : ofExcept (Except.ok previous) ⟨bytes, header.payload⟩ =
        .ok (previous, ⟨bytes, header.payload⟩) := rfl
      rw [bind_of_ok hChecked]
      have hBounds := readSectionHeader_bounds hHeader
      have hPayload := readPayload_eq (Nat.le_trans (Nat.le_add_right _ _) hBounds.2)
        p.module.types.size
      cases hContent : WasmMachine.readPayload bytes header p.module.types.size with
      | error e =>
        rw [hContent] at hPayload
        exact bind_of_error hPayload
      | ok content =>
        rw [hContent] at hPayload
        exact bind_of_ok hPayload

theorem sections_succ (h : pos ≤ bytes.size) (fuel : Nat) (p : LoadProgress) :
    sections (fuel + 1) p ⟨bytes, pos⟩ =
      if pos < bytes.size then (nextSection p >>= sections fuel) ⟨bytes, pos⟩
      else .ok (p, ⟨bytes, pos⟩) := by
  have hTest : sections (fuel + 1) p ⟨bytes, pos⟩ =
      (if decide (1 ≤ bytes.size - pos) = true then nextSection p >>= sections fuel
        else pure p : ScanM LoadProgress) ⟨bytes, pos⟩ := bind_of_ok (hasAtLeast_eq_ok h 1)
  rw [hTest]
  by_cases hLt : pos < bytes.size
  · rw [if_pos hLt, if_pos (by simp only [decide_eq_true_eq]; omega)]
  · rw [if_neg hLt, if_neg (by simp only [decide_eq_true_eq]; omega)]
    rfl

/-- The loop over the sections. Each takes a byte at least, so there is fuel for all of them. -/
theorem sections_eq (p : LoadProgress) (hPos : pos ≤ bytes.size) {fuel : Nat}
    (hFuel : bytes.size - pos ≤ fuel) :
    sections (fuel + 1) p ⟨bytes, pos⟩ =
      match loadSections bytes pos p with
      | (p, none) => .ok (p, ⟨bytes, bytes.size⟩)
      | (_, some e) => .error (.raised e) := by
  fun_induction loadSections bytes pos p generalizing fuel with
  | case1 pos p hLt e hHeader =>
    have hNext := nextSection_eq hLt p
    rw [hHeader] at hNext
    rw [sections_succ hPos, if_pos hLt, bind_of_error hNext]
  | case2 pos p hLt header hHeader hBounds e hSection =>
    have hNext := nextSection_eq hLt p
    simp only [hHeader, hSection] at hNext
    rw [sections_succ hPos, if_pos hLt, bind_of_error hNext]
  | case3 pos p hLt header hHeader hBounds q hSection ih =>
    have hNext := nextSection_eq hLt p
    simp only [hHeader, hSection] at hNext
    rw [sections_succ hPos, if_pos hLt, bind_of_ok hNext]
    obtain _ | fuel := fuel
    · omega
    · exact ih hBounds.2 (by omega)
  | case4 pos p hEnd =>
    obtain rfl : pos = bytes.size := by omega
    rw [sections_succ hPos, if_neg hEnd]

end

end ScanM

namespace Guarded

/-- Loading a module with guards. -/
def loadModule (name : String) (bytes : Bytes) : Except (Stop LoadError) Module :=
  (ScanM.module name ⟨bytes, 0⟩).map Prod.fst

open ScanM in
/-- Guarded loading is loading, whatever the bytes. -/
theorem loadModule_eq (name : String) (bytes : Bytes) :
    loadModule name bytes = Stop.ofExcept (Module.load name bytes) := by
  have hLeft : ScanM.remaining ⟨bytes, 0⟩ = .ok (bytes.size, ⟨bytes, 0⟩) :=
    agrees_remaining (c := Cursor.start bytes)
  have hHead := agrees_readHeader (c := Cursor.start bytes)
  unfold Agrees at hHead
  change ScanM.readHeader ⟨bytes, 0⟩ = _ at hHead
  unfold loadModule Module.load Module.loadRecorded ScanM.module
  rw [bind_of_ok hLeft]
  cases hHeader : WasmMachine.readHeader (Cursor.start bytes) with
  | error e c =>
    rw [hHeader] at hHead
    rw [bind_of_error hHead]
    rfl
  | ok _ c =>
    rw [hHeader] at hHead
    have hBytes : c.bytes = bytes := (leads_of_readHeader hHeader).bytes_eq
    have hPos := c.pos_le_size
    simp only [hBytes] at hPos hHead
    have hSections := sections_eq { module := { name }, journal := {} } hPos
      (Nat.sub_le bytes.size c.pos)
    rw [bind_of_ok hHead]
    simp only
    cases hLoop : loadSections bytes c.pos { module := { name }, journal := {} } with
    | mk p failure =>
      rw [hLoop] at hSections
      cases failure with
      | some e =>
        rw [bind_of_error hSections]
        rfl
      | none =>
        rw [bind_of_ok hSections]
        by_cases hCount : p.module.functions.size = p.module.code.size
        · simp only [ne_eq, hCount, not_true, if_false]
          rfl
        · simp only [ne_eq, hCount, not_false_eq_true, if_true]
          rfl

end Guarded

end WasmMachine
