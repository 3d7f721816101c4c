import WasmMachine.Proofs.Binary.Readers

/-!
# The layout of a loaded module

A byte string that is loaded is a header and sections, one right after the other up to the last
byte. The loader reads a section with the types that it knows so far; since ids ascend, these are
all types of the module by the time an index is checked against them.

* `Loads`: the sections that a run of the loader went through.
* `loads_of_loadSections`, `loadSections_of_loads`: the loader succeeds exactly on such runs.
* `Module.layout_of_load`: how the bytes of a loaded module are laid out, and what holds of its
  functions and bodies.
-/

namespace WasmMachine

/-! ## Sections at their places -/

/-- A section with the offset of its id byte, its header and what was read from its payload. -/
structure PlacedSection where
  start : Nat
  header : SectionHeader
  content : Section

/-- The offset past a section. -/
def PlacedSection.stop (s : PlacedSection) : Nat := s.header.payload + s.header.len.toNat

/-- Sections that follow each other from an offset up to the last byte: an id byte, the length as a
LEB128 number, and a payload of that length. -/
inductive Consecutive (bytes : Bytes) : Nat → List PlacedSection → Prop
  | done : Consecutive bytes bytes.size []
  | next {s : PlacedSection} {rest : List PlacedSection}
      (id : bytes[s.start]? = some s.header.id)
      (length : Leb128.decodeU32 bytes (s.start + 1) = .ok (s.header.len, s.header.payload))
      (fits : s.stop ≤ bytes.size)
      (tail : Consecutive bytes s.stop rest) : Consecutive bytes s.start (s :: rest)

/-- The section reader takes the whole payload of a section and nothing else. -/
def PlacedSection.Consumed (bytes : Bytes) (typeCount : Nat) (s : PlacedSection) : Prop :=
  ∃ c, readSection s.header.id s.header.len.toNat typeCount
      ((Cursor.start bytes).moveTo s.header.payload) = .ok s.content c ∧ c.pos = s.stop

/-- The ids of the sections that are not custom ones. -/
def knownIds (sections : List PlacedSection) : List UInt8 :=
  (sections.map fun s => s.header.id).filter (· ≠ 0)

/-- The module with the contents of more sections. -/
def Module.extendAll (m : Module) (sections : List PlacedSection) : Module :=
  sections.foldl (fun m s => m.extend s.content) m

@[simp] theorem Module.extendAll_cons (m : Module) (s : PlacedSection)
    (rest : List PlacedSection) :
    m.extendAll (s :: rest) = (m.extend s.content).extendAll rest := rfl

/-! ## Headers and payloads -/

theorem readSectionHeader_eq_ok_iff {bytes : Bytes} {pos : Nat} {header : SectionHeader} :
    readSectionHeader bytes pos = .ok header ↔
      bytes[pos]? = some header.id ∧
      Leb128.decodeU32 bytes (pos + 1) = .ok (header.len, header.payload) ∧
      header.payload + header.len.toNat ≤ bytes.size := by
  constructor
  · intro h
    unfold readSectionHeader at h
    split at h
    · cases h
    · rename_i id hId
      split at h
      · cases h
      · rename_i len payload hDecode
        split at h
        · rename_i hFits
          cases h
          exact ⟨hId, hDecode, hFits⟩
        · cases h
  · rintro ⟨hId, hDecode, hFits⟩
    unfold readSectionHeader
    simp only [hId, hDecode, if_pos hFits]

/-- A payload is read exactly if its reader stops at its end. -/
theorem readPayload_eq_ok_iff {bytes : Bytes} {s : PlacedSection} {typeCount : Nat}
    (hFits : s.stop ≤ bytes.size) :
    readPayload bytes s.header typeCount = .ok s.content ↔ s.Consumed bytes typeCount := by
  have hPayload : s.header.payload ≤ bytes.size := Nat.le_trans (Nat.le_add_right _ _) hFits
  have hStart : ((Cursor.start bytes).moveTo s.header.payload).pos = s.header.payload :=
    Cursor.pos_moveTo hPayload
  constructor
  · intro h
    unfold readPayload at h
    split at h
    · cases h
    · rename_i content c hRead
      have hLeads := Reader.advances_readSection _ _ _ hRead
      have hPos := hLeads.pos_le
      rw [hStart] at hPos
      dsimp only at h
      split at h
      · rename_i hConsumed
        cases h
        refine ⟨c, hRead, ?_⟩
        unfold PlacedSection.stop
        omega
      · cases h
  · rintro ⟨c, hRead, hStop⟩
    have hConsumed : c.pos - s.header.payload = s.header.len.toNat := by
      unfold PlacedSection.stop at hStop
      omega
    unfold readPayload
    rw [hRead]
    exact if_pos hConsumed

/-- What the order of sections asks of an id, and the id that later ones must exceed. -/
theorem checkOrder_eq_ok_iff {previous next id : UInt8} {pos : Nat} :
    checkOrder previous pos id = .ok next ↔
      (id = 0 ∧ next = previous) ∨ (id ≠ 0 ∧ id ≤ 11 ∧ previous < id ∧ next = id) := by
  unfold checkOrder maxSectionId
  constructor
  · intro h
    split at h
    · rename_i hCustom
      cases h
      exact .inl ⟨hCustom, rfl⟩
    · rename_i hKnown
      split at h
      · cases h
      · rename_i hMax
        split at h
        · cases h
        · rename_i hOrder
          cases h
          exact .inr ⟨hKnown, UInt8.not_lt.1 hMax, UInt8.not_le.1 hOrder, rfl⟩
  · rintro (⟨rfl, rfl⟩ | ⟨hKnown, hMax, hOrder, rfl⟩)
    · rfl
    · rw [if_neg hKnown, if_neg (UInt8.not_lt.2 hMax), if_neg (UInt8.not_le.2 hOrder)]

/-! ## Runs of the loader -/

/-- The sections that the loader goes through from an offset on, with the last known id and the
module before and the module after. -/
inductive Loads (bytes : Bytes) : Nat → UInt8 → Module → List PlacedSection → Module → Prop
  | done {previous : UInt8} {m : Module} : Loads bytes bytes.size previous m [] m
  | next {previous last : UInt8} {m final : Module} {s : PlacedSection}
      {rest : List PlacedSection}
      (header : readSectionHeader bytes s.start = .ok s.header)
      (order : checkOrder previous s.start s.header.id = .ok last)
      (payload : readPayload bytes s.header m.types.size = .ok s.content)
      (tail : Loads bytes s.stop last (m.extend s.content) rest final) :
      Loads bytes s.start previous m (s :: rest) final

theorem loads_of_loadSections {bytes : Bytes} {pos : Nat} {p p' : LoadProgress}
    (h : loadSections bytes pos p = (p', none)) (hPos : pos ≤ bytes.size) :
    ∃ sections, Loads bytes pos p.previous p.module sections p'.module := by
  fun_induction loadSections bytes pos p with
  | case1 pos p hLt e hHeader => cases h
  | case2 pos p hLt header hHeader hBounds e hSection => cases h
  | case3 pos p hLt header hHeader hBounds q hSection ih =>
    obtain ⟨rest, hRest⟩ := ih h hBounds.2
    obtain ⟨last, hOrder, hSection⟩ := exists_of_bind_eq_ok hSection
    obtain ⟨content, hContent, hSection⟩ := exists_of_bind_eq_ok hSection
    cases hSection
    exact ⟨⟨pos, header, content⟩ :: rest,
      .next (s := ⟨pos, header, content⟩) hHeader hOrder hContent hRest⟩
  | case4 pos p hEnd =>
    cases h
    obtain rfl : pos = bytes.size := by omega
    exact ⟨[], .done⟩

/-- The loader stops at a header that cannot be read. -/
theorem loadSections_of_header_error {bytes : Bytes} {pos : Nat} {p : LoadProgress} {e : LoadError}
    (hPos : pos < bytes.size) (hHeader : readSectionHeader bytes pos = .error e) :
    loadSections bytes pos p = (p, some e) := by
  rw [loadSections, if_pos hPos]
  split
  · rename_i found hFound
    rw [hHeader] at hFound
    cases hFound
    rfl
  · rename_i header hFound
    rw [hHeader] at hFound
    cases hFound

/-- The loader goes from a section that can be read to the next one. -/
theorem loadSections_next {bytes : Bytes} {s : PlacedSection} {previous last : UInt8} {m : Module}
    {journal : Journal} (header : readSectionHeader bytes s.start = .ok s.header)
    (order : checkOrder previous s.start s.header.id = .ok last)
    (payload : readPayload bytes s.header m.types.size = .ok s.content) :
    loadSections bytes s.start ⟨m, previous, journal⟩ = loadSections bytes s.stop
      ⟨m.extend s.content, last, journal.noteAll (sectionEvents s.header s.content)⟩ := by
  have hBounds := readSectionHeader_bounds header
  have hSection : loadSection bytes s.start s.header ⟨m, previous, journal⟩ =
      .ok ⟨m.extend s.content, last, journal.noteAll (sectionEvents s.header s.content)⟩ := by
    simp only [loadSection, order, payload]
    rfl
  rw [loadSections, if_pos (by omega)]
  split
  · rename_i e hHeader
    rw [header] at hHeader
    cases hHeader
  · rename_i found hHeader
    rw [header] at hHeader
    cases hHeader
    rw [hSection]
    rfl

theorem loadSections_of_loads {bytes : Bytes} {pos : Nat} {previous : UInt8} {m final : Module}
    {sections : List PlacedSection} (h : Loads bytes pos previous m sections final)
    (journal : Journal) :
    ∃ p, loadSections bytes pos ⟨m, previous, journal⟩ = (p, none) ∧ p.module = final := by
  induction h generalizing journal with
  | done =>
    rw [loadSections, if_neg (Nat.lt_irrefl _)]
    exact ⟨_, rfl, rfl⟩
  | next header order payload tail ih =>
    rw [loadSections_next header order payload]
    exact ih _

namespace Loads

variable {bytes : Bytes} {pos : Nat} {previous : UInt8} {m final : Module}
  {sections : List PlacedSection}

theorem consecutive (h : Loads bytes pos previous m sections final) :
    Consecutive bytes pos sections := by
  induction h with
  | done => exact .done
  | next header order payload tail ih =>
    obtain ⟨hId, hLength, hFits⟩ := readSectionHeader_eq_ok_iff.1 header
    exact .next hId hLength hFits ih

theorem extendAll (h : Loads bytes pos previous m sections final) :
    final = m.extendAll sections := by
  induction h with
  | done => rfl
  | next header order payload tail ih => exact ih

theorem id_le (h : Loads bytes pos previous m sections final) :
    ∀ s ∈ sections, s.header.id ≤ 11 := by
  induction h with
  | done => simp
  | next header order payload tail ih =>
    refine List.forall_mem_cons.2 ⟨?_, ih⟩
    rcases checkOrder_eq_ok_iff.1 order with ⟨hCustom, -⟩ | ⟨-, hMax, -, -⟩
    · rw [hCustom]
      decide
    · exact hMax

/-- Known ids exceed those before them. -/
theorem lt_knownIds (h : Loads bytes pos previous m sections final) :
    ∀ id ∈ knownIds sections, previous < id := by
  induction h with
  | done => simp [knownIds]
  | @next previous last m final s rest header order payload tail ih =>
    rcases checkOrder_eq_ok_iff.1 order with ⟨hCustom, rfl⟩ | ⟨hKnown, -, hOrder, rfl⟩
    · have hIds : knownIds (s :: rest) = knownIds rest := by simp [knownIds, hCustom]
      rw [hIds]
      exact ih
    · have hIds : knownIds (s :: rest) = s.header.id :: knownIds rest := by
        simp [knownIds, hKnown]
      rw [hIds]
      refine List.forall_mem_cons.2 ⟨hOrder, ?_⟩
      intro id hId
      exact UInt8.lt_trans hOrder (ih id hId)

theorem ascending (h : Loads bytes pos previous m sections final) :
    (knownIds sections).Pairwise (· < ·) := by
  induction h with
  | done => exact .nil
  | @next previous last m final s rest header order payload tail ih =>
    rcases checkOrder_eq_ok_iff.1 order with ⟨hCustom, rfl⟩ | ⟨hKnown, -, -, rfl⟩
    · have hIds : knownIds (s :: rest) = knownIds rest := by simp [knownIds, hCustom]
      rw [hIds]
      exact ih
    · have hIds : knownIds (s :: rest) = s.header.id :: knownIds rest := by
        simp [knownIds, hKnown]
      rw [hIds]
      exact .cons tail.lt_knownIds ih

end Loads

/-! ## Contents and ids -/

/-- The id of a section with a content. -/
def Section.id : Section → UInt8
  | .custom _ => 0
  | .types _ => 1
  | .imports _ => 2
  | .functions _ => 3
  | .tables _ => 4
  | .memories _ => 5
  | .globals _ => 6
  | .exports _ => 7
  | .start _ => 8
  | .elements _ => 9
  | .code _ => 10
  | .data _ => 11

open Reader in
/-- The reader that a section of an id is read by, and what it gave. -/
inductive SectionRead (len typeCount : Nat) (c c' : Cursor) : UInt8 → Section → Prop
  | custom {s : CustomSection} (h : customSection len c = .ok s c') :
      SectionRead len typeCount c c' 0 (.custom s)
  | types {ts : Array FunctionType} (h : vector functionType c = .ok ts c') :
      SectionRead len typeCount c c' 1 (.types ts)
  | imports {is : Array Import} (h : vector importEntry c = .ok is c') :
      SectionRead len typeCount c c' 2 (.imports is)
  | functions {fs : Array UInt32} (h : vector (typeIndex typeCount) c = .ok fs c') :
      SectionRead len typeCount c c' 3 (.functions fs)
  | tables {ts : Array Limits} (h : vector tableType c = .ok ts c') :
      SectionRead len typeCount c c' 4 (.tables ts)
  | memories {ms : Array Limits} (h : vector limits c = .ok ms c') :
      SectionRead len typeCount c c' 5 (.memories ms)
  | globals {gs : Array GlobalDecl} (h : vector globalEntry c = .ok gs c') :
      SectionRead len typeCount c c' 6 (.globals gs)
  | exports {es : Array Export} (h : vector exportEntry c = .ok es c') :
      SectionRead len typeCount c c' 7 (.exports es)
  | start {function : UInt32} (h : u32 c = .ok function c') :
      SectionRead len typeCount c c' 8 (.start function)
  | elements {es : Array ElementSegment} (h : vector elementEntry c = .ok es c') :
      SectionRead len typeCount c c' 9 (.elements es)
  | code {bodies : Array FunctionBody} (h : vector bodyEntry c = .ok bodies c') :
      SectionRead len typeCount c c' 10 (.code bodies)
  | data {ds : Array DataSegment} (h : vector dataEntry c = .ok ds c') :
      SectionRead len typeCount c c' 11 (.data ds)

theorem sectionRead_of_readSection {id : UInt8} {len typeCount : Nat} {c c' : Cursor}
    {content : Section} (h : readSection id len typeCount c = .ok content c') :
    SectionRead len typeCount c c' id content := by
  unfold readSection at h
  generalize hId : id.toNat = k at h
  split at h
  case h_13 => cases h
  all_goals
    obtain ⟨found, middle, hFound, h⟩ := exists_of_run_bind_eq_ok h
    cases h
    have hByte := congrArg UInt8.ofNat hId
    rw [UInt8.ofNat_toNat] at hByte
    subst hByte
    constructor
    exact hFound

/-- What was read from a section fits its id. -/
theorem id_of_readSection {id : UInt8} {len typeCount : Nat} {c c' : Cursor} {content : Section}
    (h : readSection id len typeCount c = .ok content c') : content.id = id := by
  cases sectionRead_of_readSection h <;> rfl

/-- Only the section of functions looks at the number of types. -/
theorem readSection_congr {id : UInt8} (h : id ≠ 3) (len n n' : Nat) :
    readSection id len n = readSection id len n' := by
  unfold readSection
  split
  case h_4 hId => exact absurd (UInt8.toNat_inj.1 hId) h
  all_goals rfl

/-- The type indices that a section adds. -/
def Section.typeIndices : Section → Array UInt32
  | .functions typeIndices => typeIndices
  | _ => #[]

/-- The bodies that a section adds. -/
def Section.bodies : Section → Array FunctionBody
  | .code bodies => bodies
  | _ => #[]

theorem functions_extend (m : Module) (content : Section) :
    (m.extend content).functions = m.functions ++ content.typeIndices := by
  cases content <;> simp [Module.extend, Section.typeIndices]

theorem code_extend (m : Module) (content : Section) :
    (m.extend content).code = m.code ++ content.bodies := by
  cases content <;> simp [Module.extend, Section.bodies]

theorem types_extend {m : Module} {content : Section} (h : content.id ≠ 1) :
    (m.extend content).types = m.types := by
  cases content with
  | types ts => exact absurd rfl h
  | _ => rfl

/-- What a module has of a kind comes from one of the sections. -/
theorem mem_extendAll {α : Type} {get : Module → Array α} {part : Section → Array α}
    (hPart : ∀ m content, get (m.extend content) = get m ++ part content)
    {m : Module} {sections : List PlacedSection} {a : α} :
    a ∈ get (m.extendAll sections) ↔ a ∈ get m ∨ ∃ s ∈ sections, a ∈ part s.content := by
  induction sections generalizing m with
  | nil => simp [Module.extendAll]
  | cons s rest ih =>
    rw [Module.extendAll_cons, ih, hPart, Array.mem_append, or_assoc]
    simp

namespace Loads

variable {bytes : Bytes} {pos : Nat} {previous : UInt8} {m final : Module}
  {sections : List PlacedSection}

/-- After the section of types no type is added. -/
theorem types_eq (h : Loads bytes pos previous m sections final) (hPrevious : 1 ≤ previous) :
    final.types = m.types := by
  induction h with
  | done => rfl
  | @next previous last m final s rest header order payload tail ih =>
    have hFits : s.stop ≤ bytes.size := (readSectionHeader_bounds header).2
    obtain ⟨c, hRead, -⟩ := (readPayload_eq_ok_iff hFits).1 payload
    have hId := id_of_readSection hRead
    rcases checkOrder_eq_ok_iff.1 order with ⟨hCustom, rfl⟩ | ⟨-, -, hOrder, rfl⟩
    · rw [ih hPrevious, types_extend (by rw [hId, hCustom]; decide)]
    · have hLater : 1 < s.header.id := UInt8.lt_of_le_of_lt hPrevious hOrder
      have hNotTypes : s.header.id ≠ 1 := (UInt8.ne_of_lt hLater).symm
      rw [ih (UInt8.le_of_lt hLater), types_extend (by rw [hId]; exact hNotTypes)]

/-- Every section is consumed by its reader, also with all types of the module known. -/
theorem consumed (h : Loads bytes pos previous m sections final) :
    ∀ s ∈ sections, s.Consumed bytes final.types.size := by
  induction h with
  | done => simp
  | @next previous last m final s rest header order payload tail ih =>
    refine List.forall_mem_cons.2 ⟨?_, ih⟩
    have hFits : s.stop ≤ bytes.size := (readSectionHeader_bounds header).2
    obtain ⟨c, hRead, hStop⟩ := (readPayload_eq_ok_iff hFits).1 payload
    refine ⟨c, ?_, hStop⟩
    by_cases hFunctions : s.header.id = 3
    · -- The types before the section of functions are all there will be.
      have hLast : last = 3 := by
        rcases checkOrder_eq_ok_iff.1 order with ⟨hCustom, -⟩ | ⟨-, -, -, rfl⟩
        · rw [hFunctions] at hCustom
          cases hCustom
        · exact hFunctions
      have hContent : s.content.id ≠ 1 := by
        rw [id_of_readSection hRead, hFunctions]
        decide
      have hTypes : final.types = m.types := by
        rw [tail.types_eq (by rw [hLast]; decide), types_extend hContent]
      rw [hTypes]
      exact hRead
    · rw [readSection_congr hFunctions _ _ m.types.size]
      exact hRead

end Loads

/-! ## The header -/

/-- The eight bytes that every module starts with. -/
def moduleHeader : Bytes := #[0x00, 0x61, 0x73, 0x6d, 0x01, 0x00, 0x00, 0x00]

theorem extract_of_fixed {width n : Nat} {c c' : Cursor} (h : Reader.fixed width c = .ok n c') :
    (c.bytes.extract c.pos (c.pos + width)).toList = toLittleEndian width n ∧
      c'.bytes = c.bytes ∧ c'.pos = c.pos + width := by
  obtain ⟨taken, middle, hTaken, h⟩ := exists_of_run_bind_eq_ok h
  obtain ⟨rfl, hBytes, hPos, hInside⟩ := Reader.eq_extract_of_bytes hTaken
  cases h
  have hWidth : (c.bytes.extract c.pos (c.pos + width)).toList.length = width := by
    rw [Array.length_toList, Array.size_extract]
    omega
  have hTaken := toLittleEndian_littleEndian (c.bytes.extract c.pos (c.pos + width)).toList
  rw [hWidth] at hTaken
  exact ⟨hTaken.symm, hBytes, hPos⟩

theorem extract_of_readHeader {bytes : Bytes} {c : Cursor}
    (h : readHeader (Cursor.start bytes) = .ok () c) :
    bytes.extract 0 8 = moduleHeader ∧ c.pos = 8 ∧ c.pos ≤ bytes.size := by
  obtain ⟨magic, c₁, hMagic, h⟩ := exists_of_run_bind_eq_ok h
  obtain ⟨hFirst, hBytes, hPos⟩ := extract_of_fixed hMagic
  split at h
  · cases h
  · rename_i hIsMagic
    obtain ⟨version, c₂, hVersion, h⟩ := exists_of_run_bind_eq_ok h
    obtain ⟨hSecond, hBytes', hPos'⟩ := extract_of_fixed hVersion
    split at h
    · cases h
    · rename_i hIsVersion
      cases h
      have hStart : (Cursor.start bytes).pos = 0 := rfl
      have hWhole : (Cursor.start bytes).bytes = bytes := rfl
      rw [hStart] at hPos hFirst
      rw [hWhole] at hBytes hFirst
      have hEnd : c.pos = 8 := by omega
      refine ⟨?_, hEnd, ?_⟩
      · rw [Decidable.not_not.1 hIsMagic] at hFirst
        rw [Decidable.not_not.1 hIsVersion, hBytes, hPos] at hSecond
        have hSplit : bytes.extract 0 8 = bytes.extract 0 4 ++ bytes.extract 4 8 := by
          simp
        rw [hSplit, ← Array.toList_inj, Array.toList_append]
        rw [show (0 + 4 : Nat) = 4 from rfl] at hFirst hSecond
        rw [hFirst, hSecond]
        decide
      · have hInside := c.pos_le_size
        rw [hBytes', hBytes] at hInside
        exact hInside

/-! ## Loaded modules -/

/-- How the bytes of a module are laid out: the header, then sections without gaps up to the last
byte, each consumed by its reader, in ascending order but for custom sections. -/
structure Layout (name : String) (bytes : Bytes) (m : Module) (sections : List PlacedSection) :
    Prop where
  header : bytes.extract 0 8 = moduleHeader
  partition : Consecutive bytes 8 sections
  consumed : ∀ s ∈ sections, s.Consumed bytes m.types.size
  ascending : (knownIds sections).Pairwise (· < ·)
  id_le : ∀ s ∈ sections, s.header.id ≤ 11
  contents : m = Module.extendAll { name } sections

/-- A body's code stands in the bytes at the position of the body, inside the section. -/
structure PlacedSection.Holds (s : PlacedSection) (bytes : Bytes) (body : FunctionBody) : Prop where
  id : s.header.id = 10
  start_le : s.header.payload ≤ body.position
  stop_le : body.position + body.code.size ≤ s.stop
  code : bytes.extract body.position (body.position + body.code.size) = body.code

/-- The run of the loader through the sections of a module. -/
theorem loads_of_load {name : String} {bytes : Bytes} {m : Module}
    (h : Module.load name bytes = .ok m) :
    bytes.extract 0 8 = moduleHeader ∧ m.functions.size = m.code.size ∧
      ∃ sections, Loads bytes 8 0 { name } sections m := by
  unfold Module.load Module.loadRecorded at h
  split at h
  · cases h
  · rename_i c hHeader
    obtain ⟨hBytes, hPos, hInside⟩ := extract_of_readHeader hHeader
    split at h
    · cases h
    · rename_i p hSections
      dsimp only at h
      split at h
      · cases h
      · rename_i hCount
        cases h
        obtain ⟨sections, hLoads⟩ := loads_of_loadSections hSections hInside
        rw [hPos] at hLoads
        exact ⟨hBytes, Decidable.not_not.1 hCount, sections, hLoads⟩

theorem Loads.layout {name : String} {bytes : Bytes} {m : Module} {sections : List PlacedSection}
    (h : Loads bytes 8 0 { name } sections m) (hHeader : bytes.extract 0 8 = moduleHeader) :
    Layout name bytes m sections :=
  ⟨hHeader, h.consecutive, h.consumed, h.ascending, h.id_le, h.extendAll⟩

theorem exists_layout_of_load {name : String} {bytes : Bytes} {m : Module}
    (h : Module.load name bytes = .ok m) :
    m.functions.size = m.code.size ∧ ∃ sections, Layout name bytes m sections := by
  obtain ⟨hBytes, hCount, sections, hLoads⟩ := loads_of_load h
  exact ⟨hCount, sections, hLoads.layout hBytes⟩

namespace PlacedSection.Consumed

variable {bytes : Bytes} {typeCount : Nat} {s : PlacedSection}

/-- The indices that a section adds are indices of types. -/
theorem lt_of_mem_typeIndices (h : s.Consumed bytes typeCount) {index : UInt32}
    (hIndex : index ∈ s.content.typeIndices) : index.toNat < typeCount := by
  obtain ⟨c, hRead, -⟩ := h
  have hSection := sectionRead_of_readSection hRead
  generalize s.header.id = id at hSection
  generalize s.content = content at hSection hIndex
  cases hSection with
  | functions hVector =>
    obtain ⟨before, after, hEntry, -, -⟩ :=
      Reader.exists_of_mem_vector (Reader.advances_typeIndex typeCount) hVector hIndex
    exact Reader.lt_of_typeIndex hEntry
  | _ => simp [Section.typeIndices] at hIndex

/-- The bodies that a section adds stand in it. -/
theorem holds_of_mem_bodies (h : s.Consumed bytes typeCount) (hFits : s.stop ≤ bytes.size)
    {body : FunctionBody} (hBody : body ∈ s.content.bodies) :
    s.Holds bytes body ∧ body.locals.size ≤ maxLocals ∧ body.code.back? = some endByte := by
  obtain ⟨c, hRead, hStop⟩ := h
  have hSection := sectionRead_of_readSection hRead
  generalize hId : s.header.id = id at hSection
  generalize s.content = content at hSection hBody
  cases hSection with
  | code hVector =>
    obtain ⟨before, after, hEntry, hBefore, hAfter⟩ :=
      Reader.exists_of_mem_vector Reader.advances_bodyEntry hVector hBody
    have hBodyRead := Reader.bodyRead_of_bodyEntry hEntry
    have hPayload : ((Cursor.start bytes).moveTo s.header.payload).pos = s.header.payload :=
      Cursor.pos_moveTo (Nat.le_trans (Nat.le_add_right _ _) hFits)
    have hStart := hBefore.pos_le
    have hEnd := hAfter.pos_le
    rw [hPayload] at hStart
    have hBytes : before.bytes = bytes := hBefore.bytes_eq
    refine ⟨⟨hId, Nat.le_trans hStart hBodyRead.pos_le, ?_, ?_⟩, hBodyRead.locals_le,
      hBodyRead.back⟩
    · rw [← hBodyRead.stop, ← hStop]
      exact hEnd
    · rw [← hBytes]
      exact hBodyRead.code.symm
  | _ => simp [Section.bodies] at hBody

end PlacedSection.Consumed

theorem Consecutive.stop_le {bytes : Bytes} {pos : Nat} {sections : List PlacedSection}
    (h : Consecutive bytes pos sections) : ∀ s ∈ sections, s.stop ≤ bytes.size := by
  induction h with
  | done => simp
  | next id length fits tail ih => exact List.forall_mem_cons.2 ⟨fits, ih⟩

/-- Every body of a module stands in one of its sections. -/
theorem Layout.exists_holds {name : String} {bytes : Bytes} {m : Module}
    {sections : List PlacedSection} (h : Layout name bytes m sections) {body : FunctionBody}
    (hBody : body ∈ m.code) :
    ∃ s ∈ sections, s.Holds bytes body ∧ body.locals.size ≤ maxLocals ∧
      body.code.back? = some endByte := by
  rw [h.contents, mem_extendAll code_extend] at hBody
  rcases hBody with hNone | ⟨s, hs, hBody⟩
  · simp at hNone
  · exact ⟨s, hs, (h.consumed s hs).holds_of_mem_bodies (h.partition.stop_le s hs) hBody⟩

/-- The bytes of a module that is loaded are laid out as a header and sections; there are as many
functions as bodies, every function has a type, and every body stands in the section of code. -/
theorem Module.layout_of_load {name : String} {bytes : Bytes} {m : Module}
    (h : Module.load name bytes = .ok m) :
    ∃ sections, Layout name bytes m sections ∧
      m.functions.size = m.code.size ∧
      (∀ index ∈ m.functions, index.toNat < m.types.size) ∧
      ∀ body ∈ m.code, body.locals.size ≤ 50000 ∧ body.code.back? = some 0x0b ∧
        ∃ s ∈ sections, s.Holds bytes body := by
  obtain ⟨hCount, sections, hLayout⟩ := exists_layout_of_load h
  refine ⟨sections, hLayout, hCount, ?_, ?_⟩
  · intro index hIndex
    rw [hLayout.contents, mem_extendAll functions_extend] at hIndex
    rcases hIndex with hNone | ⟨s, hs, hIndex⟩
    · simp at hNone
    · exact (hLayout.consumed s hs).lt_of_mem_typeIndices hIndex
  · intro body hBody
    obtain ⟨s, hs, hHolds, hLocals, hBack⟩ := hLayout.exists_holds hBody
    exact ⟨hLocals, hBack, s, hs, hHolds⟩

/-- A module of one function, with a custom section, a length in two bytes and two locals. -/
def sevenBytes : Bytes := #[
  0x00, 0x61, 0x73, 0x6d, 0x01, 0x00, 0x00, 0x00,
  0x00, 0x03, 0x01, 0x61, 0xff,
  0x01, 0x85, 0x00, 0x01, 0x60, 0x00, 0x01, 0x7f,
  0x03, 0x02, 0x01, 0x00,
  0x0a, 0x08, 0x01, 0x06, 0x01, 0x02, 0x7e, 0x41, 0x07, 0x0b]

def sevenModule : Module where
  name := "seven"
  types := #[⟨[], [.i32]⟩]
  functions := #[0]
  code := #[⟨#[.i64, .i64], #[0x41, 0x07, 0x0b], 32⟩]
  custom := #[⟨"a", #[0xff]⟩]

theorem Module.layout_of_load_seven :
    Module.load "seven" sevenBytes = .ok sevenModule ∧
      ∃ sections, Layout "seven" sevenBytes sevenModule sections ∧
        ∃ s ∈ sections, s.Holds sevenBytes ⟨#[.i64, .i64], #[0x41, 0x07, 0x0b], 32⟩ := by
  have hLoad : Module.load "seven" sevenBytes = .ok sevenModule := by decide +kernel
  obtain ⟨sections, hLayout, -, -, hBodies⟩ := Module.layout_of_load hLoad
  exact ⟨hLoad, sections, hLayout, (hBodies _ (by simp [sevenModule])).2.2⟩

end WasmMachine
