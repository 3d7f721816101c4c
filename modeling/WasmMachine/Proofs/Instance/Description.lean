import WasmMachine.Proofs.Binary.Layout
import WasmMachine.Proofs.Instance.Segments
import WasmMachine.Proofs.Typing.Instances

/-!
# The instance that a module describes

A module that was loaded can be instantiated exactly if its imports, initializers, limits, segments
and start function are in order. The instance then has what the module declares, every byte of its
memories is the one that the last data segment wrote there or zero, and every slot of its tables
holds the function that the last element segment wrote there or nothing.

* `Module.Admissible`: what must be in order.
* `Module.Describes`: the instance of a module.
* `Module.instantiate_exact`: instantiation builds what the module describes.
-/

namespace WasmMachine

open Instantiation

/-! ## What a module asks for -/

/-- The number of functions in the index space. -/
def Module.functionCount (m : Module) : Nat := m.importedFunctionCount + m.functions.size

/-- The smallest size is at most the greatest one and a ceiling. -/
def Limits.Within (l : Limits) (ceiling : Nat) : Prop :=
  (∀ bound, l.max = some bound → l.min.toNat ≤ bound.toNat) ∧ l.min.toNat ≤ ceiling

/-- The conditions on a module to be instantiated. -/
structure Module.Admissible (m : Module) (config : Config) : Prop where
  imports : ∀ i ∈ m.imports, ∃ typeIndex, i.kind = .function typeIndex ∧
    typeIndex.toNat < m.types.size
  globals : ∀ g ∈ m.globals, ∃ v, IsConstant g.init v ∧ v.type = g.type.type
  memories : ∀ l ∈ m.memories, l.Within config.maxPages.toNat ∧ l.min.toNat ≤ 65536
  data : ∀ d ∈ m.data, ∃ (offset : BitVec 32) (l : Limits), IsConstant d.offset (.i32 offset) ∧
    m.memories[d.memory.toNat]? = some l ∧ offset.toNat + d.bytes.size ≤ l.min.toNat * 65536
  tables : ∀ l ∈ m.tables, l.Within config.maxTableSize.toNat
  elements : ∀ e ∈ m.elements, (∀ function ∈ e.functions, function.toNat < m.functionCount) ∧
    ∃ (offset : BitVec 32) (l : Limits), IsConstant e.offset (.i32 offset) ∧
      m.tables[e.table.toNat]? = some l ∧ offset.toNat + e.functions.size ≤ l.min.toNat
  start : ∀ function, m.start = some function → function.toNat < m.functionCount

/-! ## What an instance is made of -/

/-- A global with the value of its initializer. -/
structure GlobalMade (g : GlobalDecl) (created : Global) : Prop where
  value : IsConstant g.init created.value
  type : created.value.type = g.type.type
  isMutable : created.isMutable = g.type.isMutable

/-- A function with the type and the body at its place, and a zero for each parameter and local. -/
structure FunctionMade (m : Module) (place : Nat) (declared : UInt32) (body : FunctionBody)
    (f : Function) : Prop where
  index : f.index = m.importedFunctionCount + place
  typeIndex : f.typeIndex = declared
  signature : m.types[declared.toNat]? = some f.signature
  code : f.code = body.code
  position : f.position = body.position
  locals : f.locals = f.signature.parameters.toArray.map Value.zero ++ body.locals.map Value.zero

/-- A memory of the smallest declared size. -/
structure MemoryMade (config : Config) (l : Limits) (memory : Memory) : Prop where
  pages : memory.pages = l.min.toNat
  size : memory.size = l.min.toNat * 65536
  max : memory.max = l.max
  ceiling : memory.ceiling = min config.maxPages.toNat 65536

/-- A table of the smallest declared size. -/
structure TableMade (l : Limits) (table : Table) : Prop where
  size : table.size = l.min.toNat
  limits : table.limits = l

/-- The instance has what the module declares, in the same order, and its memories and tables hold
what the segments wrote to them. -/
structure Module.Describes (m : Module) (config : Config) (i : Instance) : Prop where
  types : i.program.types = m.types
  imported : List.Forall₂ (ImportMade m) m.imports.toList i.program.imported.toList
  functionCount : i.program.functions.size = m.functions.size
  functions : ∀ place f, i.program.functions[place]? = some f → ∃ typeIndex body,
    m.functions[place]? = some typeIndex ∧ m.code[place]? = some body ∧
      FunctionMade m place typeIndex body f
  start : i.program.start = m.start
  entry : i.program.entry = m.exportedFunction? config.entry
  globals : List.Forall₂ GlobalMade m.globals.toList i.store.globals.toList
  memories : List.Forall₂ (MemoryMade config) m.memories.toList i.store.memories.toList
  bytes : HoldLast (m.data.toList.map DataSegment.segment) 0
    (i.store.memories.map fun memory => memory.data.data)
  tables : List.Forall₂ TableMade m.tables.toList i.store.tables.toList
  slots : HoldLast (m.elements.toList.map ElementSegment.segment) none
    (i.store.tables.map fun table => table.slots)
  callCounts : i.store.callCounts = Array.replicate m.functions.size 0

/-! ## Imports, globals and functions -/

section Declarations

variable {m : Module}

theorem signatureOf_ok_iff {typeIndex : UInt32} :
    (∃ signature, signatureOf m typeIndex = .ok signature) ↔ typeIndex.toNat < m.types.size := by
  constructor
  · rintro ⟨signature, h⟩
    exact (Array.getElem?_eq_some_iff.1 (signatureOf_eq_ok h)).1
  · intro h
    unfold signatureOf
    rw [Array.getElem?_eq_getElem h]
    exact ⟨_, rfl⟩

theorem importFunctions_ok_iff :
    (∃ imported, importFunctions m = .ok imported) ↔
      ∀ i ∈ m.imports, ∃ typeIndex, i.kind = .function typeIndex ∧
        typeIndex.toNat < m.types.size := by
  unfold importFunctions
  rw [mapM_ok_iff]
  refine forall₂_congr fun i _ => ?_
  cases i.kind with
  | function typeIndex =>
    simp only [ImportKind.function.injEq, exists_eq_left', ← signatureOf_ok_iff]
    constructor
    · rintro ⟨f, h⟩
      obtain ⟨signature, hSignature, -⟩ := exists_of_bind_eq_ok h
      exact ⟨signature, hSignature⟩
    · rintro ⟨signature, hSignature⟩
      rw [bind_of_eq_ok hSignature]
      exact ⟨_, rfl⟩
  | table limits | memory limits | global type =>
    simp only [reduceCtorEq, false_and, exists_false]

theorem createGlobal_eq_ok_iff {g : GlobalDecl} {created : Global} :
    createGlobal g = .ok created ↔ GlobalMade g created := by
  constructor
  · intro h
    obtain ⟨v, hValue, h⟩ := exists_of_bind_eq_ok h
    split at h
    · rename_i hType
      cases h
      exact ⟨evaluateConst_eq_ok_iff.1 hValue, hType, rfl⟩
    · cases h
  · obtain ⟨v, isMutable⟩ := created
    rintro ⟨hValue, hType, rfl⟩
    unfold createGlobal
    rw [bind_of_eq_ok (evaluateConst_eq_ok_iff.2 hValue)]
    exact if_pos hType

theorem createGlobals_ok_iff :
    (∃ globals, m.globals.mapM createGlobal = .ok globals) ↔
      ∀ g ∈ m.globals, ∃ v, IsConstant g.init v ∧ v.type = g.type.type := by
  rw [mapM_ok_iff]
  refine forall₂_congr fun g _ => ?_
  simp only [createGlobal_eq_ok_iff]
  constructor
  · rintro ⟨created, hMade⟩
    exact ⟨created.value, hMade.value, hMade.type⟩
  · rintro ⟨v, hValue, hType⟩
    exact ⟨⟨v, g.type.isMutable⟩, hValue, hType, rfl⟩

/-- Functions can be made as soon as their type indices are in range. -/
theorem exists_createFunctions (hTypes : ∀ index ∈ m.functions, index.toNat < m.types.size)
    (count : Nat) : ∃ functions, createFunctions m count = .ok functions := by
  refine mapM_ok_iff.2 ?_
  rintro ⟨⟨typeIndex, body⟩, place⟩ hEntry
  have hPair : (typeIndex, body) ∈ m.functions.zip m.code := Array.fst_mem_of_mem_zipIdx hEntry
  have hIndex : typeIndex ∈ m.functions := (Array.of_mem_zip hPair).1
  obtain ⟨signature, hSignature⟩ := signatureOf_ok_iff.2 (hTypes typeIndex hIndex)
  dsimp only
  unfold createFunction
  rw [bind_of_eq_ok hSignature]
  exact ⟨_, rfl⟩

theorem functionMade_of_createFunctions {functions : Array Function}
    (h : createFunctions m m.importedFunctionCount = .ok functions) {place : Nat} {f : Function}
    (hf : functions[place]? = some f) : ∃ typeIndex body,
      m.functions[place]? = some typeIndex ∧ m.code[place]? = some body ∧
        FunctionMade m place typeIndex body f := by
  obtain ⟨typeIndex, body, hType, hBody, hCreate⟩ := exists_createFunction h hf
  obtain ⟨signature, hSignature, hPure⟩ := exists_of_bind_eq_ok hCreate
  cases hPure
  exact ⟨typeIndex, body, hType, hBody, rfl, rfl, signatureOf_eq_ok hSignature, rfl, rfl, rfl⟩

theorem checkStart_eq_ok_iff {count : Nat} :
    checkStart m count = .ok () ↔ ∀ function, m.start = some function → function.toNat < count := by
  unfold checkStart
  cases m.start with
  | none => exact ⟨fun _ _ h => (by cases h), fun _ => rfl⟩
  | some start =>
    simp only [Option.some.injEq, forall_eq']
    constructor
    · intro h
      split at h
      · cases h
      · rename_i hBound
        exact Nat.not_le.1 hBound
    · intro h
      rw [if_neg (Nat.not_le.2 h)]
      rfl

end Declarations

/-! ## Memories -/

section Memories

variable {m : Module} {config : Config} {data : List DataSegment} {memories after : Array Memory}
  {d : DataSegment}

/-- The memories of an instance after some data segments. -/
structure MemoriesAfter (m : Module) (config : Config) (data : List DataSegment)
    (memories : Array Memory) : Prop where
  made : List.Forall₂ (MemoryMade config) m.memories.toList memories.toList
  bytes : HoldLast (data.map DataSegment.segment) 0 (memories.map fun memory => memory.data.data)

theorem createMemories_ok_iff :
    (∃ empty, (m.memories.mapM fun l => Memory.create l.min l.max config.maxPages) = .ok empty) ↔
      ∀ l ∈ m.memories, l.Within config.maxPages.toNat ∧ l.min.toNat ≤ 65536 := by
  rw [mapM_ok_iff]
  refine forall₂_congr fun l _ => ?_
  simp only [Memory.create_eq_ok_iff, Limits.Within]
  constructor
  · rintro ⟨memory, hMax, hCeiling, hPages, -⟩
    exact ⟨⟨hMax, hCeiling⟩, hPages⟩
  · rintro ⟨⟨hMax, hCeiling⟩, hPages⟩
    exact ⟨_, hMax, hCeiling, hPages, rfl⟩

theorem memoriesAfter_nil {empty : Array Memory}
    (h : (m.memories.mapM fun l => Memory.create l.min l.max config.maxPages) = .ok empty) :
    MemoriesAfter m config [] empty := by
  have hMade := forall₂_of_mapM_eq_ok h
  refine ⟨hMade.imp fun l memory hCreate => ?_, ?_⟩
  · obtain ⟨-, -, -, rfl⟩ := Memory.create_eq_ok_iff.1 hCreate
    exact ⟨rfl, Memory.size_zeros _, rfl, rfl⟩
  · intro k cells hCells place b hb
    rw [Array.getElem?_map] at hCells
    obtain ⟨memory, hMemory, rfl⟩ := Option.map_eq_some_iff.1 hCells
    obtain ⟨l, -, hCreate⟩ := exists_left_of_forall₂ hMade hMemory
    obtain ⟨-, -, -, rfl⟩ := Memory.create_eq_ok_iff.1 hCreate
    obtain rfl : b = 0 := (Array.mem_replicate.1 (Array.mem_of_getElem? hb)).2
    exact .nil

theorem MemoriesAfter.writeData (h : MemoriesAfter m config data memories)
    (hWrite : Instantiation.writeData memories d = .ok after) :
    MemoriesAfter m config (data ++ [d]) after := by
  obtain ⟨offset, memory, hOffset, hMemory, hFits, rfl⟩ := writeData_eq_ok_iff.1 hWrite
  obtain ⟨l, hLimits, hMade⟩ := exists_left_of_forall₂ h.made hMemory
  refine ⟨forall₂_setIfInBounds h.made hLimits ?_, ?_⟩
  · exact ⟨hMade.pages, (Memory.size_setBytes ..).trans hMade.size, hMade.max, hMade.ceiling⟩
  · rw [List.map_append, Array.map_setIfInBounds]
    have hCells : (memories.map fun memory => memory.data.data)[d.memory.toNat]? =
        some memory.data.data := by
      rw [Array.getElem?_map, hMemory]
      rfl
    exact h.bytes.write (s := d.segment) hOffset hCells fun place =>
      Memory.getElem?_setBytes hFits place

/-- A data segment can be written to memories of the declared sizes if it fits into one. -/
theorem writeData_ok_iff (h : List.Forall₂ (MemoryMade config) m.memories.toList memories.toList) :
    (∃ after, Instantiation.writeData memories d = .ok after) ↔
      ∃ (offset : BitVec 32) (l : Limits), IsConstant d.offset (.i32 offset) ∧
        m.memories[d.memory.toNat]? = some l ∧
        offset.toNat + d.bytes.size ≤ l.min.toNat * 65536 := by
  simp only [writeData_eq_ok_iff]
  constructor
  · rintro ⟨after, offset, memory, hOffset, hMemory, hFits, -⟩
    obtain ⟨l, hLimits, hMade⟩ := exists_left_of_forall₂ h hMemory
    rw [hMade.size] at hFits
    exact ⟨offset, l, hOffset, hLimits, hFits⟩
  · rintro ⟨offset, l, hOffset, hLimits, hFits⟩
    obtain ⟨memory, hMemory, hMade⟩ := exists_right_of_forall₂ h hLimits
    rw [← hMade.size] at hFits
    exact ⟨_, offset, memory, hOffset, hMemory, hFits, rfl⟩

/-- All data segments can be written if each of them fits. -/
theorem data_ok_iff {empty : Array Memory}
    (h : (m.memories.mapM fun l => Memory.create l.min l.max config.maxPages) = .ok empty) :
    (∃ memories, m.data.foldlM Instantiation.writeData empty = .ok memories) ↔
      ∀ d ∈ m.data, ∃ (offset : BitVec 32) (l : Limits), IsConstant d.offset (.i32 offset) ∧
        m.memories[d.memory.toNat]? = some l ∧
        offset.toNat + d.bytes.size ≤ l.min.toNat * 65536 :=
  foldlM_ok_iff (P := fun memories => ∃ data, MemoriesAfter m config data memories)
    ⟨[], memoriesAfter_nil h⟩ (fun _ _ ⟨_, hAfter⟩ => writeData_ok_iff hAfter.made)
    fun _ d _ ⟨data, hAfter⟩ hWrite => ⟨data ++ [d], hAfter.writeData hWrite⟩

end Memories

/-! ## Tables -/

section Tables

variable {m : Module} {config : Config} {elements : List ElementSegment}
  {tables after : Array Table} {e : ElementSegment} {count : Nat}

/-- The tables of an instance after some element segments. -/
structure TablesAfter (m : Module) (elements : List ElementSegment) (tables : Array Table) :
    Prop where
  made : List.Forall₂ TableMade m.tables.toList tables.toList
  slots : HoldLast (elements.map ElementSegment.segment) none
    (tables.map fun table => table.slots)

theorem createTables_ok_iff :
    (∃ empty, (m.tables.mapM fun l => Table.create l config.maxTableSize) = .ok empty) ↔
      ∀ l ∈ m.tables, l.Within config.maxTableSize.toNat := by
  rw [mapM_ok_iff]
  refine forall₂_congr fun l _ => ?_
  simp only [Table.create_eq_ok_iff, Limits.Within]
  constructor
  · rintro ⟨table, hMax, hCeiling, -⟩
    exact ⟨hMax, hCeiling⟩
  · rintro ⟨hMax, hCeiling⟩
    exact ⟨_, hMax, hCeiling, rfl⟩

theorem tablesAfter_nil {empty : Array Table}
    (h : (m.tables.mapM fun l => Table.create l config.maxTableSize) = .ok empty) :
    TablesAfter m [] empty := by
  have hMade := forall₂_of_mapM_eq_ok h
  refine ⟨hMade.imp fun l table hCreate => ?_, ?_⟩
  · obtain ⟨-, -, rfl⟩ := Table.create_eq_ok_iff.1 hCreate
    exact ⟨Array.size_replicate, rfl⟩
  · intro k cells hCells place slot hSlot
    rw [Array.getElem?_map] at hCells
    obtain ⟨table, hTable, rfl⟩ := Option.map_eq_some_iff.1 hCells
    obtain ⟨l, -, hCreate⟩ := exists_left_of_forall₂ hMade hTable
    obtain ⟨-, -, rfl⟩ := Table.create_eq_ok_iff.1 hCreate
    obtain rfl : slot = none := (Array.mem_replicate.1 (Array.mem_of_getElem? hSlot)).2
    exact .nil

theorem TablesAfter.writeElements (h : TablesAfter m elements tables)
    (hWrite : Instantiation.writeElements count tables e = .ok after) :
    TablesAfter m (elements ++ [e]) after := by
  obtain ⟨-, offset, table, hOffset, hTable, hFits, rfl⟩ := writeElements_eq_ok_iff.1 hWrite
  obtain ⟨l, hLimits, hMade⟩ := exists_left_of_forall₂ h.made hTable
  refine ⟨forall₂_setIfInBounds h.made hLimits ?_, ?_⟩
  · exact ⟨(Table.size_fill ..).trans hMade.size, hMade.limits⟩
  · rw [List.map_append, Array.map_setIfInBounds]
    have hCells : (tables.map fun table => table.slots)[e.table.toNat]? = some table.slots := by
      rw [Array.getElem?_map, hTable]
      rfl
    exact h.slots.write (s := e.segment) hOffset hCells fun place =>
      Table.getElem?_fill hFits place

/-- An element segment can be written to tables of the declared sizes if it fits into one and
names functions only. -/
theorem writeElements_ok_iff (h : List.Forall₂ TableMade m.tables.toList tables.toList) :
    (∃ after, Instantiation.writeElements count tables e = .ok after) ↔
      (∀ function ∈ e.functions, function.toNat < count) ∧
      ∃ (offset : BitVec 32) (l : Limits), IsConstant e.offset (.i32 offset) ∧
        m.tables[e.table.toNat]? = some l ∧
        offset.toNat + e.functions.size ≤ l.min.toNat := by
  simp only [writeElements_eq_ok_iff]
  constructor
  · rintro ⟨after, hFunctions, offset, table, hOffset, hTable, hFits, -⟩
    obtain ⟨l, hLimits, hMade⟩ := exists_left_of_forall₂ h hTable
    rw [hMade.size] at hFits
    exact ⟨hFunctions, offset, l, hOffset, hLimits, hFits⟩
  · rintro ⟨hFunctions, offset, l, hOffset, hLimits, hFits⟩
    obtain ⟨table, hTable, hMade⟩ := exists_right_of_forall₂ h hLimits
    rw [← hMade.size] at hFits
    exact ⟨_, hFunctions, offset, table, hOffset, hTable, hFits, rfl⟩

/-- All element segments can be written if each of them fits and names functions only. -/
theorem elements_ok_iff {empty : Array Table}
    (h : (m.tables.mapM fun l => Table.create l config.maxTableSize) = .ok empty) :
    (∃ tables, m.elements.foldlM (Instantiation.writeElements count) empty = .ok tables) ↔
      ∀ e ∈ m.elements, (∀ function ∈ e.functions, function.toNat < count) ∧
        ∃ (offset : BitVec 32) (l : Limits), IsConstant e.offset (.i32 offset) ∧
          m.tables[e.table.toNat]? = some l ∧
          offset.toNat + e.functions.size ≤ l.min.toNat :=
  foldlM_ok_iff (P := fun tables => ∃ elements, TablesAfter m elements tables)
    ⟨[], tablesAfter_nil h⟩ (fun _ _ ⟨_, hAfter⟩ => writeElements_ok_iff hAfter.made)
    fun _ e _ ⟨elements, hAfter⟩ hWrite => ⟨elements ++ [e], hAfter.writeElements hWrite⟩

end Tables

/-! ## Instances -/

section Instances

variable {m : Module} {config : Config} {i : Instance}

/-- What the phases of an instance establish. -/
theorem describes_of_instantiate (hCount : m.functions.size = m.code.size)
    (h : instantiate m config = .ok i) : m.Describes config i := by
  obtain ⟨hPhases, -, hEntry⟩ := phases_of_instantiate h
  obtain ⟨empty, hEmpty, hData⟩ := hPhases.memories
  obtain ⟨emptyTables, hEmptyTables, hElements⟩ := exists_of_bind_eq_ok hPhases.tables
  have hMemories := foldlM_invariant_prefix hData (memoriesAfter_nil hEmpty)
    fun _ _ _ _ hAfter hWrite => hAfter.writeData hWrite
  have hTables := foldlM_invariant_prefix hElements (tablesAfter_nil hEmptyTables)
    fun _ _ _ _ hAfter hWrite => hAfter.writeElements hWrite
  have hFunctions := hPhases.functions
  rw [size_importFunctions hPhases.imported] at hFunctions
  have hSize := size_createFunctions hFunctions hCount.symm
  exact {
    types := hPhases.types
    imported := importMade_of_importFunctions hPhases.imported
    functionCount := hSize
    functions := fun place f hf => functionMade_of_createFunctions hFunctions hf
    start := hPhases.start
    entry := hEntry
    globals := (forall₂_of_mapM_eq_ok hPhases.globals).imp
      fun _ _ hCreate => createGlobal_eq_ok_iff.1 hCreate
    memories := hMemories.made
    bytes := hMemories.bytes
    tables := hTables.made
    slots := hTables.slots
    callCounts := by
      rw [hPhases.callCounts, Array.map_const', hSize] }

theorem admissible_of_instantiate (hCount : m.functions.size = m.code.size)
    (h : instantiate m config = .ok i) : m.Admissible config := by
  obtain ⟨hPhases, hStart, -⟩ := phases_of_instantiate h
  obtain ⟨empty, hEmpty, hData⟩ := hPhases.memories
  obtain ⟨emptyTables, hEmptyTables, hElements⟩ := exists_of_bind_eq_ok hPhases.tables
  have hFunctionCount : i.program.functionCount = m.functionCount := by
    rw [Program.functionCount, Module.functionCount, hPhases.importedCount,
      size_createFunctions hPhases.functions hCount.symm]
  rw [hFunctionCount] at hStart hElements
  exact {
    imports := importFunctions_ok_iff.1 ⟨_, hPhases.imported⟩
    globals := createGlobals_ok_iff.1 ⟨_, hPhases.globals⟩
    memories := createMemories_ok_iff.1 ⟨_, hEmpty⟩
    data := (data_ok_iff hEmpty).1 ⟨_, hData⟩
    tables := createTables_ok_iff.1 ⟨_, hEmptyTables⟩
    elements := (elements_ok_iff hEmptyTables).1 ⟨_, hElements⟩
    start := checkStart_eq_ok_iff.1 hStart }

theorem exists_instance_of_admissible (hCount : m.functions.size = m.code.size)
    (hTypes : ∀ index ∈ m.functions, index.toNat < m.types.size) (h : m.Admissible config) :
    ∃ i, instantiate m config = .ok i := by
  obtain ⟨imported, hImported⟩ := importFunctions_ok_iff.2 h.imports
  obtain ⟨globals, hGlobals⟩ := createGlobals_ok_iff.2 h.globals
  obtain ⟨functions, hFunctions⟩ := exists_createFunctions hTypes imported.size
  obtain ⟨empty, hEmpty⟩ := createMemories_ok_iff.2 h.memories
  obtain ⟨memories, hData⟩ := (data_ok_iff hEmpty).2 h.data
  obtain ⟨emptyTables, hEmptyTables⟩ := createTables_ok_iff.2 h.tables
  obtain ⟨tables, hElements⟩ := (elements_ok_iff hEmptyTables).2 h.elements
  have hFunctionCount : imported.size + functions.size = m.functionCount := by
    rw [Module.functionCount, size_importFunctions hImported,
      size_createFunctions hFunctions hCount.symm]
  have hTables : createTables m config (imported.size + functions.size) = .ok tables := by
    rw [hFunctionCount]
    exact (bind_of_eq_ok hEmptyTables).trans hElements
  have hStart : checkStart m (imported.size + functions.size) = .ok () := by
    rw [hFunctionCount]
    exact checkStart_eq_ok_iff.2 h.start
  exact exists_instance_of_phases hImported hGlobals hFunctions hEmpty hData hTables hStart

end Instances

/-- The functions of a module that was loaded have types. -/
theorem Layout.lt_of_mem_functions {name : String} {bytes : Bytes} {m : Module}
    {sections : List PlacedSection} (h : Layout name bytes m sections) {index : UInt32}
    (hIndex : index ∈ m.functions) : index.toNat < m.types.size := by
  rw [h.contents, mem_extendAll functions_extend] at hIndex
  rcases hIndex with hNone | ⟨s, hs, hIndex⟩
  · exact (Array.not_mem_empty index hNone).elim
  · exact (h.consumed s hs).lt_of_mem_typeIndices hIndex

/-- A module that was loaded can be instantiated exactly if it is admissible, and the instance is
what it describes. -/
theorem Module.instantiate_exact {name : String} {bytes : Bytes} {m : Module}
    (h : Module.load name bytes = .ok m) (config : Config) :
    ((∃ i, instantiate m config = .ok i) ↔ m.Admissible config) ∧
      ∀ i, instantiate m config = .ok i → m.Describes config i := by
  obtain ⟨hCount, sections, hLayout⟩ := exists_layout_of_load h
  refine ⟨⟨?_, ?_⟩, ?_⟩
  · rintro ⟨i, hInstance⟩
    exact admissible_of_instantiate hCount hInstance
  · exact exists_instance_of_admissible hCount fun _ => hLayout.lt_of_mem_functions
  · exact fun i hInstance => describes_of_instantiate hCount hInstance

/-- A module with segments that overlap, and an empty one at the end of the memory. -/
def overlapBytes : Bytes := #[
  0x00, 0x61, 0x73, 0x6d, 0x01, 0x00, 0x00, 0x00,
  0x01, 0x04, 0x01, 0x60, 0x00, 0x00,
  0x03, 0x02, 0x01, 0x00,
  0x04, 0x04, 0x01, 0x70, 0x00, 0x03,
  0x05, 0x03, 0x01, 0x00, 0x01,
  0x09, 0x0e, 0x02, 0x00, 0x41, 0x00, 0x0b, 0x02, 0x00, 0x00, 0x00, 0x41, 0x01, 0x0b, 0x01, 0x00,
  0x0a, 0x04, 0x01, 0x02, 0x00, 0x0b,
  0x0b, 0x16, 0x03, 0x00, 0x41, 0x04, 0x0b, 0x03, 0xaa, 0xbb, 0xcc,
  0x00, 0x41, 0x05, 0x0b, 0x01, 0xdd, 0x00, 0x41, 0x80, 0x80, 0x04, 0x0b, 0x00]

def overlapModule : Module where
  name := "overlap"
  types := #[⟨[], []⟩]
  functions := #[0]
  tables := #[⟨3, none⟩]
  memories := #[⟨1, none⟩]
  elements := #[⟨0, #[0x41, 0x00, 0x0b], #[0, 0]⟩, ⟨0, #[0x41, 0x01, 0x0b], #[0]⟩]
  code := #[⟨#[], #[0x0b], 50⟩]
  data := #[⟨0, #[0x41, 0x04, 0x0b], #[0xaa, 0xbb, 0xcc]⟩, ⟨0, #[0x41, 0x05, 0x0b], #[0xdd]⟩,
    ⟨0, #[0x41, 0x80, 0x80, 0x04, 0x0b], #[]⟩]

theorem admissible_overlapModule : overlapModule.Admissible {} := by
  have hConstant : ∀ {expr : Bytes} {offset : BitVec 32}, evaluateConst expr = .ok (.i32 offset) →
      IsConstant expr (.i32 offset) := evaluateConst_eq_ok_iff.1
  have hCount : overlapModule.functionCount = 1 := rfl
  refine ⟨by simp [overlapModule], by simp [overlapModule], ?_, ?_, ?_, ?_, by simp [overlapModule]⟩
  · simp [overlapModule, Limits.Within]
  · simp only [overlapModule, List.mem_toArray, List.forall_mem_cons]
    refine ⟨⟨4, ⟨1, none⟩, hConstant (by decide +kernel), rfl, by decide⟩,
      ⟨5, ⟨1, none⟩, hConstant (by decide +kernel), rfl, by decide⟩,
      ⟨65536, ⟨1, none⟩, hConstant (by decide +kernel), rfl, by decide⟩, by simp⟩
  · simp [overlapModule, Limits.Within]
  · rw [hCount]
    simp only [overlapModule, List.mem_toArray, List.forall_mem_cons]
    refine ⟨⟨by simp, 0, ⟨3, none⟩, hConstant (by decide +kernel), rfl, by decide⟩,
      ⟨by simp, 1, ⟨3, none⟩, hConstant (by decide +kernel), rfl, by decide⟩, by simp⟩

theorem Module.instantiate_exact_overlap :
    Module.load "overlap" overlapBytes = .ok overlapModule ∧ overlapModule.Admissible {} ∧
      ∃ i, instantiate overlapModule {} = .ok i ∧ overlapModule.Describes {} i := by
  have hLoad : Module.load "overlap" overlapBytes = .ok overlapModule := by decide +kernel
  obtain ⟨hIff, hDescribes⟩ := Module.instantiate_exact hLoad {}
  obtain ⟨i, hInstance⟩ := hIff.2 admissible_overlapModule
  exact ⟨hLoad, admissible_overlapModule, i, hInstance, hDescribes i hInstance⟩

end WasmMachine
