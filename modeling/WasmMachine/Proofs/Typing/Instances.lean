import WasmMachine.Proofs.Instance.Phases
import WasmMachine.Proofs.Store.Buffers
import WasmMachine.Proofs.Typing.Instructions

/-!
# Instances of valid modules

An instance of a valid module has what the context of the module says: its functions have the
declared signatures and valid bodies, its globals have the declared types, its memories and tables
are there, and the slots of its tables hold functions of the module.

* `Instantiated.program_typed`: the program.
* `Instantiated.store_typed`: the store.
-/

namespace WasmMachine

open Instantiation

theorem signatureOf_eq_ok {m : Module} {typeIndex : UInt32} {signature : FunctionType}
    (h : signatureOf m typeIndex = .ok signature) :
    m.types[typeIndex.toNat]? = some signature := by
  unfold signatureOf at h
  split at h
  · rename_i hType
    cases h
    exact hType
  · cases h

/-! ## Imports -/

/-- An import of a function with the signature of its type index. -/
def ImportsFunction (m : Module) (i : Import) (f : ImportedFunction) : Prop :=
  ∃ typeIndex, i.kind = .function typeIndex ∧ m.types[typeIndex.toNat]? = some f.signature

/-- An imported function under its names, with the signature of its type index. -/
def ImportMade (m : Module) (i : Import) (f : ImportedFunction) : Prop :=
  f.module = i.module ∧ f.name = i.name ∧ ImportsFunction m i f

theorem importMade_of_importFunctions {m : Module} {imported : Array ImportedFunction}
    (h : importFunctions m = .ok imported) :
    List.Forall₂ (ImportMade m) m.imports.toList imported.toList := by
  refine (forall₂_of_mapM_eq_ok h).imp fun i f hImport => ?_
  cases hKind : i.kind with
  | function typeIndex =>
    simp only [hKind] at hImport
    obtain ⟨signature, hSignature, hPure⟩ := exists_of_bind_eq_ok hImport
    cases hPure
    exact ⟨rfl, rfl, typeIndex, hKind, signatureOf_eq_ok hSignature⟩
  | table limits | memory limits | global type =>
    simp only [hKind] at hImport
    cases hImport

theorem imports_of_eq_ok {m : Module} {imported : Array ImportedFunction}
    (h : importFunctions m = .ok imported) :
    List.Forall₂ (ImportsFunction m) m.imports.toList imported.toList :=
  (importMade_of_importFunctions h).imp fun _ _ hMade => hMade.2.2

/-- Where only functions are imported, there is nothing of another kind. -/
theorem filterMap_imports {m : Module} {imported : Array ImportedFunction}
    (h : List.Forall₂ (ImportsFunction m) m.imports.toList imported.toList) {γ : Type}
    {pick : Import → Option γ}
    (hPick : ∀ i typeIndex, i.kind = .function typeIndex → pick i = none) :
    m.imports.filterMap pick = #[] := by
  rw [Array.filterMap_eq_empty_iff]
  intro i hi
  obtain ⟨k, hk⟩ := Array.mem_iff_getElem?.1 hi
  obtain ⟨f, -, typeIndex, hKind, -⟩ := exists_right_of_forall₂ h hk
  exact hPick i typeIndex hKind

theorem importedTypes_of_imports {m : Module} {imported : Array ImportedFunction}
    (h : List.Forall₂ (ImportsFunction m) m.imports.toList imported.toList) :
    List.Forall₂ (fun (typeIndex : UInt32) (f : ImportedFunction) =>
      m.types[typeIndex.toNat]? = some f.signature) m.importedTypes.toList imported.toList := by
  unfold Module.importedTypes
  rw [Array.toList_filterMap]
  generalize m.imports.toList = l at h
  generalize imported.toList = r at h
  induction h with
  | nil => exact .nil
  | cons hHead _ ih =>
    obtain ⟨typeIndex, hFunction, hType⟩ := hHead
    rw [List.filterMap_cons, hFunction]
    exact .cons hType ih

theorem size_importFunctions {m : Module} {imported : Array ImportedFunction}
    (h : importFunctions m = .ok imported) : imported.size = m.importedFunctionCount := by
  have hLength := (importedTypes_of_imports (imports_of_eq_ok h)).length_eq
  rw [Array.length_toList, Array.length_toList] at hLength
  exact hLength.symm

/-! ## Functions -/

/-- A defined function is made of the type index and the body at its place. -/
theorem exists_createFunction {m : Module} {count : Nat} {functions : Array Function}
    (h : createFunctions m count = .ok functions) {place : Nat} {f : Function}
    (hf : functions[place]? = some f) :
    ∃ typeIndex body, m.functions[place]? = some typeIndex ∧ m.code[place]? = some body ∧
      createFunction m count place typeIndex body = .ok f := by
  obtain ⟨⟨⟨typeIndex, body⟩, k⟩, hPlace, hCreate⟩ :=
    exists_left_of_forall₂ (forall₂_of_mapM_eq_ok h) hf
  rw [Array.getElem?_zipIdx] at hPlace
  obtain ⟨pair, hPair, hEq⟩ := Option.map_eq_some_iff.1 hPlace
  cases hEq
  obtain ⟨hType, hBody⟩ := Array.getElem?_zip_eq_some.1 hPair
  rw [Nat.zero_add] at hCreate
  exact ⟨typeIndex, body, hType, hBody, hCreate⟩

/-- What a defined function takes over from its declaration. -/
theorem function_of_createFunctions {m : Module} {count : Nat} {functions : Array Function}
    (h : createFunctions m count = .ok functions) {place : Nat} {f : Function}
    (hf : functions[place]? = some f) :
    ∃ typeIndex body, m.functions[place]? = some typeIndex ∧ m.code[place]? = some body ∧
      m.types[typeIndex.toNat]? = some f.signature ∧ f.code = body.code ∧
      f.locals = f.signature.parameters.toArray.map Value.zero ++ body.locals.map Value.zero := by
  obtain ⟨typeIndex, body, hType, hBody, hCreate⟩ := exists_createFunction h hf
  obtain ⟨signature, hSignature, hPure⟩ := exists_of_bind_eq_ok hCreate
  cases hPure
  exact ⟨typeIndex, body, hType, hBody, signatureOf_eq_ok hSignature, rfl, rfl⟩

theorem size_createFunctions {m : Module} {count : Nat} {functions : Array Function}
    (h : createFunctions m count = .ok functions) (hBodies : m.code.size = m.functions.size) :
    functions.size = m.functions.size := by
  rw [size_of_mapM_eq_ok h, Array.size_zipIdx, Array.size_zip, hBodies, Nat.min_self]

theorem Value.map_type_zero (types : Array ValueType) :
    (types.map Value.zero).map Value.type = types := by
  rw [Array.map_map]
  exact (Array.map_congr_left fun t _ => Value.type_zero t).trans (Array.map_id types)

theorem Program.lt_of_signature {p : Program} {index : UInt32} {signature : FunctionType}
    (h : p.signature index = .ok signature) : index.toNat < p.functionCount := by
  unfold Program.signature Program.callee at h
  unfold Program.functionCount
  cases hImported : p.imported[index.toNat]? with
  | some f =>
    obtain ⟨hBound, -⟩ := Array.getElem?_eq_some_iff.1 hImported
    omega
  | none =>
    simp only [hImported] at h
    cases hFunction : p.functions[index.toNat - p.imported.size]? with
    | some f =>
      obtain ⟨hBound, -⟩ := Array.getElem?_eq_some_iff.1 hFunction
      omega
    | none =>
      rw [hFunction] at h
      cases h

namespace Instantiated

variable {m : Module} {config : Config} {i : Instance}

theorem importedCount (h : Instantiated m config i) :
    i.program.imported.size = m.importedFunctionCount :=
  size_importFunctions h.imported

/-- The functions of an instance have the signatures that the module declares. -/
theorem signature_of_functionType? (h : Instantiated m config i)
    (hBodies : m.code.size = m.functions.size) {index : UInt32} {signature : FunctionType}
    (hType : m.functionType? index = some signature) :
    i.program.signature index = .ok signature := by
  have hImports := importedTypes_of_imports (imports_of_eq_ok h.imported)
  unfold Module.functionType? at hType
  obtain ⟨typeIndex, hIndex, hDeclared⟩ := Option.bind_eq_some_iff.1 hType
  unfold Program.signature Program.callee
  by_cases hImported : index.toNat < m.importedFunctionCount
  · rw [if_pos hImported] at hIndex
    obtain ⟨f, hf, hSame⟩ := exists_right_of_forall₂ hImports hIndex
    rw [hDeclared] at hSame
    cases hSame
    rw [hf]
    rfl
  · rw [if_neg hImported] at hIndex
    rw [← h.importedCount] at hIndex hImported
    obtain ⟨hBound, -⟩ := Array.getElem?_eq_some_iff.1 hIndex
    rw [← size_createFunctions h.functions hBodies] at hBound
    have hFunction := Array.getElem?_eq_getElem hBound
    obtain ⟨found, _, hFound, -, hSignature, -, -⟩ :=
      function_of_createFunctions h.functions hFunction
    rw [hIndex] at hFound
    cases hFound
    rw [hDeclared] at hSignature
    have hNone : i.program.imported[index.toNat]? = none := Array.getElem?_eq_none (by omega)
    simp only [hNone, hFunction]
    exact congrArg Except.ok (Option.some.inj hSignature).symm

/-- Every index below the number of functions is declared. -/
theorem functionType?_of_lt (h : Instantiated m config i) {index : UInt32}
    (hIndex : index.toNat < i.program.functionCount) :
    ∃ signature, m.functionType? index = some signature := by
  have hImports := importedTypes_of_imports (imports_of_eq_ok h.imported)
  unfold Program.functionCount at hIndex
  unfold Module.functionType?
  rw [← h.importedCount]
  by_cases hImported : index.toNat < i.program.imported.size
  · obtain ⟨typeIndex, hType, hSignature⟩ :=
      exists_left_of_forall₂ hImports (Array.getElem?_eq_getElem hImported)
    simp only [if_pos hImported, hType, Option.bind_some]
    exact ⟨_, hSignature⟩
  · have hPlace : index.toNat - i.program.imported.size < i.program.functions.size := by omega
    obtain ⟨typeIndex, _, hType, -, hSignature, -, -⟩ :=
      function_of_createFunctions h.functions (Array.getElem?_eq_getElem hPlace)
    simp only [if_neg hImported, hType, Option.bind_some]
    exact ⟨_, hSignature⟩

theorem signature_eq_ok_iff (h : Instantiated m config i)
    (hBodies : m.code.size = m.functions.size) {index : UInt32} {signature : FunctionType} :
    i.program.signature index = .ok signature ↔ m.functionType? index = some signature := by
  refine ⟨fun hSignature => ?_, h.signature_of_functionType? hBodies⟩
  obtain ⟨declared, hDeclared⟩ := h.functionType?_of_lt (Program.lt_of_signature hSignature)
  rw [h.signature_of_functionType? hBodies hDeclared] at hSignature
  cases hSignature
  exact hDeclared

/-- The program of an instance of a valid module. -/
theorem program_typed (h : Instantiated m config i) (hValid : m.Valid) :
    i.program.Typed m.context := by
  refine ⟨h.types, fun index signature => (h.signature_eq_ok_iff hValid.bodies).symm, ?_⟩
  intro place f hf
  obtain ⟨typeIndex, body, hIndex, hBody, hSignature, hCode, hLocals⟩ :=
    function_of_createFunctions h.functions hf
  obtain ⟨signature, hDeclared, s, hEncodes, hTyped⟩ :=
    hValid.code place typeIndex body hIndex hBody
  rw [hSignature] at hDeclared
  cases hDeclared
  have hTypes : f.locals.map Value.type = f.signature.parameters.toArray ++ body.locals := by
    rw [hLocals, Array.map_append, Value.map_type_zero, Value.map_type_zero]
  refine ⟨⟨body.locals, hTypes⟩, s, ?_, ?_⟩
  · rw [hCode]
    exact hEncodes
  · rw [hTypes]
    exact hTyped

end Instantiated

/-! ## Globals, memories and tables -/

theorem createGlobal_type {g : GlobalDecl} {created : Global} (h : createGlobal g = .ok created) :
    created.type = g.type := by
  obtain ⟨value, -, hRest⟩ := exists_of_bind_eq_ok h
  split at hRest
  · rename_i hType
    cases hRest
    rw [Global.type, hType]
  · cases hRest

theorem createGlobals_types {declared : Array GlobalDecl} {globals : Array Global}
    (h : declared.mapM createGlobal = .ok globals) :
    globals.map Global.type = declared.map (·.type) := by
  have hPairs := forall₂_of_mapM_eq_ok h
  apply Array.toList_inj.1
  rw [Array.toList_map, Array.toList_map]
  generalize declared.toList = l at hPairs
  generalize globals.toList = r at hPairs
  induction hPairs with
  | nil => rfl
  | cons hHead _ ih => rw [List.map_cons, List.map_cons, createGlobal_type hHead, ih]

theorem size_writeData {memories after : Array Memory} {d : DataSegment}
    (h : writeData memories d = .ok after) : after.size = memories.size := by
  obtain ⟨offset, -, hRest⟩ := exists_of_bind_eq_ok h
  split at hRest
  · cases hRest
  · split at hRest
    · cases hRest
      exact Array.size_setIfInBounds
    · cases hRest

theorem mem_fill {slots : Array (Option UInt32)} {start : Nat} {functions : List UInt32}
    {entry : UInt32} (h : some entry ∈ Table.fill slots start functions) :
    some entry ∈ slots ∨ entry ∈ functions := by
  induction functions generalizing slots start with
  | nil => exact .inl h
  | cons f rest ih =>
    rcases ih h with hSlots | hRest
    · rcases Array.mem_or_eq_of_mem_setIfInBounds hSlots with hOld | hNew
      · exact .inl hOld
      · cases hNew
        exact .inr List.mem_cons_self
    · exact .inr (List.mem_cons_of_mem f hRest)

/-- There are as many tables as were declared, and their slots hold functions of an index space of
the given size. -/
def TablesHold (count declared : Nat) (tables : Array Table) : Prop :=
  tables.size = declared ∧
    ∀ table ∈ tables, ∀ function, some function ∈ table.slots → function.toNat < count

theorem TablesHold.writeElements {count declared : Nat} {tables after : Array Table}
    {e : ElementSegment} (hTables : TablesHold count declared tables)
    (h : Instantiation.writeElements count tables e = .ok after) :
    TablesHold count declared after := by
  obtain ⟨offset, -, hRest⟩ := exists_of_bind_eq_ok h
  split at hRest
  · cases hRest
  · rename_i hNone
    split at hRest
    · cases hRest
    · rename_i table hTable
      unfold Table.writeElements at hRest
      split at hRest
      · rename_i written hWritten
        cases hRest
        split at hWritten
        · cases hWritten
          refine ⟨Array.size_setIfInBounds.trans hTables.1, ?_⟩
          intro found hFound function hSlot
          rcases Array.mem_or_eq_of_mem_setIfInBounds hFound with hOld | rfl
          · exact hTables.2 found hOld function hSlot
          · rcases mem_fill hSlot with hKept | hNew
            · exact hTables.2 table (Array.mem_of_getElem? hTable) function hKept
            · have hSmall := Array.find?_eq_none.1 hNone function (Array.mem_toList_iff.1 hNew)
              simpa using hSmall
        · cases hWritten
      · cases hRest

theorem slots_create {limits : Limits} {ceiling : UInt32} {table : Table}
    (h : Table.create limits ceiling = .ok table) :
    table.slots = Array.replicate limits.min.toNat none := by
  obtain ⟨-, -, rfl⟩ := Table.create_eq_ok_iff.1 h
  rfl

theorem tablesHold_of_createTables {m : Module} {config : Config} {count : Nat}
    {tables : Array Table} (h : createTables m config count = .ok tables) :
    TablesHold count m.tables.size tables := by
  obtain ⟨empty, hEmpty, hFilled⟩ := exists_of_bind_eq_ok h
  refine foldlM_invariant hFilled ⟨size_of_mapM_eq_ok hEmpty, ?_⟩ fun _ _ _ hHold hWrite =>
    hHold.writeElements hWrite
  intro table hTable function hSlot
  obtain ⟨k, hk⟩ := Array.mem_iff_getElem?.1 hTable
  obtain ⟨limits, -, hCreate⟩ := exists_left_of_forall₂ (forall₂_of_mapM_eq_ok hEmpty) hk
  rw [slots_create hCreate] at hSlot
  cases (Array.mem_replicate.1 hSlot).2

/-- The store of an instance. -/
theorem Instantiated.store_typed {m : Module} {config : Config} {i : Instance}
    (h : Instantiated m config i) : i.store.Typed m.context := by
  have hImports := imports_of_eq_ok h.imported
  have hGlobals : m.importedGlobals = #[] :=
    filterMap_imports hImports fun i typeIndex hKind => by rw [hKind]
  have hMemories : m.importedMemories = #[] :=
    filterMap_imports hImports fun i typeIndex hKind => by rw [hKind]
  have hTables : m.importedTables = #[] :=
    filterMap_imports hImports fun i typeIndex hKind => by rw [hKind]
  obtain ⟨empty, hEmpty, hData⟩ := h.memories
  obtain ⟨hTableCount, hSlots⟩ := tablesHold_of_createTables h.tables
  refine ⟨?_, ?_, ?_, ?_⟩
  · change _ = m.importedGlobals ++ m.globals.map (·.type)
    rw [hGlobals, Array.empty_append]
    exact createGlobals_types h.globals
  · change _ = m.importedMemories.size + m.memories.size
    rw [hMemories, Array.size_empty, Nat.zero_add, ← size_of_mapM_eq_ok hEmpty]
    exact foldlM_invariant (P := fun memories => memories.size = empty.size) hData rfl
      fun _ _ _ hSize hWrite => (size_writeData hWrite).trans hSize
  · change _ = m.importedTables.size + m.tables.size
    rw [hTables, Array.size_empty, Nat.zero_add]
    exact hTableCount
  · intro table hTable function hSlot
    exact h.functionType?_of_lt (hSlots table hTable function hSlot)

end WasmMachine
