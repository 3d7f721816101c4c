import WasmMachine.Proofs.Binary.Encoding

/-!
# Assembling a module

A module is written as a header and its sections in ascending order. The writer is free to group
the locals of a body into runs, to write or to leave out sections without entries, and to put
custom sections between any two others. Loading undoes all of this: it gives back the module, with
each body at the offset of its first code byte.

* `Arrangement`: the choices of a writer.
* `loads_of_arranged`: sections that are written in order are loaded one by one.
* `Arrangement.load_bytes`: loading undoes assembling.
-/

namespace WasmMachine

open Leb128 (encodeU32)
open Reader (Takes laidOut takes_map takes_items takes_vector)

/-! ## Sections -/

/-- The bodies of a section with the runs that their locals are written in. -/
def inRuns (runs : Nat → List Run) (bodies : Array FunctionBody) :
    List (List Run × FunctionBody) :=
  bodies.toList.mapIdx fun k body => (runs k, body)

/-- The form of a body whose locals are written in the given runs. -/
def encodeInRuns (entry : List Run × FunctionBody) : List UInt8 :=
  encodeBody entry.1 entry.2.code

/-- The body with the offset of its first code byte when its form stands at `pos`. -/
def placeBody (pos : Nat) (entry : List Run × FunctionBody) : FunctionBody :=
  { entry.2 with
    position := pos + (encodeCount (encodeBodyContent entry.1 entry.2.code).length).length +
      (encodeVector Run.encode entry.1).length }

/-- The bodies of a section of code whose payload stands at `pos`. -/
def placeBodies (runs : Nat → List Run) (pos : Nat) (bodies : Array FunctionBody) :
    Array FunctionBody :=
  (laidOut encodeInRuns placeBody (pos + (encodeCount (inRuns runs bodies).length).length)
    (inRuns runs bodies)).toArray

namespace Section

variable (runs : Nat → List Run)

/-- The payload of a section. -/
def payload : Section → List UInt8
  | .custom c => c.encode
  | .types ts => encodeVector FunctionType.encode ts.toList
  | .imports is => encodeVector Import.encode is.toList
  | .functions typeIndices => encodeVector encodeU32 typeIndices.toList
  | .tables ts => encodeVector encodeTable ts.toList
  | .memories ms => encodeVector Limits.encode ms.toList
  | .globals gs => encodeVector GlobalDecl.encode gs.toList
  | .exports es => encodeVector Export.encode es.toList
  | .start function => encodeU32 function
  | .elements es => encodeVector ElementSegment.encode es.toList
  | .code bodies => encodeVector encodeInRuns (inRuns runs bodies)
  | .data ds => encodeVector DataSegment.encode ds.toList

/-- The id, the size of the payload and the payload. -/
def encode (s : Section) : List UInt8 :=
  s.id :: (encodeCount (s.payload runs).length ++ s.payload runs)

/-- The content of a section whose payload stands at `pos`: bodies know their offsets. -/
def located (pos : Nat) : Section → Section
  | .code bodies => .code (placeBodies runs pos bodies)
  | s => s

/-- A section that is written at `pos`. -/
def place (pos : Nat) (s : Section) : PlacedSection :=
  let payload := pos + 1 + (encodeCount (s.payload runs).length).length
  { start := pos
    header := { id := s.id, len := UInt32.ofNat (s.payload runs).length, payload }
    content := s.located runs payload }

/-- What the entries of a section must be like to be read back. -/
def Writable (typeCount : Nat) : Section → Prop
  | .functions typeIndices => ∀ index ∈ typeIndices, index.toNat < typeCount
  | .globals gs => ∀ g ∈ gs, IsInitializer g.init.toList
  | .elements es => ∀ e ∈ es, IsInitializer e.offset.toList
  | .code bodies => ∀ entry ∈ inRuns runs bodies, expandRuns entry.1 = entry.2.locals ∧
      entry.2.locals.size ≤ maxLocals ∧ entry.2.code.back? = some endByte
  | .data ds => ∀ d ∈ ds, IsInitializer d.offset.toList
  | _ => True

/-- How many types a section adds. -/
def typeCount : Section → Nat
  | .types ts => ts.size
  | _ => 0

end Section

theorem types_located {m : Module} {s : Section} (runs : Nat → List Run) (pos : Nat) :
    (m.extend (s.located runs pos)).types.size = m.types.size + s.typeCount := by
  cases s with
  | types ts => exact Array.size_append
  | _ => rfl

theorem Section.id_le (s : Section) : s.id ≤ 11 := by
  cases s <;> simp only [Section.id] <;> decide

/-! ## Reading a section back -/

theorem encodeCount_ne_nil (n : Nat) : encodeCount n ≠ [] := Reader.encodeU32_ne_nil _

theorem encodeName_ne_nil (name : String) : encodeName name ≠ [] :=
  List.append_ne_nil_of_left_ne_nil (encodeCount_ne_nil _) _

theorem Limits.encode_ne_nil (l : Limits) : l.encode ≠ [] := by
  obtain ⟨min, max⟩ := l
  cases max <;> exact List.cons_ne_nil _ _

/-- Every section is read back from its payload. -/
theorem takes_readSection {runs : Nat → List Run} {bytes : Bytes} {pos typeCount : Nat}
    {s : Section} (hs : s.Writable runs typeCount) (h : Written bytes pos (s.payload runs)) :
    Takes (readSection s.id (s.payload runs).length typeCount) bytes pos (s.payload runs)
      (s.located runs pos) := by
  cases s with
  | custom c => exact takes_map (f := Section.custom) (Reader.takes_customSection h)
  | types ts =>
    refine takes_map (f := Section.types) (takes_items ?_ ?_ h)
    · exact fun t _ => List.cons_ne_nil _ _
    · exact fun t _ pos => Reader.takes_functionType
  | imports is =>
    refine takes_map (f := Section.imports) (takes_items ?_ ?_ h)
    · exact fun i _ => List.append_ne_nil_of_left_ne_nil (encodeName_ne_nil i.module) _
    · exact fun i _ pos => Reader.takes_importEntry
  | functions typeIndices =>
    refine takes_map (f := Section.functions) (takes_items ?_ ?_ h)
    · exact fun index _ => Reader.encodeU32_ne_nil index
    · exact fun index hIndex pos =>
        Reader.takes_typeIndex (hs index (Array.mem_toList_iff.1 hIndex))
  | tables ts =>
    refine takes_map (f := Section.tables) (takes_items ?_ ?_ h)
    · exact fun t _ => List.cons_ne_nil _ _
    · exact fun t _ pos => Reader.takes_tableType
  | memories ms =>
    refine takes_map (f := Section.memories) (takes_items ?_ ?_ h)
    · exact fun l _ => l.encode_ne_nil
    · exact fun t _ pos => Reader.takes_limits
  | globals gs =>
    refine takes_map (f := Section.globals) (takes_items ?_ ?_ h)
    · exact fun g _ => List.cons_ne_nil _ _
    · exact fun g hg pos => Reader.takes_globalEntry (hs g (Array.mem_toList_iff.1 hg))
  | exports es =>
    refine takes_map (f := Section.exports) (takes_items ?_ ?_ h)
    · exact fun e _ => List.append_ne_nil_of_left_ne_nil (encodeName_ne_nil e.name) _
    · exact fun e _ pos => Reader.takes_exportEntry
  | start function => exact takes_map (f := Section.start) (Reader.takes_u32 h)
  | elements es =>
    refine takes_map (f := Section.elements) (takes_items ?_ ?_ h)
    · exact fun e _ => List.append_ne_nil_of_left_ne_nil (Reader.encodeU32_ne_nil e.table) _
    · exact fun e he pos => Reader.takes_elementEntry (hs e (Array.mem_toList_iff.1 he))
  | code bodies =>
    refine takes_map (f := Section.code) (takes_vector ?_ ?_ h)
    · exact fun entry _ => List.append_ne_nil_of_left_ne_nil (encodeCount_ne_nil _) _
    · intro entry hEntry pos hWritten
      obtain ⟨hRuns, hLocals, hCode⟩ := hs entry hEntry
      have hBody : Reader.bodyAt entry.1 entry.2.code pos = placeBody pos entry := by
        unfold Reader.bodyAt placeBody
        rw [hRuns]
      rw [← hBody]
      exact Reader.takes_bodyEntry (by rw [hRuns]; exact hLocals) hCode hWritten
  | data ds =>
    refine takes_map (f := Section.data) (takes_items ?_ ?_ h)
    · exact fun d _ => List.append_ne_nil_of_left_ne_nil (Reader.encodeU32_ne_nil d.memory) _
    · exact fun d hd pos => Reader.takes_dataEntry (hs d (Array.mem_toList_iff.1 hd))

/-! ## Sections in order -/

/-- Sections in ascending order after `previous`, but for custom ones, that can be written when
`typeCount` types are known before them. -/
inductive Arranged (runs : Nat → List Run) : UInt8 → Nat → List Section → Prop
  | nil {previous : UInt8} {typeCount : Nat} : Arranged runs previous typeCount []
  | custom {previous : UInt8} {typeCount : Nat} {c : CustomSection} {rest : List Section}
      (tail : Arranged runs previous typeCount rest) :
      Arranged runs previous typeCount (.custom c :: rest)
  | known {previous : UInt8} {typeCount : Nat} {s : Section} {rest : List Section}
      (order : previous < s.id) (writable : s.Writable runs typeCount)
      (tail : Arranged runs s.id (typeCount + s.typeCount) rest) :
      Arranged runs previous typeCount (s :: rest)

/-- One section that stands at `pos` is loaded. -/
theorem loads_cons {runs : Nat → List Run} {bytes : Bytes} {pos : Nat} {previous last : UInt8}
    {m final : Module} {s : Section} {rest : List PlacedSection}
    (hs : s.Writable runs m.types.size) (hSmall : (s.payload runs).length < UInt32.size)
    (hOrder : checkOrder previous pos s.id = .ok last)
    (hStands : StandsAt bytes pos (s.encode runs))
    (hFits : pos + (s.encode runs).length ≤ bytes.size)
    (hRest : Loads bytes (pos + (s.encode runs).length) last
      (m.extend (s.place runs pos).content) rest final) :
    Loads bytes pos previous m (s.place runs pos :: rest) final := by
  have hLen : (UInt32.ofNat (s.payload runs).length).toNat = (s.payload runs).length :=
    UInt32.toNat_ofNat_of_lt' hSmall
  have hTail : StandsAt bytes (pos + 1)
      (encodeCount (s.payload runs).length ++ s.payload runs) := hStands.tail
  have hLength : (s.encode runs).length =
      1 + (encodeCount (s.payload runs).length).length + (s.payload runs).length := by
    rw [Section.encode, List.length_cons, List.length_append]
    omega
  have hStop : (s.place runs pos).stop = pos + (s.encode runs).length := by
    change pos + 1 + (encodeCount (s.payload runs).length).length +
      (UInt32.ofNat (s.payload runs).length).toNat = _
    omega
  have hInside : (s.place runs pos).stop ≤ bytes.size := by omega
  have hWritten : Written bytes (pos + 1 + (encodeCount (s.payload runs).length).length)
      (s.payload runs) := ⟨hTail.append_right, by omega, hSmall⟩
  have hHeader : readSectionHeader bytes pos = .ok (s.place runs pos).header :=
    readSectionHeader_eq_ok_iff.2
      ⟨hStands.head, Leb128.decodeU32_encodeU32 hTail.append_left, hInside⟩
  have hPayload : readPayload bytes (s.place runs pos).header m.types.size =
      .ok (s.place runs pos).content := by
    have hTakes : Takes (readSection s.id (UInt32.ofNat (s.payload runs).length).toNat
        m.types.size) bytes (s.place runs pos).header.payload (s.payload runs)
        (s.place runs pos).content := by
      rw [hLen]
      exact takes_readSection hs hWritten
    refine (readPayload_eq_ok_iff hInside).2 ⟨_, hTakes, (pos_cursorAt hWritten.fits).trans ?_⟩
    rw [hStop]
    omega
  refine .next (s := s.place runs pos) hHeader hOrder hPayload ?_
  rw [hStop]
  exact hRest

/-- Sections that are written in order are loaded one by one. -/
theorem loads_of_arranged {runs : Nat → List Run} {bytes : Bytes} {pos : Nat} {previous : UInt8}
    {typeCount : Nat} {m : Module} {sections : List Section}
    (h : Arranged runs previous typeCount sections) (hTypes : m.types.size = typeCount)
    (hSmall : ∀ s ∈ sections, (s.payload runs).length < UInt32.size)
    (hStands : StandsAt bytes pos (sections.flatMap (Section.encode runs)))
    (hEnd : pos + (sections.flatMap (Section.encode runs)).length = bytes.size) :
    Loads bytes pos previous m (laidOut (Section.encode runs) (Section.place runs) pos sections)
      (m.extendAll (laidOut (Section.encode runs) (Section.place runs) pos sections)) := by
  induction h generalizing pos m with
  | nil =>
    obtain rfl : pos = bytes.size := hEnd
    exact .done
  | @custom previous typeCount c rest tail ih =>
    rw [List.flatMap_cons] at hStands hEnd
    rw [List.length_append] at hEnd
    have hOrder : checkOrder previous pos (Section.custom c).id = .ok previous := rfl
    refine loads_cons trivial (hSmall _ List.mem_cons_self) hOrder hStands.append_left
      (by omega) ?_
    refine ih ?_ (fun s hs => hSmall s (List.mem_cons_of_mem _ hs)) hStands.append_right (by omega)
    exact hTypes
  | @known previous typeCount s rest order writable tail ih =>
    rw [List.flatMap_cons] at hStands hEnd
    rw [List.length_append] at hEnd
    have hKnown : s.id ≠ 0 := by
      intro hZero
      rw [hZero] at order
      exact absurd order (UInt8.not_lt.2 (by simp))
    have hOrder : checkOrder previous pos s.id = .ok s.id :=
      checkOrder_eq_ok_iff.2 (.inr ⟨hKnown, s.id_le, order, rfl⟩)
    subst hTypes
    refine loads_cons writable (hSmall s List.mem_cons_self) hOrder hStands.append_left
      (by omega) ?_
    refine ih ?_ (fun s hs => hSmall s (List.mem_cons_of_mem _ hs)) hStands.append_right (by omega)
    exact types_located runs _

/-! ## The header -/

theorem takes_fixed {bytes : Bytes} {pos : Nat} {form : List UInt8} (h : Written bytes pos form) :
    Takes (Reader.fixed form.length) bytes pos form (littleEndian form) :=
  takes_map (f := fun content : Bytes => littleEndian content.toList) (Reader.takes_bytes h)

theorem readHeader_of_written {bytes : Bytes} (h : Written bytes 0 moduleHeader.toList) :
    readHeader (Cursor.start bytes) = .ok () (cursorAt bytes 8) := by
  have hStart : cursorAt bytes 0 = Cursor.start bytes := by
    simp [cursorAt, Cursor.moveTo, Cursor.start]
  have hSplit : Written bytes 0 ([0x00, 0x61, 0x73, 0x6d] ++ [0x01, 0x00, 0x00, 0x00]) := h
  have hHeader : Takes readHeader bytes 0
      ([0x00, 0x61, 0x73, 0x6d] ++ [0x01, 0x00, 0x00, 0x00]) () := by
    refine Reader.takes_bind (takes_fixed hSplit.left) ?_
    rw [if_neg (by decide)]
    refine Reader.takes_last (takes_fixed hSplit.right) ?_
    rw [if_neg (by decide)]
    exact Reader.takes_pure ()
  rw [← hStart]
  exact hHeader

/-- Behind the header, loading is what the sections give, and the count of bodies. -/
theorem load_of_written {name : String} {bytes : Bytes}
    (hHeader : Written bytes 0 moduleHeader.toList) :
    Module.load name bytes =
      match loadSections bytes 8 ⟨{ name }, 0, {}⟩ with
      | (_, some e) => .error e
      | (p, none) =>
        if p.module.functions.size ≠ p.module.code.size then
          .error ⟨.functionCountMismatch p.module.functions.size p.module.code.size, bytes.size⟩
        else .ok p.module := by
  have hPos : (cursorAt bytes 8).pos = 8 := pos_cursorAt hHeader.fits
  unfold Module.load Module.loadRecorded
  rw [readHeader_of_written hHeader]
  simp only [hPos]
  rcases loadSections bytes 8 ⟨{ name }, 0, {}⟩ with ⟨p, e | -⟩
  · dsimp only
    split <;> rfl
  · rfl

theorem load_of_loads {name : String} {bytes : Bytes} {sections : List PlacedSection} {m : Module}
    (hHeader : Written bytes 0 moduleHeader.toList)
    (hSections : Loads bytes 8 0 { name } sections m)
    (hCount : m.functions.size = m.code.size) : Module.load name bytes = .ok m := by
  obtain ⟨p, hRun, rfl⟩ := loadSections_of_loads hSections {}
  rw [load_of_written hHeader, hRun]
  exact if_neg (not_not.2 hCount)

/-! ## Arrangements -/

/-- What a module must be like to be written down and loaded again. -/
structure Module.Writable (m : Module) : Prop where
  count : m.functions.size = m.code.size
  functions : ∀ index ∈ m.functions, index.toNat < m.types.size
  bodies : ∀ body ∈ m.code, body.locals.size ≤ 50000 ∧ body.code.back? = some 0x0b
  globals : ∀ g ∈ m.globals, IsInitializer g.init.toList
  elements : ∀ e ∈ m.elements, IsInitializer e.offset.toList
  data : ∀ d ∈ m.data, IsInitializer d.offset.toList

/-- The choices of a writer. -/
structure Arrangement (m : Module) where
  /-- The runs that the locals of each body are written in. -/
  runs : Nat → List Run
  runs_eq : ∀ k body, m.code[k]? = some body → expandRuns (runs k) = body.locals
  /-- The custom sections in front of the section of id `k + 1`, and at the end for `k = 11`. -/
  custom : Nat → List CustomSection
  custom_eq : (List.range 12).flatMap custom = m.custom.toList
  /-- Which sections are written even without entries, by id. -/
  keepsEmpty : Nat → Bool

/-- A section, which may be left out when it has no entries. -/
def optionalSection {α : Type} (keep : Bool) (items : Array α) (make : Array α → Section) :
    List Section :=
  if items.isEmpty && !keep then [] else [make items]

namespace Arrangement

variable {m : Module} (a : Arrangement m)

def gap (k : Nat) : List Section := (a.custom k).map .custom

/-- The sections in front of the section of code. -/
def front : List Section :=
  a.gap 0 ++ (optionalSection (a.keepsEmpty 1) m.types .types ++
  (a.gap 1 ++ (optionalSection (a.keepsEmpty 2) m.imports .imports ++
  (a.gap 2 ++ (optionalSection (a.keepsEmpty 3) m.functions .functions ++
  (a.gap 3 ++ (optionalSection (a.keepsEmpty 4) m.tables .tables ++
  (a.gap 4 ++ (optionalSection (a.keepsEmpty 5) m.memories .memories ++
  (a.gap 5 ++ (optionalSection (a.keepsEmpty 6) m.globals .globals ++
  (a.gap 6 ++ (optionalSection (a.keepsEmpty 7) m.exports .exports ++
  (a.gap 7 ++ (m.start.toList.map .start ++
  (a.gap 8 ++ (optionalSection (a.keepsEmpty 9) m.elements .elements ++
  a.gap 9)))))))))))))))))

/-- The sections behind the section of code. -/
def back : List Section :=
  a.gap 10 ++ (optionalSection (a.keepsEmpty 11) m.data .data ++ a.gap 11)

/-- All sections in the order in which they are written. -/
def sections : List Section :=
  a.front ++ (optionalSection (a.keepsEmpty 10) m.code .code ++ a.back)

/-- The binary form of the module. -/
def bytes : Bytes := moduleHeader ++ (a.sections.flatMap (Section.encode a.runs)).toArray

/-- The offset of the payload of the section of code. -/
def codePayload : Nat :=
  8 + (a.front.flatMap (Section.encode a.runs)).length + 1 +
    (encodeCount ((Section.code m.code).payload a.runs).length).length

/-- The module with the offsets of its bodies in the binary form. -/
def module : Module :=
  { m with version := 1, code := placeBodies a.runs a.codePayload m.code }

end Arrangement

/-! ## Arranged sections -/

section Arranging

variable {α : Type} {runs : Nat → List Run} {previous : UInt8} {typeCount : Nat}
  {rest : List Section}

theorem Arranged.weaken (h : Arranged runs previous typeCount rest) {earlier : UInt8}
    (hEarlier : earlier ≤ previous) : Arranged runs earlier typeCount rest := by
  induction h with
  | nil => exact .nil
  | custom tail ih => exact .custom (ih hEarlier)
  | known order writable tail ih =>
    exact .known (UInt8.lt_of_le_of_lt hEarlier order) writable tail

theorem arranged_gap {m : Module} (a : Arrangement m) (k : Nat)
    (h : Arranged runs previous typeCount rest) :
    Arranged runs previous typeCount (a.gap k ++ rest) := by
  unfold Arrangement.gap
  induction a.custom k with
  | nil => exact h
  | cons c others ih => exact .custom ih

theorem arranged_optional {keep : Bool} {items : Array α} {make : Array α → Section} (id : UInt8)
    (hId : (make items).id = id) (hOrder : previous < id)
    (hWritable : (make items).Writable runs typeCount)
    (hNone : items.isEmpty → (make items).typeCount = 0)
    (tail : Arranged runs id (typeCount + (make items).typeCount) rest) :
    Arranged runs previous typeCount (optionalSection keep items make ++ rest) := by
  unfold optionalSection
  subst hId
  split
  · rename_i hLeftOut
    rw [hNone (Bool.and_eq_true_iff.1 hLeftOut).1, Nat.add_zero] at tail
    exact tail.weaken (UInt8.le_of_lt hOrder)
  · exact .known hOrder hWritable tail

end Arranging

theorem mem_inRuns {runs : Nat → List Run} {bodies : Array FunctionBody}
    {entry : List Run × FunctionBody} (h : entry ∈ inRuns runs bodies) :
    ∃ k, bodies[k]? = some entry.2 ∧ entry.1 = runs k := by
  obtain ⟨k, hk, rfl⟩ := List.mem_mapIdx.1 h
  exact ⟨k, by simp, rfl⟩

theorem Arrangement.arranged {m : Module} (a : Arrangement m) (hm : m.Writable) :
    Arranged a.runs 0 0 a.sections := by
  have hEnd : ∀ n, Arranged a.runs 11 n (a.gap 11) := by
    intro n
    have hNone : Arranged a.runs 11 n [] := .nil
    have hGap := arranged_gap a 11 hNone
    rw [List.append_nil] at hGap
    exact hGap
  simp only [sections, front, back, List.append_assoc]
  refine arranged_gap a 0 (arranged_optional 1 rfl (by decide) trivial ?_ ?_)
  · exact fun h => Array.size_eq_zero_iff.2 (Array.isEmpty_iff.1 h)
  rw [Nat.zero_add]
  refine arranged_gap a 1 (arranged_optional 2 rfl (by decide) trivial (fun _ => rfl) ?_)
  refine arranged_gap a 2 (arranged_optional 3 rfl (by decide) hm.functions (fun _ => rfl) ?_)
  refine arranged_gap a 3 (arranged_optional 4 rfl (by decide) trivial (fun _ => rfl) ?_)
  refine arranged_gap a 4 (arranged_optional 5 rfl (by decide) trivial (fun _ => rfl) ?_)
  refine arranged_gap a 5 (arranged_optional 6 rfl (by decide) hm.globals (fun _ => rfl) ?_)
  refine arranged_gap a 6 (arranged_optional 7 rfl (by decide) trivial (fun _ => rfl) ?_)
  refine arranged_gap a 7 ?_
  have hRest : ∀ n, Arranged a.runs 8 n (a.gap 8 ++
      (optionalSection (a.keepsEmpty 9) m.elements .elements ++ (a.gap 9 ++
      (optionalSection (a.keepsEmpty 10) m.code .code ++ (a.gap 10 ++
      (optionalSection (a.keepsEmpty 11) m.data .data ++ a.gap 11)))))) := by
    intro n
    refine arranged_gap a 8 (arranged_optional 9 rfl (by decide) hm.elements (fun _ => rfl) ?_)
    refine arranged_gap a 9 (arranged_optional 10 rfl (by decide) ?_ (fun _ => rfl) ?_)
    · intro entry hEntry
      obtain ⟨k, hBody, hRuns⟩ := mem_inRuns hEntry
      have hLimits := hm.bodies entry.2 (Array.mem_of_getElem? hBody)
      exact ⟨by rw [hRuns]; exact a.runs_eq k entry.2 hBody, hLimits⟩
    · exact arranged_gap a 10 (arranged_optional 11 rfl (by decide) hm.data (fun _ => rfl) (hEnd _))
  cases m.start with
  | none => exact (hRest _).weaken (by decide)
  | some function =>
    have hOrder : (7 : UInt8) < (Section.start function).id := by
      simp only [Section.id]
      decide
    exact .known hOrder trivial (hRest _)

/-! ## The contents of arranged sections -/

section Contents

variable {α : Type} {runs : Nat → List Run} {n : Module}

theorem extendAll_append (xs ys : List PlacedSection) :
    n.extendAll (xs ++ ys) = (n.extendAll xs).extendAll ys :=
  List.foldl_append

/-- Sections without code have their contents wherever they stand. -/
theorem extendAll_laidOut {sections : List Section} {pos : Nat}
    (h : ∀ s ∈ sections, ∀ pos, s.located runs pos = s) :
    n.extendAll (laidOut (Section.encode runs) (Section.place runs) pos sections) =
      sections.foldl Module.extend n := by
  induction sections generalizing n pos with
  | nil => rfl
  | cons s rest ih =>
    have hHead : (s.place runs pos).content = s := h s List.mem_cons_self _
    rw [laidOut, Module.extendAll_cons, hHead,
      ih fun t ht => h t (List.mem_cons_of_mem s ht)]
    rfl

theorem located_of_mem_optional {keep : Bool} {items : Array α} {make : Array α → Section}
    (h : ∀ pos, (make items).located runs pos = make items) :
    ∀ s ∈ optionalSection keep items make, ∀ pos, s.located runs pos = s := by
  unfold optionalSection
  split <;> simp [h]

theorem located_of_mem_gap {m : Module} (a : Arrangement m) (k : Nat) :
    ∀ s ∈ a.gap k, ∀ pos, s.located runs pos = s := by
  intro s hs pos
  obtain ⟨c, -, rfl⟩ := List.mem_map.1 hs
  rfl

theorem foldl_gap {m : Module} (a : Arrangement m) (k : Nat) :
    (a.gap k).foldl Module.extend n = { n with custom := n.custom ++ (a.custom k).toArray } := by
  unfold Arrangement.gap
  induction a.custom k generalizing n with
  | nil => simp
  | cons c rest ih =>
    rw [List.map_cons, List.foldl_cons, ih]
    simp [Module.extend]

/-- Leaving out a section without entries makes no difference. -/
theorem foldl_optional {keep : Bool} {items : Array α} {make : Array α → Section}
    (h : n.extend (make #[]) = n) :
    (optionalSection keep items make).foldl Module.extend n = n.extend (make items) := by
  unfold optionalSection
  split
  · rename_i hLeftOut
    rw [Array.isEmpty_iff.1 (Bool.and_eq_true_iff.1 hLeftOut).1, h]
    rfl
  · rfl

end Contents

namespace Arrangement

variable {m : Module} (a : Arrangement m)

theorem foldl_start {n : Module} (h : n.start = none) :
    (m.start.toList.map Section.start).foldl Module.extend n = { n with start := m.start } := by
  cases m.start with
  | none =>
    change n = { n with start := none }
    rw [← h]
  | some function => rfl

theorem foldl_front : a.front.foldl Module.extend { name := m.name } =
    { m with
      version := 1
      code := #[]
      data := #[]
      custom := ((List.range 10).flatMap a.custom).toArray } := by
  simp (disch := simp [Module.extend]) only [front, List.foldl_append, foldl_gap, foldl_optional,
    foldl_start]
  simp [Module.extend, List.range_succ]

theorem located_of_mem_front : ∀ s ∈ a.front, ∀ pos, s.located a.runs pos = s := by
  simp only [front, List.forall_mem_append]
  have hGap : ∀ k, ∀ s ∈ a.gap k, ∀ pos, s.located a.runs pos = s := located_of_mem_gap a
  refine ⟨hGap 0, located_of_mem_optional fun _ => rfl,
    hGap 1, located_of_mem_optional fun _ => rfl, hGap 2, located_of_mem_optional fun _ => rfl,
    hGap 3, located_of_mem_optional fun _ => rfl, hGap 4, located_of_mem_optional fun _ => rfl,
    hGap 5, located_of_mem_optional fun _ => rfl,
    hGap 6, located_of_mem_optional fun _ => rfl, hGap 7, ?_, hGap 8,
    located_of_mem_optional fun _ => rfl, hGap 9⟩
  intro s hs pos
  obtain ⟨function, -, rfl⟩ := List.mem_map.1 hs
  rfl

theorem located_of_mem_back : ∀ s ∈ a.back, ∀ pos, s.located a.runs pos = s := by
  simp only [back, List.forall_mem_append]
  exact ⟨located_of_mem_gap a 10, located_of_mem_optional fun _ => rfl, located_of_mem_gap a 11⟩

/-- A section of code without bodies may be left out, too. -/
theorem extendAll_code {n : Module} (h : n.code = #[]) (keep : Bool) (pos : Nat) :
    n.extendAll (laidOut (Section.encode a.runs) (Section.place a.runs) pos
        (optionalSection keep m.code .code)) =
      { n with
        code := placeBodies a.runs (pos + 1 +
          (encodeCount ((Section.code m.code).payload a.runs).length).length) m.code } := by
  unfold optionalSection
  split
  · rename_i hLeftOut
    have hNone : m.code = #[] := Array.isEmpty_iff.1 (Bool.and_eq_true_iff.1 hLeftOut).1
    have hPlaced : ∀ pos, placeBodies a.runs pos #[] = #[] := fun _ => rfl
    rw [hNone, hPlaced, ← h]
    rfl
  · change n.extend (.code (placeBodies _ _ _)) = _
    simp [Module.extend, h]

theorem extendAll_sections :
    Module.extendAll { name := m.name }
      (laidOut (Section.encode a.runs) (Section.place a.runs) 8 a.sections) = a.module := by
  have hCustom : ((List.range 10).flatMap a.custom).toArray ++ (a.custom 10).toArray ++
      (a.custom 11).toArray = m.custom := by
    rw [← Array.toList_inj, ← a.custom_eq]
    simp [List.range_succ]
  rw [sections, Reader.laidOut_append, Reader.laidOut_append, extendAll_append, extendAll_append,
    extendAll_laidOut a.located_of_mem_front, foldl_front,
    a.extendAll_code rfl, extendAll_laidOut a.located_of_mem_back]
  simp (disch := simp [Module.extend]) only [back, List.foldl_append, foldl_gap, foldl_optional]
  simp only [Module.extend, Array.empty_append, hCustom]
  rfl

end Arrangement

theorem Arrangement.load_eq {m : Module} (a : Arrangement m) (hm : m.Writable)
    (hSmall : ∀ s ∈ a.sections, (s.payload a.runs).length < UInt32.size) :
    Module.load m.name a.bytes = .ok a.module := by
  have hList : a.bytes.toList =
      moduleHeader.toList ++ a.sections.flatMap (Section.encode a.runs) := by
    simp [bytes]
  have hLength : 8 + (a.sections.flatMap (Section.encode a.runs)).length = a.bytes.size := by
    rw [← Array.length_toList, hList, List.length_append]
    rfl
  have hHeader : Written a.bytes 0 moduleHeader.toList :=
    ⟨⟨_, hList⟩, by rw [← hLength]; exact Nat.le_add_right _ _, by decide⟩
  have hStands : StandsAt a.bytes 8 (a.sections.flatMap (Section.encode a.runs)) := by
    refine ⟨[], ?_⟩
    rw [hList, List.append_nil]
    rfl
  have hLoads : Loads a.bytes 8 0 { name := m.name } _ _ :=
    loads_of_arranged (a.arranged hm) rfl hSmall hStands hLength
  rw [a.extendAll_sections] at hLoads
  refine load_of_loads hHeader hLoads ?_
  simp [module, placeBodies, inRuns, hm.count]

/-- Loading undoes assembling: the module comes back, and the position of each body is the offset
of its first code byte. -/
theorem Arrangement.load_bytes {m : Module} (a : Arrangement m) (hm : m.Writable)
    (hSmall : ∀ s ∈ a.sections, (s.payload a.runs).length < UInt32.size) :
    Module.load m.name a.bytes = .ok a.module ∧
      ∀ (k : Nat) (body : FunctionBody), m.code[k]? = some body → ∃ position : Nat,
        a.module.code[k]? = some { body with position } ∧
        a.bytes.extract position (position + body.code.size) = body.code := by
  have hLoad := a.load_eq hm hSmall
  refine ⟨hLoad, ?_⟩
  intro k body hBody
  have hEntry : (inRuns a.runs m.code)[k]? = some (a.runs k, body) := by
    simp [inRuns, hBody]
  obtain ⟨place, hPlaced⟩ := Reader.exists_getElem?_laidOut encodeInRuns placeBody
    (a.codePayload + (encodeCount (inRuns a.runs m.code).length).length) hEntry
  have hModule : a.module.code[k]? = some (placeBody place (a.runs k, body)) := by
    rw [← hPlaced]
    simp [module, placeBodies]
  obtain ⟨-, sections, hLayout⟩ := exists_layout_of_load hLoad
  obtain ⟨s, -, hHolds, -⟩ := hLayout.exists_holds (Array.mem_of_getElem? hModule)
  exact ⟨_, hModule, hHolds.code⟩

/-- A module with an import, a global, a body with locals of two types and two custom sections. -/
def answerModule : Module where
  name := "answer"
  types := #[⟨[.i32], [.i64]⟩]
  imports := #[⟨"env", "table", .table ⟨1, some 2⟩⟩]
  functions := #[0]
  globals := #[⟨⟨.i32, true⟩, #[0x41, 0x2a, 0x0b]⟩]
  exports := #[⟨"main", .function 0⟩]
  code := #[⟨#[.i64, .i64, .f32], #[0x20, 0x01, 0x0b], 0⟩]
  custom := #[⟨"first", #[0xff]⟩, ⟨"last", #[]⟩]

/-- The locals in four runs, one of them empty, the custom sections in front of the functions and
at the end, and an empty section of data. -/
def answerArrangement : Arrangement answerModule where
  runs _ := [⟨1, .i64⟩, ⟨0, .f64⟩, ⟨1, .i64⟩, ⟨1, .f32⟩]
  runs_eq := by
    intro k body h
    obtain ⟨hk, rfl⟩ := Array.getElem?_eq_some_iff.1 h
    obtain rfl : k = 0 := Nat.lt_one_iff.1 hk
    rfl
  custom k := if k = 2 then [⟨"first", #[0xff]⟩] else if k = 11 then [⟨"last", #[]⟩] else []
  custom_eq := rfl
  keepsEmpty id := id = 11

theorem writable_answerModule : answerModule.Writable where
  count := rfl
  functions := by simp [answerModule]
  bodies := by simp [answerModule]
  globals := by
    have hKnown : Opcode.ofByte? 0x41 = some (.const .i32) := by decide +kernel
    have hOperand : (Opcode.const .i32).operands.InitForm [0x2a] := IsVarint.last (by decide)
    have hInit : IsInitializer (0x41 :: ([0x2a] ++ [endByte])) :=
      .step (by decide) hKnown hOperand .stop
    simpa [answerModule, endByte] using hInit
  elements := by simp [answerModule]
  data := by simp [answerModule]

theorem Arrangement.load_bytes_answer :
    Module.load "answer" answerArrangement.bytes = .ok answerArrangement.module ∧
      ∃ position, answerArrangement.module.code[0]? =
          some ⟨#[.i64, .i64, .f32], #[0x20, 0x01, 0x0b], position⟩ ∧
        answerArrangement.bytes.extract position (position + 3) = #[0x20, 0x01, 0x0b] := by
  have hSmall : ∀ s ∈ answerArrangement.sections,
      (s.payload answerArrangement.runs).length < UInt32.size := by decide +kernel
  obtain ⟨hLoad, hBodies⟩ := answerArrangement.load_bytes writable_answerModule hSmall
  exact ⟨hLoad, hBodies 0 _ rfl⟩

end WasmMachine
