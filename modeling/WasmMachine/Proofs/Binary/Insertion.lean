import WasmMachine.Proofs.Binary.Assembly
import WasmMachine.Proofs.Binary.Locality

/-!
# Custom sections are inert

A custom section may be put between any two sections of a module, in front of the first one or
behind the last one. What stands before it is loaded as before, what stands behind it is loaded
from its new place, and the order of sections takes no notice of it. So the module gets one more
custom section, and the bodies behind it move.

* `SectionsUpTo`: the places between sections.
* `CustomSection.IsForm`: the forms of a custom section.
* `Loads.moved`: sections that stand further on are loaded as before.
* `Module.load_splice`: loading with one more custom section.
-/

namespace WasmMachine

open Leb128
open Reader (Takes takes_map)

/-! ## Putting something in between -/

/-- The array with more items in front of the item at an index. -/
def splice {α : Type} (xs : Array α) (place : Nat) (ys : Array α) : Array α :=
  xs.extract 0 place ++ ys ++ xs.extract place xs.size

section Splice

variable {α : Type} {xs ys : Array α} {place : Nat}

theorem size_splice (h : place ≤ xs.size) : (splice xs place ys).size = xs.size + ys.size := by
  simp only [splice, Array.size_append, Array.size_extract]
  omega

theorem splice_size : splice xs xs.size ys = xs ++ ys := by
  simp [splice]

theorem toList_splice : (splice xs place ys).toList =
    xs.toList.take place ++ ys.toList ++ xs.toList.drop place := by
  have hRest : (xs.toList.drop place).length ≤ xs.size - place := by simp
  simp [splice, List.extract_eq_take_drop, List.take_of_length_le hRest]

theorem splice_push (h : place ≤ xs.size) (x : α) :
    splice (xs.push x) place ys = (splice xs place ys).push x := by
  have hFront : place ≤ xs.toList.length := h
  rw [← Array.toList_inj, toList_splice, Array.toList_push, Array.toList_push, toList_splice,
    List.take_append_of_le_length hFront, List.drop_append_of_le_length hFront]
  simp only [List.append_assoc]

theorem standsAt_splice {bytes : Bytes} {form : List UInt8} (h : place ≤ bytes.size) :
    StandsAt (splice bytes place form.toArray) place form := by
  refine ⟨bytes.toList.drop place, ?_⟩
  have hFront : (bytes.toList.take place).length = place := by
    rw [List.length_take, Array.length_toList]
    omega
  rw [toList_splice, List.append_assoc, List.drop_left' hFront]

theorem moved_before_splice {bytes form : Bytes} {place : Nat} (h : place ≤ bytes.size) :
    Moved bytes (splice bytes place form) 0 0 place := by
  intro pos _ hPos
  unfold splice
  rw [Array.append_assoc, Array.getElem?_append_left (by rw [Array.size_extract]; omega),
    Array.getElem?_extract, if_pos (by omega)]
  simp

theorem moved_after_splice {bytes form : Bytes} {place : Nat} (h : place ≤ bytes.size) :
    Moved bytes (splice bytes place form) form.size place bytes.size := by
  intro pos hPos hEnd
  have hFront : (bytes.extract 0 place ++ form).size = place + form.size := by
    rw [Array.size_append, Array.size_extract]
    omega
  unfold splice
  rw [Array.getElem?_append_right (by omega), hFront, Array.getElem?_extract, if_pos (by omega)]
  congr 1
  omega

end Splice

/-! ## Sections further on -/

theorem Section.moved_zero (content : Section) : content.moved 0 = content := by
  cases content with
  | code bodies => exact congrArg Section.code (Array.map_id' bodies)
  | _ => rfl

def SectionHeader.moved (shift : Nat) (header : SectionHeader) : SectionHeader :=
  { header with payload := header.payload + shift }

/-- The section further on by `shift`. -/
def PlacedSection.moved (shift : Nat) (s : PlacedSection) : PlacedSection where
  start := s.start + shift
  header := s.header.moved shift
  content := s.content.moved shift

theorem PlacedSection.stop_moved (shift : Nat) (s : PlacedSection) :
    (s.moved shift).stop = s.stop + shift :=
  Nat.add_right_comm _ _ _

section Moving

variable {bytes bytes' : Bytes} {shift : Nat} {s : PlacedSection}

theorem readSectionHeader_moved (h : readSectionHeader bytes s.start = .ok s.header)
    (hMoved : Moved bytes bytes' shift s.start s.stop) (hSize : s.stop + shift ≤ bytes'.size) :
    readSectionHeader bytes' (s.start + shift) = .ok (s.header.moved shift) := by
  obtain ⟨hId, hLength, hFits⟩ := readSectionHeader_eq_ok_iff.1 h
  have hBounds := decodeU32_bounds hLength
  have hStop : s.header.payload ≤ s.stop := Nat.le_add_right _ _
  have hDigits : Moved bytes bytes' shift (s.start + 1) s.header.payload :=
    hMoved.mono (by omega) hStop
  have hNumber := decodeU32_moved hLength hDigits
  rw [Nat.add_right_comm] at hNumber
  refine readSectionHeader_eq_ok_iff.2 ⟨?_, hNumber, ?_⟩
  · rw [hMoved.at_first (by omega)]
    exact hId
  · rw [← PlacedSection.stop_moved] at hSize
    exact hSize

theorem readPayload_moved {typeCount : Nat} (hFits : s.stop ≤ bytes.size)
    (h : readPayload bytes s.header typeCount = .ok s.content)
    (hMoved : Moved bytes bytes' shift s.header.payload s.stop)
    (hSize : s.stop + shift ≤ bytes'.size) :
    readPayload bytes' (s.header.moved shift) typeCount = .ok (s.content.moved shift) := by
  obtain ⟨c, hRead, hStop⟩ := (readPayload_eq_ok_iff hFits).1 h
  have hPayload : s.header.payload ≤ s.stop := Nat.le_add_right _ _
  have hStart : ((Cursor.start bytes).moveTo s.header.payload).pos = s.header.payload :=
    Cursor.pos_moveTo (Nat.le_trans hPayload hFits)
  have hThere : ((Cursor.start bytes').moveTo (s.header.payload + shift)).pos =
      s.header.payload + shift := Cursor.pos_moveTo (by change _ ≤ bytes'.size; omega)
  obtain ⟨hLeads, hCopy⟩ := readSection_transfers s.header.id s.header.len.toNat typeCount hRead
  rw [← hStart, ← hStop] at hMoved
  have hElsewhere := hCopy ((Cursor.start bytes').moveTo (s.header.payload + shift))
    (by rw [hThere, hStart]) hMoved
  rw [← PlacedSection.stop_moved] at hSize
  refine (readPayload_eq_ok_iff (s := s.moved shift) hSize).2 ⟨_, hElsewhere, ?_⟩
  rw [PlacedSection.stop_moved, hStop]
  rw [PlacedSection.stop_moved] at hSize
  exact Cursor.pos_moveTo hSize

/-- A section that stands where it was is read as before. -/
theorem read_unmoved {typeCount : Nat} (hHeader : readSectionHeader bytes s.start = .ok s.header)
    (hPayload : readPayload bytes s.header typeCount = .ok s.content)
    (hSame : Moved bytes bytes' 0 s.start s.stop) (hSize : s.stop ≤ bytes'.size) :
    readSectionHeader bytes' s.start = .ok s.header ∧
      readPayload bytes' s.header typeCount = .ok s.content := by
  obtain ⟨hStart, hFits⟩ : s.start < s.header.payload ∧ s.stop ≤ bytes.size :=
    readSectionHeader_bounds hHeader
  have hInside : s.stop + 0 ≤ bytes'.size := hSize
  have hPayload' := readPayload_moved hFits hPayload (hSame.mono (by omega) (Nat.le_refl _)) hInside
  rw [Section.moved_zero] at hPayload'
  exact ⟨readSectionHeader_moved hHeader hSame hInside, hPayload'⟩

end Moving

/-! ## One more custom section -/

/-- The module with one more custom section behind the first `customs` ones, where the bodies that
stand at or behind `place` have moved by `shift`. -/
def Module.insertCustom (m : Module) (customs : Nat) (c : CustomSection) (place shift : Nat) :
    Module :=
  { m with
    custom := splice m.custom customs #[c]
    code := m.code.map fun body => if place ≤ body.position then body.moved shift else body }

section Inserting

variable {m : Module} {content : Section} {c : CustomSection} {customs place shift : Nat}

/-- A section behind the inserted one adds the same to both modules. -/
theorem extend_insertCustom (hCustoms : customs ≤ m.custom.size)
    (hBodies : ∀ body ∈ content.bodies, place ≤ body.position) :
    (m.insertCustom customs c place shift).extend (content.moved shift) =
      (m.extend content).insertCustom customs c place shift := by
  cases content with
  | custom last =>
    simp only [Section.moved, Module.extend, Module.insertCustom, splice_push hCustoms]
  | code bodies =>
    have hMoved : bodies.map (fun body =>
        if place ≤ body.position then body.moved shift else body) =
        bodies.map (FunctionBody.moved shift) :=
      Array.map_congr_left fun body hBody => if_pos (hBodies body hBody)
    simp only [Section.moved, Module.extend, Module.insertCustom, Array.map_append, hMoved]
  | _ => rfl

/-- At its place the inserted section is the last custom one so far, and no body has moved. -/
theorem extend_custom (hBodies : ∀ body ∈ m.code, body.position < place) :
    m.extend (.custom c) = m.insertCustom m.custom.size c place shift := by
  have hMoved : m.code.map (fun body =>
      if place ≤ body.position then body.moved shift else body) = m.code := by
    refine (Array.map_congr_left fun body hBody => ?_).trans (Array.map_id m.code)
    exact if_neg (Nat.not_le.2 (hBodies body hBody))
  simp only [Module.extend, Module.insertCustom, splice_size, hMoved]
  rfl

theorem custom_size_extend (m : Module) (content : Section) :
    (m.extend content).custom.size = m.custom.size + if content.id = 0 then 1 else 0 := by
  cases content <;> simp [Module.extend, Section.id]

end Inserting

/-! ## The bodies of a section -/

/-- A body lies between the start of its payload and the end of its section. -/
theorem position_of_readPayload {bytes : Bytes} {s : PlacedSection} {typeCount : Nat}
    (hFits : s.stop ≤ bytes.size) (h : readPayload bytes s.header typeCount = .ok s.content)
    {body : FunctionBody} (hBody : body ∈ s.content.bodies) :
    s.header.payload ≤ body.position ∧ body.position < s.stop := by
  obtain ⟨hHolds, -, hBack⟩ :=
    ((readPayload_eq_ok_iff hFits).1 h).holds_of_mem_bodies hFits hBody
  have hCode : body.code.size ≠ 0 := by
    intro hEmpty
    rw [Array.eq_empty_of_size_eq_zero hEmpty] at hBack
    cases hBack
  have hStop := hHolds.stop_le
  exact ⟨hHolds.start_le, by omega⟩

/-- Behind a section all bodies so far stand before its end. -/
theorem bodies_before_stop {bytes : Bytes} {s : PlacedSection} {m : Module}
    (hHeader : readSectionHeader bytes s.start = .ok s.header)
    (hPayload : readPayload bytes s.header m.types.size = .ok s.content)
    (h : ∀ body ∈ m.code, body.position < s.start) :
    ∀ body ∈ (m.extend s.content).code, body.position < s.stop := by
  obtain ⟨hStart, hFits⟩ : s.start < s.header.payload ∧ s.stop ≤ bytes.size :=
    readSectionHeader_bounds hHeader
  have hStop : s.header.payload ≤ s.stop := Nat.le_add_right _ _
  intro body hBody
  rw [code_extend, Array.mem_append] at hBody
  rcases hBody with hOld | hNew
  · have hLt := h body hOld
    omega
  · exact (position_of_readPayload hFits hPayload hNew).2

/-! ## Runs of the loader -/

theorem custom_size_le_of_loads {bytes : Bytes} {pos : Nat} {previous : UInt8} {m final : Module}
    {sections : List PlacedSection} (h : Loads bytes pos previous m sections final) :
    m.custom.size ≤ final.custom.size := by
  induction h with
  | done => exact Nat.le_refl _
  | next header order payload tail ih =>
    rw [custom_size_extend] at ih
    omega

/-- Sections behind the inserted one are loaded from their new places. -/
theorem Loads.moved {bytes bytes' : Bytes} {pos : Nat} {previous : UInt8} {m final : Module}
    {sections : List PlacedSection} (h : Loads bytes pos previous m sections final)
    {customs place shift : Nat} (c : CustomSection) (hPlace : place ≤ pos)
    (hCustoms : customs ≤ m.custom.size) (hMoved : Moved bytes bytes' shift pos bytes.size)
    (hSize : bytes'.size = bytes.size + shift) :
    Loads bytes' (pos + shift) previous (m.insertCustom customs c place shift)
      (sections.map (PlacedSection.moved shift)) (final.insertCustom customs c place shift) := by
  induction h with
  | done =>
    rw [← hSize]
    exact .done
  | @next previous last m final s rest header order payload tail ih =>
    obtain ⟨hStart, hFits⟩ : s.start < s.header.payload ∧ s.stop ≤ bytes.size :=
      readSectionHeader_bounds header
    have hStop : s.header.payload ≤ s.stop := Nat.le_add_right _ _
    have hBodies : ∀ body ∈ s.content.bodies, place ≤ body.position := by
      intro body hBody
      have hPosition := (position_of_readPayload hFits payload hBody).1
      omega
    have hHeader := readSectionHeader_moved header (hMoved.mono (Nat.le_refl _) hFits) (by omega)
    have hPayload := readPayload_moved hFits payload (hMoved.mono (by omega) hFits) (by omega)
    have hOrder : checkOrder previous (s.start + shift) s.header.id = .ok last :=
      checkOrder_eq_ok_iff.2 (checkOrder_eq_ok_iff.1 order)
    have hGrows := custom_size_extend m s.content
    have hTail := ih (by omega) (by omega) (hMoved.mono (by omega) (Nat.le_refl _))
    rw [← extend_insertCustom hCustoms hBodies, ← PlacedSection.stop_moved] at hTail
    exact .next (s := s.moved shift) hHeader hOrder hPayload hTail

/-- A custom section that the loader finds at an offset and leaves at another one. -/
structure CustomSection.LoadsAt (c : CustomSection) (bytes : Bytes) (place stop : Nat)
    (header : SectionHeader) : Prop where
  found : readSectionHeader bytes place = .ok header
  id : header.id = 0
  stop : header.payload + header.len.toNat = stop
  content : ∀ typeCount, readPayload bytes header typeCount = .ok (.custom c)

/-- Bytes in which a custom section stands at a place and all else stands around it. -/
structure Inserted (c : CustomSection) (place shift : Nat) (bytes bytes' : Bytes) : Prop where
  section_at : ∃ header, c.LoadsAt bytes' place (place + shift) header
  before : Moved bytes bytes' 0 0 place
  after : Moved bytes bytes' shift place bytes.size
  size : bytes'.size = bytes.size + shift

/-- Whole sections stand from one offset up to another one, `customs` custom ones among them. -/
inductive SectionsUpTo (bytes : Bytes) : (first customs last : Nat) → Prop
  | here {pos : Nat} : SectionsUpTo bytes pos 0 pos
  | next {pos payload customs last : Nat} {id : UInt8} {len : UInt32}
      (id_at : bytes[pos]? = some id)
      (length : decodeU32 bytes (pos + 1) = .ok (len, payload))
      (fits : payload + len.toNat ≤ bytes.size)
      (tail : SectionsUpTo bytes (payload + len.toNat) customs last) :
      SectionsUpTo bytes pos (customs + if id = 0 then 1 else 0) last

theorem SectionsUpTo.le {bytes : Bytes} {first customs last : Nat}
    (h : SectionsUpTo bytes first customs last) : first ≤ last := by
  induction h with
  | here => exact Nat.le_refl _
  | next id_at length fits tail ih =>
    have hBounds := decodeU32_bounds length
    omega

theorem SectionsUpTo.le_size {bytes : Bytes} {first customs last : Nat}
    (h : SectionsUpTo bytes first customs last) (hFirst : first ≤ bytes.size) :
    last ≤ bytes.size := by
  induction h with
  | here => exact hFirst
  | next id_at length fits tail ih => exact ih fits

/-- With a custom section at a place between sections, the loader goes through one section more. -/
theorem Loads.insert {bytes bytes' : Bytes} {pos customs place shift : Nat}
    (hPlace : SectionsUpTo bytes pos customs place) {previous : UInt8} {m final : Module}
    {sections : List PlacedSection} (h : Loads bytes pos previous m sections final)
    {c : CustomSection} (hInserted : Inserted c place shift bytes bytes')
    (hBodies : ∀ body ∈ m.code, body.position < pos) :
    m.custom.size + customs ≤ final.custom.size ∧ ∃ sections', Loads bytes' pos previous m
      sections' (final.insertCustom (m.custom.size + customs) c place shift) := by
  induction hPlace generalizing previous m sections with
  | @here pos =>
    obtain ⟨header, hSection⟩ := hInserted.section_at
    have hStop : PlacedSection.stop ⟨pos, header, .custom c⟩ = pos + shift := hSection.stop
    -- The order of sections takes no notice of a custom one.
    have hOrder : checkOrder previous pos header.id = .ok previous := by
      rw [hSection.id]
      rfl
    have hRest := h.moved c (Nat.le_refl _) (Nat.le_refl _) hInserted.after hInserted.size
    rw [← extend_custom hBodies, ← hStop] at hRest
    exact ⟨custom_size_le_of_loads h, _, .next (s := ⟨pos, header, .custom c⟩) hSection.found
      hOrder (hSection.content _) hRest⟩
  | @next pos payload customs place id len id_at length fits tail ih =>
    have hHere : readSectionHeader bytes pos = .ok ⟨id, len, payload⟩ :=
      readSectionHeader_eq_ok_iff.2 ⟨id_at, length, fits⟩
    cases h with
    | done =>
      have hInside := (Array.getElem?_eq_some_iff.1 id_at).1
      omega
    | @next previous last m final s rest hHeader hOrder hPayload hTail =>
      have hFound : s.header = ⟨id, len, payload⟩ := Except.ok.inj (hHeader.symm.trans hHere)
      have hStop : s.stop = payload + len.toNat := by rw [PlacedSection.stop, hFound]
      rw [← hStop] at fits ih tail
      have hEnd := tail.le
      have hInside : s.stop ≤ bytes'.size := by
        have hSize := hInserted.size
        omega
      -- Before the place every section is where it was.
      obtain ⟨hHeader', hPayload'⟩ := read_unmoved hHeader hPayload
        (hInserted.before.mono (Nat.zero_le s.start) hEnd) hInside
      have hCustoms : (m.extend s.content).custom.size + customs =
          m.custom.size + (customs + if id = 0 then 1 else 0) := by
        obtain ⟨c', hRead, -⟩ := (readPayload_eq_ok_iff fits).1 hPayload
        rw [custom_size_extend, id_of_readSection hRead, hFound, Nat.add_assoc]
        exact congrArg _ (Nat.add_comm _ _)
      obtain ⟨hCount, sections', hRest⟩ :=
        ih hTail hInserted (bodies_before_stop hHeader hPayload hBodies)
      rw [hCustoms] at hCount hRest
      exact ⟨hCount, s :: sections', .next hHeader' hOrder hPayload' hRest⟩

/-! ## The form of a custom section -/

/-- Bytes that are a number in LEB128, in its shortest form or not. -/
def Spells (digits : List UInt8) (n : Nat) : Prop :=
  ∃ v : UInt32, decodeU32 digits.toArray 0 = .ok (v, digits.length) ∧ v.toNat = n

/-- The bytes of a custom section: the id, the number of bytes that follow its digits, the size of
the name, the name in UTF-8, and a payload of any bytes. -/
def CustomSection.IsForm (c : CustomSection) (form : List UInt8) : Prop :=
  ∃ lengthDigits nameDigits content : List UInt8,
    form = 0 :: (lengthDigits ++ content) ∧
    content = nameDigits ++ c.name.toByteArray.data.toList ++ c.bytes.toList ∧
    Spells lengthDigits content.length ∧ Spells nameDigits c.name.toByteArray.size

/-- Digits spell their number wherever they stand. -/
theorem Spells.decodeU32 {digits : List UInt8} {n : Nat} (h : Spells digits n) {bytes : Bytes}
    {pos : Nat} (hStands : StandsAt bytes pos digits) :
    ∃ v : UInt32, decodeU32 bytes pos = .ok (v, pos + digits.length) ∧ v.toNat = n := by
  obtain ⟨v, hDigits, hValue⟩ := h
  refine ⟨v, ?_, hValue⟩
  have hMoved : Moved digits.toArray bytes pos 0 digits.length := by
    obtain ⟨rest, hRest⟩ := hStands
    intro i _ hi
    have hHere : (digits ++ rest)[i]? = digits[i]? := List.getElem?_append_left hi
    rw [← hRest, List.getElem?_drop] at hHere
    rw [Nat.add_comm, ← Array.getElem?_toList, hHere, ← Array.getElem?_toList]
  have hThere := decodeU32_moved hDigits hMoved
  rw [Nat.zero_add, Nat.add_comm digits.length] at hThere
  exact hThere

/-- The loader finds a custom section wherever its bytes stand. -/
theorem CustomSection.IsForm.loadsAt {c : CustomSection} {form : List UInt8} (h : c.IsForm form)
    {bytes : Bytes} {place : Nat} (hStands : StandsAt bytes place form)
    (hFits : place + form.length ≤ bytes.size) :
    ∃ header, c.LoadsAt bytes place (place + form.length) header := by
  obtain ⟨lengthDigits, nameDigits, content, rfl, hContent, hLength, hName⟩ := h
  have hDigits : StandsAt bytes (place + 1) (lengthDigits ++ content) := hStands.tail
  obtain ⟨len, hLen, hSize⟩ := hLength.decodeU32 hDigits.append_left
  have hStop : place + 1 + lengthDigits.length + len.toNat =
      place + (0 :: (lengthDigits ++ content)).length := by
    rw [hSize, List.length_cons, List.length_append]
    omega
  rw [← hStop] at hFits ⊢
  refine ⟨⟨0, len, place + 1 + lengthDigits.length⟩, ?_, rfl, rfl, fun typeCount => ?_⟩
  · exact readSectionHeader_eq_ok_iff.2 ⟨hStands.head, hLen, hFits⟩
  · have hSmall : content.length < UInt32.size := by
      rw [← hSize]
      exact len.toNat_lt
    have hWritten : Written bytes (place + 1 + lengthDigits.length) content :=
      ⟨hDigits.append_right, by omega, hSmall⟩
    subst hContent
    obtain ⟨nameLen, hNameLen, hNameSize⟩ := hName.decodeU32 hWritten.left.left.stands
    have hNumber : Takes Reader.u32 bytes _ nameDigits nameLen :=
      Reader.takes_varint hWritten.pos_le hNameLen
    have hNameTaken := Reader.takes_string_of_length hNumber hNameSize hWritten.left
    have hTaken := takes_map (f := Section.custom)
      (Reader.takes_customSection_of_name hNameTaken hWritten)
    rw [← hSize] at hTaken
    refine (readPayload_eq_ok_iff (s := ⟨place, ⟨0, len, _⟩, .custom c⟩) hFits).2 ⟨_, hTaken, ?_⟩
    rw [pos_cursorAt hWritten.fits, ← hSize]
    rfl

/-! ## Loading -/

theorem written_of_extract {bytes form : Bytes} (h : bytes.extract 0 form.size = form)
    (hSmall : form.size < UInt32.size) : Written bytes 0 form.toList := by
  have hSize := congrArg Array.size h
  rw [Array.size_extract] at hSize
  refine ⟨⟨bytes.toList.drop form.size, ?_⟩, ?_, hSmall⟩
  · have hFront := congrArg Array.toList h
    rw [Array.toList_extract, List.extract_eq_take_drop, List.drop_zero, Nat.sub_zero] at hFront
    rw [List.drop_zero, ← hFront]
    exact (List.take_append_drop _ _).symm
  · rw [Array.length_toList]
    omega

/-- A custom section between any two sections of a module is loaded as one more custom section at
the corresponding place, and apart from that only the bodies behind it move, by its length. -/
theorem Module.load_splice {name : String} {bytes : Bytes} {m : Module} {c : CustomSection}
    {form : List UInt8} {customs place : Nat} (hLoad : Module.load name bytes = .ok m)
    (hPlace : SectionsUpTo bytes 8 customs place) (hForm : c.IsForm form) :
    customs ≤ m.custom.size ∧
      Module.load name (splice bytes place form.toArray) = .ok
        { m with
          custom := splice m.custom customs #[c]
          code := m.code.map fun body =>
            if place ≤ body.position then
              { body with position := body.position + form.length }
            else body } := by
  obtain ⟨hHeader, hCount, sections, hLoads⟩ := loads_of_load hLoad
  have hEight : 8 ≤ bytes.size := by
    have hSize := congrArg Array.size hHeader
    rw [Array.size_extract] at hSize
    have hTotal : moduleHeader.size = 8 := rfl
    omega
  have hInside := hPlace.le_size hEight
  have hSize : (splice bytes place form.toArray).size = bytes.size + form.length :=
    size_splice hInside
  have hBefore : Moved bytes (splice bytes place form.toArray) 0 0 place :=
    moved_before_splice hInside
  have hInserted : Inserted c place form.length bytes (splice bytes place form.toArray) :=
    ⟨hForm.loadsAt (standsAt_splice hInside) (by omega), hBefore, moved_after_splice hInside, hSize⟩
  obtain ⟨hCustoms, sections', hRun⟩ :=
    hLoads.insert hPlace hInserted (fun body hBody => absurd hBody (Array.not_mem_empty body))
  have hFront := (hBefore.mono (Nat.le_refl _) hPlace.le).extract_eq (Nat.zero_le _) hEight
    (Nat.zero_le _)
  have hNone : ({ name } : Module).custom.size = 0 := rfl
  rw [hNone, Nat.zero_add] at hCustoms hRun
  refine ⟨hCustoms, load_of_loads (written_of_extract (hFront.trans hHeader) (by decide)) hRun ?_⟩
  exact hCount.trans Array.size_map.symm

/-- The custom section "b" with one byte, its length written in two bytes. -/
theorem isForm_b : CustomSection.IsForm ⟨"b", #[0x2a]⟩ [0x00, 0x83, 0x00, 0x01, 0x62, 0x2a] := by
  have hLength : Spells [0x83, 0x00] 3 := ⟨3, by decide +kernel, rfl⟩
  have hName : Spells [0x01] 1 := ⟨1, by decide +kernel, rfl⟩
  exact ⟨[0x83, 0x00], [0x01], [0x01, 0x62, 0x2a], rfl, by decide +kernel, hLength, hName⟩

theorem Module.load_splice_seven :
    Module.load "seven" (splice sevenBytes 13 #[0x00, 0x83, 0x00, 0x01, 0x62, 0x2a]) = .ok
      { sevenModule with
        custom := #[⟨"a", #[0xff]⟩, ⟨"b", #[0x2a]⟩]
        code := #[⟨#[.i64, .i64], #[0x41, 0x07, 0x0b], 38⟩] } := by
  have hLoad : Module.load "seven" sevenBytes = .ok sevenModule := by decide +kernel
  have hLength : decodeU32 sevenBytes 9 = .ok (3, 10) := by decide +kernel
  have hPlace : SectionsUpTo sevenBytes 8 (0 + if (0 : UInt8) = 0 then 1 else 0) 13 :=
    .next (by decide) hLength (by decide) .here
  refine (Module.load_splice hLoad hPlace isForm_b).2.trans ?_
  decide +kernel

end WasmMachine
