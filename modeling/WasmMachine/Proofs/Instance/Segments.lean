import WasmMachine.Proofs.Instance.Constants
import WasmMachine.Proofs.Instance.Phases
import WasmMachine.Proofs.Store.Buffers

/-!
# Segments

Data segments fill memories and element segments fill tables, in the order of the module. Segments
may overlap; where they do, the last one wins. A segment that has no place to go to, or does not
fit there, cannot be written.

* `LastWritten`: what the last of several writers has written.
* `HoldLast`: places that hold what the last segment wrote to them.
* `writeData_eq_ok_iff`, `writeElements_eq_ok_iff`: the segments that can be written.
-/

namespace WasmMachine

open Instantiation

/-! ## The last writer -/

section LastWriter

variable {α β : Type} {writes : α → β → Prop} {initial b : β} {items : List α} {x : α}

/-- What the last item that writes at all has written, and the initial value where none does. -/
def LastWritten (writes : α → β → Prop) (items : List α) (initial b : β) : Prop :=
  (∃ earlier x later, items = earlier ++ x :: later ∧ writes x b ∧
    ∀ y ∈ later, ∀ c, ¬ writes y c) ∨
  ((∀ x ∈ items, ∀ c, ¬ writes x c) ∧ b = initial)

theorem LastWritten.nil : LastWritten writes [] initial initial :=
  .inr ⟨fun _ hx => (List.not_mem_nil hx).elim, rfl⟩

theorem LastWritten.of_writes (h : writes x b) : LastWritten writes (items ++ [x]) initial b :=
  .inl ⟨items, x, [], rfl, h, fun _ hy => (List.not_mem_nil hy).elim⟩

/-- An item that does not write leaves what has been written. -/
theorem LastWritten.append (h : LastWritten writes items initial b) (hx : ∀ c, ¬ writes x c) :
    LastWritten writes (items ++ [x]) initial b := by
  have hLast : ∀ {later : List α}, (∀ y ∈ later, ∀ c, ¬ writes y c) →
      ∀ y ∈ later ++ [x], ∀ c, ¬ writes y c := by
    intro later hLater y hy
    rcases List.mem_append.1 hy with hOld | hNew
    · exact hLater y hOld
    · rw [List.mem_singleton.1 hNew]
      exact hx
  rcases h with ⟨earlier, w, later, rfl, hWrites, hLater⟩ | ⟨hNone, rfl⟩
  · exact .inl ⟨earlier, w, later ++ [x], by simp, hWrites, hLast hLater⟩
  · exact .inr ⟨hLast hNone, rfl⟩

end LastWriter

/-! ## Data and elements alike -/

/-- Items that are written to one of several buffers, at a constant offset. -/
structure Segment (β : Type) where
  target : Nat
  offset : Bytes
  items : List β

def DataSegment.segment (d : DataSegment) : Segment UInt8 :=
  ⟨d.memory.toNat, d.offset, d.bytes.toList⟩

def ElementSegment.segment (e : ElementSegment) : Segment (Option UInt32) :=
  ⟨e.table.toNat, e.offset, e.functions.toList.map some⟩

/-- The segment writes an item to a place of a buffer. The offset is read as unsigned. -/
def Segment.Writes {β : Type} (s : Segment β) (buffer place : Nat) (b : β) : Prop :=
  s.target = buffer ∧ ∃ offset : BitVec 32, IsConstant s.offset (.i32 offset) ∧
    offset.toNat ≤ place ∧ s.items[place - offset.toNat]? = some b

theorem placed?_eq_some_iff {α : Type} {start place : Nat} {items : List α} {a : α} :
    placed? start items place = some a ↔ start ≤ place ∧ items[place - start]? = some a := by
  unfold placed?
  split
  · rename_i hLe
    exact (and_iff_right hLe).symm
  · rename_i hNot
    simp [hNot]

/-- Every place of every buffer holds what the last segment wrote to it. -/
def HoldLast {β : Type} (segments : List (Segment β)) (initial : β) (buffers : Array (Array β)) :
    Prop :=
  ∀ buffer cells, buffers[buffer]? = some cells → ∀ place b, cells[place]? = some b →
    LastWritten (fun s b => s.Writes buffer place b) segments initial b

/-- One more segment. -/
theorem HoldLast.write {β : Type} {segments : List (Segment β)} {initial : β}
    {buffers : Array (Array β)} (h : HoldLast segments initial buffers) {s : Segment β}
    {offset : BitVec 32} {cells cells' : Array β} (hOffset : IsConstant s.offset (.i32 offset))
    (hCells : buffers[s.target]? = some cells)
    (hWritten : ∀ place, cells'[place]? =
      (placed? offset.toNat s.items place).or cells[place]?) :
    HoldLast (segments ++ [s]) initial (buffers.setIfInBounds s.target cells') := by
  intro buffer found hFound place b hb
  by_cases hTarget : s.target = buffer
  · subst hTarget
    have hInside := (Array.getElem?_eq_some_iff.1 hCells).1
    rw [Array.getElem?_setIfInBounds_self_of_lt hInside] at hFound
    cases hFound
    rw [hWritten] at hb
    cases hPlaced : placed? offset.toNat s.items place with
    | some written =>
      rw [hPlaced] at hb
      cases hb
      exact .of_writes ⟨rfl, offset, hOffset, placed?_eq_some_iff.1 hPlaced⟩
    | none =>
      rw [hPlaced] at hb
      refine (h _ cells hCells place b hb).append ?_
      rintro c ⟨-, offset', hOffset', hPlaced'⟩
      cases hOffset.unique hOffset'
      rw [placed?_eq_some_iff.2 hPlaced'] at hPlaced
      cases hPlaced
  · rw [Array.getElem?_setIfInBounds_ne hTarget] at hFound
    exact (h buffer found hFound place b hb).append fun c hWrites => hTarget hWrites.1

/-! ## Writing a segment -/

theorem writeData_eq_ok_iff {memories after : Array Memory} {d : DataSegment} :
    writeData memories d = .ok after ↔
      ∃ (offset : BitVec 32) (memory : Memory), IsConstant d.offset (.i32 offset) ∧
        memories[d.memory.toNat]? = some memory ∧
        offset.toNat + d.bytes.size ≤ memory.size ∧
        after = memories.setIfInBounds d.memory.toNat
          { memory with data := Memory.setBytes memory.data offset.toNat d.bytes.toList } := by
  constructor
  · intro h
    obtain ⟨start, hStart, h⟩ := exists_of_bind_eq_ok h
    obtain ⟨offset, hOffset, hUnsigned⟩ := evaluateOffset_eq_ok_iff.1 hStart
    rw [hUnsigned] at h
    split at h
    · cases h
    · rename_i memory hMemory
      by_cases hFits : offset.toNat + d.bytes.toList.length ≤ memory.size
      · rw [Memory.writeBytes_of_fits hFits] at h
        cases h
        exact ⟨offset, memory, hOffset, hMemory, hFits, rfl⟩
      · rw [Memory.writeBytes_of_not_fits hFits] at h
        cases h
  · rintro ⟨offset, memory, hOffset, hMemory, hFits, rfl⟩
    have hLength : offset.toNat + d.bytes.toList.length ≤ memory.size := hFits
    have hUnsigned : (UInt32.ofNat offset.toNat).toNat = offset.toNat :=
      UInt32.toNat_ofNat_of_lt' offset.isLt
    unfold writeData
    rw [bind_of_eq_ok (evaluateOffset_eq_ok_iff.2 ⟨offset, hOffset, hUnsigned⟩), hUnsigned]
    simp only [hMemory, Memory.writeBytes_of_fits hLength]
    rfl

theorem writeElements_eq_ok_iff {count : Nat} {tables after : Array Table} {e : ElementSegment} :
    Instantiation.writeElements count tables e = .ok after ↔
      (∀ function ∈ e.functions, function.toNat < count) ∧
      ∃ (offset : BitVec 32) (table : Table), IsConstant e.offset (.i32 offset) ∧
        tables[e.table.toNat]? = some table ∧
        offset.toNat + e.functions.size ≤ table.size ∧
        after = tables.setIfInBounds e.table.toNat
          { table with slots := Table.fill table.slots offset.toNat e.functions.toList } := by
  have hKnown : e.functions.find? (count ≤ ·.toNat) = none ↔
      ∀ function ∈ e.functions, function.toNat < count := by
    simp
  constructor
  · intro h
    obtain ⟨start, hStart, h⟩ := exists_of_bind_eq_ok h
    obtain ⟨offset, hOffset, hUnsigned⟩ := evaluateOffset_eq_ok_iff.1 hStart
    split at h
    · cases h
    · rename_i hNone
      split at h
      · cases h
      · rename_i table hTable
        unfold Table.writeElements at h
        rw [hUnsigned] at h
        by_cases hFits : offset.toNat + e.functions.toList.length ≤ table.size
        · rw [if_pos hFits] at h
          cases h
          exact ⟨hKnown.1 hNone, offset, table, hOffset, hTable, hFits, rfl⟩
        · rw [if_neg hFits] at h
          cases h
  · rintro ⟨hFunctions, offset, table, hOffset, hTable, hFits, rfl⟩
    have hUnsigned : (UInt32.ofNat offset.toNat).toNat = offset.toNat :=
      UInt32.toNat_ofNat_of_lt' offset.isLt
    have hLength : offset.toNat + e.functions.toList.length ≤ table.size := hFits
    unfold Instantiation.writeElements
    rw [bind_of_eq_ok (evaluateOffset_eq_ok_iff.2 ⟨offset, hOffset, hUnsigned⟩)]
    simp only [hKnown.2 hFunctions, hTable, Table.writeElements, hUnsigned, if_pos hLength]
    rfl

end WasmMachine
