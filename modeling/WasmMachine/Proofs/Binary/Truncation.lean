import Mathlib.Tactic.IntervalCases
import WasmMachine.Proofs.Binary.Insertion

/-!
# Truncated modules

The first bytes of a module may end in the header, inside a section or between two sections. The
loader asks for the payload of a section before it looks into it, so a section that is cut off is
noticed at its header, whatever stands in its payload. The sections in front of the cut are read
as before, since no reader looks beyond what it takes.

* `readSectionHeader_cut`: the header of a section that is cut off.
* `Loads.cut_inside`, `Loads.cut_between`: the run of the loader up to the cut.
* `Module.load_truncated`: loading the first bytes of a module.
-/

namespace WasmMachine

open Leb128

/-! ## The first bytes -/

section Front

variable {bytes : Bytes} {n : Nat}

theorem size_front (h : n ≤ bytes.size) : (bytes.extract 0 n).size = n := by
  rw [Array.size_extract]
  omega

theorem moved_front (bytes : Bytes) (n : Nat) : Moved bytes (bytes.extract 0 n) 0 0 n := by
  intro pos _ hPos
  rw [Nat.add_zero, Array.getElem?_extract, Nat.zero_add, Nat.sub_zero]
  by_cases hInside : pos < bytes.size
  · rw [if_pos (by omega)]
  · rw [if_neg (by omega), Array.getElem?_eq_none (by omega)]

theorem getElem?_front_of_lt {pos : Nat} (h : pos < n) : (bytes.extract 0 n)[pos]? = bytes[pos]? :=
  moved_front bytes n pos (Nat.zero_le _) h

theorem getElem?_front_size (h : n ≤ bytes.size) : (bytes.extract 0 n)[n]? = none :=
  Array.getElem?_eq_none (Nat.le_of_eq (size_front h))

/-! ## Section headers -/

/-- A number that is cut off is never too long: its last byte is missing. -/
theorem readGroups_cut {limit pos next : Nat} {groups : List Nat}
    (h : readGroups bytes limit pos = .ok (groups, next)) (hStart : pos ≤ n) (hCut : n < next) :
    readGroups (bytes.extract 0 n) limit pos = .error .unexpectedEof := by
  have hInside : n ≤ bytes.size := Nat.le_of_lt (Nat.lt_of_lt_of_le hCut (readGroups_bounds h).2)
  induction limit generalizing pos groups with
  | zero =>
    unfold readGroups at h
    split at h <;> cases h
  | succ limit ih =>
    unfold readGroups at h ⊢
    rcases Nat.lt_or_eq_of_le hStart with hLt | rfl
    · rw [getElem?_front_of_lt hLt]
      split at h
      · cases h
      · split at h
        · cases h
          omega
        · rename_i hMore
          split at h
          · cases h
          · rename_i hRest
            cases h
            simp only [if_neg hMore, ih hRest hLt]
    · rw [getElem?_front_size hInside]

theorem decodeU32_cut {pos next : Nat} {v : UInt32} (h : decodeU32 bytes pos = .ok (v, next))
    (hStart : pos ≤ n) (hCut : n < next) :
    decodeU32 (bytes.extract 0 n) pos = .error .unexpectedEof := by
  unfold decodeU32 at h ⊢
  split at h
  · cases h
  · rename_i hGroups
    cases h
    rw [readGroups_cut hGroups hStart hCut]

end Front

/-- The bytes were found to end too early, at an offset among the first `n`. -/
structure LoadError.EndsEarly (e : LoadError) (n : Nat) : Prop where
  fault : e.fault = .unexpectedEof ∨ e.fault = .varint .unexpectedEof
  offset_le : e.offset ≤ n

theorem LoadError.EndsEarly.code_eq {e : LoadError} {n : Nat} (h : e.EndsEarly n) :
    e.fault.code = "BAD_FSTREAM" := by
  rcases h.fault with hFault | hFault <;> rw [hFault] <;> rfl

section Cut

variable {bytes : Bytes} {n : Nat} {s : PlacedSection}

/-- A section whose last byte is missing is noticed at its header. -/
theorem readSectionHeader_cut (h : readSectionHeader bytes s.start = .ok s.header)
    (hStart : s.start < n) (hCut : n < s.stop) :
    ∃ e, readSectionHeader (bytes.extract 0 n) s.start = .error e ∧ e.EndsEarly n := by
  obtain ⟨hId, hLength, hFits⟩ := readSectionHeader_eq_ok_iff.1 h
  have hSize : (bytes.extract 0 n).size = n :=
    size_front (Nat.le_of_lt (Nat.lt_of_lt_of_le hCut hFits))
  have hFirst : (bytes.extract 0 n)[s.start]? = some s.header.id := by
    rw [getElem?_front_of_lt hStart]
    exact hId
  unfold readSectionHeader
  rcases Nat.lt_or_ge n s.header.payload with hDigits | hPayload
  · -- The length itself is cut off.
    simp only [hFirst, decodeU32_cut hLength hStart hDigits]
    exact ⟨_, rfl, .inr rfl, hStart⟩
  · have hNumber := decodeU32_moved hLength ((moved_front bytes n).mono (Nat.zero_le _) hPayload)
    have hMissing : ¬ s.header.payload + s.header.len.toNat ≤ (bytes.extract 0 n).size := by
      rw [hSize]
      exact Nat.not_le.2 hCut
    simp only [Nat.add_zero] at hNumber
    simp only [hFirst, hNumber, if_neg hMissing]
    exact ⟨_, rfl, .inl rfl, hPayload⟩

/-- A section in front of the cut is read as before. -/
theorem read_front {typeCount : Nat} (hHeader : readSectionHeader bytes s.start = .ok s.header)
    (hPayload : readPayload bytes s.header typeCount = .ok s.content) (hKept : s.stop ≤ n) :
    readSectionHeader (bytes.extract 0 n) s.start = .ok s.header ∧
      readPayload (bytes.extract 0 n) s.header typeCount = .ok s.content := by
  have hFits : s.stop ≤ bytes.size := (readSectionHeader_bounds hHeader).2
  have hInside : s.stop ≤ (bytes.extract 0 n).size := by
    rw [Array.size_extract]
    omega
  exact read_unmoved hHeader hPayload ((moved_front bytes n).mono (Nat.zero_le s.start) hKept)
    hInside

end Cut

/-! ## Runs of the loader -/

/-- An offset in the header or strictly inside a section. -/
def InsideSections (sections : List PlacedSection) (n : Nat) : Prop :=
  n < 8 ∨ ∃ s ∈ sections, s.start < n ∧ n < s.stop

/-- The offset past the header or past a section. -/
def BetweenSections (sections : List PlacedSection) (n : Nat) : Prop :=
  n = 8 ∨ ∃ s ∈ sections, n = s.stop

theorem Consecutive.le_start {bytes : Bytes} {pos : Nat} {sections : List PlacedSection}
    (h : Consecutive bytes pos sections) : ∀ s ∈ sections, pos ≤ s.start ∧ s.start < s.stop := by
  induction h with
  | done => simp
  | @next s rest id length fits tail ih =>
    have hStart : s.start < s.stop := by
      have hBounds := decodeU32_bounds length
      unfold PlacedSection.stop
      omega
    refine List.forall_mem_cons.2 ⟨⟨Nat.le_refl _, hStart⟩, fun s' hs' => ?_⟩
    obtain ⟨hLater, hOrder⟩ := ih s' hs'
    exact ⟨by omega, hOrder⟩

/-- Which section comes first is written in its header. -/
theorem Consecutive.exists_head {bytes : Bytes} {pos payload : Nat} {len : UInt32}
    {sections : List PlacedSection} (h : Consecutive bytes pos sections) (hPos : pos < bytes.size)
    (hLength : decodeU32 bytes (pos + 1) = .ok (len, payload)) :
    ∃ s rest, sections = s :: rest ∧ s.start = pos ∧ s.stop = payload + len.toNat ∧
      Consecutive bytes (payload + len.toNat) rest := by
  cases h with
  | done => exact absurd hPos (Nat.lt_irrefl _)
  | @next s rest id length fits tail =>
    obtain ⟨rfl, rfl⟩ := Prod.mk.inj (Except.ok.inj (hLength.symm.trans length))
    exact ⟨s, rest, rfl, rfl, rfl, tail⟩

/-- Sections without gaps leave no other place. -/
theorem Consecutive.inside_or_between {bytes : Bytes} {pos n : Nat}
    {sections : List PlacedSection} (h : Consecutive bytes pos sections) (hPos : pos ≤ n)
    (hSize : n ≤ bytes.size) :
    (∃ s ∈ sections, s.start < n ∧ n < s.stop) ∨ n = pos ∨ ∃ s ∈ sections, n = s.stop := by
  induction h with
  | done => exact .inr (.inl (by omega))
  | @next s rest id length fits tail ih =>
    rcases Nat.lt_or_ge n s.stop with hLt | hGe
    · rcases Nat.eq_or_lt_of_le hPos with hHere | hInside
      · exact .inr (.inl hHere.symm)
      · exact .inl ⟨s, List.mem_cons_self, hInside, hLt⟩
    · rcases ih hGe with ⟨s', hs', hInside⟩ | hEnd | ⟨s', hs', hEnd⟩
      · exact .inl ⟨s', List.mem_cons_of_mem _ hs', hInside⟩
      · exact .inr (.inr ⟨s, List.mem_cons_self, hEnd⟩)
      · exact .inr (.inr ⟨s', List.mem_cons_of_mem _ hs', hEnd⟩)

namespace Loads

variable {bytes : Bytes} {pos n : Nat} {previous : UInt8} {m final : Module}
  {sections : List PlacedSection}

/-- The loader fails at the section that is cut off. -/
theorem cut_inside (h : Loads bytes pos previous m sections final)
    (hInside : ∃ s ∈ sections, s.start < n ∧ n < s.stop) (journal : Journal) :
    ∃ p e, loadSections (bytes.extract 0 n) pos ⟨m, previous, journal⟩ = (p, some e) ∧
      e.EndsEarly n := by
  obtain ⟨s', hs', hStart, hCut⟩ := hInside
  induction h generalizing journal with
  | done => cases hs'
  | @next previous last m final s rest header order payload tail ih =>
    rcases List.mem_cons.1 hs' with rfl | hLater
    · obtain ⟨e, hError, hEnds⟩ := readSectionHeader_cut header hStart hCut
      have hFits : s'.stop ≤ bytes.size := (readSectionHeader_bounds header).2
      have hStill : s'.start < (bytes.extract 0 n).size := by
        rw [size_front (by omega)]
        exact hStart
      exact ⟨_, e, loadSections_of_header_error hStill hError, hEnds⟩
    · have hKept : s.stop ≤ n := by
        have hBehind := (tail.consecutive.le_start s' hLater).1
        omega
      obtain ⟨hHeader, hPayload⟩ := read_front header payload hKept
      rw [loadSections_next hHeader order hPayload]
      exact ih _ hLater

/-- Up to a place between sections the loader goes through the sections in front of it. -/
theorem cut_between (h : Loads bytes pos previous m sections final) (hSize : n ≤ bytes.size)
    (hBetween : n = pos ∨ ∃ s ∈ sections, n = s.stop) :
    ∃ kept, kept <+: sections ∧
      Loads (bytes.extract 0 n) pos previous m kept (m.extendAll kept) := by
  have hDone : ∀ {previous : UInt8} {m : Module},
      Loads (bytes.extract 0 n) n previous m [] (m.extendAll []) := by
    intro previous m
    have hEnd : Loads (bytes.extract 0 n) (bytes.extract 0 n).size previous m [] m := .done
    rw [size_front hSize] at hEnd
    exact hEnd
  induction h with
  | done =>
    rcases hBetween with rfl | ⟨s, hs, -⟩
    · exact ⟨[], List.nil_prefix, hDone⟩
    · cases hs
  | @next previous last m final s rest header order payload tail ih =>
    rcases hBetween with rfl | ⟨s', hs', rfl⟩
    · exact ⟨[], List.nil_prefix, hDone⟩
    · have hRest : s'.stop = s.stop ∨ ∃ t ∈ rest, s'.stop = t.stop := by
        rcases List.mem_cons.1 hs' with rfl | hLater
        · exact .inl rfl
        · exact .inr ⟨s', hLater, rfl⟩
      have hKept : s.stop ≤ s'.stop := by
        rcases hRest with hHere | ⟨t, ht, hStop⟩
        · exact Nat.le_of_eq hHere.symm
        · have hBehind := tail.consecutive.le_start t ht
          omega
      obtain ⟨kept, hPrefix, hLoads⟩ := ih hRest
      obtain ⟨hHeader, hPayload⟩ := read_front header payload hKept
      exact ⟨s :: kept, (List.prefix_cons_inj s).2 hPrefix, .next hHeader order hPayload hLoads⟩

end Loads

/-! ## Loading -/

/-- The first bytes of a header are too few, and no other header. -/
theorem readHeader_cut {n : Nat} (h : n < 8) :
    ∃ e c, readHeader (Cursor.start (moduleHeader.extract 0 n)) = .error e c ∧ e.EndsEarly n := by
  interval_cases n
  all_goals exact ⟨_, _, rfl, .inl rfl, by decide⟩

section Front

variable {name : String} {bytes : Bytes} {m : Module} {sections : List PlacedSection} {n : Nat}

theorem written_front (hHeader : bytes.extract 0 8 = moduleHeader) (hLong : 8 ≤ n) :
    Written (bytes.extract 0 n) 0 moduleHeader.toList := by
  have hFront : (bytes.extract 0 n).extract 0 8 = moduleHeader := by
    rw [Array.extract_extract, Nat.zero_add, Nat.zero_add, Nat.min_eq_left hLong]
    exact hHeader
  exact written_of_extract hFront (by decide)

theorem load_cut_header (hHeader : bytes.extract 0 8 = moduleHeader) (hShort : n < 8) :
    ∃ e, Module.load name (bytes.extract 0 n) = .error e ∧ e.EndsEarly n := by
  obtain ⟨e, c, hError, hEnds⟩ := readHeader_cut hShort
  have hFront : moduleHeader.extract 0 n = bytes.extract 0 n := by
    rw [← hHeader, Array.extract_extract, Nat.zero_add, Nat.zero_add,
      Nat.min_eq_left (Nat.le_of_lt hShort)]
  refine ⟨e, ?_, hEnds⟩
  unfold Module.load Module.loadRecorded
  rw [← hFront, hError]

theorem load_cut_inside (hHeader : bytes.extract 0 8 = moduleHeader)
    (hLoads : Loads bytes 8 0 { name } sections m)
    (hInside : ∃ s ∈ sections, s.start < n ∧ n < s.stop) :
    ∃ e, Module.load name (bytes.extract 0 n) = .error e ∧ e.EndsEarly n := by
  have hLong : 8 ≤ n := by
    obtain ⟨s, hs, hStart, -⟩ := hInside
    have hBehind := (hLoads.consecutive.le_start s hs).1
    omega
  obtain ⟨p, e, hError, hEnds⟩ := hLoads.cut_inside hInside {}
  refine ⟨e, ?_, hEnds⟩
  rw [load_of_written (written_front hHeader hLong), hError]

theorem load_cut_between (hHeader : bytes.extract 0 8 = moduleHeader)
    (hLoads : Loads bytes 8 0 { name } sections m) (hSize : n ≤ bytes.size)
    (hBetween : BetweenSections sections n) :
    (∃ kept, kept <+: sections ∧
      Module.load name (bytes.extract 0 n) = .ok (Module.extendAll { name } kept)) ∨
    ∃ functions bodies, functions ≠ bodies ∧ Module.load name (bytes.extract 0 n) =
      .error ⟨.functionCountMismatch functions bodies, n⟩ := by
  have hLong : 8 ≤ n := by
    rcases hBetween with rfl | ⟨s, hs, rfl⟩
    · exact Nat.le_refl _
    · have hBehind := hLoads.consecutive.le_start s hs
      omega
  have hWritten := written_front hHeader hLong
  obtain ⟨kept, hPrefix, hKept⟩ := hLoads.cut_between hSize hBetween
  by_cases hCounts : (Module.extendAll { name } kept).functions.size =
      (Module.extendAll { name } kept).code.size
  · exact .inl ⟨kept, hPrefix, load_of_loads hWritten hKept hCounts⟩
  · refine .inr ⟨_, _, hCounts, ?_⟩
    obtain ⟨p, hRun, hModule⟩ := loadSections_of_loads hKept {}
    rw [← hModule] at hCounts ⊢
    rw [load_of_written hWritten, hRun]
    simp only [if_pos hCounts, size_front hSize]

end Front

/-- The first bytes of a module end in one of two kinds of places. Inside the header or a section
they are refused for having ended. Between sections they are the module of the sections in front,
unless these have more or fewer functions than bodies. -/
theorem Module.load_truncated {name : String} {bytes : Bytes} {m : Module}
    (h : Module.load name bytes = .ok m) :
    ∃ sections, Layout name bytes m sections ∧ ∀ n < bytes.size,
      (InsideSections sections n ∨ BetweenSections sections n) ∧
      (InsideSections sections n → ∃ e, Module.load name (bytes.extract 0 n) = .error e ∧
        e.fault.code = "BAD_FSTREAM" ∧ e.offset ≤ n) ∧
      (BetweenSections sections n →
        (∃ kept, kept <+: sections ∧
          Module.load name (bytes.extract 0 n) = .ok (Module.extendAll { name } kept)) ∨
        ∃ functions bodies, functions ≠ bodies ∧ Module.load name (bytes.extract 0 n) =
          .error ⟨.functionCountMismatch functions bodies, n⟩) := by
  obtain ⟨hHeader, -, sections, hLoads⟩ := loads_of_load h
  refine ⟨sections, hLoads.layout hHeader, fun n hProper => ⟨?_, ?_, ?_⟩⟩
  · rcases Nat.lt_or_ge n 8 with hShort | hLong
    · exact .inl (.inl hShort)
    · rcases hLoads.consecutive.inside_or_between hLong (Nat.le_of_lt hProper) with hCut | hCut
      · exact .inl (.inr hCut)
      · exact .inr hCut
  · rintro (hShort | hInside)
    · obtain ⟨e, hError, hEnds⟩ := load_cut_header hHeader hShort
      exact ⟨e, hError, hEnds.code_eq, hEnds.offset_le⟩
    · obtain ⟨e, hError, hEnds⟩ := load_cut_inside hHeader hLoads hInside
      exact ⟨e, hError, hEnds.code_eq, hEnds.offset_le⟩
  · exact load_cut_between hHeader hLoads (Nat.le_of_lt hProper)

/-- The length of the second section is cut in two, and the functions lose their bodies. -/
theorem Module.load_truncated_seven :
    Module.load "seven" sevenBytes = .ok sevenModule ∧
      (∃ e, Module.load "seven" (sevenBytes.extract 0 15) = .error e ∧
        e.fault.code = "BAD_FSTREAM" ∧ e.offset ≤ 15) ∧
      ∃ functions bodies, functions ≠ bodies ∧ Module.load "seven" (sevenBytes.extract 0 25) =
        .error ⟨.functionCountMismatch functions bodies, 25⟩ := by
  have hLoad : Module.load "seven" sevenBytes = .ok sevenModule := by decide +kernel
  obtain ⟨sections, hLayout, hCuts⟩ := Module.load_truncated hLoad
  have hFirst : decodeU32 sevenBytes 9 = .ok (3, 10) := by decide +kernel
  have hSecond : decodeU32 sevenBytes 14 = .ok (5, 16) := by decide +kernel
  have hThird : decodeU32 sevenBytes 22 = .ok (2, 23) := by decide +kernel
  obtain ⟨custom, rest, rfl, -, -, hRest⟩ := hLayout.partition.exists_head (by decide) hFirst
  obtain ⟨types, rest, rfl, hStart, hStop, hRest⟩ := hRest.exists_head (by decide) hSecond
  obtain ⟨functions, rest, rfl, -, hEnd, -⟩ := hRest.exists_head (by decide) hThird
  refine ⟨hLoad, ?_, ?_⟩
  · refine (hCuts 15 (by decide)).2.1 (.inr ⟨types, by simp, ?_⟩)
    rw [hStart, hStop]
    decide
  · rcases (hCuts 25 (by decide)).2.2 (.inr ⟨functions, by simp, hEnd.symm⟩) with
      ⟨kept, -, hOk⟩ | hMismatch
    · have hFails : ¬ (Module.load "seven" (sevenBytes.extract 0 25)).isOk := by decide +kernel
      rw [hOk] at hFails
      exact absurd rfl hFails
    · exact hMismatch

end WasmMachine
