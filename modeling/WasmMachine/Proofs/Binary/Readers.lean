import WasmMachine.Binary.Loader
import WasmMachine.Proofs.Instance.Phases

/-!
# Readers and the cursor

A reader is not confined to the section it reads: only afterwards its progress is compared with
the declared length. What can be said of every reader is that it stays in its bytes and never moves
back, and for the readers that look at positions, which bytes they have taken.

* `Reader.Advances`: a reader that succeeds leaves its cursor further on in the same bytes.
* `Reader.exists_of_mem_vector`: every item of a vector was read inside the vector.
* `Reader.advances_readSection`: no section reader moves back.
-/

namespace WasmMachine

/-- A cursor further on in the same bytes. -/
structure Cursor.Leads (c c' : Cursor) : Prop where
  bytes_eq : c'.bytes = c.bytes
  pos_le : c.pos ≤ c'.pos

namespace Cursor

theorem Leads.refl (c : Cursor) : c.Leads c := ⟨rfl, Nat.le_refl _⟩

theorem Leads.trans {c₁ c₂ c₃ : Cursor} (h : c₁.Leads c₂) (h' : c₂.Leads c₃) : c₁.Leads c₃ :=
  ⟨h'.bytes_eq.trans h.bytes_eq, Nat.le_trans h.pos_le h'.pos_le⟩

theorem pos_moveTo {c : Cursor} {pos : Nat} (h : pos ≤ c.bytes.size) : (c.moveTo pos).pos = pos :=
  Nat.min_eq_left h

theorem leads_moveTo {c : Cursor} {pos : Nat} (h : c.pos ≤ pos) : c.Leads (c.moveTo pos) :=
  ⟨rfl, Nat.le_min.2 ⟨h, c.pos_le_size⟩⟩

end Cursor

namespace Reader

variable {α β : Type}

/-- A reader that succeeds leaves its cursor further on in the same bytes. -/
def Advances (item : Reader α) : Prop :=
  ∀ ⦃c : Cursor⦄ ⦃a : α⦄ ⦃c' : Cursor⦄, item c = .ok a c' → c.Leads c'

/-! ## Steps -/

theorem advances_pure (a : α) : Advances (pure a : Reader α) := by
  intro c b c' h
  cases h
  exact Cursor.Leads.refl c

theorem advances_bind {item : Reader α} {next : α → Reader β} (hItem : Advances item)
    (hNext : ∀ a, Advances (next a)) : Advances (item >>= next) := by
  intro c b c' h
  obtain ⟨a, middle, hFirst, hRest⟩ := exists_of_run_bind_eq_ok h
  exact (hItem hFirst).trans (hNext a hRest)

theorem advances_failAt (fault : LoadFault) (offset : Nat) :
    Advances (failAt fault offset : Reader α) := by
  intro c a c' h
  cases h

theorem advances_failHere (fault : LoadFault) : Advances (failHere fault : Reader α) := by
  intro c a c' h
  cases h

theorem advances_position : Advances position := by
  intro c a c' h
  cases h
  exact Cursor.Leads.refl c

theorem advances_hasAtLeast (count : Nat) : Advances (hasAtLeast count) := by
  intro c a c' h
  cases h
  exact Cursor.Leads.refl c

theorem advances_remaining : Advances remaining := by
  intro c a c' h
  cases h
  exact Cursor.Leads.refl c

theorem advances_consumedSince (start : Nat) : Advances (consumedSince start) := by
  intro c a c' h
  cases h
  exact Cursor.Leads.refl c

/-! ## Bytes -/

theorem advances_next? : Advances next? := by
  intro c a c' h
  unfold next? at h
  split at h
  · cases h
    exact ⟨rfl, Nat.le_succ _⟩
  · cases h
    exact Cursor.Leads.refl c

theorem advances_byte : Advances byte := by
  refine advances_bind advances_next? ?_
  intro found
  cases found with
  | none => exact advances_failHere _
  | some b => exact advances_pure b

/-- The bytes that were taken are those between the two cursors. -/
theorem eq_extract_of_bytes {c c' : Cursor} {len : Nat} {taken : Bytes}
    (h : bytes len c = .ok taken c') :
    taken = c.bytes.extract c.pos (c.pos + len) ∧ c'.bytes = c.bytes ∧
      c'.pos = c.pos + len ∧ c.pos + len ≤ c.bytes.size := by
  unfold bytes at h
  split at h
  · rename_i hFits
    cases h
    have hPos := c.pos_le_size
    have hInside : c.pos + len ≤ c.bytes.size := by
      unfold Cursor.remaining at hFits
      omega
    exact ⟨rfl, rfl, Cursor.pos_moveTo hInside, hInside⟩
  · cases h

theorem advances_bytes (len : Nat) : Advances (bytes len) := by
  intro c taken c' h
  obtain ⟨-, hBytes, hPos, -⟩ := eq_extract_of_bytes h
  exact ⟨hBytes, by omega⟩

/-! ## Numbers -/

theorem advances_varint {width : Nat} {decode : Bytes → Nat → Except VarintError (α × Nat)}
    (hBounds : ∀ {bytes pos v next}, decode bytes pos = .ok (v, next) → pos < next) :
    Advances (varint width decode) := by
  intro c a c' h
  unfold varint at h
  split at h
  · rename_i hDecode
    cases h
    exact Cursor.leads_moveTo (Nat.le_of_lt (hBounds hDecode))
  · cases h

theorem advances_u32 : Advances u32 :=
  advances_varint fun h => (Leb128.decodeU32_bounds h).1

theorem advances_s32 : Advances s32 :=
  advances_varint fun h => (Leb128.decodeSigned_bounds h).1

theorem advances_s64 : Advances s64 :=
  advances_varint fun h => (Leb128.decodeSigned_bounds h).1

/-! ## Strings and vectors -/

theorem advances_byteVector : Advances byteVector :=
  advances_bind advances_u32 fun _ => advances_bytes _

theorem advances_string : Advances string := by
  refine advances_bind advances_u32 fun len => ?_
  refine advances_bind advances_position fun start => ?_
  refine advances_bind (advances_bytes _) fun content => ?_
  split
  · exact advances_pure _
  · exact advances_failAt _ _

/-- Runs of a reader, one after the other, and what they gave. -/
inductive Reads (item : Reader α) : Cursor → List α → Cursor → Prop
  | nil {c : Cursor} : Reads item c [] c
  | cons {c middle c' : Cursor} {a : α} {rest : List α} (head : item c = .ok a middle)
      (tail : Reads item middle rest c') : Reads item c (a :: rest) c'

theorem Reads.leads {item : Reader α} (hItem : Advances item) {c c' : Cursor} {items : List α}
    (h : Reads item c items c') : c.Leads c' := by
  induction h with
  | nil => exact Cursor.Leads.refl _
  | cons head tail ih => exact (hItem head).trans ih

/-- Each item was read between the first cursor and the last. -/
theorem Reads.exists_of_mem {item : Reader α} (hItem : Advances item) {c c' : Cursor}
    {items : List α} (h : Reads item c items c') {a : α} (ha : a ∈ items) :
    ∃ before after, item before = .ok a after ∧ c.Leads before ∧ after.Leads c' := by
  induction h with
  | nil => cases ha
  | @cons c middle c' b rest head tail ih =>
    rcases List.mem_cons.1 ha with rfl | hRest
    · exact ⟨c, middle, head, Cursor.Leads.refl c, tail.leads hItem⟩
    · obtain ⟨before, after, hRun, hBefore, hAfter⟩ := ih hRest
      exact ⟨before, after, hRun, (hItem head).trans hBefore, hAfter⟩

/-- Collecting is a run of the item for each item that was added. -/
theorem collect_eq_ok_iff {item : Reader α} {count : Nat} {found all : Array α} {c c' : Cursor} :
    collect item count found c = .ok all c' ↔
      ∃ items, items.length = count ∧ all = found ++ items.toArray ∧ Reads item c items c' := by
  induction count generalizing found c with
  | zero =>
    constructor
    · intro h
      cases h
      exact ⟨[], rfl, by simp, .nil⟩
    · rintro ⟨items, hLength, rfl, hReads⟩
      obtain rfl := List.length_eq_zero_iff.1 hLength
      cases hReads
      simp [collect, pure, EStateM.pure]
  | succ count ih =>
    constructor
    · intro h
      obtain ⟨a, middle, hHead, hTail⟩ := exists_of_run_bind_eq_ok h
      obtain ⟨items, hLength, rfl, hReads⟩ := ih.1 hTail
      exact ⟨a :: items, by rw [List.length_cons, hLength], by simp, .cons hHead hReads⟩
    · rintro ⟨items, hLength, rfl, hReads⟩
      cases hReads with
      | nil => cases hLength
      | @cons _ middle _ a rest head tail =>
        have hRest : collect item count (found.push a) middle =
            .ok (found ++ (a :: rest).toArray) c' :=
          ih.2 ⟨rest, Nat.succ.inj hLength, by simp, tail⟩
        change EStateM.bind item _ c = _
        simp only [EStateM.bind, head]
        exact hRest

theorem advances_vector {item : Reader α} (hItem : Advances item) : Advances (vector item) := by
  refine advances_bind advances_u32 fun count => ?_
  intro c all c' h
  obtain ⟨items, -, -, hReads⟩ := collect_eq_ok_iff.1 h
  exact hReads.leads hItem

/-- Every item of a vector was read inside the vector. -/
theorem exists_of_mem_vector {item : Reader α} (hItem : Advances item) {c c' : Cursor}
    {all : Array α} (h : vector item c = .ok all c') {a : α} (ha : a ∈ all) :
    ∃ before after, item before = .ok a after ∧ c.Leads before ∧ after.Leads c' := by
  obtain ⟨count, start, hCount, hItems⟩ := exists_of_run_bind_eq_ok h
  obtain ⟨items, -, rfl, hReads⟩ := collect_eq_ok_iff.1 hItems
  obtain ⟨before, after, hRun, hBefore, hAfter⟩ := hReads.exists_of_mem hItem (by simpa using ha)
  exact ⟨before, after, hRun, (advances_u32 hCount).trans hBefore, hAfter⟩

/-! ## Types -/

theorem advances_valueType : Advances valueType := by
  refine advances_bind advances_position fun pos => ?_
  refine advances_bind advances_byte fun b => ?_
  split
  · exact advances_pure _
  · exact advances_failAt _ _

theorem advances_resultTypes : Advances resultTypes :=
  advances_bind (advances_vector advances_valueType) fun _ => advances_pure _

theorem advances_functionType : Advances functionType := by
  refine advances_bind advances_position fun pos => ?_
  refine advances_bind advances_byte fun form => ?_
  split
  · exact advances_failAt _ _
  · refine advances_bind advances_resultTypes fun parameters => ?_
    exact advances_bind advances_resultTypes fun results => advances_pure _

theorem advances_limits : Advances limits := by
  refine advances_bind advances_position fun pos => ?_
  refine advances_bind advances_byte fun flag => ?_
  split
  · exact advances_bind advances_u32 fun min => advances_pure _
  · split
    · refine advances_bind advances_u32 fun min => ?_
      exact advances_bind advances_u32 fun max => advances_pure _
    · exact advances_failAt _ _

theorem advances_tableType : Advances tableType := by
  refine advances_bind advances_position fun pos => ?_
  refine advances_bind advances_byte fun element => ?_
  split
  · exact advances_failAt _ _
  · exact advances_limits

theorem advances_globalType : Advances globalType := by
  refine advances_bind advances_valueType fun type => ?_
  refine advances_bind advances_position fun pos => ?_
  refine advances_bind advances_byte fun flag => ?_
  split
  · exact advances_pure _
  · split
    · exact advances_pure _
    · exact advances_failAt _ _

/-! ## Initializers -/

theorem advances_initOperands (opcode : UInt8) (pos : Nat) :
    Advances (initOperands opcode pos) := by
  unfold initOperands
  split
  · exact advances_pure _
  · exact advances_bind advances_u32 fun _ => advances_pure _
  · exact advances_bind advances_s32 fun _ => advances_pure _
  · exact advances_bind advances_s64 fun _ => advances_pure _
  · exact advances_bind (advances_bytes 4) fun _ => advances_pure _
  · exact advances_bind (advances_bytes 8) fun _ => advances_pure _
  · exact advances_failAt _ _

theorem advances_initInstructions (fuel : Nat) : Advances (initInstructions fuel) := by
  induction fuel with
  | zero => exact advances_failHere _
  | succ fuel ih =>
    refine advances_bind advances_position fun pos => ?_
    refine advances_bind advances_byte fun opcode => ?_
    split
    · exact advances_pure _
    · exact advances_bind (advances_initOperands opcode pos) fun _ => ih

theorem advances_initExpr : Advances initExpr := by
  refine advances_bind advances_position fun start => ?_
  refine advances_bind advances_remaining fun left => ?_
  refine advances_bind (advances_initInstructions _) fun _ => ?_
  exact advances_consumedSince start

/-! ## Entries -/

theorem advances_importEntry : Advances importEntry := by
  refine advances_bind advances_string fun module => ?_
  refine advances_bind advances_string fun name => ?_
  refine advances_bind advances_position fun pos => ?_
  refine advances_bind advances_byte fun kind => ?_
  split
  · exact advances_bind advances_u32 fun _ => advances_pure _
  · split
    · exact advances_bind advances_tableType fun _ => advances_pure _
    · split
      · exact advances_bind advances_limits fun _ => advances_pure _
      · split
        · exact advances_bind advances_globalType fun _ => advances_pure _
        · exact advances_failAt _ _

theorem advances_typeIndex (typeCount : Nat) : Advances (typeIndex typeCount) := by
  refine advances_bind advances_position fun pos => ?_
  refine advances_bind advances_u32 fun index => ?_
  split
  · exact advances_failAt _ _
  · exact advances_pure _

theorem advances_globalEntry : Advances globalEntry := by
  refine advances_bind advances_globalType fun type => ?_
  exact advances_bind advances_initExpr fun init => advances_pure _

theorem advances_exportEntry : Advances exportEntry := by
  refine advances_bind advances_string fun name => ?_
  refine advances_bind advances_position fun pos => ?_
  refine advances_bind advances_byte fun kind => ?_
  refine advances_bind advances_u32 fun index => ?_
  split
  · exact advances_pure _
  · split
    · exact advances_pure _
    · split
      · exact advances_pure _
      · split
        · exact advances_pure _
        · exact advances_failAt _ _

theorem advances_elementEntry : Advances elementEntry := by
  refine advances_bind advances_u32 fun table => ?_
  refine advances_bind advances_initExpr fun offset => ?_
  exact advances_bind (advances_vector advances_u32) fun functions => advances_pure _

theorem advances_dataEntry : Advances dataEntry := by
  refine advances_bind advances_u32 fun memory => ?_
  refine advances_bind advances_initExpr fun offset => ?_
  exact advances_bind advances_byteVector fun bytes => advances_pure _

theorem advances_customSection (len : Nat) : Advances (customSection len) := by
  refine advances_bind advances_position fun start => ?_
  refine advances_bind advances_string fun name => ?_
  refine advances_bind advances_position fun pos => ?_
  change Advances (if len < pos - start then _ else _)
  split
  · exact advances_failHere _
  · exact advances_bind (advances_bytes _) fun bytes => advances_pure _

/-! ## Bodies -/

theorem advances_localRuns (count : Nat) (found : Array ValueType) :
    Advances (localRuns count found) := by
  induction count generalizing found with
  | zero => exact advances_pure found
  | succ count ih =>
    refine advances_bind advances_position fun pos => ?_
    refine advances_bind advances_u32 fun n => ?_
    change Advances (if maxLocals < found.size + n.toNat then _ else _)
    split
    · exact advances_failAt _ _
    · exact advances_bind advances_valueType fun type => ih _

/-- No body has more locals than are admitted. -/
theorem size_le_of_localRuns {count : Nat} {found locals : Array ValueType} {c c' : Cursor}
    (h : localRuns count found c = .ok locals c') (hFound : found.size ≤ maxLocals) :
    locals.size ≤ maxLocals := by
  induction count generalizing found c with
  | zero =>
    cases h
    exact hFound
  | succ count ih =>
    obtain ⟨pos, c₁, -, h⟩ := exists_of_run_bind_eq_ok h
    obtain ⟨n, c₂, -, h⟩ := exists_of_run_bind_eq_ok h
    change (if maxLocals < found.size + n.toNat then _ else _ : Reader _) c₂ = _ at h
    split at h
    · cases h
    · obtain ⟨type, c₃, -, h⟩ := exists_of_run_bind_eq_ok h
      refine ih h ?_
      rw [Array.size_append, Array.size_replicate]
      omega

/-- What a body that was read is: its code stands where it says, up to the last cursor. -/
structure BodyRead (c : Cursor) (body : FunctionBody) (c' : Cursor) : Prop where
  leads : c.Leads c'
  locals_le : body.locals.size ≤ maxLocals
  back : body.code.back? = some endByte
  pos_le : c.pos ≤ body.position
  stop : c'.pos = body.position + body.code.size
  code : body.code = c.bytes.extract body.position (body.position + body.code.size)

theorem bodyRead_of_bodyEntry {c c' : Cursor} {body : FunctionBody}
    (h : bodyEntry c = .ok body c') : BodyRead c body c' := by
  obtain ⟨size, c₁, hSize, h⟩ := exists_of_run_bind_eq_ok h
  obtain ⟨start, c₂, hStart, h⟩ := exists_of_run_bind_eq_ok h
  obtain ⟨fits, c₃, hFits, h⟩ := exists_of_run_bind_eq_ok h
  have h₃ : c.Leads c₃ :=
    ((advances_u32 hSize).trans (advances_position hStart)).trans (advances_hasAtLeast _ hFits)
  split at h
  · cases h
  · obtain ⟨runs, c₄, hRuns, h⟩ := exists_of_run_bind_eq_ok h
    obtain ⟨locals, c₅, hLocals, h⟩ := exists_of_run_bind_eq_ok h
    obtain ⟨position, c₆, hPosition, h⟩ := exists_of_run_bind_eq_ok h
    have h₅ : c.Leads c₅ := (h₃.trans (advances_u32 hRuns)).trans (advances_localRuns _ _ hLocals)
    cases hPosition
    split at h
    · cases h
    · obtain ⟨code, c₇, hCode, h⟩ := exists_of_run_bind_eq_ok h
      obtain ⟨rfl, hBytes, hPos, hInside⟩ := eq_extract_of_bytes hCode
      split at h
      · cases h
      · rename_i hBack
        cases h
        have hCodeSize : (c₅.bytes.extract c₅.pos (c₅.pos + (size.toNat - (c₅.pos - start)))).size =
            size.toNat - (c₅.pos - start) := by
          rw [Array.size_extract]
          omega
        refine ⟨h₅.trans (advances_bytes _ hCode), size_le_of_localRuns hLocals (Nat.zero_le _),
          Decidable.not_not.1 hBack, h₅.pos_le, ?_, ?_⟩
        · rw [hCodeSize]
          exact hPos
        · simp only [hCodeSize]
          rw [h₅.bytes_eq]

theorem advances_bodyEntry : Advances bodyEntry := fun _ _ _ h => (bodyRead_of_bodyEntry h).leads

/-- Only indices of types are read. -/
theorem lt_of_typeIndex {typeCount : Nat} {c c' : Cursor} {index : UInt32}
    (h : typeIndex typeCount c = .ok index c') : index.toNat < typeCount := by
  obtain ⟨pos, c₁, -, h⟩ := exists_of_run_bind_eq_ok h
  obtain ⟨found, c₂, -, h⟩ := exists_of_run_bind_eq_ok h
  split at h
  · cases h
  · rename_i hBound
    cases h
    exact Nat.lt_of_not_le hBound

end Reader

/-! ## Sections -/

open Reader in
theorem Reader.advances_readSection (id : UInt8) (len typeCount : Nat) :
    Advances (readSection id len typeCount) := by
  unfold readSection
  split
  · exact advances_bind (advances_customSection len) fun _ => advances_pure _
  · exact advances_bind (advances_vector advances_functionType) fun _ => advances_pure _
  · exact advances_bind (advances_vector advances_importEntry) fun _ => advances_pure _
  · exact advances_bind (advances_vector (advances_typeIndex typeCount)) fun _ => advances_pure _
  · exact advances_bind (advances_vector advances_tableType) fun _ => advances_pure _
  · exact advances_bind (advances_vector advances_limits) fun _ => advances_pure _
  · exact advances_bind (advances_vector advances_globalEntry) fun _ => advances_pure _
  · exact advances_bind (advances_vector advances_exportEntry) fun _ => advances_pure _
  · exact advances_bind advances_u32 fun _ => advances_pure _
  · exact advances_bind (advances_vector advances_elementEntry) fun _ => advances_pure _
  · exact advances_bind (advances_vector advances_bodyEntry) fun _ => advances_pure _
  · exact advances_bind (advances_vector advances_dataEntry) fun _ => advances_pure _
  · exact advances_failHere _

end WasmMachine
