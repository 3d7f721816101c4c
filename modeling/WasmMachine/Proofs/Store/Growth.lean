import WasmMachine.Proofs.Guarded.Basic
import WasmMachine.Proofs.Store.Accesses

/-!
# Growing memories

The number of pages and the bytes of a memory are kept apart. Whatever is written to a memory and
however often it grows, they stay in step and within what the memory is allowed.

* `Memory.Operation`, `Memory.after`: what may happen to a memory, and what a history leaves.
* `Memory.InStep`: the invariant. An operation keeps it (`InStep.of_apply`), and so does a history
  (`InStep.of_after`).
* `Memory.InStep.growth`: when growing succeeds, and what it does.
-/

namespace WasmMachine

namespace Memory

/-! ## Histories -/

/-- What changes a memory. -/
inductive Operation where
  | grow (delta : UInt32)
  | store (address width n : Nat)
  | writeBytes (address : Nat) (bytes : List UInt8)

/-- The memory that an operation leaves, whether it succeeds or not. -/
def Operation.apply (m : Memory) : Operation → Memory
  | .grow delta => finalState (Exec.growMemory delta m)
  | .store address width n => finalState (Memory.store address width n m)
  | .writeBytes address bytes => finalState (Memory.writeBytes address bytes m)

/-- The memory after some operations. -/
def after (m : Memory) (history : List Operation) : Memory := history.foldl Operation.apply m

/-! ## What a memory is allowed -/

/-- A number of pages is within a declared maximum, a ceiling and the address space. -/
def Allowed (max : Option UInt32) (ceiling : UInt32) (pages : Nat) : Prop :=
  (∀ bound, max = some bound → pages ≤ bound.toNat) ∧ pages ≤ ceiling.toNat ∧ pages ≤ 65536

/-- The bytes of a memory are as many as its pages say, and these are allowed. -/
structure InStep (max : Option UInt32) (ceiling : UInt32) (m : Memory) : Prop where
  size : m.size = m.pages * 65536
  allowed : Allowed max ceiling m.pages
  max_eq : m.max = max
  ceiling_eq : m.ceiling = min ceiling.toNat 65536

variable {max : Option UInt32} {ceiling : UInt32} {m : Memory}

theorem inStep_of_create {initial : UInt32} (h : create initial max ceiling = .ok m) :
    InStep max ceiling m := by
  obtain ⟨hMax, hCeiling, hPages, rfl⟩ := create_eq_ok_iff.1 h
  exact ⟨size_zeros _, ⟨hMax, hCeiling, hPages⟩, rfl, rfl⟩

theorem InStep.le_limit_iff (h : InStep max ceiling m) (pages : Nat) :
    pages ≤ m.limit ↔ Allowed max ceiling pages := by
  rw [limit, h.max_eq, h.ceiling_eq, le_pageLimit_iff, Nat.le_min]
  rfl

/-! ## Growing -/

/-- The memory with more pages, which hold zeros. -/
def grown (m : Memory) (delta : Nat) : Memory :=
  { m with data := m.data ++ zeros (delta * 65536), pages := m.pages + delta }

theorem size_grown (m : Memory) (delta : Nat) : (m.grown delta).size = m.size + delta * 65536 := by
  change (m.data ++ zeros _).size = _
  rw [ByteArray.size_append, size_zeros]
  rfl

theorem growMemory_of_allowed (h : InStep max ceiling m) {delta : UInt32}
    (hAllowed : Allowed max ceiling (m.pages + delta.toNat)) :
    Exec.growMemory delta m = .ok (BitVec.ofNat 32 m.pages) (m.grown delta.toNat) := by
  have hLimit : ¬ m.limit < m.pages + delta.toNat :=
    Nat.not_lt.2 ((h.le_limit_iff _).2 hAllowed)
  -- The bytes that are missing are those of the new pages, since the old ones are all there.
  have hMissing : (m.pages + delta.toNat) * pageSize - m.data.size = delta.toNat * 65536 := by
    have hSize : m.data.size = m.pages * pageSize := h.size
    rw [hSize, Nat.add_mul, Nat.add_sub_cancel_left]
    rfl
  simp only [Exec.growMemory, grow, if_neg hLimit, hMissing]
  rfl

theorem growMemory_of_not_allowed (h : InStep max ceiling m) {delta : UInt32}
    (hAllowed : ¬ Allowed max ceiling (m.pages + delta.toNat)) :
    Exec.growMemory delta m = .ok (-1) m := by
  have hLimit : m.limit < m.pages + delta.toNat :=
    Nat.not_le.1 fun hLe => hAllowed ((h.le_limit_iff _).1 hLe)
  simp only [Exec.growMemory, grow, if_pos hLimit]

/-- What growing by some pages does when it succeeds, and what it tells: the previous number of
pages. -/
structure Grows (delta : Nat) (before : Memory) (told : BitVec 32) (after : Memory) : Prop where
  told : told.toInt = before.pages
  pages : after.pages = before.pages + delta
  size : after.size = after.pages * 65536
  kept : ∀ place, place < before.size → after.byte? place = before.byte? place
  zero : ∀ place, before.size ≤ place → place < after.size → after.byte? place = some 0

/-- Growing succeeds exactly if the new number of pages is allowed. Otherwise it tells minus one,
which no success tells, and changes nothing. -/
structure Growth (max : Option UInt32) (ceiling : UInt32) (delta : Nat) (before : Memory)
    (told : BitVec 32) (after : Memory) : Prop where
  succeeds_iff : told ≠ -1 ↔ Allowed max ceiling (before.pages + delta)
  success : told ≠ -1 → Grows delta before told after
  failure : told = -1 → after = before

theorem toInt_ofNat_pages {pages : Nat} (h : pages ≤ 65536) :
    (BitVec.ofNat 32 pages).toInt = pages := by
  have hNumber : (BitVec.ofNat 32 pages).toNat = pages := Nat.mod_eq_of_lt (by omega)
  rw [BitVec.toInt_eq_toNat_of_lt (by omega), hNumber]

theorem InStep.grows_grown (h : InStep max ceiling m) (delta : Nat) :
    Grows delta m (BitVec.ofNat 32 m.pages) (m.grown delta) := by
  have hData : (m.grown delta).data.data = m.data.data ++ Array.replicate (delta * 65536) 0 :=
    ByteArray.data_append ..
  refine ⟨toInt_ofNat_pages h.allowed.2.2, rfl, ?_, fun place hOld => ?_,
    fun place hOld hNew => ?_⟩
  · rw [size_grown, h.size]
    exact (Nat.add_mul ..).symm
  · rw [byte?, hData, Array.getElem?_append_left hOld]
    rfl
  · have hInside : place - m.size < delta * 65536 := by
      rw [size_grown] at hNew
      omega
    rw [byte?, hData, Array.getElem?_append_right hOld, Array.getElem?_replicate]
    exact if_pos hInside

theorem InStep.growth (h : InStep max ceiling m) (delta : UInt32) :
    ∃ told after, Exec.growMemory delta m = .ok told after ∧
      Growth max ceiling delta.toNat m told after := by
  by_cases hAllowed : Allowed max ceiling (m.pages + delta.toNat)
  · have hGrows := h.grows_grown delta.toNat
    have hTold : BitVec.ofNat 32 m.pages ≠ -1 := by
      intro hMinus
      have hInt : (-1 : Int) = m.pages := (congrArg BitVec.toInt hMinus).symm.trans hGrows.told
      omega
    exact ⟨_, _, growMemory_of_allowed h hAllowed, ⟨fun _ => hAllowed, fun _ => hTold⟩,
      fun _ => hGrows, fun hMinus => absurd hMinus hTold⟩
  · exact ⟨_, _, growMemory_of_not_allowed h hAllowed,
      ⟨fun hTold => absurd rfl hTold, fun hBut => absurd hBut hAllowed⟩,
      fun hTold => absurd rfl hTold, fun _ => rfl⟩

/-! ## The invariant along a history -/

theorem InStep.of_write (h : InStep max ceiling m) (address : Nat) (bytes : List UInt8) :
    InStep max ceiling (finalState (writeBytes address bytes m)) ∧
      m.pages ≤ (finalState (writeBytes address bytes m)).pages := by
  by_cases hFits : address + bytes.length ≤ m.size
  · rw [writeBytes_of_fits hFits]
    exact ⟨⟨(size_setBytes ..).trans h.size, h.allowed, h.max_eq, h.ceiling_eq⟩, Nat.le_refl _⟩
  · rw [writeBytes_of_not_fits hFits]
    exact ⟨h, Nat.le_refl _⟩

theorem InStep.of_grow (h : InStep max ceiling m) (delta : UInt32) :
    InStep max ceiling (finalState (Exec.growMemory delta m)) ∧
      m.pages ≤ (finalState (Exec.growMemory delta m)).pages := by
  by_cases hAllowed : Allowed max ceiling (m.pages + delta.toNat)
  · rw [growMemory_of_allowed h hAllowed]
    exact ⟨⟨(h.grows_grown delta.toNat).size, hAllowed, h.max_eq, h.ceiling_eq⟩,
      Nat.le_add_right ..⟩
  · rw [growMemory_of_not_allowed h hAllowed]
    exact ⟨h, Nat.le_refl _⟩

/-- An operation keeps the invariant and takes no page away, whether it succeeds or not. -/
theorem InStep.of_apply (h : InStep max ceiling m) (op : Operation) :
    InStep max ceiling (op.apply m) ∧ m.pages ≤ (op.apply m).pages := by
  cases op with
  | grow delta => exact h.of_grow delta
  | store address width n => exact h.of_write address (toLittleEndian width n)
  | writeBytes address bytes => exact h.of_write address bytes

theorem InStep.of_after (h : InStep max ceiling m) (history : List Operation) :
    InStep max ceiling (m.after history) ∧ m.pages ≤ (m.after history).pages := by
  induction history generalizing m with
  | nil => exact ⟨h, Nat.le_refl _⟩
  | cons op rest ih =>
    obtain ⟨hStep, hPages⟩ := h.of_apply op
    obtain ⟨hRest, hLater⟩ := ih hStep
    exact ⟨hRest, Nat.le_trans hPages hLater⟩

/-! ## The instruction -/

theorem memoryGrow_of_ok {machine : Machine} (hMemory : machine.store.memories[0]? = some m)
    {n told : BitVec 32} {after : Memory}
    (hGrow : Exec.growMemory (UInt32.ofNat n.toNat) m = .ok told after) :
    Exec.memoryGrow (machine.push (.i32 n)) =
      .ok () ((machine.withMemory after).push (.i32 told)) := by
  have hReady : (machine.push (.i32 n)).store.memories[0]? = some m := hMemory
  unfold Exec.memoryGrow
  rw [run_bind_of_ok (Exec.requireMemory_of_some hReady),
    run_bind_of_ok (Exec.onStack_push (Stack.popI32_push machine.stack n)),
    run_bind_of_ok (Exec.onMemory_of_ok hMemory hGrow)]
  rfl

/-- Whatever happens to a new memory, its bytes are as many as its pages say, and these are allowed
and never fewer than before. It can grow exactly by what is allowed, and the instruction reads the
number of new pages as unsigned. -/
theorem pages_in_step {initial : UInt32} (hCreate : create initial max ceiling = .ok m)
    (history : List Operation) :
    (m.after history).size = (m.after history).pages * 65536 ∧
    Allowed max ceiling (m.after history).pages ∧
    (∀ later, (m.after history).pages ≤ ((m.after history).after later).pages) ∧
    (∀ delta : UInt32, ∃ told grown,
      Exec.growMemory delta (m.after history) = .ok told grown ∧
        Growth max ceiling delta.toNat (m.after history) told grown) ∧
    ∀ machine : Machine, machine.store.memories[0]? = some (m.after history) → ∀ n : BitVec 32,
      ∃ told grown, Growth max ceiling n.toNat (m.after history) told grown ∧
        Exec.memoryGrow (machine.push (.i32 n)) =
          .ok () ((machine.withMemory grown).push (.i32 told)) := by
  have hNow := ((inStep_of_create hCreate).of_after history).1
  refine ⟨hNow.size, hNow.allowed, fun later => (hNow.of_after later).2, hNow.growth,
    fun machine hMemory n => ?_⟩
  have hUnsigned : (UInt32.ofNat n.toNat).toNat = n.toNat := Nat.mod_eq_of_lt n.isLt
  obtain ⟨told, grown, hGrow, hGrowth⟩ := hNow.growth (UInt32.ofNat n.toNat)
  rw [hUnsigned] at hGrowth
  exact ⟨told, grown, hGrowth, memoryGrow_of_ok hMemory hGrow⟩

/-- A memory of one page that may have two, as its ceiling is below its declared maximum. -/
def small : Memory := { data := zeros 65536, pages := 1, max := some 3, ceiling := 2 }

/-- What is left of it after one growth that is far too great and one that has room. -/
def full : Memory := small.after [.grow 0xfffffffe, .grow 1]

/-- A machine at rest whose first memory is `full`. -/
def fullMachine : Machine :=
  { store := { globals := #[], memories := #[full], tables := #[], callCounts := #[] } }

/-- A full memory has two pages of bytes and tells so when it grows by nothing. A delta of minus one
is a great number and has no room. -/
theorem pages_in_step_full : create 1 (some 3) 2 = .ok small ∧ full.size = 131072 ∧
    fullMachine.store.memories[0]? = some full ∧
    (∃ grown, Exec.memoryGrow (fullMachine.push (.i32 0)) =
      .ok () ((fullMachine.withMemory grown).push (.i32 2))) ∧
    Exec.memoryGrow (fullMachine.push (.i32 (-1))) = .ok () (fullMachine.push (.i32 (-1))) := by
  have hCreate : create 1 (some 3) 2 = .ok small := rfl
  have hPages : full.pages = 2 := rfl
  have hMemory : fullMachine.store.memories[0]? = some full := rfl
  obtain ⟨hSize, -, -, -, hInstruction⟩ := pages_in_step hCreate [.grow 0xfffffffe, .grow 1]
  refine ⟨hCreate, hSize, hMemory, ?_, ?_⟩
  · obtain ⟨told, grown, hGrowth, hRun⟩ := hInstruction fullMachine hMemory 0
    have hTold : told = 2 := by
      have hRoom : Allowed (some 3) 2 (full.pages + 0) := by
        rw [hPages]
        exact ⟨fun bound hBound => by cases hBound; decide, by decide, by decide⟩
      have hInt := (hGrowth.success (hGrowth.succeeds_iff.2 hRoom)).told
      exact BitVec.eq_of_toInt_eq (hInt.trans (congrArg Nat.cast hPages))
    exact ⟨grown, hTold ▸ hRun⟩
  · obtain ⟨told, grown, hGrowth, hRun⟩ := hInstruction fullMachine hMemory (-1)
    have hTold : told = -1 := by
      by_contra hSuccess
      obtain ⟨-, hCeiling, -⟩ := hGrowth.succeeds_iff.1 hSuccess
      have hMany : full.pages + 4294967295 ≤ 2 := hCeiling
      omega
    have hSame : fullMachine.withMemory full = fullMachine := Machine.withMemory_self hMemory
    have hUnchanged : grown = full := hGrowth.failure hTold
    rw [hTold, hUnchanged, hSame] at hRun
    exact hRun

end Memory

end WasmMachine
