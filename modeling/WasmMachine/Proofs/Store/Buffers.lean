import WasmMachine.Memory
import WasmMachine.Table

/-!
# Writing to memories and tables

Bytes are written to a memory and functions to a table one after the other from a place on. Each
place then holds the item that was written to it, or what it held before.

* `placed?`: the item that is written to a place.
* `Memory.getElem?_setBytes`, `Table.getElem?_fill`: what a place holds.
* `Memory.create_eq_ok_iff`, `Table.create_eq_ok_iff`: new memories and tables.
-/

namespace WasmMachine

/-- The item that comes to a place when items are written from `start` on. -/
def placed? {α : Type} (start : Nat) (items : List α) (place : Nat) : Option α :=
  if start ≤ place then items[place - start]? else none

theorem placed?_of_lt {α : Type} {start place : Nat} (h : place < start) (items : List α) :
    placed? start items place = none :=
  if_neg (Nat.not_le.2 h)

theorem placed?_nil {α : Type} (start place : Nat) : placed? start ([] : List α) place = none := by
  unfold placed?
  split <;> simp

theorem placed?_cons {α : Type} (start : Nat) (a : α) (rest : List α) (place : Nat) :
    placed? start (a :: rest) place =
      if place = start then some a else placed? (start + 1) rest place := by
  unfold placed?
  by_cases hHere : place = start
  · subst hHere
    simp
  · by_cases hLater : start + 1 ≤ place
    · have hIndex : place - start = place - (start + 1) + 1 := by omega
      rw [if_pos (by omega), if_neg hHere, if_pos hLater, hIndex, List.getElem?_cons_succ]
    · rw [if_neg (by omega), if_neg hHere, if_neg hLater]

/-! ## Memories -/

namespace Memory

theorem size_setBytes (data : ByteArray) (address : Nat) (bytes : List UInt8) :
    (setBytes data address bytes).size = data.size := by
  induction bytes generalizing data address with
  | nil => rfl
  | cons b rest ih =>
    unfold setBytes
    split
    · rw [ih]
      exact Array.size_set ..
    · rfl

theorem size_zeros (count : Nat) : (zeros count).size = count := Array.size_replicate

theorem getElem?_setBytes {data : ByteArray} {address : Nat} {bytes : List UInt8}
    (hFits : address + bytes.length ≤ data.size) (place : Nat) :
    (setBytes data address bytes).data[place]? =
      (placed? address bytes place).or data.data[place]? := by
  induction bytes generalizing data address with
  | nil =>
    rw [placed?_nil]
    rfl
  | cons b rest ih =>
    rw [List.length_cons] at hFits
    have hInside : address < data.size := by omega
    have hSize : (data.set address b hInside).size = data.size := Array.size_set ..
    have hByte : (data.set address b hInside).data[place]? =
        if address = place then some b else data.data[place]? := Array.getElem?_set hInside
    rw [setBytes, dif_pos hInside, ih (by rw [hSize]; omega), hByte, placed?_cons]
    by_cases hHere : place = address
    · subst hHere
      rw [if_pos rfl, if_pos rfl, placed?_of_lt (Nat.lt_succ_self place)]
      rfl
    · rw [if_neg hHere, if_neg (Ne.symm hHere)]

theorem writeBytes_of_fits {m : Memory} {address : Nat} {bytes : List UInt8}
    (h : address + bytes.length ≤ m.size) :
    writeBytes address bytes m = .ok () { m with data := setBytes m.data address bytes } :=
  if_pos (decide_eq_true h)

theorem writeBytes_of_not_fits {m : Memory} {address : Nat} {bytes : List UInt8}
    (h : ¬ address + bytes.length ≤ m.size) :
    writeBytes address bytes m = .error (m.outOfBounds address bytes.length) m := by
  unfold writeBytes fits
  rw [decide_eq_false h]
  rfl

theorem le_pageLimit_iff {n : Nat} {max : Option UInt32} {ceiling : Nat} :
    n ≤ pageLimit max ceiling ↔
      (∀ bound, max = some bound → n ≤ bound.toNat) ∧ n ≤ ceiling := by
  cases max with
  | none => simp [pageLimit]
  | some bound => simp only [pageLimit, Option.some.injEq, forall_eq', Nat.le_min]

/-- A memory is made if its size is within all three bounds. -/
theorem create_eq_ok_iff {initial : UInt32} {max : Option UInt32} {ceiling : UInt32}
    {memory : Memory} :
    create initial max ceiling = .ok memory ↔
      (∀ bound, max = some bound → initial.toNat ≤ bound.toNat) ∧
      initial.toNat ≤ ceiling.toNat ∧ initial.toNat ≤ 65536 ∧
      memory = {
        data := zeros (initial.toNat * 65536)
        pages := initial.toNat
        max
        ceiling := min ceiling.toNat 65536 } := by
  have hLimit : initial.toNat ≤ pageLimit max (min ceiling.toNat maxPages) ↔ _ := le_pageLimit_iff
  rw [Nat.le_min] at hLimit
  unfold create
  dsimp only
  constructor
  · intro h
    split at h
    · cases h
    · rename_i hFits
      cases h
      obtain ⟨hMax, hCeiling, hPages⟩ := hLimit.1 (Nat.not_lt.1 hFits)
      exact ⟨hMax, hCeiling, hPages, rfl⟩
  · rintro ⟨hMax, hCeiling, hPages, rfl⟩
    exact if_neg (Nat.not_lt.2 (hLimit.2 ⟨hMax, hCeiling, hPages⟩))

end Memory

/-! ## Tables -/

namespace Table

theorem size_fill (slots : Array (Option UInt32)) (start : Nat) (functions : List UInt32) :
    (fill slots start functions).size = slots.size := by
  induction functions generalizing slots start with
  | nil => rfl
  | cons f rest ih => rw [fill, ih, Array.size_setIfInBounds]

theorem getElem?_fill {slots : Array (Option UInt32)} {start : Nat} {functions : List UInt32}
    (hFits : start + functions.length ≤ slots.size) (place : Nat) :
    (fill slots start functions)[place]? =
      (placed? start (functions.map some) place).or slots[place]? := by
  induction functions generalizing slots start with
  | nil =>
    rw [List.map_nil, placed?_nil]
    rfl
  | cons f rest ih =>
    rw [List.length_cons] at hFits
    have hInside : start < slots.size := by omega
    rw [fill, ih (by rw [Array.size_setIfInBounds]; omega), Array.getElem?_setIfInBounds,
      List.map_cons, placed?_cons]
    by_cases hHere : place = start
    · subst hHere
      rw [if_pos rfl, if_pos hInside, if_pos rfl, placed?_of_lt (Nat.lt_succ_self place)]
      rfl
    · rw [if_neg hHere, if_neg (Ne.symm hHere)]

/-- A table is made if its size is within both bounds. -/
theorem create_eq_ok_iff {limits : Limits} {ceiling : UInt32} {table : Table} :
    create limits ceiling = .ok table ↔
      (∀ bound, limits.max = some bound → limits.min.toNat ≤ bound.toNat) ∧
      limits.min.toNat ≤ ceiling.toNat ∧
      table = { slots := Array.replicate limits.min.toNat none, limits } := by
  have hLimit : limits.min.toNat ≤ Memory.pageLimit limits.max ceiling.toNat ↔ _ :=
    Memory.le_pageLimit_iff
  change (if Memory.pageLimit limits.max ceiling.toNat < limits.min.toNat then _ else _) = _ ↔ _
  constructor
  · intro h
    split at h
    · cases h
    · rename_i hFits
      cases h
      obtain ⟨hMax, hCeiling⟩ := hLimit.1 (Nat.not_lt.1 hFits)
      exact ⟨hMax, hCeiling, rfl⟩
  · rintro ⟨hMax, hCeiling, rfl⟩
    exact if_neg (Nat.not_lt.2 (hLimit.2 ⟨hMax, hCeiling⟩))

end Table

end WasmMachine
