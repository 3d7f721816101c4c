import WasmMachine.Proofs.Store.Buffers

/-!
# Numbers in memory

A number stands in some bytes of a memory if these are its digits in base 256, the least
significant first. Loading finds the number that stands at an address. Storing puts one there and
leaves all other bytes as they are.

* `Memory.Spells`: which number stands in some bytes.
* `Memory.load_of_fits`, `Memory.store_of_fits`: accesses inside a memory.
* `Memory.spells_number`, `Memory.spells_stored`: what they find and what they leave.
* `Memory.number_stored_of_disjoint`, `Memory.stored_comm`: accesses to different bytes.
-/

namespace WasmMachine

/-! ## Digits -/

theorem getElem?_toLittleEndian {width k : Nat} (h : k < width) (n : Nat) :
    (toLittleEndian width n)[k]? = some (UInt8.ofNat (n / Nat.pow 256 k)) := by
  induction width generalizing n k with
  | zero => omega
  | succ width ih =>
    cases k with
    | zero => simp [toLittleEndian]
    | succ k =>
      rw [toLittleEndian, List.getElem?_cons_succ, ih (by omega), pow_byte_succ,
        Nat.div_div_eq_div_mul]

/-- The low bytes of a number are those of its remainder. -/
theorem toLittleEndian_mod (width n : Nat) :
    toLittleEndian width (n % Nat.pow 256 width) = toLittleEndian width n := by
  have hBytes := toLittleEndian_littleEndian (toLittleEndian width n)
  rwa [length_toLittleEndian, littleEndian_toLittleEndian] at hBytes

namespace Memory

/-- The byte at a place. -/
def byte? (m : Memory) (place : Nat) : Option UInt8 := m.data.data[place]?

/-- A number stands in the `width` bytes from an address on: it has so many digits in base 256, and
the bytes are its digits, the least significant one first. -/
def Spells (m : Memory) (address width n : Nat) : Prop :=
  n < Nat.pow 256 width ∧
    ∀ k, k < width → m.byte? (address + k) = some (UInt8.ofNat (n / Nat.pow 256 k))

/-- One number at most stands in some bytes. -/
theorem Spells.unique {m : Memory} {address width n n' : Nat} (h : m.Spells address width n)
    (h' : m.Spells address width n') : n = n' := by
  have hDigits : toLittleEndian width n = toLittleEndian width n' := by
    refine List.ext_getElem? fun k => ?_
    by_cases hk : k < width
    · rw [getElem?_toLittleEndian hk, getElem?_toLittleEndian hk, ← h.2 k hk, ← h'.2 k hk]
    · rw [List.getElem?_eq_none (by simpa using hk), List.getElem?_eq_none (by simpa using hk)]
  have hSpelled := congrArg littleEndian hDigits
  rwa [littleEndian_toLittleEndian, littleEndian_toLittleEndian, Nat.mod_eq_of_lt h.1,
    Nat.mod_eq_of_lt h'.1] at hSpelled

theorem Spells.of_agree {m m' : Memory} {address width n : Nat} (h : m.Spells address width n)
    (hAgree : ∀ k, k < width → m'.byte? (address + k) = m.byte? (address + k)) :
    m'.Spells address width n :=
  ⟨h.1, fun k hk => (hAgree k hk).trans (h.2 k hk)⟩

/-! ## Loading -/

theorem bytesFrom_of_fits {data : ByteArray} {address count : Nat}
    (h : address + count ≤ data.size) :
    (bytesFrom data address count).length = count ∧
      ∀ k, k < count → (bytesFrom data address count)[k]? = data.data[address + k]? := by
  induction count generalizing address with
  | zero => exact ⟨rfl, fun k hk => absurd hk (Nat.not_lt_zero k)⟩
  | succ count ih =>
    have hInside : address < data.size := by omega
    obtain ⟨hLength, hRest⟩ := ih (show address + 1 + count ≤ data.size by omega)
    have hBytes : bytesFrom data address (count + 1) =
        data.get address hInside :: bytesFrom data (address + 1) count := dif_pos hInside
    rw [hBytes]
    refine ⟨congrArg (· + 1) hLength, fun k hk => ?_⟩
    cases k with
    | zero => exact (Array.getElem?_eq_getElem hInside).symm
    | succ k =>
      rw [List.getElem?_cons_succ, hRest k (by omega), Nat.add_assoc, Nat.add_comm 1 k]

/-- The number in `width` bytes. -/
def number (m : Memory) (address width : Nat) : Nat := littleEndian (bytesFrom m.data address width)

theorem spells_number {m : Memory} {address width : Nat} (h : address + width ≤ m.size) :
    m.Spells address width (m.number address width) := by
  obtain ⟨hLength, hBytes⟩ := bytesFrom_of_fits h
  have hBound := littleEndian_lt (bytesFrom m.data address width)
  have hDigits := toLittleEndian_littleEndian (bytesFrom m.data address width)
  rw [hLength] at hBound hDigits
  refine ⟨hBound, fun k hk => (hBytes k hk).symm.trans ?_⟩
  rw [← hDigits]
  exact getElem?_toLittleEndian hk _

theorem load_of_fits {m : Memory} {address width : Nat} (h : address + width ≤ m.size) :
    m.load address width = .ok (m.number address width) := by
  unfold load readBytes fits
  rw [if_pos (decide_eq_true h)]
  rfl

theorem load_of_not_fits {m : Memory} {address width : Nat} (h : ¬ address + width ≤ m.size) :
    m.load address width = .error (m.outOfBounds address width) := by
  unfold load readBytes fits
  rw [decide_eq_false h]
  rfl

/-! ## Storing -/

/-- The memory after the low `width` bytes of a number were written to an address. -/
def stored (m : Memory) (address width n : Nat) : Memory :=
  { m with data := setBytes m.data address (toLittleEndian width n) }

variable {m : Memory} {address width n : Nat}

theorem store_of_fits (h : address + width ≤ m.size) :
    store address width n m = .ok () (m.stored address width n) :=
  writeBytes_of_fits (by rwa [length_toLittleEndian])

theorem store_of_not_fits (h : ¬ address + width ≤ m.size) :
    store address width n m = .error (m.outOfBounds address width) m := by
  have hBytes : ¬ address + (toLittleEndian width n).length ≤ m.size := by
    rwa [length_toLittleEndian]
  have hRun := writeBytes_of_not_fits hBytes
  rwa [length_toLittleEndian] at hRun

@[simp] theorem size_stored (m : Memory) (address width n : Nat) :
    (m.stored address width n).size = m.size :=
  size_setBytes ..

theorem byte?_stored (h : address + width ≤ m.size) (place : Nat) :
    (m.stored address width n).byte? place =
      (placed? address (toLittleEndian width n) place).or (m.byte? place) :=
  getElem?_setBytes (by rwa [length_toLittleEndian]) place

/-- The number that was stored, as far as it has room, stands in the bytes. -/
theorem spells_stored (h : address + width ≤ m.size) :
    (m.stored address width n).Spells address width (n % Nat.pow 256 width) := by
  refine ⟨Nat.mod_lt _ (Nat.pow_pos (by decide)), fun k hk => ?_⟩
  have hDigit := getElem?_toLittleEndian hk (n % Nat.pow 256 width)
  rw [toLittleEndian_mod] at hDigit
  rw [byte?_stored h, placed?, if_pos (Nat.le_add_right ..), Nat.add_sub_cancel_left, hDigit]
  rfl

theorem byte?_stored_of_outside (h : address + width ≤ m.size) {place : Nat}
    (hOutside : place < address ∨ address + width ≤ place) :
    (m.stored address width n).byte? place = m.byte? place := by
  have hNone : placed? address (toLittleEndian width n) place = none := by
    rcases hOutside with hBefore | hBehind
    · exact placed?_of_lt hBefore _
    · rw [placed?, if_pos (by omega)]
      exact List.getElem?_eq_none (by rw [length_toLittleEndian]; omega)
  rw [byte?_stored h, hNone]
  rfl

theorem byte?_stored_congr {m' : Memory} (h : address + width ≤ m.size)
    (h' : address + width ≤ m'.size) {place : Nat} (hByte : m'.byte? place = m.byte? place) :
    (m'.stored address width n).byte? place = (m.stored address width n).byte? place := by
  rw [byte?_stored h, byte?_stored h', hByte]

/-! ## Different bytes -/

/-- A number is not changed by a store to other bytes. -/
theorem number_stored_of_disjoint (h : address + width ≤ m.size) {address' width' : Nat}
    (h' : address' + width' ≤ m.size)
    (hApart : address' + width' ≤ address ∨ address + width ≤ address') :
    (m.stored address width n).number address' width' = m.number address' width' := by
  refine (spells_number (by rwa [size_stored])).unique ((spells_number h').of_agree fun k hk => ?_)
  exact byte?_stored_of_outside h (by omega)

/-- Memories are the same if they have the same bytes and the same counts. -/
theorem eq_of_byte? {m m' : Memory} (hBytes : ∀ place, m.byte? place = m'.byte? place)
    (hPages : m.pages = m'.pages) (hMax : m.max = m'.max) (hCeiling : m.ceiling = m'.ceiling) :
    m = m' := by
  obtain ⟨⟨data⟩, pages, max, ceiling⟩ := m
  obtain ⟨⟨data'⟩, pages', max', ceiling'⟩ := m'
  have hData : data = data' := Array.ext_getElem? hBytes
  cases hPages
  cases hMax
  cases hCeiling
  rw [hData]

/-- Stores to different bytes can change places. -/
theorem stored_comm (h : address + width ≤ m.size) {address' width' : Nat}
    (h' : address' + width' ≤ m.size)
    (hApart : address' + width' ≤ address ∨ address + width ≤ address') (n' : Nat) :
    (m.stored address width n).stored address' width' n' =
      (m.stored address' width' n').stored address width n := by
  have hAfter : address + width ≤ (m.stored address' width' n').size := by rwa [size_stored]
  have hAfter' : address' + width' ≤ (m.stored address width n).size := by rwa [size_stored]
  refine eq_of_byte? (fun place => ?_) rfl rfl rfl
  by_cases hPlace : place < address ∨ address + width ≤ place
  · have hKept := byte?_stored_of_outside (n := n) h hPlace
    exact (byte?_stored_congr h' hAfter' hKept).trans (byte?_stored_of_outside hAfter hPlace).symm
  · have hPlace' : place < address' ∨ address' + width' ≤ place := by omega
    have hKept := byte?_stored_of_outside (n := n') h' hPlace'
    exact (byte?_stored_of_outside hAfter' hPlace').trans (byte?_stored_congr h hAfter hKept).symm

end Memory

end WasmMachine
