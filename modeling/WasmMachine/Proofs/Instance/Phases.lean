import Mathlib.Data.List.Forall2
import WasmMachine.Instance

/-!
# Successful instantiation

What a module and its instance have to do with each other. Every phase of an instantiation that
succeeded has succeeded by itself, so an instance is described phase by phase, without the records
that are kept on the way.

* `instantiate_eq`: instantiation without the records.
* `Instantiated`: the phases of an instance.
* `phases_of_instantiate`, `exists_instance_of_phases`: an instance is built exactly if all of them
  succeed.
-/

namespace WasmMachine

open Instantiation

/-! ## Loops that succeeded -/

section Loops

variable {ε σ α β : Type}

theorem exists_of_bind_eq_ok {x : Except ε α} {f : α → Except ε β} {b : β}
    (h : (x >>= f) = .ok b) : ∃ a, x = .ok a ∧ f a = .ok b := by
  cases x with
  | error e => cases h
  | ok a => exact ⟨a, rfl, h⟩

theorem bind_of_eq_ok {x : Except ε α} {f : α → Except ε β} {a : α} (h : x = .ok a) :
    (x >>= f) = f a := by
  rw [h]
  rfl

theorem exists_of_run_bind_eq_ok {x : EStateM ε σ α} {f : α → EStateM ε σ β} {s s' : σ} {b : β}
    (h : (x >>= f) s = .ok b s') : ∃ a t, x s = .ok a t ∧ f a t = .ok b s' := by
  change EStateM.bind x f s = _ at h
  unfold EStateM.bind at h
  cases hx : x s with
  | error e t =>
    rw [hx] at h
    cases h
  | ok a t =>
    rw [hx] at h
    exact ⟨a, t, rfl, h⟩

theorem eq_ok_of_run_ofExcept {x : Except ε α} {s s' : σ} {a : α}
    (h : (ofExcept x : EStateM ε σ α) s = .ok a s') : x = .ok a := by
  cases x with
  | error e => cases h
  | ok b =>
    cases h
    rfl

/-- A loop over an array that succeeded has succeeded on each element. -/
theorem forall₂_of_mapM_eq_ok {f : α → Except ε β} {xs : Array α} {ys : Array β}
    (h : xs.mapM f = .ok ys) :
    List.Forall₂ (fun x y => f x = .ok y) xs.toList ys.toList := by
  have hList : ∀ (l : List α) (r : List β), l.mapM f = .ok r →
      List.Forall₂ (fun x y => f x = .ok y) l r := by
    intro l
    induction l with
    | nil =>
      intro r hr
      cases hr
      exact .nil
    | cons x rest ih =>
      intro r hr
      rw [List.mapM_cons] at hr
      obtain ⟨y, hy, hRest⟩ := exists_of_bind_eq_ok hr
      obtain ⟨others, hOthers, hPure⟩ := exists_of_bind_eq_ok hRest
      cases hPure
      exact .cons hy (ih others hOthers)
  apply hList
  rw [← Array.toList_mapM, h]
  rfl

theorem size_of_mapM_eq_ok {f : α → Except ε β} {xs : Array α} {ys : Array β}
    (h : xs.mapM f = .ok ys) : ys.size = xs.size := by
  have hLength := (forall₂_of_mapM_eq_ok h).length_eq
  rw [Array.length_toList, Array.length_toList] at hLength
  exact hLength.symm

/-- The partner of an element of the first of two paired arrays. -/
theorem exists_right_of_forall₂ {R : α → β → Prop} {xs : Array α} {ys : Array β}
    (h : List.Forall₂ R xs.toList ys.toList) {k : Nat} {x : α} (hx : xs[k]? = some x) :
    ∃ y, ys[k]? = some y ∧ R x y := by
  rw [← Array.getElem?_toList] at hx
  obtain ⟨hLeft, rfl⟩ := List.getElem?_eq_some_iff.1 hx
  have hRight : k < ys.toList.length := by
    rw [← h.length_eq]
    exact hLeft
  refine ⟨ys.toList[k], ?_, h.get hLeft hRight⟩
  rw [← Array.getElem?_toList]
  exact List.getElem?_eq_getElem hRight

theorem exists_left_of_forall₂ {R : α → β → Prop} {xs : Array α} {ys : Array β}
    (h : List.Forall₂ R xs.toList ys.toList) {k : Nat} {y : β} (hy : ys[k]? = some y) :
    ∃ x, xs[k]? = some x ∧ R x y := by
  have hFlip : List.Forall₂ (flip R) ys.toList xs.toList := h.flip
  exact exists_right_of_forall₂ hFlip hy

/-- What the steps of a loop keep, the loop keeps. -/
theorem foldlM_invariant {f : β → α → Except ε β} {xs : Array α} {init final : β} {P : β → Prop}
    (h : xs.foldlM f init = .ok final) (hInit : P init)
    (hStep : ∀ b x b', P b → f b x = .ok b' → P b') : P final := by
  rw [← Array.foldlM_toList] at h
  generalize xs.toList = l at h
  induction l generalizing init with
  | nil =>
    cases h
    exact hInit
  | cons x rest ih =>
    rw [List.foldlM_cons] at h
    obtain ⟨next, hNext, hRest⟩ := exists_of_bind_eq_ok h
    exact ih (hStep init x next hInit hNext) hRest

/-- What the steps of a loop establish about the elements so far, the loop establishes about all of
them. -/
theorem foldlM_invariant_prefix {f : β → α → Except ε β} {xs : Array α} {init final : β}
    {P : List α → β → Prop} (h : xs.foldlM f init = .ok final) (hInit : P [] init)
    (hStep : ∀ done b x b', P done b → f b x = .ok b' → P (done ++ [x]) b') :
    P xs.toList final := by
  have hList : ∀ (rest done : List α) (b : β), P done b → rest.foldlM f b = .ok final →
      P (done ++ rest) final := by
    intro rest
    induction rest with
    | nil =>
      intro done b hDone hRun
      cases hRun
      rw [List.append_nil]
      exact hDone
    | cons x rest ih =>
      intro done b hDone hRun
      rw [List.foldlM_cons] at hRun
      obtain ⟨b', hFirst, hRest⟩ := exists_of_bind_eq_ok hRun
      rw [List.append_cons]
      exact ih (done ++ [x]) b' (hStep done b x b' hDone hFirst) hRest
  rw [← Array.foldlM_toList] at h
  exact hList xs.toList [] init hInit h

/-- A loop that builds an array succeeds exactly if it does on each element. -/
theorem mapM_ok_iff {f : α → Except ε β} {xs : Array α} :
    (∃ ys, xs.mapM f = .ok ys) ↔ ∀ x ∈ xs, ∃ y, f x = .ok y := by
  constructor
  · rintro ⟨ys, h⟩ x hx
    obtain ⟨k, hk⟩ := Array.mem_iff_getElem?.1 hx
    obtain ⟨y, -, hy⟩ := exists_right_of_forall₂ (forall₂_of_mapM_eq_ok h) hk
    exact ⟨y, hy⟩
  · intro h
    have hList : ∀ l : List α, (∀ x ∈ l, ∃ y, f x = .ok y) → ∃ r, l.mapM f = .ok r := by
      intro l
      induction l with
      | nil => exact fun _ => ⟨[], rfl⟩
      | cons x rest ih =>
        intro hAll
        obtain ⟨y, hy⟩ := hAll x List.mem_cons_self
        obtain ⟨others, hOthers⟩ := ih fun x' hx' => hAll x' (List.mem_cons_of_mem x hx')
        refine ⟨y :: others, ?_⟩
        rw [List.mapM_cons, hy, hOthers]
        rfl
    obtain ⟨r, hr⟩ := hList xs.toList fun x hx => h x (Array.mem_toList_iff.1 hx)
    refine ⟨r.toArray, ?_⟩
    rw [Array.mapM_eq_mapM_toList, hr]
    rfl

/-- A loop whose steps keep an invariant succeeds exactly if each element is one that a step
succeeds on. -/
theorem foldlM_ok_iff {f : β → α → Except ε β} {xs : Array α} {init : β} {P : β → Prop}
    {Q : α → Prop} (hInit : P init)
    (hStep : ∀ b x, P b → ((∃ b', f b x = .ok b') ↔ Q x))
    (hKeep : ∀ b x b', P b → f b x = .ok b' → P b') :
    (∃ final, xs.foldlM f init = .ok final) ↔ ∀ x ∈ xs, Q x := by
  have hList : ∀ (l : List α) (b : β), P b →
      ((∃ final, l.foldlM f b = .ok final) ↔ ∀ x ∈ l, Q x) := by
    intro l
    induction l with
    | nil => exact fun b _ => ⟨fun _ x hx => (List.not_mem_nil hx).elim, fun _ => ⟨b, rfl⟩⟩
    | cons x rest ih =>
      intro b hb
      rw [List.foldlM_cons, List.forall_mem_cons, ← hStep b x hb]
      constructor
      · rintro ⟨final, hRun⟩
        obtain ⟨b', hFirst, hRest⟩ := exists_of_bind_eq_ok hRun
        exact ⟨⟨b', hFirst⟩, (ih b' (hKeep b x b' hb hFirst)).1 ⟨final, hRest⟩⟩
      · rintro ⟨⟨b', hFirst⟩, hRest⟩
        rw [hFirst]
        exact (ih b' (hKeep b x b' hb hFirst)).2 hRest
  rw [← Array.foldlM_toList, hList xs.toList init hInit]
  simp only [Array.mem_toList_iff]

/-- Two paired arrays stay paired where one of the second is replaced. -/
theorem forall₂_setIfInBounds {R : α → β → Prop} {xs : Array α} {ys : Array β}
    (h : List.Forall₂ R xs.toList ys.toList) {k : Nat} {x : α} {y : β} (hx : xs[k]? = some x)
    (hy : R x y) : List.Forall₂ R xs.toList (ys.setIfInBounds k y).toList := by
  rw [Array.toList_setIfInBounds]
  rw [← Array.getElem?_toList] at hx
  generalize xs.toList = l at h hx
  generalize ys.toList = r at h
  induction h generalizing k with
  | nil => exact .nil
  | cons hHead hTail ih =>
    cases k with
    | zero =>
      cases hx
      exact .cons hy hTail
    | succ k => exact .cons hHead (ih hx)

end Loops

/-! ## Functions of a program -/

namespace Program

variable {p : Program} {index : UInt32}

theorem callee_eq_imported_iff {f : ImportedFunction} :
    p.callee index = .ok (.imported f) ↔ p.imported[index.toNat]? = some f := by
  unfold callee
  cases p.imported[index.toNat]? with
  | some g => simp
  | none =>
    simp only [reduceCtorEq, iff_false]
    split <;> simp

theorem callee_eq_defined_iff {place : Nat} {f : Function} :
    p.callee index = .ok (.defined place f) ↔
      index.toNat = p.imported.size + place ∧ p.functions[place]? = some f := by
  unfold callee
  cases hImported : p.imported[index.toNat]? with
  | some g =>
    obtain ⟨hBound, -⟩ := Array.getElem?_eq_some_iff.1 hImported
    simp only [Except.ok.injEq, reduceCtorEq, false_iff, not_and]
    omega
  | none =>
    have hBound : p.imported.size ≤ index.toNat := Array.getElem?_eq_none_iff.1 hImported
    simp only
    constructor
    · intro h
      split at h
      · rename_i g hFunction
        cases h
        exact ⟨by omega, hFunction⟩
      · cases h
    · rintro ⟨hIndex, hFunction⟩
      obtain rfl : place = index.toNat - p.imported.size := by omega
      rw [hFunction]

theorem functions_of_callee {place : Nat} {f : Function}
    (h : p.callee index = .ok (.defined place f)) : p.functions[place]? = some f :=
  (callee_eq_defined_iff.1 h).2

theorem callee_of_le (h : p.functionCount ≤ index.toNat) :
    p.callee index = .error (.functionIndexOutOfBounds index) := by
  unfold functionCount at h
  unfold callee
  rw [Array.getElem?_eq_none (by omega)]
  simp only
  rw [Array.getElem?_eq_none (by omega)]

end Program

/-! ## The records left out -/

/-- The result of a phase is what plain code gives, whatever has been recorded before. -/
def Records {α : Type} (phase : InstantiationM α) (plain : Except Trap α) : Prop :=
  ∀ journal,
    match phase journal with
    | .ok a _ => plain = .ok a
    | .error e _ => plain = .error e

theorem records_pure {α : Type} (a : α) : Records (pure a) (.ok a) := fun _ => rfl

theorem records_ofExcept {α : Type} (x : Except Trap α) : Records (ofExcept x) x := by
  intro journal
  cases x <;> rfl

theorem Records.bind {α β : Type} {phase : InstantiationM α} {plain : Except Trap α}
    {next : α → InstantiationM β} {plainNext : α → Except Trap β} (h : Records phase plain)
    (hNext : ∀ a, Records (next a) (plainNext a)) :
    Records (phase >>= next) (plain >>= plainNext) := by
  intro journal
  have hHere := h journal
  change match EStateM.bind phase next journal with | .ok a _ => _ | .error e _ => _
  unfold EStateM.bind
  cases hPhase : phase journal with
  | ok a later =>
    rw [hPhase] at hHere
    rw [hHere]
    exact hNext a later
  | error e later =>
    rw [hPhase] at hHere
    rw [hHere]
    rfl

theorem Records.after_note {α : Type} {phase : InstantiationM α} {plain : Except Trap α}
    (h : Records phase plain) (e : Event) : Records (note e >>= fun _ => phase) plain :=
  fun journal => h (journal.note e)

theorem records_findEntry (m : Module) (config : Config) :
    Records (findEntry m config) (.ok (m.exportedFunction? config.entry)) := by
  unfold findEntry
  cases m.exportedFunction? config.entry with
  | some index => exact (records_pure (some index)).after_note _
  | none => exact (records_pure none).after_note _

theorem records_createMemories (m : Module) (config : Config) :
    Records (createMemories m config)
      ((m.memories.mapM fun l => Memory.create l.min l.max config.maxPages) >>=
        m.data.foldlM writeData) := by
  refine (records_ofExcept _).bind fun empty => ?_
  have hFill := (records_ofExcept (m.data.foldlM writeData empty)).bind
    fun memories => (records_pure memories).after_note (.memoriesReady memories.size m.data.size)
  have hPlain : (m.data.foldlM writeData empty >>= Except.ok) = m.data.foldlM writeData empty :=
    bind_pure _
  rw [hPlain] at hFill
  exact hFill

theorem instantiate_of_records {m : Module} {config : Config} {plain : Except Trap Instance}
    (h : Records (Instantiation.run m config) plain) : instantiate m config = plain := by
  have hHere := h {}
  unfold instantiate instantiateRecorded
  split at hHere
  · rename_i i journal hOk
    rw [hOk, hHere]
  · rename_i e journal hError
    rw [hError, hHere]

/-- Instantiation without the records that it keeps. -/
theorem instantiate_eq (m : Module) (config : Config) :
    instantiate m config = (do
      let imported ← importFunctions m
      let globals ← m.globals.mapM createGlobal
      let functions ← createFunctions m imported.size
      let memories ← (m.memories.mapM fun l => Memory.create l.min l.max config.maxPages) >>=
        m.data.foldlM writeData
      let tables ← createTables m config (imported.size + functions.size)
      checkStart m (imported.size + functions.size)
      let entry := m.exportedFunction? config.entry
      return {
        program := { types := m.types, imported, functions, start := m.start, entry }
        store := { globals, memories, tables, callCounts := functions.map fun _ => 0 } }) := by
  refine instantiate_of_records ?_
  refine (records_ofExcept _).bind fun imported => ?_
  refine (records_ofExcept _).bind fun globals => .after_note ?_ _
  refine (records_ofExcept _).bind fun functions => .after_note ?_ _
  refine (records_createMemories m config).bind fun memories => ?_
  refine (records_ofExcept _).bind fun tables => ?_
  refine (records_ofExcept _).bind fun _ => ?_
  exact (records_findEntry m config).bind fun entry => records_pure _

/-! ## The phases -/

/-- The phases that an instance of a module went through. -/
structure Instantiated (m : Module) (config : Config) (i : Instance) : Prop where
  types : i.program.types = m.types
  start : i.program.start = m.start
  imported : importFunctions m = .ok i.program.imported
  globals : m.globals.mapM createGlobal = .ok i.store.globals
  functions : createFunctions m i.program.imported.size = .ok i.program.functions
  memories : ∃ empty,
    (m.memories.mapM fun l => Memory.create l.min l.max config.maxPages) = .ok empty ∧
      m.data.foldlM writeData empty = .ok i.store.memories
  tables : createTables m config i.program.functionCount = .ok i.store.tables
  callCounts : i.store.callCounts = i.program.functions.map fun _ => 0

/-- An instance that was built went through all phases, and its start function exists. -/
theorem phases_of_instantiate {m : Module} {config : Config} {i : Instance}
    (h : instantiate m config = .ok i) :
    Instantiated m config i ∧ checkStart m i.program.functionCount = .ok () ∧
      i.program.entry = m.exportedFunction? config.entry := by
  rw [instantiate_eq] at h
  obtain ⟨imported, hImported, h⟩ := exists_of_bind_eq_ok h
  obtain ⟨globals, hGlobals, h⟩ := exists_of_bind_eq_ok h
  obtain ⟨functions, hFunctions, h⟩ := exists_of_bind_eq_ok h
  obtain ⟨memories, hMemories, h⟩ := exists_of_bind_eq_ok h
  obtain ⟨tables, hTables, h⟩ := exists_of_bind_eq_ok h
  obtain ⟨_, hStart, h⟩ := exists_of_bind_eq_ok h
  cases h
  exact ⟨⟨rfl, rfl, hImported, hGlobals, hFunctions, exists_of_bind_eq_ok hMemories, hTables, rfl⟩,
    hStart, rfl⟩

theorem instantiated_of_eq_ok {m : Module} {config : Config} {i : Instance}
    (h : instantiate m config = .ok i) : Instantiated m config i :=
  (phases_of_instantiate h).1

/-- Where all phases succeed, an instance is built. -/
theorem exists_instance_of_phases {m : Module} {config : Config}
    {imported : Array ImportedFunction} {globals : Array Global} {functions : Array Function}
    {empty memories : Array Memory} {tables : Array Table}
    (hImported : importFunctions m = .ok imported)
    (hGlobals : m.globals.mapM createGlobal = .ok globals)
    (hFunctions : createFunctions m imported.size = .ok functions)
    (hEmpty : (m.memories.mapM fun l => Memory.create l.min l.max config.maxPages) = .ok empty)
    (hData : m.data.foldlM writeData empty = .ok memories)
    (hTables : createTables m config (imported.size + functions.size) = .ok tables)
    (hStart : checkStart m (imported.size + functions.size) = .ok ()) :
    ∃ i, instantiate m config = .ok i := by
  rw [instantiate_eq, bind_of_eq_ok hImported, bind_of_eq_ok hGlobals, bind_of_eq_ok hFunctions,
    bind_of_eq_ok hEmpty, bind_of_eq_ok hData, bind_of_eq_ok hTables, bind_of_eq_ok hStart]
  exact ⟨_, rfl⟩

end WasmMachine
