/-!
# Settings

What can be set for a run: the entry function, whether a summary is shown, and bounds on calls,
steps, memory and tables. Each setting has a default, which holds where nothing else is given.
-/

namespace WasmMachine

/-- The settings of a run. -/
structure Config where
  /-- The name under which the function to run is exported. -/
  entry : String := "main"
  /-- Whether the module summary and the final stack are shown. -/
  debug : Bool := false
  /-- Calls nested deeper than this trap. -/
  maxCallDepth : UInt64 := 16384
  /-- The number of instructions after which execution traps, if it is bounded. -/
  maxSteps : Option UInt64 := none
  /-- A bound on the pages of every memory, beside the declared maximum. -/
  maxPages : UInt32 := 65536
  /-- A bound on the slots of every table, beside the declared maximum. -/
  maxTableSize : UInt32 := 1048576
  deriving DecidableEq, Repr

end WasmMachine
