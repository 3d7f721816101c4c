import WasmMachine.Binary.Loader
import WasmMachine.Session

/-!
# Runs from bytes to results

A run loads a module, instantiates it and executes its entry function. It fails with a load error
or a fault; both have a message, a code and, where it is known, a byte offset, which together make
the report.
-/

namespace WasmMachine

/-- Why a run failed. -/
inductive Failure where
  | load (e : LoadError)
  | fault (f : Fault)
  deriving DecidableEq, Repr

namespace Failure

/-- The wording of a failure. -/
def message : Failure → String
  | .load e => e.fault.message
  | .fault f => f.trap.message

/-- The code of the class that a failure belongs to. -/
def code : Failure → String
  | .load e => e.fault.code
  | .fault f => f.trap.code

/-- The byte offset at which a failure was noticed, where it is known. -/
def offset : Failure → Option Nat
  | .load e => some e.offset
  | .fault f => f.offset

/-- The report of a failure. -/
def report (f : Failure) : String :=
  let headline := "[wvm] " ++ f.message ++ " (" ++ f.code ++ ")"
  match f.offset with
  | some offset => headline ++ "\nByte index before: " ++ toString offset ++ "."
  | none => headline

end Failure

/-- The number of steps that a run is given. It is more than any run takes. -/
def ampleFuel : Nat := Nat.pow 2 62

/-- Opens a session on a module. -/
def openSession (m : Module) (config : Config) (journal : Journal) :
    Except Failure Session × Journal :=
  match instantiateRecorded m config journal with
  | (.error trap, journal) => (.error (.fault ⟨trap, none⟩), journal)
  | (.ok i, journal) => (.ok (.ofInstance i config journal), journal)

/-- How a run ends. -/
inductive Verdict where
  | values (vs : Array Value)
  | failed (f : Failure)
  /-- The fuel was used up. -/
  | outOfFuel
  deriving DecidableEq, Repr

/-- The verdict of an invocation. -/
def Verdict.ofAnswer : Answer → Verdict
  | .values vs => .values vs
  | .failed f => .failed (.fault f)
  | .outOfFuel => .outOfFuel

/-- Instantiates a module and executes its entry function. -/
def runModule (m : Module) (config : Config) (journal : Journal) : Verdict × Journal :=
  match openSession m config journal with
  | (.error e, journal) => (.failed e, journal)
  | (.ok session, _) =>
    let (answer, session) := session.execute ampleFuel none
    (.ofAnswer answer, session.journal)

/-- Loads a module and executes its entry function. -/
def runBytes (name : String) (bytes : Bytes) (config : Config) (journal : Journal) :
    Verdict × Journal :=
  match Module.loadRecorded name bytes journal with
  | (.error e, journal) => (.failed (.load e), journal)
  | (.ok m, journal) => runModule m config journal

end WasmMachine
