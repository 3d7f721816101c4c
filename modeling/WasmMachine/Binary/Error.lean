import WasmMachine.Leb128

/-!
# Load errors

Why a byte string is no module, with the byte offset at which that was noticed. Errors fall
into the classes that `LoadFault.code` names.
-/

namespace WasmMachine

/-- What is wrong with a module. -/
inductive LoadFault where
  | invalidMagic (found : Nat)
  | invalidVersion (found : Nat)
  | invalidSectionId (id : UInt8)
  | sectionOutOfOrder (id previous : UInt8)
  | sectionSizeMismatch (id : UInt8) (expected actual : Nat)
  | invalidFunctionType (form : UInt8)
  | typeIndexOutOfBounds (index : UInt32)
  | invalidValueType (byte : UInt8)
  | invalidElementType (byte : UInt8)
  | invalidExternalKind (byte : UInt8)
  | invalidLimits (flag : UInt8)
  | invalidGlobalSignature (flag : UInt8)
  | invalidInitExpr (opcode : UInt8)
  | functionCountMismatch (functions bodies : Nat)
  | tooManyLocals (count : Nat)
  | unexpectedEof
  | varint (e : VarintError)
  | invalidUtf8
  /-- A file could not be read, or is no configuration. -/
  | invalidInputPath (path reason : String)
  deriving DecidableEq, Repr

namespace LoadFault

/-- The wording of a load fault. -/
def message : LoadFault → String
  | .invalidMagic found => "Invalid binary magic code found: " ++ hexText 8 found
  | .invalidVersion found => "Invalid WebAssembly version code found: " ++ toString found
  | .invalidSectionId id => "Invalid section id found: " ++ toString id.toNat
  | .sectionOutOfOrder id previous =>
    "Section " ++ toString id.toNat ++ " out of order, follows section "
      ++ toString previous.toNat
  | .sectionSizeMismatch id expected actual =>
    "Section " ++ toString id.toNat ++ " declared " ++ toString expected ++ " bytes but "
      ++ toString actual ++ " were consumed"
  | .invalidFunctionType form => "Invalid function type form found: " ++ hexText 2 form.toNat
  | .typeIndexOutOfBounds index =>
    "Function type index out of bounds: " ++ toString index.toNat
  | .invalidValueType byte => "Invalid value type found: " ++ hexText 2 byte.toNat
  | .invalidElementType byte =>
    "Invalid element type found, only `anyfunc` allowed: " ++ hexText 2 byte.toNat
  | .invalidExternalKind byte => "Invalid external kind found: " ++ hexText 2 byte.toNat
  | .invalidLimits flag => "Invalid limits flag found: " ++ hexText 2 flag.toNat
  | .invalidGlobalSignature flag =>
    "Invalid global signature, mutability flag " ++ hexText 2 flag.toNat
  | .invalidInitExpr opcode =>
    "Invalid opcode in initializer expression: " ++ hexText 2 opcode.toNat
  | .functionCountMismatch functions bodies =>
    "Function and code section counts differ: " ++ toString functions ++ " != "
      ++ toString bodies
  | .tooManyLocals count => "Too many locals declared: " ++ toString count
  | .unexpectedEof => "Bad input stream: unexpected end of input"
  | .varint e => "Bad input stream: " ++ e.message
  | .invalidUtf8 => "Bad input stream: invalid utf-8 sequence"
  | .invalidInputPath path reason => "Invalid input path: " ++ path ++ ": " ++ reason

/-- The code of the class that a load fault belongs to. -/
def code : LoadFault → String
  | .invalidMagic _ => "INVALID_MAGIC"
  | .invalidVersion _ => "INVALID_VER"
  | .invalidSectionId _ => "INVALID_SECTION_ID"
  | .sectionOutOfOrder .. => "INVALID_SECTION_ID"
  | .invalidFunctionType _ => "INVALID_FUNC_TYPE"
  | .typeIndexOutOfBounds _ => "INVALID_FUNC_TYPE"
  | .invalidValueType _ => "INVALID_FUNC_TYPE"
  | .invalidElementType _ => "INVALID_ELEM_TYPE"
  | .invalidGlobalSignature _ => "INVALID_GLOBAL_SIG"
  | .invalidInitExpr _ => "INVALID_GLOBAL_SIG"
  | .invalidInputPath .. => "INVALID_INPUT_PATH"
  | .sectionSizeMismatch .. => "BAD_FSTREAM"
  | .invalidExternalKind _ => "BAD_FSTREAM"
  | .invalidLimits _ => "BAD_FSTREAM"
  | .functionCountMismatch .. => "BAD_FSTREAM"
  | .tooManyLocals _ => "BAD_FSTREAM"
  | .unexpectedEof => "BAD_FSTREAM"
  | .varint _ => "BAD_FSTREAM"
  | .invalidUtf8 => "BAD_FSTREAM"

end LoadFault

/-- A load fault and the byte offset at which it was noticed. -/
structure LoadError where
  fault : LoadFault
  offset : Nat
  deriving DecidableEq, Repr

end WasmMachine
