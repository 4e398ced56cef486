namespace Abacus

/-!
# Faults

Why a run of bytecode can fail, and at which instruction.
-/

namespace Fault

/-- Why a run fails. -/
inductive Cause where
  | stackOverflow
  | stackUnderflow
  | unknownOpcode (byte : UInt8)
  | invalidConstant (index : UInt8)
  | endOfChunk
  deriving DecidableEq

/-- The details of a cause; the stack has none. -/
def Cause.message : Cause → String
  | stackOverflow => ""
  | stackUnderflow => ""
  | unknownOpcode byte => "byte " ++ toString byte.toNat
  | invalidConstant index => "index " ++ toString index.toNat
  | endOfChunk => "ran past the last instruction"

end Fault

/-- A failed run. -/
structure Fault where
  cause : Fault.Cause
  /-- The address of the instruction that failed. -/
  offset : Nat
  deriving DecidableEq

end Abacus
