/-!
# Categories of faults

Every failure has a message, and belongs to any number of categories by which a
caller can tell failures apart without reading the message.
-/

namespace Isel

inductive Category where
  /-- A construct that nothing lowers. -/
  | unsupported
  /-- A promise of an earlier pass is broken. -/
  | internal
  | duplicateFunction
  | unresolvedTarget
  | slotRange
  | immRange
  | operandMismatch
  | unknownOpcode
  | operandRange
  /-- A name that cannot be resolved. -/
  | resolution
  deriving DecidableEq, Repr

end Isel
