import Isel.Settings.Switches

/-!
# Features

A feature is a switchable choice of the instruction selector.
-/

namespace Isel.Settings

inductive Feature where
  /-- Every function is reserved before any body is lowered. -/
  | forwardCalls
  /-- `>` and `>>` have opcodes of their own. -/
  | directionalOps
  /-- Equal string literals share a slot. -/
  | dedupLiterals
  /-- Values cross a call on the machine stack. -/
  | stackConvention
  deriving DecidableEq, Repr

namespace Feature

def all : List Feature := [.forwardCalls, .directionalOps, .dedupLiterals, .stackConvention]

def number : Feature → Int
  | .forwardCalls => 0
  | .directionalOps => 1
  | .dedupLiterals => 2
  | .stackConvention => 3

/-- What a new configuration says about the features, in the order of their numbers. -/
def infos : List Info :=
  [⟨"forward-calls", false,
      "Reserve every function before lowering bodies so calls may precede the callee."⟩,
    ⟨"directional-ops", true,
      "Lower '>' to CMP_GT and '>>' to SHIFT_R instead of sharing CMP/SHIFT."⟩,
    ⟨"dedup-literals", true, "Share one literal slot between identical string literals."⟩,
    ⟨"stack-convention", false,
      "Pass arguments and return values through PUSH/POP instead of rejecting them."⟩]

end Feature

end Isel.Settings
