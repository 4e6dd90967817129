import Isel.Settings.Switches

/-!
# Warnings

A warning is a switchable remark of the instruction selector.  The pedantic one
stands apart: the group of all warnings leaves it out.
-/

namespace Isel.Settings

inductive Warning where
  | unreachableCode
  | ambiguousOp
  | immRange
  | pedantic
  deriving DecidableEq, Repr

namespace Warning

def all : List Warning := [.unreachableCode, .ambiguousOp, .immRange, .pedantic]

def number : Warning → Int
  | .unreachableCode => 0
  | .ambiguousOp => 1
  | .immRange => 2
  | .pedantic => 3

def name : Warning → String
  | .unreachableCode => "unreachable-code"
  | .ambiguousOp => "ambiguous-op"
  | .immRange => "imm-range"
  | .pedantic => "pedantic"

/-- What a new configuration says about the warnings, in the order of their numbers. -/
def infos : List Info :=
  [⟨unreachableCode.name, true, "Warn about statements following a return in the same block."⟩,
    ⟨ambiguousOp.name, true, "Warn when '<'/'>' or '<<'/'>>' collapse to the same opcode."⟩,
    ⟨immRange.name, true, "Warn when a literal does not fit a 16-bit immediate field."⟩,
    ⟨pedantic.name, false, "Warn about expression statements whose value is discarded."⟩]

end Warning

end Isel.Settings
