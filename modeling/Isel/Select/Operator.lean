import Isel.Machine.Opcode
import Isel.Syntax.Token

/-!
# Operators and opcodes

Every binary operator has an opcode.  Comparisons and shifts have one for each
direction; where directions are not told apart, both take the opcode of the first.
-/

namespace Isel.Select

open Isel.Machine Isel.Syntax

def opcodeOf? : Token → Option Opcode
  | .plus => some .add
  | .minus => some .sub
  | .star => some .mul
  | .slash => some .div
  | .rem => some .mod
  | .andInt | .andBool => some .and
  | .orInt | .orBool => some .or
  | .xor => some .xor
  | .shl => some .shift
  | .shr => some .shiftR
  | .lt => some .cmp
  | .gt => some .cmpGt
  | _ => none

def isDirectional : Token → Bool
  | .lt | .gt | .shl | .shr => true
  | _ => false

/-- The opcode that both directions share. -/
def sharedOpcode : Opcode → Opcode
  | .shiftR => .shift
  | .cmpGt => .cmp
  | op => op

theorem opcodeOf?_isSome (op : Token) : (opcodeOf? op).isSome = op.isBinary := by
  cases op <;> rfl

end Isel.Select
