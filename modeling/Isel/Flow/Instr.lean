import Isel.Machine.Opcode

/-!
# Virtual instructions

An instruction is an opcode with symbolic operands: value slots, constants,
literal slots and blocks.  Registers and addresses come later.  Nothing keeps an
instruction from having operands that its opcode does not take.

Slots and literal slots are counted without a bound.  Where they have 32 bits, this
is about runs that hand out fewer than `2 ^ 32` of them.
-/

namespace Isel.Flow

open Isel.Machine

/-- A symbolic storage location. -/
abbrev Slot := Nat

/-- A block by the graph that owns it and its place in that graph. -/
structure BlockRef where
  graph : Nat
  index : Nat
  deriving DecidableEq, Repr

inductive Operand where
  | slot (s : Slot)
  /-- A constant. -/
  | imm (v : Int)
  /-- An entry of the literal table. -/
  | literal (index : Nat)
  /-- A block, or the want of one. -/
  | block (target : Option BlockRef)
  deriving DecidableEq, Repr

structure Instr where
  op : Opcode
  args : List Operand := []
  deriving DecidableEq, Repr

abbrev Names := BlockRef → String

def targetText (names : Names) (target : Option BlockRef) : String := target.elim "<nil>" names

namespace Operand

def text (names : Names) : Operand → String
  | .slot s => "s" ++ toString s
  | .imm v => "#" ++ toString v
  | .literal index => "m" ++ toString index
  | .block target => targetText names target

def slot? : Operand → Option Slot
  | .slot s => some s
  | _ => none

def target? : Operand → Option (Option BlockRef)
  | .block target => some target
  | _ => none

end Operand

namespace Instr

def text (names : Names) (i : Instr) : String :=
  if i.args.isEmpty then i.op.text
  else i.op.text ++ " " ++ String.intercalate ", " (i.args.map (Operand.text names))

def def? (i : Instr) : Option Slot :=
  if i.op.defines then i.args.head?.bind Operand.slot? else none

/-- The operands that the instruction reads: all but a first one that is only
written. -/
def sources (i : Instr) : List Operand :=
  if i.op.defines && !i.op.isInplace then i.args.drop 1 else i.args

/-- The slots that the instruction reads, in operand order. -/
def uses (i : Instr) : List Slot := i.sources.filterMap Operand.slot?

/-- The block that the first block operand names. -/
def target? (i : Instr) : Option BlockRef := (i.args.findSome? Operand.target?).join

/-- Control never falls past the instruction. -/
def isTerminator (i : Instr) : Bool := i.op.isTerminator

end Instr

end Isel.Flow
